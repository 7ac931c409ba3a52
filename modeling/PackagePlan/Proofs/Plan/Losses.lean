import PackagePlan.Proofs.Plan.Dependents

/-! # What broken packages have lost

When a package is broken all that met one of its dependencies has been removed,
and nothing comes in that meets it. What has been removed is let go for good,
also if it turns out later that the removal is impossible. What comes in stays
the same unless removals are followed by further removals.
-/

namespace PackagePlan

open Setting Registry

/-- The decision removes the id, or has taken the place of one that did. -/
inductive Decision.LetsGo (y : PackageId) : Decision → Prop
  | remove {rem : Removal} (ht : rem.taken = true) (hy : y ∈ rem.ids) : LetsGo y (.remove rem)
  | unable (rejections : List Rejection) (taken : Bool) : LetsGo y (.unable rejections taken)
  | broken (b : Breakage) : LetsGo y (.broken b)

namespace Registry

variable (db : Database) (reg : Registry)

/-- The id is removed, or would have been if that had turned out to be possible. -/
def LetsGo (y : PackageId) : Prop :=
  ∃ r d, Present db r y ∧ reg.decision? r = some d ∧ d.LetsGo y

/-- All that met the requirement has been let go. -/
structure Loses (req : Requirement) : Prop where
  removed : ∃ y, req.accepts y = true ∧ reg.LetsGo db y
  installed : ∀ y ∈ db.installedIds .slash, req.accepts y = true → reg.LetsGo db y

/-- All that met the requirement is removed, and nothing that comes in meets it. -/
structure Lacks (req : Requirement) : Prop where
  removed : ∃ y, req.accepts y = true ∧ reg.Removes y
  installed : ∀ y ∈ db.installedIds .slash, req.accepts y = true → reg.Removes y
  arriving : ∀ z, reg.Installs z → req.accepts z = false

/-- An installed id that depends on something removed has been asked to go as well. -/
def Cascades (policy : Policy) : Prop :=
  ∃ id ∈ db.installedIds .slash, policy.removesDependent id = true ∧ ∃ removing holder,
    reg.Records (.ofId id .slash) (removeConstraint id (.dependent removing holder))

end Registry

/-- One of the dependencies of the installed id, as they are at some time in an attempt, is no
suggestion and satisfies `P`. -/
def Depends (db : Database) (policy : Policy) (id : PackageId)
    (P : Requirement → List Label → Prop) : Prop :=
  ∃ seeds reg req ls,
    ⟨.package req, ls⟩ ∈ dependenciesOf ⟨db, policy, seeds⟩ reg (.ofId id .slash) id ∧
      ls.any Label.isSuggestion = false ∧ P req ls

structure Setting.Bereft (σ : Setting) (reg : Registry) (r : Resolvent) (b : Breakage) : Prop where
  resolvent : r = .ofId b.id .slash
  installed : b.id ∈ σ.db.installedIds .slash
  loses : Depends σ.db σ.policy b.id fun req _ => reg.Loses σ.db req

variable {q : Request} {db : Database} {policy : Policy} {σ : Setting} {s s' : DecidingState}
  {reg reg' : Registry} {r : Resolvent} {res res' : Resolution} {d : Decision} {x y : PackageId}
  {req : Requirement} {b : Breakage} {dep : Dependency}

theorem Depends.imp {P Q : Requirement → List Label → Prop} (h : Depends db policy x P)
    (hPQ : ∀ req ls, ls.any Label.isSuggestion = false → P req ls → Q req ls) :
    Depends db policy x Q := by
  obtain ⟨seeds, reg, req, ls, hdep, hs, hP⟩ := h
  exact ⟨seeds, reg, req, ls, hdep, hs, hPQ req ls hs hP⟩

section Steps

theorem Setting.Evolves.letsGo (h : σ.Evolves r res res') (hd : res.decision = some d)
    (hy : d.LetsGo y) : ∃ d', res'.decision = some d' ∧ d'.LetsGo y := by
  cases h with
  | constrain _ hr =>
    cases hr with
    | keep => exact ⟨d, hd, hy⟩
    | replace hn =>
      obtain rfl := Option.some.inj (hd.symm.trans hn)
      cases hy
    | giveUp => exact ⟨_, rfl, .unable _ _⟩
  | decide hn =>
    rw [hn] at hd
    cases hd
  | breakage => exact ⟨_, rfl, .broken _⟩

theorem letsGo_stable : σ.Stable (·.LetsGo db y) := by
  rintro reg reg' r res ⟨r', d, hp, hd, hy⟩ hw he
  by_cases hr : r' = r
  · subst hr
    obtain ⟨d', hd', hy'⟩ := he.letsGo (decision_resolutionAt.trans hd) hy
    exact ⟨r', d', hp, by rw [hw.decision?, if_pos rfl, hd'], hy'⟩
  · exact ⟨r', d, hp, by rw [hw.decision?, if_neg hr, hd], hy⟩

theorem loses_stable : σ.Stable (·.Loses db req) := by
  intro reg reg' r res h hw he
  have go : ∀ y, reg.LetsGo db y → reg'.LetsGo db y := fun y hy =>
    letsGo_stable reg reg' r res hy hw he
  obtain ⟨y, ha, hy⟩ := h.removed
  exact ⟨⟨y, ha, go y hy⟩, fun z hz haz => go z (h.installed z hz haz)⟩

theorem bereft_stable : σ.Stable (σ.Bereft · r b) := by
  intro reg reg' r' res h hw he
  refine ⟨h.resolvent, h.installed, h.loses.imp fun req _ _ hl => ?_⟩
  exact loses_stable reg reg' r' res hl hw he

theorem cascades_stable : σ.Stable (·.Cascades db policy) := by
  rintro reg reg' r res ⟨id, hid, hp, removing, holder, hrec⟩ hw he
  have hkeep : ∀ c ∈ (σ.resolutionAt reg r).constraints, c ∈ res.constraints := by
    intro c hc
    cases he with
    | decide => exact hc
    | constrain | breakage => exact List.mem_append_left _ hc
  exact ⟨id, hid, hp, removing, holder, hw.records hkeep hrec⟩

/-- What is true of broken packages when they are broken, and kept by every step, is kept by the
steps that break nothing. -/
theorem calm_of_broken {P : Registry → Resolvent → Breakage → Prop}
    (hP : ∀ r b, σ.Stable (P · r b)) :
    σ.Calm fun reg => ∀ r b, reg.decision? r = some (.broken b) → P reg r b := by
  intro reg reg' r res h hw he hcalm r' b hd
  rw [hw.decision?] at hd
  split at hd
  · next hr =>
    rw [hr]
    exact hP r b _ _ _ _ (h r b (hcalm b hd)) hw he
  · exact hP r' b _ _ _ _ (h r' b hd) hw he

end Steps

section Losses

/-- A dependency that is lost is on a package that was removed, and nothing that stays or arrives
meets it. -/
theorem lostDependency?_eq_some {removed : List (Resolvent × PackageId)}
    {installed arriving : List PackageId} {loss : Resolvent × PackageId}
    (h : lostDependency? removed installed arriving dep = some loss) :
    ∃ req ls, dep = ⟨.package req, ls⟩ ∧ ls.any Label.isSuggestion = false ∧
      (∃ p ∈ removed, req.accepts p.2 = true) ∧
        (∀ z ∈ installed, req.accepts z = true → staysInstalled removed z = false) ∧
          ∀ z ∈ arriving, req.accepts z = false := by
  obtain ⟨demand, ls⟩ := dep
  cases demand with
  | blocker b => cases h
  | package req =>
    simp only [lostDependency?] at h
    split at h
    · cases h
    · next hsuggestion =>
      split at h
      · cases h
      · next p hp =>
        have hap := List.find?_some hp
        split at h
        · cases h
        · next hmet =>
          simp only [Bool.or_eq_true, List.any_eq_true, List.mem_filter, not_or, not_exists,
            not_and, and_imp] at hmet
          exact ⟨req, ls, rfl, Bool.eq_false_iff.2 hsuggestion,
            ⟨p, List.mem_of_find?_eq_some hp, hap⟩,
            fun z hz ha => Bool.eq_false_iff.2 fun hstays => hmet.1 z hz hstays ha,
            fun z hz => Bool.eq_false_iff.2 (hmet.2 z hz)⟩

variable (hdb : σ.db.Coherent) (hs : σ.Sound s.registry)

include hdb hs

theorem exists_present_of_removes (hy : s.registry.Removes y) :
    ∃ r rem, Present σ.db r y ∧ s.registry.decision? r = some (.remove rem) ∧ rem.taken = true ∧
      y ∈ rem.ids := by
  obtain ⟨r, rem, hd, ht, hm⟩ := hy
  obtain ⟨res, hr, hres⟩ := decision?_eq_some_iff.1 hd
  obtain ⟨hids, -⟩ := ((hs r res hr).suits hres).1
  exact ⟨r, rem, (mem_present_iff hdb).1 (hids ▸ hm), hd, ht, hm⟩

theorem letsGo_of_removes (hy : s.registry.Removes y) : s.registry.LetsGo σ.db y := by
  obtain ⟨r, rem, hp, hd, ht, hm⟩ := exists_present_of_removes hdb hs hy
  exact ⟨r, _, hp, hd, .remove ht hm⟩

theorem removes_of_not_staysInstalled (hy : y ∈ σ.db.allIds)
    (h : staysInstalled (removedIds s.registry) y = false) : s.registry.Removes y := by
  rw [staysInstalled, Bool.not_eq_false', List.any_eq_true] at h
  obtain ⟨⟨r, z⟩, hm, he⟩ := h
  have hz : s.registry.Removes z := removes_iff.2 ⟨r, hm⟩
  obtain ⟨_, _, hp, -⟩ := exists_present_of_removes hdb hs hz
  obtain rfl := Database.eq_of_mem_allIds hp.known hy he
  exact hz

theorem lacks_of_lostDependency {loss : Resolvent × PackageId}
    (h : lostDependency? (removedIds s.registry)
      (IdSelection.sortIds (σ.db.installedIds .slash)) (arrivingIds s.registry) dep = some loss) :
    ∃ req ls, dep = ⟨.package req, ls⟩ ∧ ls.any Label.isSuggestion = false ∧
      s.registry.Lacks σ.db req := by
  obtain ⟨req, ls, rfl, hsuggestion, ⟨p, hp, ha⟩, hstays, harriving⟩ := lostDependency?_eq_some h
  refine ⟨req, ls, rfl, hsuggestion, ?_⟩
  constructor
  · exact ⟨p.2, ha, removes_iff.2 ⟨p.1, hp⟩⟩
  · intro z hz haz
    have hz' : z ∈ IdSelection.sortIds (σ.db.installedIds .slash) :=
      (IdSelection.mem_sortIds_iff Database.distinct_installedIds).2 hz
    exact removes_of_not_staysInstalled hdb hs (Database.mem_installedIds_iff.1 hz).1
      (hstays z hz' haz)
  · exact fun z hz => harriving z (mem_arrivingIds_iff.2 hz)

end Losses

section Rounds

def Setting.BrokenBereft (σ : Setting) (reg : Registry) : Prop :=
  ∀ r b, reg.decision? r = some (.broken b) → σ.Bereft reg r b

variable {id : PackageId} {followed : Bool}

theorem brokenBereft_calm : σ.Calm σ.BrokenBereft := calm_of_broken fun _ _ => bereft_stable

def LetsGoAll (db : Database) (reg reg' : Registry) : Prop :=
  ∀ y, reg.Removes y → reg'.LetsGo db y

theorem letsGoAll_stable : σ.Stable (LetsGoAll db reg) :=
  fun _ _ _ _ h hw he y hy => letsGo_stable _ _ _ _ (h y hy) hw he

theorem Registry.Lacks.loses (h : reg.Lacks db req) (hgo : LetsGoAll db reg reg') :
    reg'.Loses db req := by
  obtain ⟨y, ha, hy⟩ := h.removed
  exact ⟨⟨y, ha, hgo y hy⟩, fun z hz haz => hgo z (h.installed z hz haz)⟩

theorem brokenBereft_followed (hdb : σ.db.Coherent) (hsound : σ.Sound s.registry)
    {s₁ s₂ : DecidingState} (hid : id ∈ σ.db.installedIds .slash)
    (h : σ.BrokenBereft s₁.registry ∧ LetsGoAll σ.db s.registry s₁.registry)
    (hf : σ.Followed (removedIds s.registry) (IdSelection.sortIds (σ.db.installedIds .slash))
      (arrivingIds s.registry) s₁ id s₂ followed) :
    σ.BrokenBereft s₂.registry ∧ LetsGoAll σ.db s.registry s₂.registry := by
  cases hf with
  | spared => exact h
  | @removal holder removing _ hp happly =>
    have hc : σ.Raised (.ofId id .slash) (removeConstraint id (.dependent removing holder)) :=
      .dependent id removing holder
    exact ⟨(brokenBereft_calm.applyConstraint h.1 hc).of_ok happly,
      (letsGoAll_stable.calm.applyConstraint h.2 hc).of_ok happly⟩
  | @breakage dep holder removing hsettled hd hl =>
    have hgo : LetsGoAll σ.db s.registry
        (σ.breakId s₁ (.ofId id .slash) id (.dependent removing holder)).registry :=
      letsGoAll_stable _ _ _ _ h.2 writes_breakId (.breakage rfl hid)
    refine ⟨fun r b hb => ?_, hgo⟩
    rw [writes_breakId.decision?] at hb
    split at hb
    · next hr =>
      cases hb
      obtain ⟨req, ls, rfl, hsuggestion, hlacks⟩ := lacks_of_lostDependency hdb hsound hl
      exact ⟨hr, hid, _, _, req, ls, hd, hsuggestion, hlacks.loses hgo⟩
    · exact bereft_stable _ _ _ _ (h.1 r b hb) writes_breakId (.breakage rfl hid)

theorem attempt_brokenBereft (hdb : σ.db.Coherent) (h : q.attempt σ = .ok s) :
    σ.BrokenBereft s.registry := by
  have hcalm : σ.Calm fun reg => σ.Sound reg ∧ σ.BrokenBereft reg :=
    fun _ _ _ _ hI hw he hb =>
      ⟨sound_stable _ _ _ _ hI.1 hw he, brokenBereft_calm _ _ _ _ hI.2 hw he hb⟩
  obtain ⟨s₀, h₀, h⟩ := hcalm.exists_resolve
    ⟨fun _ _ h => (by cases h), fun _ _ h => (by cases h)⟩ h
  refine (resolveFrom_induction (I := fun s => σ.Sound s.registry ∧ σ.BrokenBereft s.registry)
    (J := fun s => σ.Sound s.registry ∧ σ.BrokenBereft s.registry)
    (fun hI h => (hcalm.settles.settleFrom hI).of_ok h) (fun {s s' b} hJ h => ?_) h₀ h).2
  refine ⟨(sound_stable.keeps.followRemovals hJ.1).of_ok h, ?_⟩
  refine (followRemovals_induction (fun hid hI hf => brokenBereft_followed hdb hJ.1 hid hI hf)
    ⟨hJ.2, fun y hy => letsGo_of_removes hdb hJ.1 hy⟩ h).1

end Rounds

section Cascades

def SameChanges (reg reg' : Registry) : Prop :=
  ∀ r d, d.isChange = true → (reg'.decision? r = some d ↔ reg.decision? r = some d)

def Setting.BrokenLack (σ : Setting) (reg reg' : Registry) : Prop :=
  ∀ r b, reg'.decision? r = some (.broken b) →
    Depends σ.db σ.policy b.id fun req _ => reg.Lacks σ.db req

variable {id : PackageId} {reason : Reason} {s₁ s₂ : DecidingState} {followed : Bool}

theorem SameChanges.removes_iff (h : SameChanges reg reg') : reg'.Removes y ↔ reg.Removes y := by
  refine exists_congr fun r => exists_congr fun rem => ?_
  rw [h r (.remove rem) rfl]

theorem SameChanges.installs_iff (h : SameChanges reg reg') :
    reg'.Installs y ↔ reg.Installs y := by
  refine exists_congr fun r => exists_congr fun c => ?_
  rw [h r (.change c) rfl]

theorem Registry.Lacks.congr (h : reg.Lacks db req) (hsame : SameChanges reg reg') :
    reg'.Lacks db req := by
  obtain ⟨y, ha, hy⟩ := h.removed
  constructor
  · exact ⟨y, ha, hsame.removes_iff.2 hy⟩
  · exact fun z hz haz => hsame.removes_iff.2 (h.installed z hz haz)
  · exact fun z hz => h.arriving z (hsame.installs_iff.1 hz)

theorem sameChanges_breakId (hs : isSettledAt s.registry r = false) :
    SameChanges s.registry (σ.breakId s r id reason).registry := by
  intro r' d hd
  rw [writes_breakId.decision?]
  split
  · next hr =>
    subst hr
    constructor
    · intro h
      cases h
      cases hd
    · intro h
      rw [isSettledAt, h] at hs
      cases d with
      | change | remove => cases hs
      | nothing | existing | unable | broken => cases hd
  · exact Iff.rfl

theorem settled_breakId (hs : Settled s) : Settled (σ.breakId s r id reason) where
  pending := hs.pending
  decided {r' res} hr := by
    rw [writes_breakId r'] at hr
    split at hr
    · cases hr
      exact ⟨_, rfl⟩
    · exact hs.decided hr

/-- Where nothing that depends on what is removed has to go as well, following the removals changes
no change. -/
def Setting.Following (σ : Setting) (s s₁ : DecidingState) : Prop :=
  s₁.registry.Cascades σ.db σ.policy ∨
    Settled s₁ ∧ SameChanges s.registry s₁.registry ∧ σ.BrokenLack s.registry s₁.registry

theorem following_followed (hdb : σ.db.Coherent) (hsound : σ.Sound s.registry)
    (hid : id ∈ σ.db.installedIds .slash) (h : σ.Following s s₁)
    (hf : σ.Followed (removedIds s.registry) (IdSelection.sortIds (σ.db.installedIds .slash))
      (arrivingIds s.registry) s₁ id s₂ followed) : σ.Following s s₂ := by
  cases hf with
  | spared => exact h
  | removal hp happly => exact .inl ⟨id, hid, hp, _, _, (applyConstraint_extends happly).2⟩
  | @breakage dep holder removing hsettled hd hl =>
    rcases h with hc | ⟨hset, hsame, hlack⟩
    · exact .inl (cascades_stable (σ := σ) _ _ _ _ hc writes_breakId (.breakage rfl hid))
    · refine .inr ⟨settled_breakId hset, fun r d hch => ?_, fun r b hb => ?_⟩
      · rw [sameChanges_breakId hsettled r d hch, hsame r d hch]
      · rw [writes_breakId.decision?] at hb
        split at hb
        · cases hb
          obtain ⟨req, ls, rfl, hsuggestion, hlacks⟩ := lacks_of_lostDependency hdb hsound hl
          exact ⟨_, _, req, ls, hd, hsuggestion, hlacks⟩
        · exact hlack r b hb

def Registry.Whole (reg : Registry) : Prop := ∀ r b, reg.decision? r ≠ some (.broken b)

theorem whole_calm : σ.Calm Registry.Whole :=
  calm_of_broken (P := fun _ _ _ => False) fun _ _ _ _ _ _ h _ _ => h

def Setting.Exact (σ : Setting) (s : DecidingState) : Prop :=
  Settled s ∧ σ.BrokenLack s.registry s.registry

theorem exact_settled {fuel : Nat}
    (h : s.registry.Cascades σ.db σ.policy ∨ s.registry.Whole ∨ σ.Exact s)
    (hs : σ.settle fuel s = .ok s') :
    s'.registry.Cascades σ.db σ.policy ∨ σ.Exact s' := by
  rcases h with hc | hwhole | ⟨hset, hlack⟩
  · exact .inl ((cascades_stable.calm.settles.settleFrom hc).of_ok hs)
  · have hwhole' : s'.registry.Whole := (whole_calm.settles.settleFrom hwhole).of_ok hs
    exact .inr ⟨settleFrom_settled hs, fun r b hb => absurd hb (hwhole' r b)⟩
  · obtain rfl := settleFrom_of_settled hset hs
    exact .inr ⟨hset, hlack⟩

/-- Unless removals are followed by removals, what is broken lacks a dependency to the end. -/
theorem attempt_brokenLack (hdb : σ.db.Coherent) (h : q.attempt σ = .ok s) :
    s.registry.Cascades σ.db σ.policy ∨ σ.BrokenLack s.registry s.registry := by
  have hcalm : σ.Calm fun reg => σ.Sound reg ∧ reg.Whole :=
    fun _ _ _ _ hI hw he hb =>
      ⟨sound_stable _ _ _ _ hI.1 hw he, whole_calm _ _ _ _ hI.2 hw he hb⟩
  obtain ⟨s₀, ⟨hsound₀, hwhole⟩, h⟩ := hcalm.exists_resolve
    ⟨fun _ _ h => (by cases h), fun _ _ h => (by cases h)⟩ h
  refine (resolveFrom_induction
    (I := fun s => σ.Sound s.registry ∧
      (s.registry.Cascades σ.db σ.policy ∨ s.registry.Whole ∨ σ.Exact s))
    (J := fun s => σ.Sound s.registry ∧ (s.registry.Cascades σ.db σ.policy ∨ σ.Exact s))
    (fun hI h => ⟨(sound_stable.keeps.settleFrom hI.1).of_ok h, exact_settled hI.2 h⟩)
    (fun {s s' b} hJ h => ?_) ⟨hsound₀, .inr (.inl hwhole)⟩ h).2.imp_right (·.2)
  refine ⟨(sound_stable.keeps.followRemovals hJ.1).of_ok h, ?_⟩
  have hfollowing : σ.Following s s' :=
    followRemovals_induction (fun hid hI hf => following_followed hdb hJ.1 hid hI hf)
      (hJ.2.imp_right fun hx => ⟨hx.1, fun _ _ _ => Iff.rfl, hx.2⟩) h
  refine hfollowing.imp_right fun ⟨hset, hsame, hlack⟩ => .inr ⟨hset, fun r b hb => ?_⟩
  exact (hlack r b hb).imp fun req _ _ hl => hl.congr hsame

end Cascades

end PackagePlan
