import PackagePlan.Proofs.Plan.Blockers

/-! # Blockers of what is absent

Where nothing is installed and nothing but blockers is asked for, nothing is
decided, unless a dependency blocks what is installed in another slot. Such a
blocker is not met by absence in any slot, so that it gets something installed
in the slots where there is nothing, or leaves them undecided.
-/

namespace PackagePlan

open Setting Registry Constraints

def Reason.origin : Reason → Reason
  | presetFor _ inner => inner.origin
  | r => r

/-- How a blocker that is recorded came up, and whether it is met by absence. -/
inductive Constraint.BlocksAt (db : Database) (r : Resolvent) (c : Constraint) : Prop
  | dependency {link : Link Blocker} (ho : c.reason.origin = .blocker link)
      (hr : link.demand.blocked.names r = true)
      (hn : c.nothingIsFine = !db.hasInstalled link.demand.blocked)
  | other (ho : ∀ link, c.reason.origin ≠ .blocker link) (hn : c.nothingIsFine = true)

/-- The dependency that is the reason for the constraint blocks the id, which is installed in
another slot of the package. -/
structure Constraint.BlocksBeside (db : Database) (r : Resolvent) (c : Constraint)
    (id : PackageId) : Prop where
  installed : id ∈ db.installedIds .slash
  package : id.name = r.package
  slot : id.slot ≠ r.slot
  blocked : ∃ link, c.reason.origin = .blocker link ∧ link.demand.blocked.accepts id = true

/-- What can be decided where nothing is present. -/
inductive OfAbsent (cs : List Constraint) : Decision → Prop
  | nothing (taken : Bool) (h : nothingIsFine cs = true) : OfAbsent cs (.nothing taken)
  | change (c : Change) (h : nothingIsFine cs = false) : OfAbsent cs (.change c)
  | unable (rejections : List Rejection) (taken : Bool) (h : nothingIsFine cs = false) :
      OfAbsent cs (.unable rejections taken)

variable {q : Request} {db : Database} {policy : Policy} {presets : List Requirement}
  {maxRestarts : Nat} {decided : Decided} {σ : Setting} {s : DecidingState} {r : Resolvent}
  {res : Resolution} {cs : List Constraint} {c : Constraint} {d : Decision} {b : Blocker}

section Decisions

theorem nothingIsFine_append :
    nothingIsFine (cs ++ [c]) = (nothingIsFine cs && c.nothingIsFine) := by
  simp [nothingIsFine]

theorem OfAbsent.append (h : OfAbsent cs d) (hm : d.meets c = true) : OfAbsent (cs ++ [c]) d := by
  cases h with
  | nothing taken hn =>
    have hc : c.nothingIsFine = true := (Decision.meets_nothing.1 hm).1
    exact .nothing taken (by rw [nothingIsFine_append, hn, hc]; rfl)
  | change ch hn => exact .change ch (by rw [nothingIsFine_append, hn, Bool.false_and])
  | unable rejections taken hn =>
    exact .unable rejections taken (by rw [nothingIsFine_append, hn, Bool.false_and])

variable (hp : σ.present r = [])

include hp

theorem findDecision_of_absent : σ.findDecision r cs =
    if nothingIsFine cs then some (.nothing !allUntaken cs)
    else (pick cs (σ.candidates r)).1.map fun id =>
      .change { id, isBest := (pick cs (σ.candidates r)).2, taken := !allUntaken cs } := by
  simp [findDecision, hp, pick, pickFrom]

theorem ofAbsent_of_findDecision (h : σ.findDecision r cs = some d) : OfAbsent cs d := by
  rw [findDecision_of_absent hp] at h
  split at h
  · next hn =>
    cases h
    exact .nothing _ hn
  · next hn =>
    obtain ⟨id, -, rfl⟩ := Option.map_eq_some_iff.1 h
    exact .change _ (Bool.eq_false_iff.2 hn)

theorem nothingIsFine_of_findDecision_none (h : σ.findDecision r cs = none) :
    nothingIsFine cs = false := by
  rw [findDecision_of_absent hp] at h
  split at h
  · cases h
  · next hn => exact Bool.eq_false_iff.2 hn

theorem OfAbsent.reacts {d' : Option Decision} {queued : Bool}
    (h : ∀ d, res.decision = some d → OfAbsent res.constraints d)
    (hr : σ.Reacts r res c d' queued) (hd : d' = some d) : OfAbsent (res.constraints ++ [c]) d := by
  cases hr with
  | keep hm => exact (h d hd).append (hm d hd)
  | replace _ _ hf =>
    cases hd
    exact ofAbsent_of_findDecision hp hf
  | @giveUp before hb hm hf =>
    cases hd
    refine .unable _ _ ?_
    cases h before hb with
    | nothing taken => exact nothingIsFine_of_findDecision_none hp (hf taken rfl)
    | change _ hn | unable _ _ hn => rw [nothingIsFine_append, hn, Bool.false_and]

theorem Setting.Arises.ofAbsent (hdb : σ.db.Coherent) (h : σ.Arises r res) :
    ∀ d, res.decision = some d → OfAbsent res.constraints d := by
  induction h with
  | seed =>
    intro d hd
    cases hd
  | @step before _ _ hs ih =>
    intro d hd
    cases hs with
    | constrain _ hr => exact .reacts hp ih hr hd
    | decide =>
      cases hd
      rw [decisionFor]
      cases hf : σ.findDecision r before.constraints with
      | none => exact .unable _ _ (nothingIsFine_of_findDecision_none hp hf)
      | some d => exact ofAbsent_of_findDecision hp hf
    | @breakage id _ _ hr hi =>
      have hid : id ∈ σ.present r :=
        (mem_present_iff hdb).2 ((present_slash_iff (by rw [hr]; rfl)).2 ⟨hi, hr.symm⟩)
      rw [hp] at hid
      cases hid

end Decisions

section Reasons

theorem names_of_mem_resolventsBlocked (hdb : σ.db.Coherent) (h : r ∈ σ.resolventsBlocked b) :
    b.blocked.names r = true := by
  rw [resolventsBlocked] at h
  split at h
  · next slot hs =>
    obtain rfl := List.mem_singleton.1 h
    simp [Requirement.names, hs]
  · next hs =>
    obtain ⟨best, hb, rfl⟩ := List.mem_map.1 h
    have hname : best.name = b.blocked.name :=
      hdb.name_eq (Database.mem_find_package.1 (IdSelection.mem_of_mem_bestPerSlot hb)).1
    simp [Requirement.names, Resolvent.ofId, hs, hname]

theorem blocksAt_inherent (hdb : db.Coherent) :
    Inherent db policy fun r c => c.isBlocker = true → c.BlocksAt db r where
  preset _ _ hb := by cases hb
  raised h hb := by
    cases (raised_blocker h hb).2 with
    | request hr hn => exact .other (fun link ho => by rw [hr] at ho; cases ho) hn
    | dependency hr hm hn =>
      exact .dependency (by rw [hr]; rfl) (names_of_mem_resolventsBlocked hdb hm) hn
    | dependent hr hn => exact .other (fun link ho => by rw [hr] at ho; cases ho) hn
  breakage _ _ hb := by cases hb
  restart h hb := by
    cases h (isBlocker_forRestart ▸ hb) with
    | dependency ho hr hn => exact .dependency ho hr hn
    | other ho hn => exact .other ho hn

/-- Where nothing is installed in its slot, a blocker is not met by absence exactly if it blocks
what is installed in another slot. -/
theorem nothingIsFine_eq_false_iff (hdb : db.Coherent) (hs : r.destination = .slash)
    (hn : ∀ id ∈ db.installedIds .slash, Resolvent.ofId id .slash ≠ r) (h : c.BlocksAt db r) :
    c.nothingIsFine = false ↔ ∃ id, c.BlocksBeside db r id := by
  cases h with
  | @dependency link ho hr hfine =>
    rw [hfine, Bool.not_eq_false', Database.hasInstalled_iff hdb]
    constructor
    · rintro ⟨id, hid, ha⟩
      simp only [Requirement.names, Bool.and_eq_true, beq_iff_eq] at hr
      have hname : id.name = r.package := (Database.name_of_accepts ha).trans hr.1
      refine ⟨id, hid, hname, fun hslot => hn id hid ?_, link, ho, ha⟩
      obtain ⟨package, slot, destination⟩ := r
      rw [Resolvent.ofId, hname, hslot, ← hs]
    · rintro ⟨id, hid, -, -, link', ho', ha⟩
      obtain rfl := Reason.blocker.inj (ho.symm.trans ho')
      exact ⟨id, hid, ha⟩
  | other ho hfine =>
    rw [hfine]
    constructor
    · rintro ⟨⟩
    · rintro ⟨id, -, -, -, link, ho', -⟩
      exact absurd ho' (ho link)

end Reasons

theorem OfAbsent.nothing_iff {d₀ : Decision} (h : OfAbsent cs d₀) (hc : σ.Completed r d₀ d) :
    (∃ taken, d = .nothing taken) ↔ nothingIsFine cs = true := by
  cases h with
  | nothing taken hn =>
    cases hc
    exact iff_of_true ⟨taken, rfl⟩ hn
  | change ch hn =>
    cases hc
    exact iff_of_false (by rintro ⟨taken, ⟨⟩⟩) (by rw [hn]; decide)
  | unable rejections taken hn =>
    cases hc
    exact iff_of_false (by rintro ⟨taken, ⟨⟩⟩) (by rw [hn]; decide)

theorem present_eq_nil (hdb : σ.db.Coherent) (hs : r.destination = .slash)
    (hn : ∀ id ∈ σ.db.installedIds .slash, Resolvent.ofId id .slash ≠ r) : σ.present r = [] := by
  refine List.eq_nil_iff_forall_not_mem.2 fun id hid => ?_
  obtain ⟨hi, hr⟩ := (present_slash_iff hs).1 ((mem_present_iff hdb).1 hid)
  exact hn id hi hr

namespace Sample

/-- `app` blocks a range of versions of `lib`, which is installed in one of its two slots. -/
def slottedLibrary (blocked : VersionRange) : Database :=
  (((Database.empty.insert (id "app" .source)
    (.blocker ⟨{ Requirement.named "lib" with version := blocked }, false⟩)).insert
      (id "lib" (.installed .slash)) .nothing).insert
        { id "lib" .source with version := version 2 } .nothing).insert
          { id "lib" .source with version := version 2, slot := some "1" } .nothing

theorem slottedLibrary_built (blocked : VersionRange) : (slottedLibrary blocked).Built :=
  .insert (.insert (.insert (.insert .empty _ _) _ _) _ _) _ _

def emptySlot : Resolvent := ⟨"lib", some "1", .slash⟩

theorem emptySlot_empty (blocked : VersionRange) :
    ∀ id ∈ (slottedLibrary blocked).installedIds .slash, Resolvent.ofId id .slash ≠ emptySlot := by
  have hin : (slottedLibrary blocked).installedIds .slash = [id "lib" (.installed .slash)] := rfl
  rw [hin]
  exact List.forall_mem_singleton.2 (by decide)

def decidesEmptySlot (p : Decision → Bool) (decided : Decided) : Bool :=
  (decided.registry.get? emptySlot).any fun res =>
    res.constraints.all (·.isBlocker) && res.decision.any p

/-- Nothing but blockers is asked of the empty slot, and what is decided for it satisfies `p`. -/
def EmptySlotGets (blocked : VersionRange) (p : Decision → Bool) : Prop :=
  ∃ decided res d, request.decide (slottedLibrary blocked) preferences.policy {} 10 = .ok decided ∧
    decided.registry.get? emptySlot = some res ∧ (∀ c ∈ res.constraints, c.isBlocker = true) ∧
      res.decision = some d ∧ p d = true

theorem emptySlotGets {blocked : VersionRange} {p : Decision → Bool}
    (h : (request.decide (slottedLibrary blocked) preferences.policy {} 10).toOption.any
      (decidesEmptySlot p) = true) : EmptySlotGets blocked p := by
  obtain ⟨decided, hd, h⟩ := exists_eq_ok h
  obtain ⟨res, hr, h⟩ := (Option.any_eq_true _ _).1 h
  obtain ⟨hb, hk⟩ := Bool.and_eq_true_iff.1 h
  obtain ⟨d, hres, hk⟩ := (Option.any_eq_true _ _).1 hk
  exact ⟨decided, res, d, hd, hr, List.all_eq_true.1 hb, hres, hk⟩

theorem emptySlotGets_change : EmptySlotGets (.olderThan (version 2)) Decision.isChange :=
  emptySlotGets (by decide +kernel)

theorem emptySlotGets_unable : EmptySlotGets .any Decision.isUnable := emptySlotGets (by decide +kernel)

end Sample

/-- Where nothing is installed and nothing but blockers is asked for, nothing is decided exactly if
no dependency blocks what is installed in another slot. If one does, something is installed that no
blocker rejects, or nothing could be decided. -/
theorem nothing_decided_iff (hdb : db.Built)
    (h : q.decide db policy { presets } maxRestarts = .ok decided)
    (hr : decided.registry.get? r = some res) (hs : r.destination = .slash)
    (hb : ∀ c ∈ res.constraints, c.isBlocker = true)
    (hn : ∀ id ∈ db.installedIds .slash, Resolvent.ofId id .slash ≠ r) :
    ((∃ taken, res.decision = some (.nothing taken)) ↔
        ∀ c ∈ res.constraints, ∀ id, ¬ c.BlocksBeside db r id) ∧
      ((∃ c ∈ res.constraints, ∃ id, c.BlocksBeside db r id) →
        (∃ ch, res.decision = some (.change ch) ∧ ch.taken = true ∧ Accept res.constraints ch.id) ∨
          ∃ rejections, res.decision = some (.unable rejections true)) := by
  obtain ⟨seeds', s, hseeds, o⟩ := decide_outcome h
  obtain ⟨d₀, d, hd, hc, ha⟩ := o.arises hr
  have hp : Setting.present ⟨db, policy, seeds'⟩ r = [] := present_eq_nil hdb.coherent hs hn
  have hof : OfAbsent res.constraints d₀ := ha.ofAbsent hp hdb.coherent d₀ rfl
  have hfine : ∀ c ∈ res.constraints, (c.nothingIsFine = false ↔ ∃ id, c.BlocksBeside db r id) :=
    fun c hm => nothingIsFine_eq_false_iff hdb.coherent hs hn
      ((blocksAt_inherent hdb.coherent).of_arises hseeds ha c hm (hb c hm))
  have hall : nothingIsFine res.constraints = true ↔
      ∀ c ∈ res.constraints, ∀ id, ¬ c.BlocksBeside db r id := by
    rw [nothingIsFine_iff]
    refine forall₂_congr fun c hm => ?_
    rw [← not_exists, ← hfine c hm, Bool.not_eq_false]
  constructor
  · rw [← hall, hd]
    simpa only [Option.some.injEq] using hof.nothing_iff hc
  · rintro ⟨c, hm, hbeside⟩
    have htaken : d₀.taken = true := by
      have hu : c.untaken = false := o.binding hseeds hr hm (hb c hm)
      rw [(ha.suits rfl).2, allUntaken_eq_false hm hu]
      rfl
    cases hof with
    | nothing taken hn =>
      have hf : c.nothingIsFine = false := (hfine c hm).2 hbeside
      rw [nothingIsFine_iff.1 hn c hm] at hf
      cases hf
    | change ch hn =>
      have hs := (ha.suits rfl).1
      cases hc
      exact .inl ⟨_, hd, htaken, hs.2.2.1⟩
    | unable rejections taken hn =>
      cases hc
      obtain rfl : taken = true := htaken
      exact .inr ⟨rejections, hd⟩

/-- Because an older `lib` is blocked a newer one is installed in the slot where there was none. -/
theorem nothing_decided_iff_slots : ∃ decided res ch,
    Sample.request.decide (Sample.slottedLibrary (.olderThan (Sample.version 2)))
        Sample.preferences.policy {} 10 = .ok decided ∧
      decided.registry.get? Sample.emptySlot = some res ∧
        (∀ c ∈ res.constraints, c.isBlocker = true) ∧
          (∃ c ∈ res.constraints, ∃ id,
            c.BlocksBeside (Sample.slottedLibrary (.olderThan (Sample.version 2)))
              Sample.emptySlot id) ∧
            res.decision = some (.change ch) ∧ ch.taken = true ∧
              Accept res.constraints ch.id := by
  obtain ⟨decided, res, d, hd, hr, hb, hres, hk⟩ := Sample.emptySlotGets_change
  obtain ⟨hiff, hgets⟩ := nothing_decided_iff (Sample.slottedLibrary_built _) hd hr rfl hb
    (Sample.emptySlot_empty _)
  have hbeside : ∃ c ∈ res.constraints, ∃ id,
      c.BlocksBeside (Sample.slottedLibrary (.olderThan (Sample.version 2)))
        Sample.emptySlot id := by
    by_contra hno
    obtain ⟨taken, hn⟩ := hiff.2 fun c hm id hc => hno ⟨c, hm, id, hc⟩
    obtain rfl := Option.some.inj (hres.symm.trans hn)
    cases hk
  rcases hgets hbeside with ⟨ch, hch, ht, ha⟩ | ⟨rejections, hu⟩
  · exact ⟨decided, res, ch, hd, hr, hb, hbeside, hch, ht, ha⟩
  · obtain rfl := Option.some.inj (hres.symm.trans hu)
    cases hk

/-- Blockers alone can get something installed, and can leave a package undecided. -/
theorem absence_not_enough :
    (¬ ∀ (q : Request) (db : Database) (policy : Policy) (presets : List Requirement)
      (maxRestarts : Nat) (decided : Decided) (r : Resolvent) (res : Resolution), db.Built →
        q.decide db policy { presets } maxRestarts = .ok decided →
          decided.registry.get? r = some res → r.destination = .slash →
            (∀ c ∈ res.constraints, c.isBlocker = true) →
              (∀ id ∈ db.installedIds .slash, Resolvent.ofId id .slash ≠ r) →
                ∀ d, res.decision = some d → d.isChange = false) ∧
    ¬ ∀ (q : Request) (db : Database) (policy : Policy) (presets : List Requirement)
      (maxRestarts : Nat) (decided : Decided) (r : Resolvent) (res : Resolution), db.Built →
        q.decide db policy { presets } maxRestarts = .ok decided →
          decided.registry.get? r = some res → r.destination = .slash →
            (∀ c ∈ res.constraints, c.isBlocker = true) →
              (∀ id ∈ db.installedIds .slash, Resolvent.ofId id .slash ≠ r) →
                ∀ d, res.decision = some d → d.isUnable = false := by
  constructor
  · intro h
    obtain ⟨decided, res, d, hd, hr, hb, hres, hk⟩ := Sample.emptySlotGets_change
    have hc := h _ _ _ _ _ _ _ _ (Sample.slottedLibrary_built _) hd hr rfl hb
      (Sample.emptySlot_empty _) d hres
    rw [hk] at hc
    cases hc
  · intro h
    obtain ⟨decided, res, d, hd, hr, hb, hres, hk⟩ := Sample.emptySlotGets_unable
    have hc := h _ _ _ _ _ _ _ _ (Sample.slottedLibrary_built _) hd hr rfl hb
      (Sample.emptySlot_empty _) d hres
    rw [hk] at hc
    cases hc

end PackagePlan
