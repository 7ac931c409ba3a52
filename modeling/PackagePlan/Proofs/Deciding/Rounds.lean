import PackagePlan.Plan.Request
import PackagePlan.Proofs.Deciding.Evolution

/-! # What the rounds keep

The rounds add pending dependencies, decide what is due and follow removals.
What these three keep an attempt keeps, and when it comes to its end nothing
is pending, everything is decided and no removal is left to follow.
-/

namespace PackagePlan.Setting

variable {σ : Setting} {I : DecidingState → Prop} {E : Stop → Prop} {s s' : DecidingState}

/-- What the work of settling preserves, and how it may fail. -/
structure Settles (σ : Setting) (I : DecidingState → Prop) (E : Stop → Prop) : Prop where
  pending : ∀ {s r}, I s →
    Ensures (σ.addDependencies { s with pending := s.pending.erase r } r) I E
  decide : ∀ {pass s r}, I s → isDue pass s r = true → Ensures (σ.decideOne s r) I E
  endless : E .endless

/-- What all work in an attempt preserves, and how it may fail. -/
structure Keeps (σ : Setting) (I : DecidingState → Prop) (E : Stop → Prop) : Prop
    extends Settles σ I E where
  removal : ∀ {removed arriving id s}, I s → id ∈ σ.db.installedIds .slash →
    Ensures (σ.followRemoval removed (IdSelection.sortIds (σ.db.installedIds .slash)) arriving
      s id) (I ·.1) E

theorem addPending_nil {fuel : Nat} {b : Bool} (h : σ.addPending fuel s = .ok (s', b)) :
    s'.pending.toList = [] := by
  induction fuel generalizing s s' b with
  | zero =>
    rw [addPending] at h
    split at h
    · next he =>
      cases h
      exact OrderedSet.isEmpty_iff.1 he
    · cases h
  | succ fuel ih =>
    rw [addPending] at h
    split at h
    · next he => cases h; exact he
    · obtain ⟨s₁, h₁, h⟩ := bind_eq_ok_iff.1 h
      obtain ⟨⟨s₂, b₂⟩, h₂, h⟩ := bind_eq_ok_iff.1 h
      cases h
      exact ih h₂

theorem addPending_unchanged {fuel : Nat} (h : σ.addPending fuel s = .ok (s', false)) : s' = s := by
  cases fuel with
  | zero =>
    rw [addPending] at h
    split at h <;> cases h
    rfl
  | succ fuel =>
    rw [addPending] at h
    split at h
    · cases h; rfl
    · obtain ⟨s₁, h₁, h⟩ := bind_eq_ok_iff.1 h
      obtain ⟨⟨s₂, b₂⟩, h₂, h⟩ := bind_eq_ok_iff.1 h
      cases h

theorem undecided_of_isDue {pass : Pass} {r : Resolvent} (h : isDue pass s r = true) :
    ∃ res, s.registry.get? r = some res ∧ res.decision = none := by
  rw [isDue] at h
  split at h
  · cases h
  · next res hr =>
    refine ⟨res, hr, ?_⟩
    cases hres : res.decision with
    | none => rfl
    | some d => simp [Resolution.isDecided, hres] at h

theorem decideDue_unchanged {pass : Pass} {rs : List Resolvent}
    (h : σ.decideDue pass s rs = .ok (s', false)) : s' = s ∧ ∀ r ∈ rs, isDue pass s r = false := by
  refine (foldlM_unchanged (Q := fun s r => isDue pass s r = false)
    (fun s₁ changed r s₂ h => ?_) h).2
  dsimp only at h
  split at h
  · obtain ⟨s₃, -, h⟩ := map_eq_ok_iff.1 h
    cases h
  · next hn => cases h; exact ⟨rfl, rfl, Bool.eq_false_iff.2 hn⟩

/-- Nothing is to be done about what an installed id depends on: it is removed itself, what is
decided for it stands, or it has lost no dependency. -/
def Spared (σ : Setting) (removed : List (Resolvent × PackageId))
    (installed arriving : List PackageId) (s : DecidingState) (id : PackageId) : Prop :=
  staysInstalled removed id = false ∨ isSettledAt s.registry (.ofId id .slash) = true ∨
    ∀ dep ∈ σ.dependenciesOf s.registry (.ofId id .slash) id,
      lostDependency? removed installed arriving dep = none

section Removals

variable {removed : List (Resolvent × PackageId)} {installed arriving : List PackageId}

/-- What following the removals does about an installed id, and whether it does anything. -/
inductive Followed (σ : Setting) (removed : List (Resolvent × PackageId))
    (installed arriving : List PackageId) (s : DecidingState) (id : PackageId) :
    DecidingState → Bool → Prop
  | spared (h : σ.Spared removed installed arriving s id) :
      Followed σ removed installed arriving s id s false
  | removal {holder : Resolvent} {removing : PackageId} {s' : DecidingState}
      (hp : σ.policy.removesDependent id = true)
      (h : σ.applyConstraint s (.ofId id .slash)
        (removeConstraint id (.dependent removing holder)) = .ok s') :
      Followed σ removed installed arriving s id s' true
  | breakage {dep : Dependency} {holder : Resolvent} {removing : PackageId}
      (hs : isSettledAt s.registry (.ofId id .slash) = false)
      (hd : dep ∈ σ.dependenciesOf s.registry (.ofId id .slash) id)
      (hl : lostDependency? removed installed arriving dep = some (holder, removing)) :
      Followed σ removed installed arriving s id
        (σ.breakId s (.ofId id .slash) id (.dependent removing holder)) true

theorem followRemoval_followed {id : PackageId} {b : Bool}
    (h : σ.followRemoval removed installed arriving s id = .ok (s', b)) :
    σ.Followed removed installed arriving s id s' b := by
  simp only [followRemoval] at h
  split at h
  · next hn =>
    cases h
    simp only [Bool.or_eq_true, Bool.not_eq_true'] at hn
    exact .spared (hn.imp_right .inl)
  · next hn =>
    split at h
    · next hl =>
      cases h
      exact .spared (.inr (.inr (List.findSome?_eq_none_iff.1 hl)))
    · next holder removing hl =>
      obtain ⟨dep, hd, hl⟩ := List.exists_of_findSome?_eq_some hl
      split at h
      · next hp =>
        obtain ⟨s₁, h₁, he⟩ := map_eq_ok_iff.1 h
        cases he
        exact .removal hp h₁
      · cases h
        refine .breakage (Bool.eq_false_iff.2 fun hs => hn ?_) hd hl
        rw [hs, Bool.or_true]

theorem followRemoval_unchanged {id : PackageId}
    (h : σ.followRemoval removed installed arriving s id = .ok (s', false)) :
    s' = s ∧ σ.Spared removed installed arriving s id := by
  cases followRemoval_followed h with
  | spared hspared => exact ⟨rfl, hspared⟩

theorem lostDependency?_nil {dep : Dependency} :
    lostDependency? [] installed arriving dep = none := by
  rw [lostDependency?]
  split
  · rfl
  · split <;> rfl

end Removals

theorem followRemovals_unchanged (h : σ.followRemovals s = .ok (s', false)) :
    s' = s ∧ ∀ id ∈ IdSelection.sortIds (σ.db.installedIds .slash),
      σ.Spared (removedIds s.registry) (IdSelection.sortIds (σ.db.installedIds .slash))
        (arrivingIds s.registry) s id := by
  simp only [followRemovals] at h
  split at h
  · next hn =>
    cases h
    refine ⟨rfl, fun id _ => .inr (.inr fun dep _ => ?_)⟩
    rw [List.isEmpty_iff.1 hn, lostDependency?_nil]
  · refine (foldlM_unchanged (fun s₁ changed id s₂ h => ?_) h).2
    obtain ⟨⟨s₃, followed⟩, h₁, h⟩ := bind_eq_ok_iff.1 h
    obtain ⟨rfl, hf⟩ := Prod.mk.inj (Except.ok.inj h)
    obtain ⟨rfl, rfl⟩ := Bool.or_eq_false_iff.1 hf
    exact ⟨rfl, followRemoval_unchanged h₁⟩

theorem followRemovals_induction {b : Bool}
    (step : ∀ {s₁ s₂ id followed}, id ∈ σ.db.installedIds .slash → I s₁ →
      σ.Followed (removedIds s.registry) (IdSelection.sortIds (σ.db.installedIds .slash))
        (arrivingIds s.registry) s₁ id s₂ followed → I s₂)
    (hI : I s) (h : σ.followRemovals s = .ok (s', b)) : I s' := by
  simp only [followRemovals] at h
  split at h
  · cases h
    exact hI
  · refine Ensures.of_ok (P := fun x : DecidingState × Bool => I x.1) (E := fun _ => True)
      (Ensures.foldlM (fun id hid x hx => ensures_of_ok fun y hy => ?_) hI) h
    obtain ⟨⟨s₁, followed⟩, h₁, he⟩ := bind_eq_ok_iff.1 hy
    cases he
    exact step (IdSelection.mem_of_mem_sortIds hid) hx (followRemoval_followed h₁)

/-- Every resolvent of the registry is decided, and no dependencies are left to be added. -/
structure Settled (s : DecidingState) : Prop where
  pending : s.pending.toList = []
  decided : ∀ {r res}, s.registry.get? r = some res → ∃ d, res.decision = some d

theorem round_unchanged {fuel : Nat} {pass : Pass} (h : σ.round fuel pass s = .ok (s', false)) :
    s' = s ∧ s.pending.toList = [] ∧ ∀ r ∈ s.registry.keys, isDue pass s r = false := by
  rw [round] at h
  obtain ⟨⟨s₁, added⟩, h₁, h⟩ := bind_eq_ok_iff.1 h
  obtain ⟨⟨s₂, decided⟩, h₂, h⟩ := bind_eq_ok_iff.1 h
  obtain ⟨rfl, hb⟩ := Prod.mk.inj (Except.ok.inj h)
  obtain ⟨rfl, rfl⟩ := Bool.or_eq_false_iff.1 hb
  have hp := addPending_nil h₁
  obtain rfl := addPending_unchanged h₁
  obtain ⟨rfl, hd⟩ := decideDue_unchanged h₂
  exact ⟨rfl, hp, hd⟩

theorem settleFrom_settled {fuel rounds : Nat} {pass : Pass}
    (h : σ.settleFrom fuel rounds pass s = .ok s') : Settled s' := by
  induction rounds generalizing s pass with
  | zero => cases h
  | succ rounds ih =>
    rw [settleFrom] at h
    obtain ⟨⟨s₁, changed⟩, h₁, h⟩ := bind_eq_ok_iff.1 h
    cases changed with
    | true => exact ih h
    | false =>
      cases pass with
      | required => exact ih h
      | suggested =>
        cases h
        obtain ⟨rfl, hp, hd⟩ := round_unchanged h₁
        refine ⟨hp, fun {r res} hr => ?_⟩
        have hdue := hd r (OrderedMap.mem_keys_iff.2 ⟨res, hr⟩)
        simp only [isDue, hr] at hdue
        cases hres : res.decision with
        | none => simp [Resolution.isDecided, hres] at hdue
        | some d => exact ⟨d, rfl⟩

theorem Settled.isDue (hs : Settled s) (pass : Pass) (r : Resolvent) :
    isDue pass s r = false := by
  rw [Setting.isDue]
  split
  · rfl
  · next res hr =>
    obtain ⟨d, hd⟩ := hs.decided hr
    simp [Resolution.isDecided, hd]

theorem round_of_settled {fuel : Nat} {pass : Pass} (hs : Settled s) :
    σ.round fuel pass s = .ok (s, false) := by
  have hadd : σ.addPending fuel s = .ok (s, false) := by
    cases fuel with
    | zero => rw [addPending, if_pos (OrderedSet.isEmpty_iff.2 hs.pending)]
    | succ fuel => simp only [addPending, hs.pending]
  have hdecide : ∀ rs, σ.decideDue pass s rs = .ok (s, false) := by
    intro rs
    induction rs with
    | nil => rfl
    | cons r rs ih =>
      rw [decideDue, List.foldlM_cons]
      simp only [hs.isDue, Bool.false_eq_true, if_false]
      exact ih
  rw [round]
  exact bind_eq_ok_iff.2 ⟨_, hadd, bind_eq_ok_iff.2 ⟨_, hdecide _, rfl⟩⟩

theorem settleFrom_of_settled {fuel rounds : Nat} {pass : Pass} (hs : Settled s)
    (h : σ.settleFrom fuel rounds pass s = .ok s') : s' = s := by
  induction rounds generalizing pass with
  | zero => cases h
  | succ rounds ih =>
    rw [settleFrom, round_of_settled hs] at h
    cases pass with
    | required => exact ih h
    | suggested =>
      cases h
      rfl

/-- What is true when settling begins, and when it ends, as removals are followed in between. -/
theorem resolveFrom_induction {J : DecidingState → Prop} {fuel rounds : Nat}
    (settle : ∀ {s s'}, I s → σ.settle fuel s = .ok s' → J s')
    (follow : ∀ {s s' b}, J s → σ.followRemovals s = .ok (s', b) → I s')
    (hI : I s) (h : σ.resolveFrom fuel rounds s = .ok s') : J s' := by
  induction rounds generalizing s with
  | zero => cases h
  | succ rounds ih =>
    rw [resolveFrom] at h
    obtain ⟨s₁, h₁, h⟩ := bind_eq_ok_iff.1 h
    obtain ⟨⟨s₂, changed⟩, h₂, h⟩ := bind_eq_ok_iff.1 h
    have hJ : J s₁ := settle hI h₁
    cases changed with
    | true => exact ih (follow hJ h₂) h
    | false =>
      cases h
      obtain ⟨rfl, -⟩ := followRemovals_unchanged h₂
      exact hJ

theorem resolveFrom_settled {fuel rounds : Nat} (h : σ.resolveFrom fuel rounds s = .ok s') :
    Settled s' ∧ σ.followRemovals s' = .ok (s', false) := by
  induction rounds generalizing s with
  | zero => cases h
  | succ rounds ih =>
    rw [resolveFrom] at h
    obtain ⟨s₁, h₁, h⟩ := bind_eq_ok_iff.1 h
    obtain ⟨⟨s₂, changed⟩, h₂, h⟩ := bind_eq_ok_iff.1 h
    cases changed with
    | true => exact ih h
    | false =>
      cases h
      obtain ⟨rfl, -⟩ := followRemovals_unchanged h₂
      exact ⟨settleFrom_settled h₁, h₂⟩

namespace Settles

variable (k : σ.Settles I E)

include k

theorem addPending {fuel : Nat} (hI : I s) : Ensures (σ.addPending fuel s) (I ·.1) E := by
  induction fuel generalizing s with
  | zero =>
    rw [Setting.addPending]
    split
    · exact hI
    · exact k.endless
  | succ fuel ih =>
    rw [Setting.addPending]
    split
    · exact hI
    · exact (k.pending hI).bind fun s₁ h₁ => (ih h₁).bind fun x hx => hx

theorem decideDue {pass : Pass} {rs : List Resolvent} (hI : I s) :
    Ensures (σ.decideDue pass s rs) (I ·.1) E := by
  refine Ensures.foldlM (fun r _ ⟨s, changed⟩ hs => ?_) hI
  dsimp only
  split
  · next hdue => exact (k.decide hs hdue).map fun s' hs' => hs'
  · exact hs

theorem round {fuel : Nat} {pass : Pass} (hI : I s) : Ensures (σ.round fuel pass s) (I ·.1) E :=
  (k.addPending hI).bind fun _ h₁ => (k.decideDue h₁).bind fun _ h₂ => h₂

theorem settleFrom {fuel rounds : Nat} {pass : Pass} (hI : I s) :
    Ensures (σ.settleFrom fuel rounds pass s) I E := by
  induction rounds generalizing s pass with
  | zero => exact k.endless
  | succ rounds ih =>
    rw [Setting.settleFrom]
    refine (k.round hI).bind fun ⟨s₁, changed⟩ h₁ => ?_
    dsimp only
    split
    · exact ih h₁
    · split
      · exact ih h₁
      · exact h₁

end Settles

namespace Keeps

variable (k : σ.Keeps I E)

include k

theorem followRemovals (hI : I s) : Ensures (σ.followRemovals s) (I ·.1) E := by
  simp only [Setting.followRemovals]
  split
  · exact hI
  · refine Ensures.foldlM (Q := fun x : DecidingState × Bool => I x.1) (fun id hid x hx => ?_) hI
    exact (k.removal hx (IdSelection.mem_of_mem_sortIds hid)).bind fun _ h₁ => h₁

theorem resolveFrom {fuel rounds : Nat} (hI : I s) :
    Ensures (σ.resolveFrom fuel rounds s) I E := by
  induction rounds generalizing s with
  | zero => exact k.endless
  | succ rounds ih =>
    rw [Setting.resolveFrom]
    refine (k.settleFrom hI).bind fun s₁ h₁ => (k.followRemovals h₁).bind fun ⟨s₂, changed⟩ h₂ => ?_
    dsimp only
    split
    · exact ih h₂
    · exact h₂

end Keeps

end PackagePlan.Setting
