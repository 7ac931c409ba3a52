import Mathlib.Algebra.Order.BigOperators.Group.List
import Mathlib.Algebra.Order.Ring.Nat
import PackagePlan.Proofs.Deciding.Closure

/-! # What is left to decide

The decision of a resolvent can be replaced only a few times: it goes from
undecided through nothing, first as a suggestion only, to one that stays. Its
dependencies become pending only when it is replaced. So what is left to do
for a resolvent never grows, and every piece of work makes it less.
-/

namespace PackagePlan.Setting

open Constraints Registry

variable {σ : Setting} {s s' s'' : DecidingState} {r r' : Resolvent} {c : Constraint}
  {d : Option Decision} {res : Resolution} {queued : Bool}

/-- How often a decision can still be replaced. -/
def openness : Option Decision → Nat
  | none => 3
  | some (.nothing false) => 2
  | some (.nothing true) => 1
  | some _ => 0

/-- A bound on how often the dependencies of the resolvent will be added. -/
def remaining (s : DecidingState) (r : Resolvent) : Nat :=
  2 * openness (s.registry.decision? r) + if s.pending.contains r then 1 else 0

theorem openness_some_le (d : Decision) : openness (some d) ≤ 2 := by
  cases d with
  | nothing taken => cases taken <;> decide
  | _ => exact Nat.zero_le 2

theorem remaining_le (s : DecidingState) (r : Resolvent) : remaining s r ≤ 7 := by
  have ho : openness (s.registry.decision? r) ≤ 3 := by
    cases s.registry.decision? r with
    | none => exact le_rfl
    | some d => exact (openness_some_le d).trans (by decide)
  rw [remaining]
  split <;> omega

theorem openness_nothing_pos (taken : Bool) : 0 < openness (some (.nothing taken)) := by
  cases taken <;> decide

/-- Deciding anew leaves less open if there is a constraint that nothing does not meet. -/
theorem openness_replace {taken : Bool} {d : Decision} {cs : List Constraint}
    (hc : (Decision.nothing taken).meets c = false) (hf : σ.findDecision r (cs ++ [c]) = some d) :
    openness (some d) < openness (some (.nothing taken)) := by
  obtain ⟨hs, ht⟩ := findDecision_suits hf
  cases d with
  | nothing taken' =>
    have hn : c.nothingIsFine = true := hs.2 c (by simp)
    have hu : (c.untaken || taken) = false := by
      refine Bool.eq_false_iff.2 fun hu => ?_
      rw [Decision.meets_nothing.2 ⟨hn, hu⟩] at hc
      cases hc
    obtain ⟨hcu, rfl⟩ := Bool.or_eq_false_iff.1 hu
    have ht : taken' = !(allUntaken cs && c.untaken) := allUntaken_append ▸ ht
    rw [hcu, Bool.and_false] at ht
    rw [ht]
    decide
  | _ => exact openness_nothing_pos taken

theorem Reacts.openness_lt (h : σ.Reacts r res c d queued) (hq : queued = true) :
    openness d < openness res.decision := by
  cases h with
  | keep | giveUp => cases hq
  | replace hn hc hf =>
    rw [hn]
    exact openness_replace hc hf

theorem Reacts.openness_le (h : σ.Reacts r res c d queued) :
    openness d ≤ openness res.decision := by
  cases h with
  | keep => exact le_rfl
  | giveUp => exact Nat.zero_le _
  | replace hn hc hf =>
    rw [hn]
    exact (openness_replace hc hf).le

def Lowers (s s' : DecidingState) : Prop := ∀ r, remaining s' r ≤ remaining s r

theorem Lowers.refl : Lowers s s := fun _ => le_rfl

theorem Lowers.trans (h : Lowers s s') (h' : Lowers s' s'') : Lowers s s'' :=
  fun r => (h' r).trans (h r)

theorem applyConstraint_lowers (h : σ.applyConstraint s r c = .ok s') : Lowers s s' := by
  obtain ⟨d, queued, hr, hw, hp⟩ := applyConstraint_writes h
  intro r'
  by_cases he : r' = r
  · subst he
    have hd : s'.registry.decision? r' = d := by rw [hw.decision?, if_pos rfl]
    have hle := hr.openness_le
    have hlt := hr.openness_lt
    rw [decision_resolutionAt] at hle hlt
    rw [remaining, remaining, hd, hp]
    cases queued with
    | false => exact Nat.add_le_add_right (Nat.mul_le_mul_left 2 hle) _
    | true =>
      have hlt := hlt rfl
      split <;> split <;> omega
  · have hcontains : s'.pending.contains r' = s.pending.contains r' := by
      rw [hp]
      split
      · rw [Bool.eq_iff_iff, OrderedSet.contains_insert]
        exact or_iff_right he
      · rfl
    rw [remaining, remaining, hw.decision?, if_neg he, hcontains]

theorem applyAll_lowers {cs : List (Resolvent × Constraint)} (h : σ.applyAll s cs = .ok s') :
    Lowers s s' := by
  induction cs generalizing s with
  | nil =>
    cases h
    exact .refl
  | cons p cs ih =>
    obtain ⟨s₁, h₁, h⟩ := foldlM_cons_eq_ok_iff.1 h
    exact (applyConstraint_lowers h₁).trans (ih h)

theorem addDependencies_lowers (h : σ.addDependencies s r = .ok s') : Lowers s s' := by
  rw [addDependencies] at h
  split at h
  · cases h
    exact .refl
  · split at h
    · cases h
      exact .refl
    · obtain ⟨s₁, h₁, h⟩ := bind_eq_ok_iff.1 h
      exact (applyAll_lowers h₁).trans (applyAll_lowers h)

theorem remaining_erase_le (s : DecidingState) (r r' : Resolvent) :
    remaining { s with pending := s.pending.erase r } r' ≤ remaining s r' := by
  have hle : (if (s.pending.erase r).contains r' then 1 else 0) ≤
      if s.pending.contains r' then 1 else 0 := by
    split
    · next h => rw [if_pos (OrderedSet.contains_erase.1 h).2]
    · exact Nat.zero_le _
  exact Nat.add_le_add_left hle _

theorem addPending_lowers (hr : s.pending.contains r = true)
    (h : σ.addDependencies { s with pending := s.pending.erase r } r = .ok s') :
    Lowers s s' ∧ remaining s' r < remaining s r := by
  have hl := addDependencies_lowers h
  have hlt : remaining { s with pending := s.pending.erase r } r < remaining s r := by
    have herase : (s.pending.erase r).contains r = false :=
      Bool.eq_false_iff.2 fun h => (OrderedSet.contains_erase.1 h).1 rfl
    rw [remaining, remaining, hr, herase]
    exact Nat.lt_succ_self _
  exact ⟨fun r' => (hl r').trans (remaining_erase_le s r r'), (hl r).trans_lt hlt⟩

theorem remaining_setDecision {res : Resolution} (hr : s.registry.get? r = some res)
    (d : Decision) (r' : Resolvent) : remaining (setDecision s r d) r' =
      if r' = r then 2 * openness (some d) + (if s.pending.contains r then 1 else 0)
      else remaining s r' := by
  have hw : (setDecision s r d).registry.decision? r' =
      if r' = r then some d else s.registry.decision? r' := (writes_setDecision hr).decision?
  rw [remaining, hw]
  split
  · next he =>
    rw [he]
    rfl
  · rfl

theorem decideOne_lowers {pass : Pass} (hd : isDue pass s r = true)
    (h : σ.decideOne s r = .ok s') : Lowers s s' ∧ remaining s' r < remaining s r := by
  obtain ⟨res, hr, hn⟩ := undecided_of_isDue hd
  have hnone : s.registry.decision? r = none := by
    rw [decision?, hr]
    exact hn
  have hl := addDependencies_lowers h
  have hle : ∀ r', remaining s' r' ≤ remaining (setDecision s r (σ.decisionFor r
      (constraintsOf s r))) r' := fun r' => (hl r').trans (remaining_erase_le _ r r')
  have hlt : remaining (setDecision s r (σ.decisionFor r (constraintsOf s r))) r <
      remaining s r := by
    have ho := openness_some_le (σ.decisionFor r (constraintsOf s r))
    rw [remaining_setDecision hr, if_pos rfl, remaining, hnone]
    exact Nat.add_lt_add_right (by rw [openness]; omega) _
  refine ⟨fun r' => ?_, (hle r).trans_lt hlt⟩
  by_cases he : r' = r
  · rw [he]
    exact ((hle r).trans_lt hlt).le
  · have hr' := hle r'
    rwa [remaining_setDecision hr, if_neg he] at hr'

section Breakage

variable {id : PackageId} {reason : Reason}

/-- Counts a resolvent whose package can still be broken. -/
def unbroken (s : DecidingState) (r : Resolvent) : Nat :=
  match s.registry.decision? r with
  | some (.broken _) => 0
  | _ => 1

theorem unbroken_le (s : DecidingState) (r : Resolvent) : unbroken s r ≤ 1 := by
  unfold unbroken
  split <;> omega

theorem decision?_breakId : (σ.breakId s r id reason).registry.decision? r' =
    if r' = r then some (.broken { id, taken := true }) else s.registry.decision? r' :=
  writes_breakId.decision?

theorem breakId_lowers : Lowers s (σ.breakId s r id reason) := by
  intro r'
  rw [remaining, remaining, decision?_breakId]
  refine Nat.add_le_add_right (Nat.mul_le_mul_left 2 ?_) _
  split
  · exact Nat.zero_le _
  · exact le_rfl

theorem breakId_unbroken (σ : Setting) (id : PackageId) (reason : Reason)
    (hs : isSettledAt s.registry r = false) :
    (∀ r', unbroken (σ.breakId s r id reason) r' ≤ unbroken s r') ∧
      unbroken (σ.breakId s r id reason) r < unbroken s r := by
  have hbroken : unbroken (σ.breakId s r id reason) r = 0 := by
    rw [unbroken, decision?_breakId, if_pos rfl]
  have hwhole : unbroken s r = 1 := by
    rw [unbroken]
    split
    · next b hb =>
      rw [isSettledAt, hb] at hs
      cases hs
    · rfl
  refine ⟨fun r' => ?_, by omega⟩
  by_cases he : r' = r
  · rw [he, hbroken]
    exact Nat.zero_le _
  · rw [unbroken, unbroken, decision?_breakId, if_neg he]

end Breakage

section Total

variable {U : List Resolvent} {f f' : Resolvent → Nat}

def total (U : List Resolvent) (f : Resolvent → Nat) : Nat := (U.map f).sum

theorem total_le (h : ∀ r, f r ≤ f' r) : total U f ≤ total U f' :=
  List.sum_le_sum fun r _ => h r

theorem total_lt (h : ∀ r, f r ≤ f' r) (hr : r ∈ U) (hlt : f r < f' r) : total U f < total U f' :=
  List.sum_lt_sum _ _ (fun r _ => h r) ⟨r, hr, hlt⟩

theorem total_le_mul {n : Nat} (h : ∀ r, f r ≤ n) : total U f ≤ U.length * n := by
  have hle := List.sum_le_card_nsmul (U.map f) n (List.forall_mem_map.2 fun r _ => h r)
  rw [List.length_map] at hle
  exact hle

end Total

end PackagePlan.Setting
