import PackagePlan.Decision.Registry
import PackagePlan.Proofs.Package.Identity

/-! # Equal constraints and decisions

Constraints and decisions are compared field by field, and the versions in them
by their value, however they are written. What is equal has the same holder,
and is taken and scheduled alike.
-/

namespace PackagePlan

deriving instance BEq, ReflBEq for VersionRange, Requirement, Blocker, Demand

deriving instance BEq, ReflBEq for Link, Reason, Constraint

deriving instance BEq, ReflBEq for Rejection, Placement, Change, Kept, Removal, Breakage, Decision

theorem none_or_some_of_beq {α : Type} [BEq α] {o o' : Option α} (h : (o == o') = true) :
    (o = none ∧ o' = none) ∨ ∃ a a', o = some a ∧ o' = some a' ∧ (a == a') = true := by
  cases o with
  | none =>
    cases o' with
    | none => exact .inl ⟨rfl, rfl⟩
    | some a' => cases h
  | some a =>
    cases o' with
    | none => cases h
    | some a' => exact .inr ⟨a, a', rfl, rfl, h⟩

theorem Link.eq_fields_of_beq {δ : Type} [BEq δ] {l l' : Link δ} (h : (l == l') = true) :
    l.holder = l'.holder ∧ (l.demand == l'.demand) = true ∧ l.labels = l'.labels ∧
      l.alreadyMet = l'.alreadyMet := by
  simp only [instBEqLink.beq_spec, Bool.and_eq_true, beq_iff_eq] at h
  exact ⟨h.1, h.2.2⟩

theorem Constraint.eq_fields_of_beq {c c' : Constraint} (h : (c == c') = true) :
    (c.reason == c'.reason) = true ∧ c.untaken = c'.untaken := by
  simp only [instBEqConstraint.beq_spec, Bool.and_eq_true, beq_iff_eq] at h
  exact ⟨h.2.1, h.2.2.2.2.1⟩

theorem Reason.holder?_eq_of_beq {a b : Reason} (h : (a == b) = true) :
    a.holder? = b.holder? := by
  induction a generalizing b with
  | set name inner ih =>
    cases b with
    | set name' inner' =>
      have equal : (inner == inner') = true := (Bool.and_eq_true_iff.1 h).2
      have holder := ih equal
      exact holder
    | _ => cases h
  | dependency l =>
    cases b with
    | dependency l' => exact congrArg some (Link.eq_fields_of_beq h).1
    | _ => cases h
  | blocker l =>
    cases b with
    | blocker l' => exact congrArg some (Link.eq_fields_of_beq h).1
    | _ => cases h
  | dependent removing holder =>
    cases b with
    | dependent removing' holder' =>
      exact congrArg some (eq_of_beq (Bool.and_eq_true_iff.1 h).2)
    | _ => cases h
  | viaBinary other =>
    cases b with
    | viaBinary other' => exact congrArg some (eq_of_beq h)
    | _ => cases h
  | target | preset | presetFor | presumed => cases b <;> first | rfl | cases h

namespace Decision

variable {d d' : Decision}

theorem taken_eq_of_beq (h : (d == d') = true) : d.taken = d'.taken := by
  cases d <;> cases d' <;> try cases h
  case nothing.nothing => exact eq_of_beq h
  case existing.existing k k' =>
    have fields : (k == k') = true := h
    simp only [instBEqKept.beq_spec, Bool.and_eq_true, beq_iff_eq] at fields
    exact fields.2.2.2.2
  case change.change c c' =>
    have fields : (c == c') = true := h
    simp only [instBEqChange.beq_spec, Bool.and_eq_true, beq_iff_eq] at fields
    exact fields.2.2.1
  case remove.remove r r' =>
    have fields : (r == r') = true := h
    simp only [instBEqRemoval.beq_spec, Bool.and_eq_true, beq_iff_eq] at fields
    exact fields.2.1
  case unable.unable => exact eq_of_beq (Bool.and_eq_true_iff.1 h).2
  case broken.broken b b' =>
    have fields : (b == b') = true := h
    simp only [instBEqBreakage.beq_spec, Bool.and_eq_true, beq_iff_eq] at fields
    exact fields.2.1

theorem isUnable_eq_of_beq (h : (d == d') = true) : d.isUnable = d'.isUnable := by
  cases d <;> cases d' <;> first | rfl | cases h

theorem isScheduled_eq_of_beq (h : (d == d') = true) : d.isScheduled = d'.isScheduled := by
  rw [isScheduled, isScheduled, taken_eq_of_beq h, isUnable_eq_of_beq h]

end Decision

end PackagePlan
