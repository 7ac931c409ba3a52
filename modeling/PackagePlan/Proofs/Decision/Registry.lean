import PackagePlan.Decision.Registry
import PackagePlan.Proofs.Ordered.Lookup
import PackagePlan.Proofs.Package.Identity

/-! # Writing to a registry

Each way of writing to a registry changes the resolution of one resolvent.
-/

namespace PackagePlan.Registry

open OrderedMap

variable {reg : Registry} {r r' : Resolvent}

theorem get?_ensure {seed : Resolvent → List Constraint} :
    (ensure reg r seed).get? r' =
      if r' = r then some ((reg.get? r).getD { constraints := seed r }) else reg.get? r' :=
  get?_alter reg r r' _

theorem get?_update {f : Resolution → Resolution} :
    (update reg r f).get? r' = if r' = r then (reg.get? r).map f else reg.get? r' := by
  rw [update, contains]
  cases h : reg.get? r with
  | none => by_cases hr : r' = r <;> simp [hr, h]
  | some res => simp [get?_alter, h]

theorem get?_addConstraint {c : Constraint} :
    (addConstraint reg r c).get? r' =
      if r' = r then (reg.get? r).map (·.add c) else reg.get? r' :=
  get?_update

theorem get?_decide {d : Option Decision} :
    (decide reg r d).get? r' =
      if r' = r then (reg.get? r).map fun res => { res with decision := d } else reg.get? r' :=
  get?_update

theorem mem_decisions_iff {d : Decision} :
    (r, d) ∈ decisions reg ↔ reg.decision? r = some d := by
  simp only [decisions, List.mem_filterMap, decision?, Option.bind_eq_some_iff, Prod.exists,
    mem_entries_iff, Option.map_eq_some_iff, Prod.mk.injEq]
  constructor
  · rintro ⟨_, res, hres, d, hd, rfl, rfl⟩
    exact ⟨res, hres, hd⟩
  · rintro ⟨res, hres, hd⟩
    exact ⟨r, res, hres, d, hd, rfl, rfl⟩

theorem decision?_eq_some_iff {d : Decision} :
    reg.decision? r = some d ↔ ∃ res, reg.get? r = some res ∧ res.decision = some d :=
  Option.bind_eq_some_iff

end PackagePlan.Registry
