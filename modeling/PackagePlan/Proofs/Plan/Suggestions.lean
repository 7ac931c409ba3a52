import PackagePlan.Proofs.Deciding.Session
import PackagePlan.Proofs.Plan.Outcome

/-! # What is only suggested

A constraint that is only a suggestion does not force a decision, and what is
decided for suggestions alone is not carried out. Suggestions and requirements
arrive in any order, before a decision and after it.
-/

namespace PackagePlan

open Setting Constraints

variable {σ : Setting} {s : DecidingState} {r : Resolvent} {res : Resolution} {d : Decision}

/-- In every state of a session a decision is taken exactly if some constraint of its resolvent is
more than a suggestion. -/
theorem Setting.Session.taken_iff (h : σ.Session s) (hr : s.registry.get? r = some res)
    (hd : res.decision = some d) : d.taken = true ↔ ∃ c ∈ res.constraints, c.untaken = false := by
  have ha : σ.Arises r res := h.sound r res hr
  have ht : d.taken = !allUntaken res.constraints := (ha.suits hd).2
  rw [ht, Bool.not_eq_true', allUntaken_eq_false_iff]

namespace Sample

/-- All that `c` says about `b` is a suggestion. -/
def suggesting : Setting where
  db := (Database.empty.insert (id "b" .source) .nothing).insert (id "c" .source)
    (.package (.named "b"))
  policy := { preferences.policy with interest := fun _ => .untaken }
  seeds := {}

def bothWanted : List Step :=
  [.target (.named "b") .target, .target (.named "c") .target, .resolve]

def suggestedLate (s : DecidingState) : Bool :=
  (s.registry.get? ⟨"b", some "0", .slash⟩).any fun res =>
    res.isDecided && res.constraints.map (·.untaken) == [false, true]

theorem exists_suggested : ∃ s res d c, suggesting.Session s ∧
    s.registry.get? ⟨"b", some "0", .slash⟩ = some res ∧ res.decision = some d ∧
      res.constraints.map (·.untaken) = [false, true] ∧ c ∈ res.constraints ∧
        c.untaken = false := by
  obtain ⟨s, hs, h⟩ := exists_eq_ok (x := suggesting.run bothWanted) (f := suggestedLate)
    (by decide +kernel)
  obtain ⟨res, hr, h⟩ := (Option.any_eq_true _ _).1 h
  obtain ⟨hd, hu⟩ := Bool.and_eq_true_iff.1 h
  obtain ⟨d, hd⟩ := Option.isSome_iff_exists.1 hd
  have hu : res.constraints.map (·.untaken) = [false, true] := beq_iff_eq.1 hu
  obtain ⟨c, hc, hf⟩ := List.mem_map.1 (hu ▸ List.mem_cons_self : false ∈ _)
  exact ⟨s, res, d, c, (Session.run bothWanted).of_ok hs, hr, hd, hu, hc, hf⟩

end Sample

theorem taken_iff_suggested : ∃ s res d, Sample.suggesting.Session s ∧
    s.registry.get? ⟨"b", some "0", .slash⟩ = some res ∧ res.decision = some d ∧
      res.constraints.map (·.untaken) = [false, true] ∧ d.taken = true := by
  obtain ⟨s, res, d, c, hs, hr, hd, hu, hc, hf⟩ := Sample.exists_suggested
  exact ⟨s, res, d, hs, hr, hd, hu, (hs.taken_iff hr hd).2 ⟨c, hc, hf⟩⟩

end PackagePlan
