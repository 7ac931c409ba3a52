import PackagePlan.Package.Resolvent

/-! # Which keys are the same

Resolvents that compare equal are equal. Ids that compare equal have equal
fields, except that their versions may be written differently.
-/

namespace PackagePlan

open Std

instance : LawfulEqOrd Origin where
  eq_of_compare {a b} h := by
    have : a.rank = b.rank := LawfulEqOrd.eq_of_compare h
    rcases a with _ | _ | _ | _ <;> rcases b with _ | _ | _ | _ <;> simp_all [Origin.rank]

instance : LawfulEqOrd Destination where
  eq_of_compare {a b} h := by
    have : a.rank = b.rank := LawfulEqOrd.eq_of_compare h
    cases a <;> cases b <;> simp_all [Destination.rank]

instance : LawfulEqOrd Resolvent where
  compare_self := ReflOrd.compare_self
  eq_of_compare {a b} h := by
    change Resolvent.compareFields a b = .eq at h
    simp only [Resolvent.compareFields, compareLex_eq_eq, compareOn,
      LawfulEqCmp.compare_eq_iff_eq] at h
    obtain ⟨hp, hs, hd⟩ := h
    cases a; cases b; simp_all

instance : LawfulBEqOrd Version := ⟨Version.beq_iff_compare.symm⟩

namespace OrderedMap

instance : LawfulEqOrd Choices where
  compare_self := ReflOrd.compare_self
  eq_of_compare {a b} h := by
    have he : List.compareLex (compareLex (compareOn Prod.fst) (compareOn Prod.snd))
        a.entries b.entries = .eq := h
    have : LawfulEqCmp (compareLex (compareOn (Prod.fst : String × Bool → String))
        (compareOn Prod.snd)) :=
      ⟨fun h => by simpa [compareOn, Prod.ext_iff] using h⟩
    cases a; cases b; simpa using LawfulEqCmp.eq_of_compare he

end OrderedMap

namespace PackageId

instance : LawfulBEqOrd PackageId where
  compare_eq_iff_beq {a b} := by
    change compareFields a b = .eq ↔ (a.name == b.name && a.version == b.version &&
      a.slot == b.slot && a.repository == b.repository && a.origin == b.origin &&
      a.masked == b.masked && a.transient == b.transient && a.choices == b.choices) = true
    simp only [compareFields, compareLex_eq_eq, compareOn, compare_eq_iff_beq, Bool.and_eq_true,
      and_assoc]

theorem eq_fields_of_beq {a b : PackageId} (h : (a == b) = true) :
    a.name = b.name ∧ compare a.version b.version = .eq ∧ a.slot = b.slot ∧
      a.repository = b.repository ∧ a.origin = b.origin := by
  have h : compareFields a b = .eq := compare_eq_iff_beq.2 h
  simp only [compareFields, compareLex_eq_eq, compareOn, LawfulEqCmp.compare_eq_iff_eq] at h
  exact ⟨h.1, h.2.1, h.2.2.1, h.2.2.2.1, h.2.2.2.2.1⟩

end PackageId

end PackagePlan
