import PackagePlan.Version.Range
import PackagePlan.Proofs.Version.Reading

/-! # Ranges written and read

A conjunction is written as its parts with commas between them, whatever way it
nests, and is read as one that nests to the right. Parts are read as they have
been written, since no version has a comma or a blank.
-/

namespace PackagePlan

open Text

namespace VersionRange

def HasWritten : VersionRange → Prop
  | any => True
  | exact v | newerThan v | atLeast v | olderThan v | atMost v | notEqual v
  | sameIgnoringRevision v | startsWith v => v.Written
  | both r s => r.HasWritten ∧ s.HasWritten

def parts : VersionRange → List VersionRange
  | both r s => r.parts ++ s.parts
  | r => [r]

def conjunction : List VersionRange → VersionRange
  | [] => any
  | [r] => r
  | r :: rs => both r (conjunction rs)

/-- The same comparisons in the same order, with every conjunction but the first in the right part
of another. -/
def nestedRight (r : VersionRange) : VersionRange := conjunction r.parts

def NestsRight : VersionRange → Prop
  | both (both _ _) _ => False
  | both _ s => s.NestsRight
  | _ => True

variable {s text : List Char} {c : Char} {v w : Version} {r : VersionRange} {op : String}
  {l : List (List Char)} {rs : List VersionRange}

section Conjunctions

theorem parts_ne_nil (r : VersionRange) : r.parts ≠ [] := by
  induction r with
  | both r s ihr _ => exact List.append_ne_nil_of_left_ne_nil ihr _
  | _ => exact List.cons_ne_nil _ _

theorem conjunction_cons (hrs : rs ≠ []) : conjunction (r :: rs) = both r (conjunction rs) := by
  cases rs with
  | nil => exact absurd rfl hrs
  | cons s rs => rfl

theorem accepts_conjunction : (conjunction rs).accepts w = rs.all (·.accepts w) := by
  induction rs with
  | nil => rfl
  | cons r rs ih =>
    cases rs with
    | nil => rw [conjunction, List.all_cons, List.all_nil, Bool.and_true]
    | cons s rs =>
      rw [conjunction_cons (List.cons_ne_nil _ _), accepts, ih]
      rfl

theorem accepts_parts (r : VersionRange) : r.parts.all (·.accepts w) = r.accepts w := by
  induction r with
  | both r s ihr ihs => rw [parts, List.all_append, ihr, ihs, accepts]
  | _ => exact Bool.and_true _

theorem accepts_nestedRight (r : VersionRange) (w : Version) :
    r.nestedRight.accepts w = r.accepts w :=
  accepts_conjunction.trans r.accepts_parts

theorem nestedRight_eq_self (h : r.NestsRight) : r.nestedRight = r := by
  induction r with
  | both r s _ ihs =>
    have hparts : r.parts = [r] ∧ s.NestsRight := by
      cases r with
      | both => exact h.elim
      | _ => exact ⟨rfl, h⟩
    rw [nestedRight, parts, hparts.1, List.singleton_append, conjunction_cons s.parts_ne_nil]
    exact congrArg (both r) (ihs hparts.2)
  | _ => rfl

end Conjunctions

section Comparisons

theorem ofOperator_comparison (h : v.Written) {make : Version → VersionRange}
    (hmake : comparison? op = some make) : ofOperator op v.text.toList = .ok (make v) := by
  have hparse : Version.parse v.text = .ok v := Version.parse_eq_ok_iff.2 h.read_text
  have unstarred := beforeEnd?_eq_none (Version.getLast?_of_read h.read_text)
  simp [ofOperator, unstarred, hparse, hmake, bind, Except.bind]

theorem ofOperator_star (h : v.Written) :
    ofOperator "=" (v.text.toList ++ ['*']) = .ok (startsWith v) := by
  have hparse : Version.parse v.text = .ok v := Version.parse_eq_ok_iff.2 h.read_text
  simp [ofOperator, beforeEnd?_append, hparse]

theorem cutOperator?_operators (hop : op ∈ operators) (hc : c ≠ '=') :
    cutOperator? operators (op.toList ++ c :: s) = some (op, c :: s) := by
  simp only [operators, List.mem_cons, List.not_mem_nil, or_false] at hop
  rcases hop with rfl | rfl | rfl | rfl | rfl | rfl | rfl <;>
    simp [cutOperator?, operators, afterStart?, Ne.symm hc]

structure Compares (r : VersionRange) (op : String) (text : List Char) : Prop where
  op_mem : op ∈ operators
  toList_render : r.render.toList = op.toList ++ ' ' :: text
  read : ofOperator op text = .ok r
  nonempty : text ≠ []
  plain : ∀ x ∈ text, isBlank x = false ∧ x ≠ ','

theorem text_ne_nil (h : v.Written) : v.text.toList ≠ [] := by
  obtain ⟨d, t, ht, -⟩ := Version.exists_digit_of_read h.read_text
  rw [ht]
  exact List.cons_ne_nil _ _

theorem plain_text (h : v.Written) : ∀ x ∈ v.text.toList, isBlank x = false ∧ x ≠ ',' := by
  refine fun x hx => ⟨(Version.plain_of_read h.read_text hx).1, ?_⟩
  rintro rfl
  exact Version.comma_notMem_of_read h.read_text hx

theorem compares_comparison (h : v.Written) {make : Version → VersionRange} (hop : op ∈ operators)
    (hmake : comparison? op = some make)
    (hrender : (make v).render.toList = op.toList ++ ' ' :: v.text.toList) :
    Compares (make v) op v.text.toList :=
  ⟨hop, hrender, ofOperator_comparison h hmake, text_ne_nil h, plain_text h⟩

theorem compares_startsWith (h : v.Written) :
    Compares (startsWith v) "=" (v.text.toList ++ ['*']) := by
  refine ⟨by decide, by simp [render], ofOperator_star h,
    List.append_ne_nil_of_left_ne_nil (text_ne_nil h) _, fun x hx => ?_⟩
  rcases List.mem_append.1 hx with hx | hx
  · exact plain_text h x hx
  · obtain rfl := List.mem_singleton.1 hx
    decide

theorem exists_compares (h : r.HasWritten) (hparts : r.parts = [r]) :
    r = any ∨ ∃ op text, Compares r op text := by
  cases r with
  | any => exact .inl rfl
  | both s t =>
    rcases List.append_eq_singleton_iff.1 hparts with ⟨hs, -⟩ | ⟨-, ht⟩
    · exact absurd hs s.parts_ne_nil
    · exact absurd ht t.parts_ne_nil
  | startsWith v => exact .inr ⟨"=", _, compares_startsWith h⟩
  | exact v => exact .inr ⟨"=", _, compares_comparison h (by decide) rfl (by simp [render])⟩
  | newerThan v => exact .inr ⟨">", _, compares_comparison h (by decide) rfl (by simp [render])⟩
  | atLeast v => exact .inr ⟨">=", _, compares_comparison h (by decide) rfl (by simp [render])⟩
  | olderThan v => exact .inr ⟨"<", _, compares_comparison h (by decide) rfl (by simp [render])⟩
  | atMost v => exact .inr ⟨"<=", _, compares_comparison h (by decide) rfl (by simp [render])⟩
  | notEqual v => exact .inr ⟨"!=", _, compares_comparison h (by decide) rfl (by simp [render])⟩
  | sameIgnoringRevision v =>
    exact .inr ⟨"~", _, compares_comparison h (by decide) rfl (by simp [render])⟩

namespace Compares

variable (h : Compares r op text)
include h

theorem comma_notMem : ',' ∉ r.render.toList := by
  have operators_plain : ∀ op ∈ operators, ',' ∉ op.toList := by decide
  rw [h.toList_render]
  intro hm
  rcases List.mem_append.1 hm with hm | hm
  · exact operators_plain op h.op_mem hm
  · rcases List.mem_cons.1 hm with hm | hm
    · cases hm
    · exact (h.plain _ hm).2 rfl

theorem readComparison_render : readComparison r.render.toList = .ok r := by
  have operator_head : ∀ op ∈ operators, ∃ c t, op.toList = c :: t ∧ isBlank c = false := by
    intro op hop
    simp only [operators, List.mem_cons, List.not_mem_nil, or_false] at hop
    rcases hop with rfl | rfl | rfl | rfl | rfl | rfl | rfl <;> exact ⟨_, _, rfl, by decide⟩
  obtain ⟨c, t, hc, hblank⟩ := operator_head op h.op_mem
  have trimmed : trim r.render.toList = r.render.toList := by
    rw [h.toList_render]
    refine trim_eq_of_ends (by simp [hc, hblank]) fun x hx => ?_
    obtain ⟨y, text, rfl⟩ := List.exists_cons_of_ne_nil h.nonempty
    rw [List.getLast?_append_cons, List.getLast?_cons_cons] at hx
    exact (h.plain x (List.mem_of_getLast? hx)).1
  have long : ¬ (r.render.toList = [] ∨ r.render.toList = ['*']) := by
    simp [h.toList_render, hc]
  have cut : cutOperator? operators r.render.toList = some (op, ' ' :: text) := by
    rw [h.toList_render]
    exact cutOperator?_operators h.op_mem (by decide)
  have trim_rest : trim (' ' :: text) = text :=
    (trim_cons_blank rfl).trans (trim_eq_self fun x hx => (h.plain x hx).1)
  rw [readComparison, trimmed]
  simp only [if_neg long, cut, trim_rest, h.read]

end Compares

end Comparisons

section Whole

theorem readAll_eq_conjunction (h : l.map readComparison = rs.map .ok) :
    readAll l = .ok (conjunction rs) := by
  induction l generalizing rs with
  | nil =>
    obtain rfl : rs = [] := List.map_eq_nil_iff.1 h.symm
    rfl
  | cons s l ih =>
    cases rs with
    | nil => cases h
    | cons r rs =>
      obtain ⟨hr, h⟩ := List.cons.inj h
      cases l with
      | nil =>
        obtain rfl : rs = [] := List.map_eq_nil_iff.1 h.symm
        exact hr
      | cons s' l =>
        have hrs : rs ≠ [] := fun hnil => by
          rw [hnil] at h
          cases h
        rw [readAll, hr, ih h, conjunction_cons hrs]
        · rfl
        · exact List.cons_ne_nil _ _

theorem readComparison_pieces_blank (s : List Char) :
    (pieces (· == ',') (' ' :: s)).map readComparison =
      (pieces (· == ',') s).map readComparison := by
  have readComparison_blank : ∀ t, readComparison (' ' :: t) = readComparison t := fun t => by
    rw [readComparison, readComparison, trim_cons_blank rfl]
  rw [pieces, if_neg (by decide)]
  cases h : pieces (· == ',') s with
  | nil => exact absurd h (pieces_ne_nil _ _)
  | cons t l => simp only [List.map_cons, readComparison_blank]

theorem readComparison_pieces_part (h : r.HasWritten) (hparts : r.parts = [r]) :
    (pieces (· == ',') r.render.toList).map readComparison = [.ok r] := by
  rcases exists_compares h hparts with rfl | ⟨op, text, hr⟩
  · rfl
  · rw [pieces_eq_singleton_of_notMem hr.comma_notMem, List.map_singleton,
      hr.readComparison_render]

theorem readComparison_pieces_render (h : r.HasWritten) :
    (pieces (· == ',') r.render.toList).map readComparison = r.parts.map .ok := by
  induction r with
  | both r s ihr ihs =>
    have text : (both r s).render.toList = r.render.toList ++ ',' :: ' ' :: s.render.toList := by
      simp [render]
    rw [text, pieces_append rfl, List.map_append, readComparison_pieces_blank, ihr h.1, ihs h.2,
      parts, List.map_append]
  | _ => exact readComparison_pieces_part h rfl

/-- What is written of a range is read as a range that accepts the same versions, and as the range
itself where its conjunctions nest to the right. -/
theorem survives_parsing (h : r.HasWritten) : parse r.render = .ok r.nestedRight ∧
    (∀ w, r.nestedRight.accepts w = r.accepts w) ∧ (r.NestsRight → r.nestedRight = r) :=
  ⟨readAll_eq_conjunction (readComparison_pieces_render h), r.accepts_nestedRight,
    nestedRight_eq_self⟩

namespace Sample

def low : Version := ⟨"1.0_rc1-r1", [1, 0], none, [(.rc, 1)], 1⟩

def skipped : Version := ⟨"1.5b", [1, 5], some 'b', [], 0⟩

def branch : Version := ⟨"01.2", [1, 2], none, [], 0⟩

def leftNested : VersionRange :=
  both (both (atLeast low) (notEqual skipped)) (both any (startsWith branch))

def rightNested : VersionRange :=
  both (atLeast low) (both (notEqual skipped) (both any (startsWith branch)))

theorem hasWritten_leftNested : leftNested.HasWritten :=
  ⟨⟨⟨"1.0_rc1-r1", rfl⟩, ⟨"1.5b", rfl⟩⟩, trivial, ⟨"01.2", rfl⟩⟩

theorem hasWritten_rightNested : rightNested.HasWritten :=
  ⟨⟨"1.0_rc1-r1", rfl⟩, ⟨"1.5b", rfl⟩, trivial, ⟨"01.2", rfl⟩⟩

end Sample

open Sample in
theorem survives_parsing_leftNested : leftNested.HasWritten ∧
    parse ">= 1.0_rc1-r1, != 1.5b, *, = 01.2*" = .ok rightNested ∧
      (∀ w, rightNested.accepts w = leftNested.accepts w) ∧
    rightNested.HasWritten ∧ rightNested.NestsRight ∧
      parse rightNested.render = .ok rightNested := by
  obtain ⟨reads_left, same_versions, -⟩ := survives_parsing hasWritten_leftNested
  obtain ⟨reads_right, -, same⟩ := survives_parsing hasWritten_rightNested
  have nests : rightNested.NestsRight := trivial
  refine ⟨hasWritten_leftNested, reads_left, same_versions, hasWritten_rightNested, nests, ?_⟩
  rw [reads_right, same nests]

end Whole

end VersionRange

end PackagePlan
