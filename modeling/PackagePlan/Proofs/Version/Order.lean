import PackagePlan.Version.Basic

/-! # The order of versions

Two versions are compared place by place: first their components, where the
end of a list comes before any number, then their letters, then their
suffixes, where the end of a list comes between `_rc` and `_p`, and last their
revisions. This is a total order of what versions say, however they are
written.
-/

namespace PackagePlan

open Std

universe u v

section Places

variable {α : Type u} {cmp : Option α → Option α → Ordering} {a b : α} {l m : List α}

/-- Compares two lists place by place up to the end of the longer one; `none` stands for a place
that a list does not have. -/
def comparePlaces (cmp : Option α → Option α → Ordering) (l m : List α) : Ordering :=
  ((List.range (max l.length m.length)).map fun i => cmp l[i]? m[i]?).foldr Ordering.then .eq

theorem comparePlaces_nil_cons :
    comparePlaces cmp [] (b :: m) = (cmp none (some b)).then (comparePlaces cmp [] m) := by
  simp [comparePlaces, List.range_succ_eq_map, Function.comp_def]

theorem comparePlaces_cons_nil :
    comparePlaces cmp (a :: l) [] = (cmp (some a) none).then (comparePlaces cmp l []) := by
  simp [comparePlaces, List.range_succ_eq_map, Function.comp_def]

theorem comparePlaces_cons_cons :
    comparePlaces cmp (a :: l) (b :: m) = (cmp (some a) (some b)).then (comparePlaces cmp l m) := by
  simp [comparePlaces, List.range_succ_eq_map, Function.comp_def, Nat.succ_max_succ]

theorem comparePlaces_numbers (l m : List Nat) : comparePlaces compare l m = compare l m := by
  induction l generalizing m with
  | nil =>
    cases m with
    | nil => rfl
    | cons b m => exact comparePlaces_nil_cons
  | cons a l ih =>
    cases m with
    | nil => exact comparePlaces_cons_nil
    | cons b m =>
      rw [comparePlaces_cons_cons, ih, List.compare_cons_cons]
      rfl

end Places

namespace SuffixKind

/-- The rank of a place in a list of suffixes; having no further suffix ranks between `_rc` and
`_p`. -/
def placeRank : Option SuffixKind → Nat
  | some k => k.rank
  | none => endRank

theorem compare_rank_endRank_then (k : SuffixKind) (o o' : Ordering) :
    (compare k.rank endRank).then o = (compare k.rank endRank).then o' := by
  cases k <;> rfl

theorem compare_endRank_rank_then (k : SuffixKind) (o o' : Ordering) :
    (compare endRank k.rank).then o = (compare endRank k.rank).then o' := by
  cases k <;> rfl

end SuffixKind

namespace Version

def compareSuffix (s t : Option (SuffixKind × Nat)) : Ordering :=
  (compare (SuffixKind.placeRank (s.map (·.1))) (SuffixKind.placeRank (t.map (·.1)))).then
    (compare (s.map (·.2)) (t.map (·.2)))

variable {v w : Version}

theorem comparePlaces_suffixes (l m : List (SuffixKind × Nat)) :
    comparePlaces compareSuffix l m =
      compare (l.flatMap (fun s => [s.1.rank, s.2]) ++ [SuffixKind.endRank])
        (m.flatMap (fun s => [s.1.rank, s.2]) ++ [SuffixKind.endRank]) := by
  induction l generalizing m with
  | nil =>
    cases m with
    | nil => rfl
    | cons t m =>
      rw [comparePlaces_nil_cons, compareSuffix, Ordering.then_assoc]
      simp only [List.flatMap_nil, List.flatMap_cons, List.cons_append, List.nil_append,
        List.compare_cons_cons]
      exact t.1.compare_endRank_rank_then _ _
  | cons s l ih =>
    cases m with
    | nil =>
      rw [comparePlaces_cons_nil, compareSuffix, Ordering.then_assoc]
      simp only [List.flatMap_nil, List.flatMap_cons, List.cons_append, List.nil_append,
        List.compare_cons_cons]
      exact s.1.compare_rank_endRank_then _ _
    | cons t m =>
      rw [comparePlaces_cons_cons, ih, compareSuffix, Ordering.then_assoc]
      simp only [List.flatMap_cons, List.cons_append, List.nil_append, List.compare_cons_cons]
      rfl

theorem compareIgnoringRevision_eq_places : compareIgnoringRevision v w =
    (comparePlaces compare v.components w.components).then
      ((compare v.letter w.letter).then (comparePlaces compareSuffix v.suffixes w.suffixes)) := by
  rw [comparePlaces_numbers, comparePlaces_suffixes]
  rfl

theorem suffixes_eq_of_suffixKey_eq (h : v.suffixKey = w.suffixKey) : v.suffixes = w.suffixes := by
  unfold suffixKey at h
  generalize v.suffixes = l at h
  generalize w.suffixes = m at h
  induction l generalizing m with
  | nil =>
    cases m with
    | nil => rfl
    | cons t m => exact absurd (List.cons.inj h).1.symm t.1.rank_ne_endRank
  | cons s l ih =>
    cases m with
    | nil => exact absurd (List.cons.inj h).1 s.1.rank_ne_endRank
    | cons t m =>
      obtain ⟨hrank, h⟩ := List.cons.inj h
      obtain ⟨hnumber, h⟩ := List.cons.inj h
      rw [Prod.ext (SuffixKind.rank_injective hrank) hnumber, ih _ h]

def keyIgnoringRevision (v : Version) : List Nat × Option Char × List (SuffixKind × Nat) :=
  (v.components, v.letter, v.suffixes)

theorem compareIgnoringRevision_eq_iff :
    compareIgnoringRevision v w = .eq ↔ v.keyIgnoringRevision = w.keyIgnoringRevision := by
  simp only [compareIgnoringRevision, compareLex_eq_eq, compareOn,
    LawfulEqCmp.compare_eq_iff_eq, keyIgnoringRevision, Prod.mk.injEq]
  refine and_congr_right' (and_congr_right' ⟨suffixes_eq_of_suffixKey_eq, fun h => ?_⟩)
  rw [suffixKey, h, suffixKey]

theorem compare_eq_then : compare v w =
    (compareIgnoringRevision v w).then (compare v.revision w.revision) := rfl

theorem compare_eq_iff : compare v w = .eq ↔ v.key = w.key := by
  rw [compare_eq_then, Ordering.then_eq_eq, compareIgnoringRevision_eq_iff,
    LawfulEqCmp.compare_eq_iff_eq]
  simp only [keyIgnoringRevision, key, Prod.mk.injEq, and_assoc]

end Version

/-- `cmp` is a total order of the values that `key` takes. -/
structure OrdersBy {α : Type u} {β : Type v} (cmp : α → α → Ordering) (key : α → β) : Prop where
  total : ∀ a b, (cmp a b).isLE = true ∨ (cmp b a).isLE = true
  swap : ∀ a b, cmp b a = (cmp a b).swap
  trans : ∀ a b c, (cmp a b).isLE = true → (cmp b c).isLE = true → (cmp a c).isLE = true
  antisymm : ∀ a b, (cmp a b).isLE = true ∧ (cmp b a).isLE = true ↔ key a = key b
  eq_iff : ∀ a b, cmp a b = .eq ↔ key a = key b

theorem OrdersBy.of_eq_iff {α : Type u} {β : Type v} {cmp : α → α → Ordering} [TransCmp cmp]
    {key : α → β} (h : ∀ a b, cmp a b = .eq ↔ key a = key b) : OrdersBy cmp key where
  total a b := by
    rw [show cmp b a = (cmp a b).swap from OrientedCmp.eq_swap]
    cases cmp a b <;> decide
  swap _ _ := OrientedCmp.eq_swap
  trans _ _ _ := TransCmp.isLE_trans
  antisymm a b := by
    rw [← h, show cmp b a = (cmp a b).swap from OrientedCmp.eq_swap]
    cases cmp a b <;> decide
  eq_iff := h

namespace Version

/-- Versions are ordered by what they say, place by place and last of all by revision, and are
equal if they say the same. -/
theorem ordersBy_key : OrdersBy (compare : Version → Version → Ordering) key ∧
    OrdersBy compareIgnoringRevision keyIgnoringRevision ∧
    (∀ v w : Version, (v == w) = true ↔ v.key = w.key) ∧
    (∀ v w : Version, compare v w =
      (compareIgnoringRevision v w).then (compare v.revision w.revision)) ∧
    ∀ v w, compareIgnoringRevision v w =
      (comparePlaces compare v.components w.components).then
        ((compare v.letter w.letter).then (comparePlaces compareSuffix v.suffixes w.suffixes)) :=
  ⟨.of_eq_iff fun _ _ => compare_eq_iff, .of_eq_iff fun _ _ => compareIgnoringRevision_eq_iff,
    fun _ _ => beq_iff_compare.trans compare_eq_iff, fun _ _ => compare_eq_then,
    fun _ _ => compareIgnoringRevision_eq_places⟩

end Version

end PackagePlan
