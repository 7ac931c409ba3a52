import PackagePlan.Ordered.Sorting

/-! # What sorting keeps

Sorting by insertion comes to the same as the stable sort of the library, from
which it follows that a list is permuted and put in order. Dropping repeated
neighbours loses no element up to equality, and nothing at all where no two are
equal.
-/

namespace PackagePlan

open Std

universe u

variable {α : Type u}

section

variable {cmp : α → α → Ordering} {a : α} {l l₁ l₂ : List α}

theorem insertBy_append (h₁ : ∀ b ∈ l₁, cmp a b = .gt) (h₂ : ∀ b ∈ l₂, cmp a b ≠ .gt) :
    insertBy cmp a (l₁ ++ l₂) = l₁ ++ a :: l₂ := by
  induction l₁ with
  | nil =>
    cases l₂ with
    | nil => rfl
    | cons b l₂ => exact if_neg (h₂ b (.head _))
  | cons b l₁ ih =>
    rw [List.cons_append, insertBy, if_pos (h₁ b (.head _)), ih fun x hx => h₁ x (.tail _ hx)]
    rfl

variable (cmp) [TransCmp cmp]

theorem ne_gt_trans (a b c : α) (hab : (cmp a b != .gt) = true) (hbc : (cmp b c != .gt) = true) :
    (cmp a c != .gt) = true := by
  have hac := TransCmp.isLE_trans (Ordering.isLE_iff_ne_gt.2 (bne_iff_ne.1 hab))
    (Ordering.isLE_iff_ne_gt.2 (bne_iff_ne.1 hbc))
  exact bne_iff_ne.2 (Ordering.isLE_iff_ne_gt.1 hac)

theorem ne_gt_total (a b : α) : (cmp a b != .gt || cmp b a != .gt) = true := by
  rw [show cmp b a = (cmp a b).swap from OrientedCmp.eq_swap]
  cases cmp a b <;> rfl

theorem sortBy_eq_mergeSort (l : List α) :
    sortBy cmp l = l.mergeSort fun a b => cmp a b != .gt := by
  induction l with
  | nil => simp [sortBy]
  | cons a l ih =>
    obtain ⟨l₁, l₂, hsort, hrest, h₁⟩ :=
      List.mergeSort_cons (ne_gt_trans cmp) (ne_gt_total cmp) a l
    have hordered := List.pairwise_mergeSort (ne_gt_trans cmp) (ne_gt_total cmp) (a :: l)
    rw [hsort] at hordered ⊢
    have h₂ := (List.pairwise_cons.1 (List.pairwise_append.1 hordered).2.1).1
    change insertBy cmp a (sortBy cmp l) = _
    rw [ih, hrest]
    exact insertBy_append (fun b hb => by simpa using h₁ b hb) fun b hb => bne_iff_ne.1 (h₂ b hb)

theorem sortBy_perm (l : List α) : (sortBy cmp l).Perm l := by
  rw [sortBy_eq_mergeSort]
  exact List.mergeSort_perm l _

theorem pairwise_sortBy (l : List α) : (sortBy cmp l).Pairwise fun a b => cmp a b ≠ .gt := by
  rw [sortBy_eq_mergeSort]
  exact (List.pairwise_mergeSort (ne_gt_trans cmp) (ne_gt_total cmp) l).imp bne_iff_ne.1

variable {cmp}

theorem mem_sortBy {x : α} : x ∈ sortBy cmp l ↔ x ∈ l := (sortBy_perm cmp l).mem_iff

theorem sortBy_eq_of_perm {l' : List α} (hp : l.Perm l')
    (h : ∀ a ∈ l, ∀ b ∈ l, cmp a b = .eq → a = b) : sortBy cmp l = sortBy cmp l' := by
  have perm : (sortBy cmp l).Perm (sortBy cmp l') :=
    (sortBy_perm cmp l).trans (hp.trans (sortBy_perm cmp l').symm)
  refine perm.eq_of_pairwise (fun a b ha hb hab hba => ?_) (pairwise_sortBy cmp l)
    (pairwise_sortBy cmp l')
  refine h a (mem_sortBy.1 ha) b (hp.mem_iff.2 (mem_sortBy.1 hb)) ?_
  rw [show cmp b a = (cmp a b).swap from OrientedCmp.eq_swap] at hba
  cases he : cmp a b with
  | lt => exact absurd (by rw [he]; rfl) hba
  | eq => rfl
  | gt => exact absurd he hab

end

section

variable [BEq α]

theorem dropRepeatsFrom_sublist (a : α) (l : List α) : (dropRepeatsFrom a l).Sublist (a :: l) := by
  induction l generalizing a with
  | nil => exact .refl _
  | cons b l ih =>
    rw [dropRepeatsFrom]
    split
    · exact (ih a).trans (.cons_cons a (.cons b (.refl l)))
    · exact .cons_cons a (ih b)

theorem dropRepeats_sublist (l : List α) : (dropRepeats l).Sublist l := by
  cases l with
  | nil => exact .slnil
  | cons a l => exact dropRepeatsFrom_sublist a l

theorem dropRepeats_eq_self {l : List α} (h : l.Pairwise fun a b => (a == b) = false) :
    dropRepeats l = l := by
  cases l with
  | nil => rfl
  | cons a l =>
    rw [dropRepeats]
    induction l generalizing a with
    | nil => rfl
    | cons b l ih =>
      obtain ⟨ha, hl⟩ := List.pairwise_cons.1 h
      rw [dropRepeatsFrom, ha b (.head _), if_neg Bool.false_ne_true, ih b hl]

end

end PackagePlan
