import PackagePlan.Version.Range
import PackagePlan.Proofs.Version.Order

/-! # Ranges as intervals

A range none of whose parts excludes a single version accepts, with any two
versions, all versions between them. So a version that it rejects stands below
all versions that it accepts, or above all of them.
-/

namespace PackagePlan

open Std

/-- Where two versions satisfy `p`, all versions between them do. -/
def Contiguous (p : Version → Bool) : Prop :=
  ∀ a b c : Version, (compare a b).isLE → (compare b c).isLE → p a → p c → p b

/-- `cmp` may hold versions for equal that differ, but it turns none round. -/
def Coarsens (cmp : Version → Version → Ordering) : Prop :=
  ∀ a b : Version, (compare a b).isLE → (cmp a b).isLE

namespace Version

variable {cmp : Version → Version → Ordering} {l m n : List Nat} {v : Version}

theorem compare_coarsens : Coarsens (compare : Version → Version → Ordering) := fun _ _ h => h

theorem compareIgnoringRevision_coarsens : Coarsens compareIgnoringRevision := by
  intro a b h
  rw [compare_eq_then] at h
  exact Ordering.isLE_left_of_isLE_then h

theorem components_coarsens : Coarsens (compareOn components) := by
  intro a b h
  have hsame := compareIgnoringRevision_coarsens a b h
  exact Ordering.isLE_left_of_isLE_then hsame

/-- Among lists, those that begin with `l` stand together: where a list and a later one have the
first number of `l`, the lists between them can have no other. -/
theorem prefix_of_between {l' : List Nat} (hmn : (compare m n).isLE) (hnl : (compare n l').isLE)
    (hm : l <+: m) (hl' : l <+: l') : l <+: n := by
  induction l generalizing m n l' with
  | nil => exact List.nil_prefix
  | cons x l ih =>
    obtain ⟨m, rfl⟩ := hm
    obtain ⟨l', rfl⟩ := hl'
    cases n with
    | nil => cases hmn
    | cons y n =>
      rw [List.cons_append, List.compare_cons_cons] at hmn hnl
      have hxy : compare x y = .eq := by
        have hle := Ordering.isLE_left_of_isLE_then hmn
        have hge := Ordering.isLE_left_of_isLE_then hnl
        rw [Nat.isLE_compare] at hle hge
        exact Nat.compare_eq_eq.2 (Nat.le_antisymm hle hge)
      obtain rfl := Nat.compare_eq_eq.1 hxy
      rw [hxy, Ordering.eq_then] at hmn hnl
      rw [List.cons_prefix_cons]
      exact ⟨rfl, ih hmn hnl (List.prefix_append _ _) (List.prefix_append _ _)⟩

end Version

namespace Contiguous

variable {cmp : Version → Version → Ordering} {p q : Version → Bool}

theorem and (hp : Contiguous p) (hq : Contiguous q) : Contiguous fun w => p w && q w := by
  intro a b c hab hbc ha hc
  rw [Bool.and_eq_true] at ha hc ⊢
  exact ⟨hp a b c hab hbc ha.1 hc.1, hq a b c hab hbc ha.2 hc.2⟩

section Comparisons

variable [TransCmp cmp] (h : Coarsens cmp) (v : Version)
include h

theorem atMost : Contiguous fun w => (cmp w v).isLE := by
  intro a b c _ hbc _ hc
  exact TransCmp.isLE_trans (h b c hbc) hc

theorem atLeast : Contiguous fun w => (cmp w v).isGE := by
  intro a b c hab _ ha _
  exact TransCmp.isGE_trans (OrientedCmp.isGE_of_isLE (h a b hab)) ha

theorem lessThan : Contiguous fun w => cmp w v == .lt := by
  intro a b c _ hbc _ hc
  rw [beq_iff_eq] at hc ⊢
  exact TransCmp.lt_of_isLE_of_lt (h b c hbc) hc

theorem moreThan : Contiguous fun w => cmp w v == .gt := by
  intro a b c hab _ ha _
  rw [beq_iff_eq] at ha ⊢
  exact OrientedCmp.gt_of_lt (TransCmp.lt_of_lt_of_isLE (OrientedCmp.lt_of_gt ha) (h a b hab))

theorem equal : Contiguous fun w => cmp w v == .eq := by
  have both : (fun w => cmp w v == .eq) = fun w => (cmp w v).isLE && (cmp w v).isGE := by
    ext w
    cases cmp w v <;> rfl
  rw [both]
  exact (atMost h v).and (atLeast h v)

end Comparisons

theorem startsWith (v : Version) : Contiguous fun w => w.startsWith v := by
  intro a b c hab hbc ha hc
  simp only [Version.startsWith, List.isPrefixOf_iff_prefix] at ha hc ⊢
  exact Version.prefix_of_between (Version.components_coarsens a b hab)
    (Version.components_coarsens b c hbc) ha hc

theorem below_or_above (hp : Contiguous p) {w : Version} (hw : p w = false) :
    (∀ a, p a → compare w a = .lt) ∨ ∀ a, p a → compare w a = .gt := by
  by_cases hbelow : ∀ a, p a → compare w a = .lt
  · exact .inl hbelow
  · obtain ⟨a, hnot⟩ := Classical.not_forall.1 hbelow
    obtain ⟨ha, hlow⟩ := Classical.not_imp.1 hnot
    have haw : (compare a w).isLE := OrientedCmp.isLE_of_isGE (Ordering.ne_lt_iff_isGE.1 hlow)
    refine .inr fun c hc => ?_
    by_cases hwc : (compare w c).isLE
    · rw [hp a w c haw hwc ha hc] at hw
      cases hw
    · exact Ordering.isLE_eq_false.1 (Bool.eq_false_iff.2 hwc)

end Contiguous

namespace VersionRange

def ExcludesNone : VersionRange → Prop
  | notEqual _ => False
  | both r s => r.ExcludesNone ∧ s.ExcludesNone
  | _ => True

theorem ExcludesNone.contiguous {r : VersionRange} (h : r.ExcludesNone) : Contiguous r.accepts := by
  induction r with
  | any => exact fun _ _ _ _ _ _ _ => rfl
  | exact v => exact .equal Version.compare_coarsens v
  | newerThan v => exact .moreThan Version.compare_coarsens v
  | atLeast v =>
    simp only [accepts, bne, ← Ordering.isGE_eq_not_beq_lt]
    exact .atLeast Version.compare_coarsens v
  | olderThan v => exact .lessThan Version.compare_coarsens v
  | atMost v =>
    simp only [accepts, bne, ← Ordering.isLE_eq_not_beq_gt]
    exact .atMost Version.compare_coarsens v
  | notEqual v => exact h.elim
  | sameIgnoringRevision v => exact .equal Version.compareIgnoringRevision_coarsens v
  | startsWith v => exact .startsWith v
  | both r s ihr ihs => exact (ihr h.1).and (ihs h.2)

/-- A range of which no part excludes single versions is an interval of the order of versions: with
two versions it accepts what is between them, and what it rejects is not among what it accepts. -/
theorem accepts_interval {r : VersionRange} (h : r.ExcludesNone) :
    (∀ a b c : Version, (compare a b).isLE → (compare b c).isLE →
      r.accepts a → r.accepts c → r.accepts b) ∧
    ∀ w, r.accepts w = false →
      (∀ a, r.accepts a → compare w a = .lt) ∨ ∀ a, r.accepts a → compare w a = .gt :=
  ⟨h.contiguous, fun _ => h.contiguous.below_or_above⟩

namespace Sample

def candidate (revision : Nat) : Version :=
  ⟨"1.2.3b_rc2-r" ++ toString revision, [1, 2, 3], some 'b', [(.rc, 2)], revision⟩

/-- What is asked for by `=1.2*, ~1.2.3b_rc2, >=1.2.3b_rc2-r1`. -/
def candidates : VersionRange :=
  both (startsWith ⟨"1.2", [1, 2], none, [], 0⟩)
    (both (sameIgnoringRevision (candidate 0)) (atLeast (candidate 1)))

end Sample

open Sample in
theorem accepts_interval_candidates : candidates.ExcludesNone ∧
    candidates.accepts (candidate 1) ∧ candidates.accepts (candidate 5) ∧
      candidates.accepts (candidate 0) = false ∧ candidates.accepts (candidate 3) ∧
        ((∀ a, candidates.accepts a → compare (candidate 0) a = .lt) ∨
          ∀ a, candidates.accepts a → compare (candidate 0) a = .gt) := by
  have h : candidates.ExcludesNone := ⟨trivial, trivial, trivial⟩
  obtain ⟨between, outside⟩ := accepts_interval h
  exact ⟨h, by decide, by decide, by decide,
    between (candidate 1) (candidate 3) (candidate 5) (by decide) (by decide) (by decide)
      (by decide),
    outside (candidate 0) (by decide)⟩

end VersionRange

end PackagePlan
