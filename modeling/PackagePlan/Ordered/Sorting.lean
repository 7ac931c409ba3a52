/-! # Sorting

A stable sort by a comparison, and the removal of repeated neighbours.
-/

namespace PackagePlan

universe u

variable {α : Type u}

/-- Puts `a` before the first element that it is not greater than. -/
def insertBy (cmp : α → α → Ordering) (a : α) : List α → List α
  | [] => [a]
  | b :: l => if cmp a b = .gt then b :: insertBy cmp a l else a :: b :: l

/-- Ascending; elements that compare equal stay in their order. -/
def sortBy (cmp : α → α → Ordering) (l : List α) : List α := l.foldr (insertBy cmp) []

/-- The first of every run of equal elements in `a :: l`. -/
def dropRepeatsFrom [BEq α] (a : α) : List α → List α
  | [] => [a]
  | b :: l => if a == b then dropRepeatsFrom a l else a :: dropRepeatsFrom b l

def dropRepeats [BEq α] : List α → List α
  | [] => []
  | a :: l => dropRepeatsFrom a l

end PackagePlan
