import PackagePlan.Dependency.Flatten

/-! # Firm dependencies

A leaf of a dependency tree is firm if no choice of one stands above it and
all conditions above it hold. Whatever the alternatives score, the firm leaves
are among the dependencies.
-/

namespace PackagePlan.DependencyTree

/-- The firm leaves of a group of trees in which `ls` are the labels in effect at first. -/
inductive Firm (choices : Choices) : List Label → List DependencyTree → Dependency → Prop
  | package {ls : List Label} {r : Requirement} {ts : List DependencyTree} :
      Firm choices ls (.package r :: ts) ⟨.package r, ls⟩
  | blocker {ls : List Label} {b : Blocker} {ts : List DependencyTree} :
      Firm choices ls (.blocker b :: ts) ⟨.blocker b, ls⟩
  | all {ls : List Label} {children ts : List DependencyTree} {dep : Dependency}
      (h : Firm choices ls children dep) : Firm choices ls (.all children :: ts) dep
  | given {ls : List Label} {c : Condition} {children ts : List DependencyTree}
      {dep : Dependency} (hc : c.isMet choices = true) (h : Firm choices ls children dep) :
      Firm choices ls (.given c children :: ts) dep
  | labels {ls new : List Label} {ts : List DependencyTree} {dep : Dependency}
      (h : Firm choices new ts dep) : Firm choices ls (.labels new :: ts) dep
  | later {ls : List Label} {t : DependencyTree} {ts : List DependencyTree} {dep : Dependency}
      (ht : ∀ new, t ≠ .labels new) (h : Firm choices ls ts dep) : Firm choices ls (t :: ts) dep

variable {choices : Choices} {score : Scorer} {ls : List Label} {t : DependencyTree}
  {ts : List DependencyTree} {dep : Dependency}

theorem flattenAll_cons (ht : ∀ new, t ≠ .labels new) :
    flattenAll choices score ls (t :: ts) =
      flatten choices score ls t ++ flattenAll choices score ls ts := by
  rw [flattenAll]
  exact ht

theorem mem_flattenAll_of_firm (h : Firm choices ls ts dep) :
    dep ∈ flattenAll choices score ls ts := by
  induction h with
  | package | blocker => simp [flattenAll, flatten]
  | all _ ih => simp [flattenAll, flatten, ih]
  | given hc _ ih => simp [flattenAll, flatten, hc, ih]
  | labels _ ih => rwa [flattenAll]
  | later ht _ ih =>
    rw [flattenAll_cons ht]
    exact List.mem_append_right _ ih

theorem mem_dependencies_of_firm (h : Firm choices Label.initial [t] dep) :
    dep ∈ t.dependencies choices score := by
  rw [dependencies]
  cases h with
  | package | blocker => simp [flatten]
  | all h => rw [flatten]; exact mem_flattenAll_of_firm h
  | given hc h => rw [flatten, if_pos hc]; exact mem_flattenAll_of_firm h
  | labels h => cases h
  | later _ h => cases h

end PackagePlan.DependencyTree
