import PackagePlan.Proofs.Dependency.Demands

/-! # What a dependency tree asks for

A tree holds or not, depending on which demands are met. A selection takes one
alternative of each choice, and a tree holds exactly if all demands of one of
its selections are met. Flattening comes to a selection, however the
alternatives score.
-/

namespace PackagePlan.DependencyTree

/-- Of the trees directly inside a choice, labels and conditions that are not met are no
alternatives. -/
def Alternative (choices : Choices) (t : DependencyTree) : Prop :=
  (∀ ls, t ≠ .labels ls) ∧ ∀ c children, t = .given c children → c.isMet choices = true

/-- The tree holds where the demands that satisfy `P` are met. -/
inductive Holds (choices : Choices) (P : Demand → Prop) : DependencyTree → Prop
  | all {children : List DependencyTree} (h : ∀ t ∈ children, Holds choices P t) :
      Holds choices P (.all children)
  | unmet {c : Condition} {children : List DependencyTree} (hc : c.isMet choices = false) :
      Holds choices P (.given c children)
  | given {c : Condition} {children : List DependencyTree}
      (h : ∀ t ∈ children, Holds choices P t) : Holds choices P (.given c children)
  | labels (ls : List Label) : Holds choices P (.labels ls)
  | package {r : Requirement} (h : P (.package r)) : Holds choices P (.package r)
  | blocker {b : Blocker} (h : P (.blocker b)) : Holds choices P (.blocker b)
  | noAlternative {children : List DependencyTree} (h : ∀ t ∈ children, ¬ t.Alternative choices) :
      Holds choices P (.any children)
  | any {t : DependencyTree} {children : List DependencyTree} (ht : t ∈ children)
      (ha : t.Alternative choices) (h : Holds choices P t) : Holds choices P (.any children)

/-- The trees of a group hold where the dependencies that satisfy `P` are met. The labels `ls` are
in effect at first and do not change inside a choice. -/
inductive HoldsUnder (choices : Choices) (P : Dependency → Prop) :
    List Label → List DependencyTree → Prop
  | nil {ls : List Label} : HoldsUnder choices P ls []
  | package {ls : List Label} {r : Requirement} {ts : List DependencyTree}
      (hp : P ⟨.package r, ls⟩) (h : HoldsUnder choices P ls ts) :
      HoldsUnder choices P ls (.package r :: ts)
  | blocker {ls : List Label} {b : Blocker} {ts : List DependencyTree}
      (hp : P ⟨.blocker b, ls⟩) (h : HoldsUnder choices P ls ts) :
      HoldsUnder choices P ls (.blocker b :: ts)
  | labels {ls new : List Label} {ts : List DependencyTree} (h : HoldsUnder choices P new ts) :
      HoldsUnder choices P ls (.labels new :: ts)
  | all {ls : List Label} {children ts : List DependencyTree}
      (hc : HoldsUnder choices P ls children) (h : HoldsUnder choices P ls ts) :
      HoldsUnder choices P ls (.all children :: ts)
  | unmet {ls : List Label} {c : Condition} {children ts : List DependencyTree}
      (hm : c.isMet choices = false) (h : HoldsUnder choices P ls ts) :
      HoldsUnder choices P ls (.given c children :: ts)
  | given {ls : List Label} {c : Condition} {children ts : List DependencyTree}
      (hc : HoldsUnder choices P ls children) (h : HoldsUnder choices P ls ts) :
      HoldsUnder choices P ls (.given c children :: ts)
  | any {ls : List Label} {children ts : List DependencyTree}
      (hc : (DependencyTree.any children).Holds choices fun d => P ⟨d, ls⟩)
      (h : HoldsUnder choices P ls ts) : HoldsUnder choices P ls (.any children :: ts)

/-- The demands of a group of trees, with one alternative of each choice. -/
inductive Selects (choices : Choices) : List DependencyTree → List Demand → Prop
  | nil : Selects choices [] []
  | package {r : Requirement} {ts : List DependencyTree} {ds : List Demand}
      (h : Selects choices ts ds) : Selects choices (.package r :: ts) (.package r :: ds)
  | blocker {b : Blocker} {ts : List DependencyTree} {ds : List Demand}
      (h : Selects choices ts ds) : Selects choices (.blocker b :: ts) (.blocker b :: ds)
  | labels {ls : List Label} {ts : List DependencyTree} {ds : List Demand}
      (h : Selects choices ts ds) : Selects choices (.labels ls :: ts) ds
  | all {children ts : List DependencyTree} {ds ds' : List Demand}
      (hc : Selects choices children ds) (h : Selects choices ts ds') :
      Selects choices (.all children :: ts) (ds ++ ds')
  | unmet {c : Condition} {children ts : List DependencyTree} {ds : List Demand}
      (hm : c.isMet choices = false) (h : Selects choices ts ds) :
      Selects choices (.given c children :: ts) ds
  | given {c : Condition} {children ts : List DependencyTree} {ds ds' : List Demand}
      (hm : c.isMet choices = true) (hc : Selects choices children ds)
      (h : Selects choices ts ds') : Selects choices (.given c children :: ts) (ds ++ ds')
  | noAlternative {children ts : List DependencyTree} {ds : List Demand}
      (hn : ∀ t ∈ children, ¬ t.Alternative choices) (h : Selects choices ts ds) :
      Selects choices (.any children :: ts) ds
  | any {t : DependencyTree} {children ts : List DependencyTree} {ds ds' : List Demand}
      (ht : t ∈ children) (ha : t.Alternative choices) (hc : Selects choices [t] ds)
      (h : Selects choices ts ds') : Selects choices (.any children :: ts) (ds ++ ds')

variable {choices : Choices} {score : Scorer} {P : Demand → Prop} {t : DependencyTree}
  {ts : List DependencyTree} {ds ds' : List Demand}

theorem HoldsUnder.of_firm {P : Dependency → Prop} {ls : List Label} {dep : Dependency}
    (h : HoldsUnder choices P ls ts) (hf : Firm choices ls ts dep) : P dep := by
  induction hf with
  | package => cases h with | package hp => exact hp
  | blocker => cases h with | blocker hp => exact hp
  | all _ ih => cases h with | all hc => exact ih hc
  | given hm _ ih =>
    cases h with
    | unmet hn =>
      rw [hm] at hn
      cases hn
    | given hc => exact ih hc
  | labels _ ih => cases h with | labels h => exact ih h
  | later ht _ ih =>
    cases h with
    | labels => exact absurd rfl (ht _)
    | package _ h | blocker _ h | all _ h | unmet _ h | given _ h | any _ h => exact ih h

theorem isAlternative_iff : t.isAlternative choices = true ↔ t.Alternative choices := by
  cases t <;> simp [isAlternative, Alternative]

namespace Selects

theorem cons (h : Selects choices [t] ds) (hs : Selects choices ts ds') :
    Selects choices (t :: ts) (ds ++ ds') := by
  cases h with
  | package h => cases h; exact .package hs
  | blocker h => cases h; exact .blocker hs
  | labels h => cases h; exact .labels hs
  | all hc h => cases h; rw [List.append_nil]; exact .all hc hs
  | unmet hm h => cases h; exact .unmet hm hs
  | given hm hc h => cases h; rw [List.append_nil]; exact .given hm hc hs
  | noAlternative hn h => cases h; exact .noAlternative hn hs
  | any ht ha hc h => cases h; rw [List.append_nil]; exact .any ht ha hc hs

theorem single (h : Selects choices ts ds) : Selects choices [.all ts] ds := by
  simpa using Selects.all h .nil

theorem holds (h : Selects choices ts ds) (hP : ∀ d ∈ ds, P d) :
    ∀ t ∈ ts, t.Holds choices P := by
  induction h with
  | nil => exact List.forall_mem_nil _
  | package _ ih =>
    obtain ⟨hr, hP⟩ := List.forall_mem_cons.1 hP
    exact List.forall_mem_cons.2 ⟨.package hr, ih hP⟩
  | blocker _ ih =>
    obtain ⟨hb, hP⟩ := List.forall_mem_cons.1 hP
    exact List.forall_mem_cons.2 ⟨.blocker hb, ih hP⟩
  | labels _ ih => exact List.forall_mem_cons.2 ⟨.labels _, ih hP⟩
  | all _ _ ihc ih =>
    obtain ⟨hPc, hP⟩ := List.forall_mem_append.1 hP
    exact List.forall_mem_cons.2 ⟨.all (ihc hPc), ih hP⟩
  | unmet hm _ ih => exact List.forall_mem_cons.2 ⟨.unmet hm, ih hP⟩
  | given _ _ _ ihc ih =>
    obtain ⟨hPc, hP⟩ := List.forall_mem_append.1 hP
    exact List.forall_mem_cons.2 ⟨.given (ihc hPc), ih hP⟩
  | noAlternative hn _ ih => exact List.forall_mem_cons.2 ⟨.noAlternative hn, ih hP⟩
  | any ht ha _ _ ihc ih =>
    obtain ⟨hPc, hP⟩ := List.forall_mem_append.1 hP
    exact List.forall_mem_cons.2 ⟨.any ht ha (ihc hPc _ (.head _)), ih hP⟩

end Selects

theorem exists_selects_of_forall
    (h : ∀ t ∈ ts, ∃ ds, Selects choices [t] ds ∧ ∀ d ∈ ds, P d) :
    ∃ ds, Selects choices ts ds ∧ ∀ d ∈ ds, P d := by
  induction ts with
  | nil => exact ⟨[], .nil, List.forall_mem_nil _⟩
  | cons t ts ih =>
    obtain ⟨⟨ds, hds, hP⟩, h⟩ := List.forall_mem_cons.1 h
    obtain ⟨ds', hds', hP'⟩ := ih h
    exact ⟨ds ++ ds', hds.cons hds', List.forall_mem_append.2 ⟨hP, hP'⟩⟩

/-- A tree holds exactly if the demands of one of its selections are met. -/
theorem holds_iff_exists_selects :
    t.Holds choices P ↔ ∃ ds, Selects choices [t] ds ∧ ∀ d ∈ ds, P d := by
  constructor
  · intro h
    induction h with
    | all _ ih =>
      obtain ⟨ds, hds, hP⟩ := exists_selects_of_forall ih
      exact ⟨ds ++ [], .all hds .nil, by simpa using hP⟩
    | unmet hc => exact ⟨[], .unmet hc .nil, List.forall_mem_nil _⟩
    | @given c children _ ih =>
      cases hc : c.isMet choices with
      | false => exact ⟨[], .unmet hc .nil, List.forall_mem_nil _⟩
      | true =>
        obtain ⟨ds, hds, hP⟩ := exists_selects_of_forall ih
        exact ⟨ds ++ [], .given hc hds .nil, by simpa using hP⟩
    | labels => exact ⟨[], .labels .nil, List.forall_mem_nil _⟩
    | package h => exact ⟨_, .package .nil, List.forall_mem_singleton.2 h⟩
    | blocker h => exact ⟨_, .blocker .nil, List.forall_mem_singleton.2 h⟩
    | noAlternative hn => exact ⟨[], .noAlternative hn .nil, List.forall_mem_nil _⟩
    | any ht ha _ ih =>
      obtain ⟨ds, hds, hP⟩ := ih
      exact ⟨ds ++ [], .any ht ha hds .nil, by simpa using hP⟩
  · rintro ⟨ds, hds, hP⟩
    exact hds.holds hP t (.head _)

section Groups

variable {ls : List Label}

theorem chooseGroup_mem {groups : List (List Demand)} (hne : groups ≠ []) :
    chooseGroup score ls groups ∈ groups := by
  rw [chooseGroup]
  split
  · next he =>
    obtain ⟨g, hg, hempty⟩ := List.any_eq_true.1 he
    exact List.isEmpty_iff.1 hempty ▸ hg
  · split
    · next g hg =>
      obtain ⟨g', hg', he⟩ := List.mem_map.1 (mem_of_firstBest hg)
      obtain ⟨-, rfl⟩ := Prod.mk.inj he
      exact hg'
    · next hn =>
      obtain ⟨g, gs, rfl⟩ := List.exists_cons_of_ne_nil hne
      rw [List.map_cons, firstBest] at hn
      split at hn
      · split at hn <;> cases hn
      · cases hn

theorem not_alternative_of_groups_eq_nil (h : groups choices score ls ts = []) :
    ∀ t ∈ ts, ¬ t.Alternative choices := by
  induction ts with
  | nil => exact List.forall_mem_nil _
  | cons t ts ih =>
    rw [groups] at h
    split at h
    · cases h
    · next ha => exact List.forall_mem_cons.2 ⟨fun h' => ha (isAlternative_iff.2 h'), ih h⟩

theorem selects_any {children : List DependencyTree}
    (h : ∀ g ∈ groups choices score ls children,
      ∃ t ∈ children, t.Alternative choices ∧ Selects choices [t] g) :
    Selects choices [.any children] (chooseGroup score ls (groups choices score ls children)) := by
  by_cases hn : groups choices score ls children = []
  · rw [hn]
    exact .noAlternative (not_alternative_of_groups_eq_nil hn) .nil
  · obtain ⟨t, ht, ha, hs⟩ := h _ (chooseGroup_mem hn)
    simpa using Selects.any ht ha hs .nil

mutual

theorem selects_group :
    ∀ t : DependencyTree, Selects choices [t] (group choices score ls t)
  | .all children => by
    rw [group]
    exact (selects_groupAll children).single
  | .any children => by
    rw [group]
    exact selects_any (exists_selects_of_mem_groups children)
  | .given c children => by
    rw [group]
    split
    · next hm => simpa using Selects.given hm (selects_groupAll children) .nil
    · next hm => exact .unmet (Bool.eq_false_iff.2 hm) .nil
  | .labels _ => by
    rw [group]
    exact .labels .nil
  | .package _ => by
    rw [group]
    exact .package .nil
  | .blocker _ => by
    rw [group]
    exact .blocker .nil

theorem selects_groupAll :
    ∀ ts : List DependencyTree, Selects choices ts (groupAll choices score ls ts)
  | [] => by
    rw [groupAll]
    exact .nil
  | t :: ts => by
    rw [groupAll]
    exact (selects_group t).cons (selects_groupAll ts)

theorem exists_selects_of_mem_groups :
    ∀ (ts : List DependencyTree), ∀ g ∈ groups choices score ls ts,
      ∃ t ∈ ts, t.Alternative choices ∧ Selects choices [t] g
  | [], _, h => by
    rw [groups] at h
    cases h
  | t :: ts, _, h => by
    have later : ∀ g ∈ groups choices score ls ts,
        ∃ t' ∈ t :: ts, t'.Alternative choices ∧ Selects choices [t'] g := fun g hg => by
      obtain ⟨t', ht', hs⟩ := exists_selects_of_mem_groups ts g hg
      exact ⟨t', .tail _ ht', hs⟩
    rw [groups] at h
    split at h
    · next ha =>
      obtain rfl | h := List.mem_cons.1 h
      · exact ⟨t, .head _, isAlternative_iff.1 ha, selects_group t⟩
      · exact later _ h
    · exact later _ h

end

end Groups

mutual

theorem selects_flatten : ∀ (ls : List Label) (t : DependencyTree),
    Selects choices [t] ((flatten choices score ls t).map (·.demand))
  | ls, .all children => by
    rw [flatten]
    exact (selects_flattenAll ls children).single
  | ls, .any children => by
    rw [flatten, List.map_map]
    simpa [Function.comp_def] using selects_any (exists_selects_of_mem_groups children)
  | ls, .given c children => by
    rw [flatten]
    split
    · next hm => simpa using Selects.given hm (selects_flattenAll ls children) .nil
    · next hm => exact .unmet (Bool.eq_false_iff.2 hm) .nil
  | _, .labels _ => by
    rw [flatten]
    exact .labels .nil
  | _, .package _ => by
    rw [flatten]
    exact .package .nil
  | _, .blocker _ => by
    rw [flatten]
    exact .blocker .nil

theorem selects_flattenAll : ∀ (ls : List Label) (ts : List DependencyTree),
    Selects choices ts ((flattenAll choices score ls ts).map (·.demand))
  | _, [] => by
    rw [flattenAll]
    exact .nil
  | ls, t :: ts => by
    by_cases ht : ∃ new, t = .labels new
    · obtain ⟨new, rfl⟩ := ht
      rw [flattenAll]
      exact .labels (selects_flattenAll new ts)
    · rw [flattenAll_cons fun new he => ht ⟨new, he⟩, List.map_append]
      exact (selects_flatten ls t).cons (selects_flattenAll ls ts)

end

theorem selects_dependencies :
    Selects choices [t] ((t.dependencies choices score).map (·.demand)) :=
  selects_flatten Label.initial t

/-- Flattening loses nothing of what a tree means: where all dependencies are met the tree holds,
whatever the alternatives score. -/
theorem holds_of_dependencies (h : ∀ dep ∈ t.dependencies choices score, P dep.demand) :
    t.Holds choices P :=
  holds_iff_exists_selects.2 ⟨_, selects_dependencies, List.forall_mem_map.2 h⟩

namespace Sample

/-- `|| ( ( a ssl? ( b ) ) || ( c ( d e ) ) )` -/
def nested : DependencyTree :=
  .any
    [.all [.package (.named "a"), .given ⟨"ssl", false⟩ [.package (.named "b")]],
      .any [.package (.named "c"), .all [.package (.named "d"), .package (.named "e")]]]

def ssl : Choices := OrderedMap.empty.insert "ssl" true

def liking : Scorer := fun dep =>
  if dep.demand.packageName = "e" then 2 else if dep.demand.packageName = "d" then 1 else 0

example : (nested.dependencies ssl liking).map (·.demand.packageName) = ["d", "e"] := by decide

end Sample

theorem holds_of_dependencies_nested :
    (∀ dep ∈ Sample.nested.dependencies Sample.ssl Sample.liking,
      dep.demand.packageName ∈ ["d", "e"]) ∧
    Sample.nested.Holds Sample.ssl (·.packageName ∈ ["d", "e"]) := by
  have h : ∀ dep ∈ Sample.nested.dependencies Sample.ssl Sample.liking,
      dep.demand.packageName ∈ ["d", "e"] := by decide
  exact ⟨h, holds_of_dependencies (P := fun d => d.packageName ∈ ["d", "e"]) h⟩

end PackagePlan.DependencyTree
