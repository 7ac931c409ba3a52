import PackagePlan.Proofs.Dependency.Firm

/-! # Demands of a tree

Flattening a dependency tree makes nothing up: whatever the choices of the
package are and however the alternatives score, each dependency is one of the
demands that the tree consists of.
-/

namespace PackagePlan.DependencyTree

variable {choices : Choices} {score : Scorer} {ls : List Label} {d : Demand}

theorem mem_of_firstBest {α : Type} {l : List (Int × α)} {x : Int × α}
    (h : firstBest l = some x) : x ∈ l := by
  induction l generalizing x with
  | nil => cases h
  | cons y l ih =>
    rw [firstBest] at h
    split at h
    · next z hz =>
      split at h
      · cases h
        exact .tail _ (ih hz)
      · cases h
        exact .head _
    · cases h
      exact .head _

theorem mem_of_mem_chooseGroup {groups : List (List Demand)}
    (h : d ∈ chooseGroup score ls groups) : ∃ g ∈ groups, d ∈ g := by
  rw [chooseGroup] at h
  split at h
  · cases h
  · split at h
    · next g hg =>
      obtain ⟨g', hg', he⟩ := List.mem_map.1 (mem_of_firstBest hg)
      obtain ⟨-, rfl⟩ := Prod.mk.inj he
      exact ⟨_, hg', h⟩
    · cases h

mutual

theorem mem_requirements_of_group :
    ∀ {t : DependencyTree}, d ∈ group choices score ls t → d.requirement ∈ t.requirements
  | .all _, h => by
    rw [group] at h
    rw [requirements]
    exact mem_requirements_of_groupAll h
  | .any _, h => by
    rw [group] at h
    obtain ⟨g, hg, hd⟩ := mem_of_mem_chooseGroup h
    rw [requirements]
    exact mem_requirements_of_groups hg hd
  | .given c _, h => by
    rw [group] at h
    rw [requirements]
    split at h
    · exact mem_requirements_of_groupAll h
    · cases h
  | .labels _, h => by
    rw [group] at h
    cases h
  | .package r, h => by
    rw [group] at h
    obtain rfl := List.mem_singleton.1 h
    exact .head _
  | .blocker b, h => by
    rw [group] at h
    obtain rfl := List.mem_singleton.1 h
    exact .head _

theorem mem_requirements_of_groupAll :
    ∀ {ts : List DependencyTree}, d ∈ groupAll choices score ls ts →
      d.requirement ∈ requirementsOf ts
  | [], h => by
    rw [groupAll] at h
    cases h
  | t :: ts, h => by
    rw [groupAll] at h
    rw [requirementsOf]
    exact List.mem_append.2 ((List.mem_append.1 h).imp mem_requirements_of_group
      mem_requirements_of_groupAll)

theorem mem_requirements_of_groups :
    ∀ {ts : List DependencyTree} {g : List Demand}, g ∈ groups choices score ls ts → d ∈ g →
      d.requirement ∈ requirementsOf ts
  | [], _, h, _ => by
    rw [groups] at h
    cases h
  | t :: ts, _, h, hd => by
    rw [groups] at h
    rw [requirementsOf]
    split at h
    · obtain rfl | h := List.mem_cons.1 h
      · exact List.mem_append_left _ (mem_requirements_of_group hd)
      · exact List.mem_append_right _ (mem_requirements_of_groups h hd)
    · exact List.mem_append_right _ (mem_requirements_of_groups h hd)

end

mutual

theorem mem_requirements_of_flatten : ∀ {t : DependencyTree} {ls : List Label} {dep : Dependency},
    dep ∈ flatten choices score ls t → dep.demand.requirement ∈ t.requirements
  | .all _, _, _, h => by
    rw [flatten] at h
    rw [requirements]
    exact mem_requirements_of_flattenAll h
  | .any children, ls, _, h => by
    rw [flatten] at h
    obtain ⟨d, hd, rfl⟩ := List.mem_map.1 h
    exact mem_requirements_of_group (by rwa [group])
  | .given c _, _, _, h => by
    rw [flatten] at h
    rw [requirements]
    split at h
    · exact mem_requirements_of_flattenAll h
    · cases h
  | .labels _, _, _, h => by
    rw [flatten] at h
    cases h
  | .package r, _, _, h => by
    rw [flatten] at h
    obtain rfl := List.mem_singleton.1 h
    exact .head _
  | .blocker b, _, _, h => by
    rw [flatten] at h
    obtain rfl := List.mem_singleton.1 h
    exact .head _

theorem mem_requirements_of_flattenAll :
    ∀ {ts : List DependencyTree} {ls : List Label} {dep : Dependency},
      dep ∈ flattenAll choices score ls ts → dep.demand.requirement ∈ requirementsOf ts
  | [], _, _, h => by
    rw [flattenAll] at h
    cases h
  | t :: ts, _, _, h => by
    rw [requirementsOf]
    by_cases ht : ∃ new, t = .labels new
    · obtain ⟨new, rfl⟩ := ht
      rw [flattenAll] at h
      exact List.mem_append_right _ (mem_requirements_of_flattenAll h)
    · rw [flattenAll_cons fun new he => ht ⟨new, he⟩] at h
      exact List.mem_append.2 ((List.mem_append.1 h).imp mem_requirements_of_flatten
        mem_requirements_of_flattenAll)

end

theorem mem_requirements_of_dependencies {t : DependencyTree} {dep : Dependency}
    (h : dep ∈ t.dependencies choices score) : dep.demand.requirement ∈ t.requirements :=
  mem_requirements_of_flatten h

end PackagePlan.DependencyTree
