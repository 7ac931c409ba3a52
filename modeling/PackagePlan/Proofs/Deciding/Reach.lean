import PackagePlan.Proofs.Deciding.Closure
import PackagePlan.Proofs.Dependency.Demands

/-! # Reachable resolvents

All ids come from the database, and all that they depend on is written there.
So constraints lead to no other resolvents than those whose name and slot are
known before anything is decided, and of these there are finitely many.
-/

namespace PackagePlan.Setting

open DependencyTree

variable {σ : Setting} {s : DecidingState} {r : Resolvent} {id : PackageId} {req : Requirement}
  {dest : Destination} {p : Resolvent × Constraint}

section Known

theorem mem_knownIds_of_mem_idsOf {db : Database} {n : PackageName} (h : id ∈ db.idsOf n) :
    id ∈ knownIds db := by
  rw [Database.idsOf, OrderedMap.getD] at h
  cases hn : db.ids.get? n with
  | none =>
    rw [hn] at h
    cases h
  | some ids =>
    rw [hn] at h
    exact List.mem_append_left _ (List.mem_flatten.2 ⟨ids, OrderedMap.mem_values_of_get? hn, h⟩)

theorem mem_knownIds_of_mem_find {db : Database} {source : IdSource} {f : IdFilter}
    (h : id ∈ db.find source f) : id ∈ knownIds db := by
  have hm := (List.mem_filter.1 h).1
  cases source with
  | package n => exact mem_knownIds_of_mem_idsOf hm
  | accepted r => exact mem_knownIds_of_mem_idsOf (List.mem_filter.1 hm).1
  | installed root => exact List.mem_append_right _ (List.mem_filter.1 hm).1

theorem mem_of_bestOf {ids : List PackageId} (h : IdSelection.bestOf ids = some id) : id ∈ ids :=
  IdSelection.mem_of_mem_sortIds (List.mem_of_getLast? h)

theorem mem_knownIds_of_mem_present (h : id ∈ σ.present r) : id ∈ knownIds σ.db :=
  mem_knownIds_of_mem_find (mem_sortBy.1 h)

theorem mem_knownIds_of_mem_candidates (h : id ∈ σ.candidates r) : id ∈ knownIds σ.db :=
  mem_knownIds_of_mem_find
    (List.mem_filter.1 (mem_sortBy.1 ((dropRepeats_sublist _).subset h))).1

theorem Suits.mem_knownIds {cs : List Constraint} {d : Decision} (h : σ.Suits r cs d)
    (hf : followed? d = some id) : id ∈ knownIds σ.db := by
  cases d with
  | existing k =>
    rw [followed?] at hf
    split at hf
    · cases hf
      exact mem_knownIds_of_mem_present h.1
    · cases hf
  | change c =>
    rw [followed?] at hf
    split at hf
    · cases hf
      exact mem_knownIds_of_mem_candidates h.2.1
    · cases hf
  | _ => cases hf

theorem mem_knownRequirements_of_mem_dependenciesOf {reg : Registry} {dep : Dependency}
    (h : dep ∈ σ.dependenciesOf reg r id) : dep.demand.requirement ∈ knownRequirements σ.db := by
  have hm := mem_requirements_of_dependencies h
  rw [Database.treeOf, OrderedMap.getD] at hm
  cases hid : σ.db.trees.get? id with
  | none =>
    rw [hid] at hm
    cases hm
  | some tree =>
    rw [hid] at hm
    exact List.mem_flatMap.2 ⟨tree, OrderedMap.mem_values_of_get? hid, hm⟩

end Known

section Places

/-- The resolvents that can come up from a state on. -/
def places (σ : Setting) (s : DecidingState) : List Resolvent :=
  (σ.reachableNames s).flatMap fun n =>
    (σ.reachableSlots s).flatMap fun slot => Destination.all.map (Resolvent.mk n slot)

theorem length_places : (σ.places s).length = σ.resolventBound s := by
  simp [places, resolventBound, List.length_flatMap, List.map_const', Nat.mul_assoc]

theorem mem_places_iff :
    r ∈ σ.places s ↔ r.package ∈ σ.reachableNames s ∧ r.slot ∈ σ.reachableSlots s := by
  simp only [places, List.mem_flatMap, List.mem_map]
  constructor
  · rintro ⟨n, hn, slot, hs, dest, -, rfl⟩
    exact ⟨hn, hs⟩
  · rintro ⟨hn, hs⟩
    exact ⟨r.package, hn, r.slot, hs, r.destination, by cases r.destination <;> decide, rfl⟩

theorem mem_places_of_mem_keys (h : r ∈ s.registry.keys) : r ∈ σ.places s := by
  refine mem_places_iff.2 ⟨?_, ?_⟩
  · exact List.mem_append_left _ (List.mem_append_left _ (List.mem_map_of_mem h))
  · exact .tail _ (List.mem_append_left _ (List.mem_append_left _ (List.mem_map_of_mem h)))

theorem known_of_mem_knownIds (h : id ∈ knownIds σ.db) :
    id.name ∈ σ.reachableNames s ∧ id.slot ∈ σ.reachableSlots s := by
  refine ⟨?_, ?_⟩
  · exact List.mem_append_left _ (List.mem_append_right _ (List.mem_map_of_mem h))
  · exact .tail _ (List.mem_append_left _ (List.mem_append_right _ (List.mem_map_of_mem h)))

theorem known_of_mem_knownRequirements (h : req ∈ knownRequirements σ.db) :
    req.name ∈ σ.reachableNames s ∧ req.slot ∈ σ.reachableSlots s := by
  refine ⟨?_, ?_⟩
  · exact List.mem_append_right _ (List.mem_map_of_mem h)
  · exact .tail _ (List.mem_append_right _ (List.mem_map_of_mem h))

theorem ofId_mem_places (h : id ∈ knownIds σ.db) : Resolvent.ofId id dest ∈ σ.places s :=
  mem_places_iff.2 (known_of_mem_knownIds h)

theorem mem_places_of_mem_resolventsMeeting {reason : Reason}
    (h : r ∈ σ.resolventsMeeting req reason) : r ∈ σ.places s := by
  obtain ⟨id, hid, hr⟩ := List.mem_flatMap.1 (List.mem_eraseDups.1 h)
  obtain ⟨dest, -, rfl⟩ := List.mem_map.1 hr
  refine ofId_mem_places ?_
  obtain hid | hid := List.mem_append.1 hid
  · exact mem_knownIds_of_mem_find (mem_of_bestOf (Option.mem_toList.1 hid))
  · exact mem_knownIds_of_mem_find (IdSelection.mem_of_mem_bestPerSlot hid)

theorem mem_places_of_mem_resolventsMissing {reason : Reason}
    (hreq : req ∈ knownRequirements σ.db) (h : r ∈ σ.resolventsMissing req reason) :
    r ∈ σ.places s := by
  obtain ⟨dest, -, rfl⟩ := List.mem_map.1 h
  obtain ⟨hname, hslot⟩ := known_of_mem_knownRequirements (s := s) hreq
  refine mem_places_iff.2 ⟨hname, ?_⟩
  cases hs : req.slot with
  | some slot =>
    rw [hs] at hslot
    exact hslot
  | none =>
    cases hbest : IdSelection.bestOf (σ.db.find (.package req.name) .all) with
    | none => exact .head _
    | some id =>
      exact (known_of_mem_knownIds (mem_knownIds_of_mem_find (mem_of_bestOf hbest))).2

theorem mem_places_of_mem_resolventsFor {reason : Reason} (hreq : req ∈ knownRequirements σ.db)
    (h : r ∈ σ.resolventsFor req reason) : r ∈ σ.places s := by
  rw [resolventsFor] at h
  split at h
  · exact mem_places_of_mem_resolventsMissing hreq h
  · exact mem_places_of_mem_resolventsMeeting h

theorem mem_places_of_mem_resolventsBlocked {b : Blocker}
    (hreq : b.blocked ∈ knownRequirements σ.db) (h : r ∈ σ.resolventsBlocked b) :
    r ∈ σ.places s := by
  obtain ⟨hname, hslot⟩ := known_of_mem_knownRequirements (s := s) hreq
  rw [resolventsBlocked] at h
  split at h
  · next slot hs =>
    obtain rfl := List.mem_singleton.1 h
    exact mem_places_iff.2 ⟨hname, hs ▸ hslot⟩
  · obtain ⟨id, hid, rfl⟩ := List.mem_map.1 h
    exact ofId_mem_places (mem_knownIds_of_mem_find (IdSelection.mem_of_mem_bestPerSlot hid))

theorem mem_places_of_viaBinary (hid : id ∈ knownIds σ.db)
    (h : p ∈ σ.viaBinaryConstraints r id) : p.1 ∈ σ.places s := by
  rw [viaBinaryConstraints] at h
  split at h
  · obtain rfl := List.mem_singleton.1 h
    exact ofId_mem_places hid
  · cases h

theorem mem_places_of_dependency {d : Decision} {dep : Dependency}
    (hreq : dep.demand.requirement ∈ knownRequirements σ.db)
    (h : p ∈ σ.dependencyConstraints r d id dep) : p.1 ∈ σ.places s := by
  obtain ⟨demand, labels⟩ := dep
  cases demand with
  | package req =>
    simp only [dependencyConstraints] at h
    split at h
    · cases h
    · obtain ⟨place, hplace, rfl⟩ := List.mem_map.1 h
      exact mem_places_of_mem_resolventsFor hreq hplace
  | blocker b =>
    simp only [dependencyConstraints] at h
    split at h
    · cases h
    · obtain ⟨place, hplace, rfl⟩ := List.mem_map.1 h
      exact mem_places_of_mem_resolventsBlocked hreq hplace

end Places

end PackagePlan.Setting
