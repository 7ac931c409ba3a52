import Mathlib.Data.List.Pairwise
import PackagePlan.Package.Database
import PackagePlan.Proofs.Ordered.Lookup
import PackagePlan.Proofs.Ordered.Sorting
import PackagePlan.Proofs.Package.Identity

/-! # What databases hold

A database that was filled by adding ids and sets lists every id once, under
its own name. Selecting the best id of each slot finds one for every slot.
-/

namespace PackagePlan

open Std

instance : TransCmp PackageId.comparePreference :=
  inferInstanceAs (TransCmp (compareLex (compareOn (·.version)) (compareLex (compareOn (·.origin))
    (fun a b : PackageId => compareOn (·.repository) b a))))

namespace Database

/-- The databases that adding ids and sets leads to. -/
inductive Built : Database → Prop
  | empty : Built .empty
  | insert {db : Database} (h : Built db) (id : PackageId) (tree : DependencyTree) :
      Built (db.insert id tree)
  | insertSet {db : Database} (h : Built db) (name : SetName) (rs : List Requirement) :
      Built (db.insertSet name rs)

/-- Every id is listed once, under its own name, and has a dependency tree. -/
structure Coherent (db : Database) : Prop where
  name_eq : ∀ {n id}, id ∈ db.idsOf n → id.name = n
  distinct : ∀ n, (db.idsOf n).Pairwise fun a b => (a == b) = false
  mem_allIds : ∀ {id}, id ∈ db.allIds ↔ id ∈ db.idsOf id.name

theorem idsOf_insert (db : Database) (id : PackageId) (tree : DependencyTree)
    (n : PackageName) :
    (db.insert id tree).idsOf n =
      if n = id.name ∧ (db.idsOf n).contains id = false then db.idsOf n ++ [id]
      else db.idsOf n := by
  simp only [insert, idsOf, OrderedMap.getD, OrderedMap.get?_alter]
  by_cases hn : n = id.name
  · simp only [hn, if_true, Option.getD_some, true_and]
    cases ((db.ids.get? id.name).getD []).contains id <;> simp
  · simp [hn]

theorem mem_allIds_insert {db : Database} {id id' : PackageId} {tree : DependencyTree} :
    id' ∈ (db.insert id tree).allIds ↔
      id' ∈ db.allIds ∨ id' = id ∧ db.trees.contains id = false :=
  OrderedMap.mem_keys_insert

theorem coherent_empty : Coherent .empty where
  name_eq h := absurd h List.not_mem_nil
  distinct _ := .nil
  mem_allIds := Iff.rfl

variable {db : Database}

theorem Coherent.contains_iff (h : db.Coherent) {id : PackageId} :
    db.trees.contains id = (db.idsOf id.name).contains id := by
  rw [Bool.eq_iff_iff, OrderedMap.contains_iff_exists_key, List.contains_iff_exists_mem_beq]
  constructor
  · rintro ⟨k, hk, he⟩
    have hb := compare_eq_iff_beq.1 he
    exact ⟨k, (PackageId.eq_fields_of_beq hb).1 ▸ h.mem_allIds.1 hk, hb⟩
  · rintro ⟨k, hk, hb⟩
    exact ⟨k, h.mem_allIds.2 ((h.name_eq hk).symm ▸ hk), compare_eq_iff_beq.2 hb⟩

theorem Coherent.insert (h : db.Coherent) (id : PackageId) (tree : DependencyTree) :
    (db.insert id tree).Coherent where
  name_eq {n id'} hm := by
    rw [idsOf_insert] at hm
    split at hm
    · next hn =>
      rcases List.mem_append.1 hm with hm | hm
      · exact h.name_eq hm
      · rw [List.mem_singleton.1 hm, hn.1]
    · exact h.name_eq hm
  distinct n := by
    rw [idsOf_insert]
    split
    · next hn =>
      refine List.pairwise_append.2 ⟨h.distinct n, List.pairwise_singleton _ _, ?_⟩
      intro a ha b hb
      rw [List.mem_singleton.1 hb]
      refine Bool.eq_false_iff.2 fun hab => ?_
      have hc := List.contains_iff_exists_mem_beq.2 ⟨a, ha, BEq.symm hab⟩
      exact Bool.false_ne_true (hn.2.symm.trans hc)
    · exact h.distinct n
  mem_allIds {id'} := by
    rw [mem_allIds_insert, idsOf_insert, h.contains_iff, h.mem_allIds]
    by_cases he : id' = id
    · subst he
      split
      · next hn => simp [hn.2]
      · next hn => simp_all
    · split <;> simp [he]

theorem Built.coherent (h : db.Built) : db.Coherent := by
  induction h with
  | empty => exact coherent_empty
  | insert _ id tree ih => exact ih.insert id tree
  | insertSet _ name rs ih => exact ⟨ih.name_eq, ih.distinct, ih.mem_allIds⟩

theorem Coherent.mem_idsOf_iff (h : db.Coherent) {n : PackageName} {id : PackageId} :
    id ∈ db.idsOf n ↔ id ∈ db.allIds ∧ id.name = n := by
  constructor
  · intro hm
    have hn := h.name_eq hm
    exact ⟨h.mem_allIds.2 (hn.symm ▸ hm), hn⟩
  · rintro ⟨hm, rfl⟩
    exact h.mem_allIds.1 hm

theorem mem_installedIds_iff {root : InstallRoot} {id : PackageId} :
    id ∈ db.installedIds root ↔ id ∈ db.allIds ∧ id.installedRoot? = some root := by
  simp [installedIds]

theorem distinct_allIds : db.allIds.Pairwise fun a b => (a == b) = false := by
  refine List.pairwise_map.2 (db.trees.ascending.imp fun {e e'} hlt => ?_)
  refine Bool.eq_false_iff.2 fun he => ?_
  rw [compare_eq_iff_beq.2 he] at hlt
  cases hlt

theorem distinct_installedIds {root : InstallRoot} :
    (db.installedIds root).Pairwise fun a b => (a == b) = false :=
  distinct_allIds.filter _

theorem eq_of_mem_allIds {a b : PackageId} (ha : a ∈ db.allIds) (hb : b ∈ db.allIds)
    (h : (a == b) = true) : a = b := by
  by_contra hne
  have hsymm : Std.Symm fun a b : PackageId => (a == b) = false :=
    ⟨fun _ _ hab => BEq.comm.trans hab⟩
  have hn : (a == b) = false := distinct_allIds.forall ha hb hne
  rw [hn] at h
  cases h

theorem name_of_accepts {req : Requirement} {id : PackageId} (h : req.accepts id = true) :
    id.name = req.name := by
  simp only [Requirement.accepts, Bool.and_eq_true, beq_iff_eq] at h
  exact h.1.1.1.1

theorem mem_find_package {n : PackageName} {f : IdFilter} {id : PackageId} :
    id ∈ db.find (.package n) f ↔ id ∈ db.idsOf n ∧ f.keeps id = true :=
  List.mem_filter

theorem mem_find_accepted {req : Requirement} {f : IdFilter} {id : PackageId} (h : db.Coherent) :
    id ∈ db.find (.accepted req) f ↔
      id ∈ db.allIds ∧ req.accepts id = true ∧ f.keeps id = true := by
  simp only [find, idsFrom, List.mem_filter, h.mem_idsOf_iff]
  constructor
  · rintro ⟨⟨⟨hk, -⟩, ha⟩, hf⟩
    exact ⟨hk, ha, hf⟩
  · rintro ⟨hk, ha, hf⟩
    exact ⟨⟨⟨hk, name_of_accepts ha⟩, ha⟩, hf⟩

theorem hasInstalled_iff {req : Requirement} (h : db.Coherent) :
    db.hasInstalled req = true ↔ ∃ id ∈ db.installedIds .slash, req.accepts id = true := by
  rw [hasInstalled, Bool.not_eq_true', List.isEmpty_eq_false_iff_exists_mem]
  refine exists_congr fun id => ?_
  rw [mem_find_accepted h, mem_installedIds_iff, IdFilter.keeps, beq_iff_eq, and_assoc,
    and_comm (a := req.accepts id = true)]

end Database

namespace IdSelection

theorem mem_of_mem_sortIds {ids : List PackageId} {id : PackageId} (h : id ∈ sortIds ids) :
    id ∈ ids :=
  mem_sortBy.1 ((dropRepeats_sublist _).subset h)

theorem mem_sortIds_iff {ids : List PackageId}
    (h : ids.Pairwise fun a b => (a == b) = false) {id : PackageId} :
    id ∈ sortIds ids ↔ id ∈ ids := by
  have hp : (sortBy PackageId.comparePreference ids).Pairwise fun a b => (a == b) = false :=
    ((sortBy_perm _ _).pairwise_iff fun hab => BEq.comm.trans hab).2 h
  rw [sortIds, dropRepeats_eq_self hp, mem_sortBy]

theorem mem_of_mem_bestPerSlot {ids : List PackageId} {id : PackageId}
    (h : id ∈ bestPerSlot ids) : id ∈ ids := by
  obtain ⟨slot, h⟩ := OrderedMap.mem_values_iff.1 h
  obtain ⟨z, hz, he⟩ := List.mem_map.1 (OrderedMap.get?_ofList h)
  cases he
  exact mem_of_mem_sortIds hz

end IdSelection

end PackagePlan
