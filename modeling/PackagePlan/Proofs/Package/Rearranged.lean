import Mathlib.Data.List.Nodup
import PackagePlan.Proofs.Package.Database

/-! # Rearranged databases

Databases that list the same ids in different orders. Where the ids of a
package can be told apart by version, origin and repository, sorting what is
found in one and in the other comes to the same.
-/

namespace PackagePlan

open Std

namespace PackageId

variable {a b : PackageId}

theorem comparePreference_eq_iff : a.comparePreference b = .eq ↔
    compare a.version b.version = .eq ∧ a.origin = b.origin ∧ a.repository = b.repository := by
  simp only [comparePreference, Ordering.then_eq_eq, LawfulEqCmp.compare_eq_iff_eq]
  exact and_congr_right fun _ => and_congr_right fun _ => eq_comm

end PackageId

namespace Database

/-- No two ids of a package have equal versions, the same origin and the same repository. -/
def Distinguished (ids : List PackageId) : Prop :=
  ∀ a ∈ ids, ∀ b ∈ ids, a.name = b.name → a.comparePreference b = .eq → a = b

/-- The databases hold the same, but may list their ids in different orders. -/
structure Rearranged (db db' : Database) : Prop where
  trees : db.trees = db'.trees
  sets : db.sets = db'.sets
  coherent : db.Coherent
  coherent' : db'.Coherent
  distinguished : Distinguished db.allIds

theorem nodup_of_distinct {ids : List PackageId} (h : ids.Pairwise fun a b => (a == b) = false) :
    ids.Nodup :=
  h.imp fun hab he => by
    rw [he, BEq.rfl] at hab
    cases hab

theorem Coherent.values_flatten_perm {db : Database} (h : db.Coherent) :
    db.ids.values.flatten.Perm db.allIds := by
  have hentry : ∀ e ∈ db.ids.entries, e.2 = db.idsOf e.1 := by
    intro e he
    rw [idsOf, OrderedMap.getD, OrderedMap.mem_entries_iff.1 he, Option.getD_some]
  have hnodup : db.ids.values.flatten.Nodup := by
    refine List.nodup_flatten.2 ⟨fun ids hids => ?_, List.pairwise_map.2 ?_⟩
    · obtain ⟨e, he, rfl⟩ := List.mem_map.1 hids
      rw [hentry e he]
      exact nodup_of_distinct (h.distinct _)
    · refine db.ids.pairwise_keys_ne.imp_of_mem fun {e e'} he he' hne id hid hid' => ?_
      rw [hentry e he] at hid
      rw [hentry e' he'] at hid'
      exact hne ((h.name_eq hid).symm.trans (h.name_eq hid'))
  refine (List.perm_ext_iff_of_nodup hnodup (nodup_of_distinct distinct_allIds)).2 fun id => ?_
  rw [List.mem_flatten]
  constructor
  · rintro ⟨ids, hids, hid⟩
    obtain ⟨e, he, rfl⟩ := List.mem_map.1 hids
    rw [hentry e he] at hid
    exact (h.mem_idsOf_iff.1 hid).1
  · intro hid
    have hlisted := h.mem_allIds.1 hid
    rw [idsOf, OrderedMap.getD] at hlisted
    cases hget : db.ids.get? id.name with
    | none =>
      rw [hget] at hlisted
      cases hlisted
    | some ids =>
      rw [hget, Option.getD_some] at hlisted
      exact ⟨ids, OrderedMap.mem_values_of_get? hget, hlisted⟩

namespace Rearranged

variable {db db' : Database} (h : db.Rearranged db')

include h

theorem allIds : db.allIds = db'.allIds := by
  rw [Database.allIds, Database.allIds, h.trees]

theorem treeOf : db.treeOf = db'.treeOf := by
  funext id
  rw [Database.treeOf, Database.treeOf, h.trees]

theorem installedIds : db.installedIds = db'.installedIds := by
  funext root
  rw [Database.installedIds, Database.installedIds, h.allIds]

theorem idsOf_perm (n : PackageName) : (db.idsOf n).Perm (db'.idsOf n) := by
  refine (List.perm_ext_iff_of_nodup (nodup_of_distinct (h.coherent.distinct n))
    (nodup_of_distinct (h.coherent'.distinct n))).2 fun id => ?_
  rw [h.coherent.mem_idsOf_iff, h.coherent'.mem_idsOf_iff, h.allIds]

theorem find_perm (s : IdSource) (f : IdFilter) : (db.find s f).Perm (db'.find s f) := by
  cases s with
  | package n => exact (h.idsOf_perm n).filter _
  | accepted r => exact ((h.idsOf_perm r.name).filter _).filter _
  | installed root =>
    rw [find, find, idsFrom, idsFrom, h.installedIds]

theorem isEmpty_find (s : IdSource) (f : IdFilter) :
    (db.find s f).isEmpty = (db'.find s f).isEmpty := (h.find_perm s f).isEmpty_eq

theorem hasInstalled : db.hasInstalled = db'.hasInstalled := by
  funext r
  rw [Database.hasInstalled, Database.hasInstalled, h.isEmpty_find]

theorem eq_of_idsOf {n : PackageName} {a b : PackageId} (ha : a ∈ db.idsOf n) (hb : b ∈ db.idsOf n)
    (he : a.comparePreference b = .eq) : a = b := by
  obtain ⟨ha, hna⟩ := h.coherent.mem_idsOf_iff.1 ha
  obtain ⟨hb, hnb⟩ := h.coherent.mem_idsOf_iff.1 hb
  exact h.distinguished a ha b hb (hna.trans hnb.symm) he

theorem sortIds_find (s : IdSource) (f : IdFilter) :
    IdSelection.sortIds (db.find s f) = IdSelection.sortIds (db'.find s f) := by
  have same : ∀ n, (∀ a ∈ db.find s f, a ∈ db.idsOf n) →
      IdSelection.sortIds (db.find s f) = IdSelection.sortIds (db'.find s f) := by
    intro n hn
    refine congrArg dropRepeats (sortBy_eq_of_perm (h.find_perm s f) fun a ha b hb he => ?_)
    exact h.eq_of_idsOf (hn a ha) (hn b hb) he
  cases s with
  | package n => exact same n fun a ha => (List.mem_filter.1 ha).1
  | accepted r => exact same r.name fun a ha => (List.mem_filter.1 (List.mem_filter.1 ha).1).1
  | installed root => rw [find, find, idsFrom, idsFrom, h.installedIds]

theorem bestOf_find (s : IdSource) (f : IdFilter) :
    IdSelection.bestOf (db.find s f) = IdSelection.bestOf (db'.find s f) := by
  rw [IdSelection.bestOf, IdSelection.bestOf, h.sortIds_find]

theorem bestPerSlot_find (s : IdSource) (f : IdFilter) :
    IdSelection.bestPerSlot (db.find s f) = IdSelection.bestPerSlot (db'.find s f) := by
  rw [IdSelection.bestPerSlot, IdSelection.bestPerSlot, h.sortIds_find]

end Rearranged

end Database

end PackagePlan
