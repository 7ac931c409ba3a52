import Mathlib.Data.List.Induction
import PackagePlan.Proofs.Package.Rearranged
import PackagePlan.Proofs.Version.Order

/-! # The two indexes of a database

A database that was filled one id after another finds ids by their names and
dependencies by id. Both indexes hold the ids that came, each as it was first
written, so that what one finds the other knows.
-/

namespace PackagePlan

open Std

universe u

section First

variable {α : Type u} [BEq α]

theorem eraseDups_concat (l : List α) (a : α) : (l ++ [a]).eraseDups =
    if l.eraseDups.contains a then l.eraseDups else l.eraseDups ++ [a] := by
  induction hn : l.length using Nat.strongRecOn generalizing l with
  | ind n ih =>
    cases l with
    | nil => simp [List.eraseDups_cons]
    | cons x l =>
      have shorter : (l.filter fun b => !b == x).length < n := by
        have := List.length_filter_le (fun b => !b == x) l
        rw [List.length_cons] at hn
        omega
      rw [List.cons_append, List.eraseDups_cons, List.eraseDups_cons, List.filter_append,
        List.contains_cons]
      cases hx : a == x with
      | true => simp [hx]
      | false =>
        rw [List.filter_singleton, hx, Bool.not_false, cond_true, ih _ shorter _ rfl, Bool.false_or]
        split <;> rfl

theorem pairwise_eraseDups [PartialEquivBEq α] (l : List α) :
    l.eraseDups.Pairwise fun a b => (a == b) = false := by
  induction l using List.reverseRecOn with
  | nil => simp
  | append_singleton l a ih =>
    rw [eraseDups_concat]
    split
    · exact ih
    · next hnot =>
      refine List.pairwise_append.2 ⟨ih, List.pairwise_singleton _ _, fun b hb a' ha' => ?_⟩
      rw [List.mem_singleton.1 ha', Bool.eq_false_iff]
      intro hba
      exact hnot (List.contains_iff_exists_mem_beq.2 ⟨b, hb, BEq.symm hba⟩)

end First

namespace PackageId

variable {a b : PackageId}

def respelled (id : PackageId) (text : String) : PackageId :=
  { id with version := { id.version with text := text } }

theorem beq_iff_respelled : (a == b) = true ↔ a.respelled b.version.text = b := by
  rw [← compare_eq_iff_beq]
  change compareFields a b = .eq ↔ _
  simp only [compareFields, compareLex_eq_eq, compareOn, LawfulEqCmp.compare_eq_iff_eq,
    Version.compare_eq_iff, Version.key]
  obtain ⟨_, ⟨_, _, _, _, _⟩, _, _, _, _, _, _⟩ := a
  obtain ⟨_, ⟨_, _, _, _, _⟩, _, _, _, _, _, _⟩ := b
  simp [respelled, and_assoc]

end PackageId

namespace Database

variable {db : Database} {log : List (PackageId × DependencyTree)} {id id' : PackageId}
  {tree : DependencyTree} {root : InstallRoot}

/-- What adding ids with their dependencies, one after another, leads to. -/
def ofInserts (log : List (PackageId × DependencyTree)) : Database :=
  log.foldl (fun db x => db.insert x.1 x.2) .empty

theorem ofInserts_concat : ofInserts (log ++ [(id, tree)]) = (ofInserts log).insert id tree :=
  List.foldl_concat _ _ _ _

theorem built_ofInserts (log : List (PackageId × DependencyTree)) : (ofInserts log).Built := by
  apply List.foldlRecOn
  · exact .empty
  · intro db h x _
    exact h.insert x.1 x.2

def distinctIds (log : List (PackageId × DependencyTree)) : List PackageId :=
  (log.map (·.1)).eraseDups

theorem distinctIds_concat : distinctIds (log ++ [(id, tree)]) =
    if (distinctIds log).contains id then distinctIds log else distinctIds log ++ [id] := by
  rw [distinctIds, List.map_append]
  exact eraseDups_concat _ id

theorem contains_filter_name (ids : List PackageId) (id : PackageId) :
    (ids.filter (·.name == id.name)).contains id = ids.contains id := by
  rw [Bool.eq_iff_iff, List.contains_iff_exists_mem_beq, List.contains_iff_exists_mem_beq]
  refine exists_congr fun k => ?_
  rw [List.mem_filter]
  constructor
  · rintro ⟨⟨hk, -⟩, he⟩
    exact ⟨hk, he⟩
  · rintro ⟨hk, he⟩
    have hname : id.name = k.name := (PackageId.eq_fields_of_beq he).1
    exact ⟨⟨hk, beq_iff_eq.2 hname.symm⟩, he⟩

theorem idsOf_ofInserts (log : List (PackageId × DependencyTree)) (n : PackageName) :
    (ofInserts log).idsOf n = (distinctIds log).filter (·.name == n) := by
  induction log using List.reverseRecOn with
  | nil => rfl
  | append_singleton log x ih =>
    obtain ⟨id, tree⟩ := x
    rw [ofInserts_concat, idsOf_insert, ih, distinctIds_concat]
    by_cases hn : n = id.name
    · subst hn
      rw [contains_filter_name]
      cases (distinctIds log).contains id <;> simp
    · have hne : id.name ≠ n := fun h => hn h.symm
      rw [if_neg fun h => hn h.1]
      split
      · rfl
      · simp [hne]

theorem allIds_ofInserts_perm (log : List (PackageId × DependencyTree)) :
    (ofInserts log).allIds.Perm (distinctIds log) := by
  refine (List.perm_ext_iff_of_nodup (nodup_of_distinct distinct_allIds)
    (nodup_of_distinct (pairwise_eraseDups _))).2 fun id => ?_
  rw [(built_ofInserts log).coherent.mem_allIds, idsOf_ofInserts, List.mem_filter, beq_self_eq_true]
  exact and_iff_left rfl

theorem treeOf_insert : (db.insert id tree).treeOf id' =
    if id == id' then tree else db.treeOf id' := by
  simp only [treeOf, OrderedMap.getD, insert, OrderedMap.insert]
  split
  · next h =>
    have he : compare id' id = .eq := OrientedCmp.eq_symm (compare_eq_iff_beq.2 h)
    rw [OrderedMap.get?_congr he, OrderedMap.get?_alter_self, Option.getD_some]
  · next h =>
    have hne : compare id' id ≠ .eq := fun he =>
      h (compare_eq_iff_beq.1 (OrientedCmp.eq_symm he))
    rw [OrderedMap.get?_alter_of_ne _ _ hne]

/-- The dependencies that came last with an id that equals `id`. -/
def lastTree (log : List (PackageId × DependencyTree)) (id : PackageId) : DependencyTree :=
  ((log.filter (·.1 == id)).getLast?.map (·.2)).getD .nothing

theorem treeOf_ofInserts (log : List (PackageId × DependencyTree)) (id : PackageId) :
    (ofInserts log).treeOf id = lastTree log id := by
  induction log using List.reverseRecOn with
  | nil => rfl
  | append_singleton log x ih =>
    obtain ⟨id', tree⟩ := x
    rw [ofInserts_concat, treeOf_insert, ih, lastTree, lastTree, List.filter_append]
    split
    · next h => simp [h]
    · next h => simp [h]

theorem mem_installedIds_iff_idsOf (h : db.Coherent) : id ∈ db.installedIds root ↔
    (∃ n, id ∈ db.idsOf n) ∧ id.installedRoot? = some root := by
  rw [mem_installedIds_iff]
  apply and_congr_left'
  constructor
  · intro hm
    exact ⟨id.name, h.mem_allIds.1 hm⟩
  · rintro ⟨n, hm⟩
    exact (h.mem_idsOf_iff.1 hm).1

/-- The index by name and the index by id agree with each other and with what was added. -/
structure InStep (db : Database) (log : List (PackageId × DependencyTree)) : Prop where
  distinct : ∀ n, (db.idsOf n).Pairwise fun a b => (a == b) = false
  listed : ∀ {n id}, id ∈ db.idsOf n ↔ id ∈ db.allIds ∧ id.name = n
  first : ∀ n, db.idsOf n = (distinctIds log).filter (·.name == n)
  size : db.size = (distinctIds log).length
  distinctInstalled : ∀ root, (db.installedIds root).Pairwise fun a b => (a == b) = false
  installed : ∀ {root id}, id ∈ db.installedIds root ↔
    (∃ n, id ∈ db.idsOf n) ∧ id.installedRoot? = some root
  last : ∀ id, db.treeOf id = lastTree log id

/-- However ids are added, the indexes stay in step; and ids are told apart by everything but the
text of their versions. -/
theorem ofInserts_inStep (log : List (PackageId × DependencyTree)) : (ofInserts log).InStep log ∧
    ∀ a b : PackageId, (a == b) = true ↔ a.respelled b.version.text = b := by
  have coherent : (ofInserts log).Coherent := (built_ofInserts log).coherent
  refine ⟨?_, fun _ _ => PackageId.beq_iff_respelled⟩
  constructor
  case distinct => exact coherent.distinct
  case listed => exact coherent.mem_idsOf_iff
  case first => exact idsOf_ofInserts log
  case size => exact (List.length_map _).symm.trans (allIds_ofInserts_perm log).length_eq
  case distinctInstalled => exact fun _ => distinct_installedIds
  case installed => exact mem_installedIds_iff_idsOf coherent
  case last => exact treeOf_ofInserts log

/-- An id that is added again with its version written differently gets other dependencies. -/
example :
    let id : PackageId := .ofSource "app/a" ⟨"1.0", [1, 0], none, [], 0⟩ "main" .source
    let db := ofInserts [(id, .nothing), (id.respelled "1.0-r0", .labels [.build])]
    db.idsOf "app/a" = [id] ∧ db.size = 1 ∧ db.treeOf id = .labels [.build] :=
  ⟨rfl, rfl, rfl⟩

end Database

end PackagePlan
