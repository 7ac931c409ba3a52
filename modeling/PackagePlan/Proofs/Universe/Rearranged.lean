import PackagePlan.Proofs.Deciding.Rearranged
import PackagePlan.Proofs.Plan.Outcome
import PackagePlan.Proofs.Universe.Load

/-! # Rearranged universes

The plan does not depend on the order in which a universe lists its entries,
as long as no two of them agree on name, version, origin and repository.
-/

namespace PackagePlan

open Std

theorem EntryOrigin.origin_injective {o o' : EntryOrigin} (h : o.origin = o'.origin) : o = o' := by
  cases o <;> cases o' <;> first | rfl | cases h

def SameVersion (s t : String) : Prop :=
  ∃ v w, Version.parse s = .ok v ∧ Version.parse t = .ok w ∧ compare v w = .eq

/-- The entries agree on name, version, origin and repository. -/
def PackageEntry.Matches (e e' : PackageEntry) : Prop :=
  e.name = e'.name ∧ SameVersion e.version e'.version ∧ e.origin = e'.origin ∧
    e.repository = e'.repository

def InstalledEntry.Matches (e e' : InstalledEntry) : Prop :=
  e.name = e'.name ∧ SameVersion e.version e'.version ∧ e.root = e'.root

namespace Universe

structure Distinguished (u : Universe) : Prop where
  packages : u.packages.Pairwise fun e e' => ¬ e.Matches e'
  installed : u.installed.Pairwise fun e e' => ¬ e.Matches e'

/-- The universes have the same sets and the same entries, perhaps in different orders. -/
structure Rearranged (u u' : Universe) : Prop where
  packages : u.packages.Perm u'.packages
  installed : u.installed.Perm u'.installed
  sets : u.sets = u'.sets

section Read

def entryRead? (version : String) (id : Version → PackageId) (dependencies : String) :
    Option (PackageId × DependencyTree) :=
  (readVersion version).toOption.bind fun v =>
    (readDependencies (id v) dependencies).toOption.map (id v, ·)

def readPackage? (e : PackageEntry) : Option (PackageId × DependencyTree) :=
  entryRead? e.version e.id e.dependencies

def readInstalled? (e : InstalledEntry) : Option (PackageId × DependencyTree) :=
  entryRead? e.version e.id e.dependencies

def readSet? (set : String × List String) : Option (SetName × List Requirement) :=
  (set.2.mapM readRequirement).toOption.map (set.1, ·)

def added (u : Universe) : List (PackageId × DependencyTree) :=
  u.packages.filterMap readPackage? ++ u.installed.filterMap readInstalled?

variable {db db' : Database} {u u' : Universe}

theorem addEntry_eq_ok {version dependencies : String} {id : Version → PackageId}
    (h : addEntry db version id dependencies = .ok db') :
    ∃ x, entryRead? version id dependencies = some x ∧ db' = db.insert x.1 x.2 := by
  obtain ⟨v, hv, h⟩ := bind_eq_ok_iff.1 h
  obtain ⟨tree, htree, h⟩ := bind_eq_ok_iff.1 h
  cases h
  refine ⟨(id v, tree), ?_, rfl⟩
  rw [entryRead?, hv]
  exact congrArg (Option.map (id v, ·)) (congrArg Except.toOption htree)

theorem addSet_eq_ok {set : String × List String} (h : addSet db set = .ok db') :
    ∃ x, readSet? set = some x ∧ db' = db.insertSet x.1 x.2 := by
  obtain ⟨rs, hrs, h⟩ := bind_eq_ok_iff.1 h
  cases h
  refine ⟨(set.1, rs), ?_, rfl⟩
  rw [readSet?, hrs]
  rfl

theorem foldl_insert (l : List (PackageId × DependencyTree)) :
    (l.foldl (fun db x => db.insert x.1 x.2) db).trees =
      l.foldl (fun m x => m.insert x.1 x.2) db.trees ∧
    (l.foldl (fun db x => db.insert x.1 x.2) db).sets = db.sets := by
  induction l generalizing db with
  | nil => exact ⟨rfl, rfl⟩
  | cons x l ih => exact ih

theorem foldl_insertSet (l : List (SetName × List Requirement)) :
    (l.foldl (fun db x => db.insertSet x.1 x.2) db).trees = db.trees ∧
    (l.foldl (fun db x => db.insertSet x.1 x.2) db).sets =
      l.foldl (fun m x => m.insert x.1 x.2) db.sets := by
  induction l generalizing db with
  | nil => exact ⟨rfl, rfl⟩
  | cons x l ih => exact ih

theorem load_eq_ok (h : u.load = .ok db) : db.trees = .ofList u.added ∧
    db.sets = .ofList (u.sets.entries.filterMap readSet?) := by
  obtain ⟨db₁, h₁, h⟩ := bind_eq_ok_iff.1 h
  obtain ⟨db₂, h₂, h⟩ := bind_eq_ok_iff.1 h
  have packages : db₁ = (u.packages.filterMap readPackage?).foldl
      (fun db x => db.insert x.1 x.2) .empty :=
    foldlM_eq_foldl (fun _ _ _ h => addEntry_eq_ok h) h₁
  have installed : db₂ = (u.installed.filterMap readInstalled?).foldl
      (fun db x => db.insert x.1 x.2) db₁ :=
    foldlM_eq_foldl (fun _ _ _ h => addEntry_eq_ok h) h₂
  have sets : db = (u.sets.entries.filterMap readSet?).foldl
      (fun db x => db.insertSet x.1 x.2) db₂ :=
    foldlM_eq_foldl (fun _ _ _ h => addSet_eq_ok h) h
  rw [packages, ← List.foldl_append] at installed
  rw [sets, (foldl_insertSet _).1, (foldl_insertSet _).2, installed, (foldl_insert _).1,
    (foldl_insert _).2]
  exact ⟨rfl, rfl⟩

end Read

section Perm

variable {db db' : Database} {u u' : Universe}

def Apart (x y : PackageId × DependencyTree) : Prop :=
  x.1.name = y.1.name → x.1.comparePreference y.1 ≠ .eq

theorem exists_of_entryRead {version dependencies : String} {id : Version → PackageId}
    {x : PackageId × DependencyTree} (h : entryRead? version id dependencies = some x) :
    ∃ v, Version.parse version = .ok v ∧ x.1 = id v := by
  obtain ⟨v, hv, h⟩ := Option.bind_eq_some_iff.1 h
  obtain ⟨tree, -, rfl⟩ := Option.map_eq_some_iff.1 h
  refine ⟨v, ?_, rfl⟩
  rw [readVersion] at hv
  cases hp : Version.parse version with
  | ok w =>
    rw [hp] at hv
    cases hv
    rfl
  | error e =>
    rw [hp] at hv
    cases hv

/-- What is read from two entries agrees on version, origin and repository only where the entries
do. -/
theorem agree_of_entryRead {version version' dependencies dependencies' : String}
    {id id' : Version → PackageId} {x y : PackageId × DependencyTree}
    (hx : entryRead? version id dependencies = some x)
    (hy : entryRead? version' id' dependencies' = some y)
    (h : x.1.comparePreference y.1 = .eq) : ∃ v w,
      Version.parse version = .ok v ∧ x.1 = id v ∧ Version.parse version' = .ok w ∧ y.1 = id' w ∧
        compare (id v).version (id' w).version = .eq ∧ (id v).origin = (id' w).origin ∧
          (id v).repository = (id' w).repository := by
  obtain ⟨v, hv, hx⟩ := exists_of_entryRead hx
  obtain ⟨w, hw, hy⟩ := exists_of_entryRead hy
  rw [hx, hy] at h
  exact ⟨v, w, hv, hx, hw, hy, PackageId.comparePreference_eq_iff.1 h⟩

theorem added_pairwise (h : u.Distinguished) : u.added.Pairwise Apart := by
  refine List.pairwise_append.2 ⟨List.pairwise_filterMap.2 (h.packages.imp ?_),
    List.pairwise_filterMap.2 (h.installed.imp ?_), fun x hx y hy => ?_⟩
  · intro e e' hne x hx y hy hname heq
    obtain ⟨v, w, hv, hxv, hw, hyw, hvw, horigin, hrepo⟩ := agree_of_entryRead hx hy heq
    rw [hxv, hyw] at hname
    exact hne ⟨hname, ⟨v, w, hv, hw, hvw⟩, EntryOrigin.origin_injective horigin, hrepo⟩
  · intro e e' hne x hx y hy hname heq
    obtain ⟨v, w, hv, hxv, hw, hyw, hvw, horigin, -⟩ := agree_of_entryRead hx hy heq
    rw [hxv, hyw] at hname
    exact hne ⟨hname, ⟨v, w, hv, hw, hvw⟩, Origin.installed.inj horigin⟩
  · intro hname heq
    obtain ⟨e, -, hx⟩ := List.mem_filterMap.1 hx
    obtain ⟨e', -, hy⟩ := List.mem_filterMap.1 hy
    obtain ⟨v, w, -, -, -, -, -, horigin, -⟩ := agree_of_entryRead hx hy heq
    have hinstalled : e.origin.origin = .installed e'.root := horigin
    cases he : e.origin <;> rw [he] at hinstalled <;> cases hinstalled

theorem Rearranged.added_perm (h : u.Rearranged u') : u.added.Perm u'.added :=
  (h.packages.filterMap _).append (h.installed.filterMap _)

theorem ne_of_apart {x y : PackageId × DependencyTree} (h : Apart x y) :
    compare x.1 y.1 ≠ .eq := by
  intro heq
  obtain ⟨hname, hv, -, hrepo, horigin⟩ := PackageId.eq_fields_of_beq (compare_eq_iff_beq.1 heq)
  exact h hname (PackageId.comparePreference_eq_iff.2 ⟨hv, horigin, hrepo⟩)

theorem distinguished_of_load (hu : u.Distinguished) (h : u.load = .ok db) :
    Database.Distinguished db.allIds := by
  have hadded := added_pairwise hu
  have hperm : (OrderedMap.ofList u.added).entries.Perm u.added :=
    OrderedMap.ofList_perm (hadded.imp ne_of_apart)
  have hsymm : Std.Symm Apart := ⟨fun x y hxy hname heq =>
    hxy hname.symm (OrientedCmp.eq_symm heq)⟩
  intro a ha b hb hname heq
  rw [Database.allIds, (load_eq_ok h).1] at ha hb
  obtain ⟨x, hx, rfl⟩ := List.mem_map.1 ha
  obtain ⟨y, hy, rfl⟩ := List.mem_map.1 hb
  by_contra hne
  exact hadded.forall (hperm.mem_iff.1 hx) (hperm.mem_iff.1 hy) (fun hxy => hne (by rw [hxy]))
    hname heq

theorem rearranged_of_load (hr : u.Rearranged u') (hu : u.Distinguished) (h : u.load = .ok db)
    (h' : u'.load = .ok db') : db.Rearranged db' where
  trees := by
    rw [(load_eq_ok h).1, (load_eq_ok h').1]
    exact OrderedMap.ofList_eq_of_perm hr.added_perm ((added_pairwise hu).imp ne_of_apart)
  sets := by rw [(load_eq_ok h).2, (load_eq_ok h').2, hr.sets]
  coherent := (load_built h).coherent
  coherent' := (load_built h').coherent
  distinguished := distinguished_of_load hu h

end Perm

/-- Whatever is asked for, the plan is the same, or fails in the same way, in whatever order the
entries of the universe are listed. -/
theorem plan_eq_of_rearranged {u u' : Universe} {db db' : Database} (hr : u.Rearranged u')
    (hu : u.Distinguished) (h : u.load = .ok db) (h' : u'.load = .ok db') :
    (∀ (q : Request) (policy : Policy) (seeds : Seeds) (maxRestarts : Nat),
      q.plan db policy seeds maxRestarts = q.plan db' policy seeds maxRestarts) ∧
    ∀ (q : Request) (name : SetName), q.addSet db name = q.addSet db' name := by
  have hdb : db.Rearranged db' := rearranged_of_load hr hu h h'
  exact ⟨fun q => q.plan_rearranged hdb, fun q => q.addSet_rearranged hdb⟩

end Universe

namespace Sample

/-- The same `lib` is offered by two repositories, and `app` needs it. -/
def offers : Universe where
  packages := [{ name := "app", version := "2", dependencies := "lib" },
    { name := "lib", version := "1" }, { name := "lib", version := "1", repository := "testing" }]
  installed := [{ name := "app", version := "1" }, { name := "old", version := "1" }]

def reversedOffers : Universe where
  packages := offers.packages.reverse
  installed := offers.installed.reverse

theorem offers_rearranged : offers.Rearranged reversedOffers :=
  ⟨(List.reverse_perm _).symm, (List.reverse_perm _).symm, rfl⟩

theorem offers_distinguished : offers.Distinguished where
  packages := by
    refine .cons (fun e he hm => ?_) (.cons (fun e he hm => ?_) (List.pairwise_singleton _ _))
    · have hname : e.name = "lib" := by
        simp only [List.mem_cons, List.not_mem_nil, or_false] at he
        obtain rfl | rfl := he <;> rfl
      rw [PackageEntry.Matches, hname] at hm
      exact absurd hm.1 (by decide)
    · obtain rfl := List.mem_singleton.1 he
      exact absurd hm.2.2.2 (by decide)
  installed := by
    refine .cons (fun e he hm => ?_) (List.pairwise_singleton _ _)
    obtain rfl := List.mem_singleton.1 he
    exact absurd hm.1 (by decide)

theorem exists_offers : (∃ db, offers.load = .ok db) ∧ ∃ db, reversedOffers.load = .ok db := by
  constructor
  · obtain ⟨db, h, -⟩ := exists_eq_ok (x := offers.load) (f := fun _ => true) (by decide +kernel)
    exact ⟨db, h⟩
  · obtain ⟨db, h, -⟩ := exists_eq_ok (x := reversedOffers.load) (f := fun _ => true)
      (by decide +kernel)
    exact ⟨db, h⟩

end Sample

theorem Universe.plan_eq_of_rearranged_offers : ∃ db db',
    Sample.offers.Rearranged Sample.reversedOffers ∧ Sample.offers.Distinguished ∧
      Sample.offers.load = .ok db ∧ Sample.reversedOffers.load = .ok db' ∧
        (∀ (q : Request) (policy : Policy) (seeds : Seeds) (maxRestarts : Nat),
          q.plan db policy seeds maxRestarts = q.plan db' policy seeds maxRestarts) ∧
        ∀ (q : Request) (name : SetName), q.addSet db name = q.addSet db' name := by
  obtain ⟨⟨db, h⟩, db', h'⟩ := Sample.exists_offers
  exact ⟨db, db', Sample.offers_rearranged, Sample.offers_distinguished, h, h',
    plan_eq_of_rearranged Sample.offers_rearranged Sample.offers_distinguished h h'⟩

end PackagePlan
