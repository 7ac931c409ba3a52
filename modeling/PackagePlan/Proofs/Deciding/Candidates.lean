import PackagePlan.Deciding.Finder
import PackagePlan.Proofs.Package.Database

/-! # Which ids may be chosen

An id is a candidate for a resolvent exactly when it is legal there, and an
id counts as present exactly when it is there already. Of the ids that the
constraints accept the pick is one that none of the others beats.
-/

namespace PackagePlan

open Std

namespace Constraints

def Accept (cs : List Constraint) (id : PackageId) : Prop := ∀ c ∈ cs, c.accepts id = true

theorem unmetBy_eq_nil_iff {cs : List Constraint} {id : PackageId} :
    unmetBy cs id = [] ↔ Accept cs id := by
  simp [unmetBy, Accept]

theorem accept_append {cs : List Constraint} {c : Constraint} {id : PackageId} :
    Accept (cs ++ [c]) id ↔ Accept cs id ∧ c.accepts id = true := by
  simp [Accept, or_imp, forall_and]

end Constraints

section Pick

open Constraints

variable {cs : List Constraint} {ids : List PackageId} {id : PackageId}

theorem pickFrom_eq_some {b : Bool} (h : (pickFrom cs ids b).1 = some id) :
    ∃ worse better, ids = better ++ id :: worse ∧ Accept cs id ∧
      ∀ id' ∈ better, ¬ Accept cs id' := by
  induction ids generalizing b with
  | nil => simp [pickFrom] at h
  | cons id' ids ih =>
    rw [pickFrom] at h
    split at h
    · next hn =>
      obtain rfl := Option.some.inj h
      exact ⟨ids, [], rfl, unmetBy_eq_nil_iff.1 hn, by simp⟩
    · next hn =>
      obtain ⟨worse, better, rfl, ha, hb⟩ := ih h
      refine ⟨worse, id' :: better, rfl, ha, fun x hx => ?_⟩
      rcases List.mem_cons.1 hx with rfl | hx
      · exact fun hx => hn (unmetBy_eq_nil_iff.2 hx)
      · exact hb x hx

theorem mem_of_pick (h : (pick cs ids).1 = some id) : id ∈ ids ∧ Accept cs id := by
  obtain ⟨worse, better, he, ha, -⟩ := pickFrom_eq_some h
  exact ⟨List.mem_reverse.1 (he ▸ by simp), ha⟩

theorem pick_last {R : PackageId → PackageId → Prop} (hR : ids.Pairwise R)
    (h : (pick cs ids).1 = some id) {id' : PackageId} (hm : id' ∈ ids) (ha : Accept cs id') :
    id' = id ∨ R id' id := by
  obtain ⟨worse, better, he, -, hb⟩ := pickFrom_eq_some h
  have hp : (better ++ id :: worse).Pairwise fun a b => R b a := by
    rw [← he, List.pairwise_reverse]; exact hR
  have hm' : id' ∈ better ++ id :: worse := he ▸ List.mem_reverse.2 hm
  rcases List.mem_append.1 hm' with hm' | hm'
  · exact absurd ha (hb id' hm')
  · rcases List.mem_cons.1 hm' with rfl | hm'
    · exact .inl rfl
    · exact .inr ((List.pairwise_cons.1 (List.pairwise_append.1 hp).2.1).1 id' hm')

end Pick

instance (promoteBinaries : Bool) : TransCmp (PackageId.compareCandidates promoteBinaries) :=
  inferInstanceAs (TransCmp (compareLex (compareOn (·.version))
    (compareLex (compareOn (·.origin.preference promoteBinaries))
      (fun a b : PackageId => compareOn (·.repository) b a))))

/-- The id is there already: installed at the root of the destination, or a binary. -/
def Destination.Has (d : Destination) (id : PackageId) : Prop :=
  match d.installRoot? with
  | some root => id.installedRoot? = some root
  | none => id.origin = .binary

theorem Destination.keeps_presence_iff {d : Destination} {id : PackageId} :
    d.presence.keeps id = true ↔ d.Has id := by
  cases d <;> simp [presence, installRoot?, Has, IdFilter.keeps]

/-- The id may be installed for the resolvent. -/
structure Legal (db : Database) (policy : Policy) (r : Resolvent) (id : PackageId) : Prop where
  known : id ∈ db.allIds
  package : id.name = r.package
  slot : id.slot = r.slot
  installable : id.isInstalled = false
  unmasked : id.masked = false
  visible : policy.hides r id = false
  allowed : policy.allows id = true
  notBinary : r.destination = .binary → id.origin ≠ .binary

/-- The id is there already in the slot of the resolvent. -/
structure Present (db : Database) (r : Resolvent) (id : PackageId) : Prop where
  known : id ∈ db.allIds
  package : id.name = r.package
  slot : id.slot = r.slot
  here : r.destination.Has id

namespace Setting

variable {σ : Setting} {r : Resolvent} {id : PackageId}

theorem keeps_installableFilter_iff :
    (installableFilter r).keeps id = true ↔
      id.isInstalled = false ∧ id.slot = r.slot ∧
        (r.destination = .binary → id.origin ≠ .binary) := by
  rw [installableFilter]
  cases r.destination <;> simp [IdFilter.keeps, PackageId.isInstallable, and_assoc]

theorem isUsable_iff :
    σ.isUsable r id = true ↔
      id.masked = false ∧ σ.policy.hides r id = false ∧ σ.policy.allows id = true := by
  simp [isUsable, and_assoc]

variable (h : σ.db.Coherent)

include h

theorem mem_candidates_iff : id ∈ σ.candidates r ↔ Legal σ.db σ.policy r id := by
  have hd : (σ.sortCandidates ((σ.db.find (.package r.package) (installableFilter r)).filter
      (σ.isUsable r))).Pairwise fun a b => (a == b) = false :=
    ((sortBy_perm _ _).pairwise_iff fun hab => BEq.comm.trans hab).2
      (((h.distinct _).filter _).filter _)
  rw [candidates, dropRepeats_eq_self hd, sortCandidates, mem_sortBy, List.mem_filter,
    Database.mem_find_package, keeps_installableFilter_iff, isUsable_iff, h.mem_idsOf_iff]
  constructor
  · rintro ⟨⟨⟨hk, hp⟩, hi, hs, hb⟩, hm, hv, ha⟩
    exact ⟨hk, hp, hs, hi, hm, hv, ha, hb⟩
  · rintro ⟨hk, hp, hs, hi, hm, hv, ha, hb⟩
    exact ⟨⟨⟨hk, hp⟩, hi, hs, hb⟩, hm, hv, ha⟩

theorem mem_present_iff : id ∈ σ.present r ↔ Present σ.db r id := by
  rw [present, sortCandidates, mem_sortBy, Database.mem_find_package, h.mem_idsOf_iff]
  simp only [IdFilter.keeps, Bool.and_eq_true, beq_iff_eq, Destination.keeps_presence_iff]
  constructor
  · rintro ⟨⟨hk, hp⟩, hh, hs⟩
    exact ⟨hk, hp, hs, hh⟩
  · rintro ⟨hk, hp, hs, hh⟩
    exact ⟨⟨hk, hp⟩, hh, hs⟩

omit h

theorem pairwise_candidates :
    (σ.candidates r).Pairwise fun a b =>
      PackageId.compareCandidates σ.policy.promoteBinaries a b ≠ .gt :=
  (pairwise_sortBy _ _).sublist (dropRepeats_sublist _)

end Setting

end PackagePlan
