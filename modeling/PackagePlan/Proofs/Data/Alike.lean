import Mathlib.Data.List.Perm.Basic
import PackagePlan.Data.Decode
import PackagePlan.Proofs.Ordered.Lookup

/-! # Decoding without regard to the order of keys

Data whose tables have the same keys in other orders are decoded to the same
values, as long as no table has a key twice.
-/

namespace PackagePlan.Datum

open Std

/-- The data are the same but for the order of the keys in tables. -/
inductive Alike : Datum → Datum → Prop
  | refl (d : Datum) : Alike d d
  | array {ds ds'} : List.Forall₂ Alike ds ds' → Alike (.array ds) (.array ds')
  | table {entries between entries'} : entries.Perm between →
      between.map (·.1) = entries'.map (·.1) →
      List.Forall₂ Alike (between.map (·.2)) (entries'.map (·.2)) →
      Alike (.table entries) (.table entries')

/-- The decoder makes `x` of all data that are alike `d`. -/
def Reads {α : Type} (f : Decoder α) (d : Datum) (x : α) : Prop := ∀ d', Alike d d' → f d' = some x

variable {α β : Type} {f : Decoder α} {d d' : Datum} {x y : α} {k : String}
  {ds : List Datum} {entries between entries' : List (String × Datum)} {fields : Fields}

section Scalars

theorem reads_string (s : String) : Reads asString (.string s) s := by
  intro d' h
  cases h
  rfl

theorem reads_some_string (s : String) : Reads (asOption asString) (.string s) (some s) := by
  intro d' h
  cases h
  rfl

theorem reads_bool (b : Bool) : Reads asBool (.bool b) b := by
  intro d' h
  cases h
  rfl

theorem reads_name {ofName? : String → Option α} {s : String} (fmt : Format)
    (h : ofName? s = some x) : Reads (asName fmt ofName?) (.string s) x := by
  intro d' hd'
  cases hd'
  exact h

end Scalars

section Lists

theorem forall₂_alike_refl (ds : List Datum) : List.Forall₂ Alike ds ds :=
  List.forall₂_same.2 fun d _ => .refl d

theorem Alike.exists_array (h : Alike (.array ds) d') :
    ∃ ds', d' = .array ds' ∧ List.Forall₂ Alike ds ds' := by
  cases h with
  | refl => exact ⟨ds, rfl, forall₂_alike_refl ds⟩
  | array h => exact ⟨_, rfl, h⟩

theorem mapM_of_forall₂ {write : β → Datum} {value : β → α}
    (hf : ∀ y, Reads f (write y) (value y)) {ys : List β} {ds' : List Datum}
    (h : List.Forall₂ Alike (ys.map write) ds') : ds'.mapM f = some (ys.map value) := by
  induction ys generalizing ds' with
  | nil =>
    cases h
    rfl
  | cons y ys ih =>
    obtain ⟨d, ds', hd, hds, rfl⟩ := List.forall₂_cons_left_iff.1 h
    rw [List.mapM_cons, hf y d hd, ih hds]
    rfl

theorem reads_list {write : β → Datum} {value : β → α} (hf : ∀ y, Reads f (write y) (value y))
    (ys : List β) : Reads (asList f) (.array (ys.map write)) (ys.map value) := by
  intro d' h
  obtain ⟨ds', rfl, hds⟩ := h.exists_array
  exact mapM_of_forall₂ hf hds

theorem reads_strings (ss : List String) : Reads asStrings (.array (ss.map .string)) ss := by
  simpa [asStrings] using reads_list reads_string ss

end Lists

section Tables

theorem Alike.exists_table (h : Alike (.table entries) d') :
    ∃ between entries', d' = .table entries' ∧ entries.Perm between ∧
      between.map (·.1) = entries'.map (·.1) ∧
      List.Forall₂ Alike (between.map (·.2)) (entries'.map (·.2)) := by
  cases h with
  | refl => exact ⟨entries, entries, rfl, .refl _, rfl, forall₂_alike_refl _⟩
  | table hp hkeys hvalues => exact ⟨_, _, rfl, hp, hkeys, hvalues⟩

theorem lookup_eq_some_iff (h : (entries.map (·.1)).Nodup) :
    lookup k entries = some d ↔ (k, d) ∈ entries := by
  induction entries with
  | nil => simp [lookup]
  | cons e entries ih =>
    obtain ⟨k', d'⟩ := e
    obtain ⟨hnew, h⟩ := List.nodup_cons.1 h
    rw [lookup]
    split
    · next hk =>
      subst hk
      have hother : (k', d) ∉ entries := fun hm => hnew (List.mem_map.2 ⟨_, hm, rfl⟩)
      simp [hother, eq_comm]
    · next hk => simp [ih h, Ne.symm hk]

theorem lookup_perm (hp : entries.Perm between) (h : (entries.map (·.1)).Nodup) (k : String) :
    lookup k entries = lookup k between := by
  have h' : (between.map (·.1)).Nodup := (hp.map _).nodup_iff.1 h
  ext d
  rw [lookup_eq_some_iff h, lookup_eq_some_iff h', hp.mem_iff]

def Finds (entries : List (String × Datum)) (fields : Fields) : Prop :=
  ∀ k, Option.Rel Alike (lookup k entries) (fields k)

theorem finds_of_forall₂ (hkeys : between.map (·.1) = entries'.map (·.1))
    (hvalues : List.Forall₂ Alike (between.map (·.2)) (entries'.map (·.2))) :
    Finds between fun k => lookup k entries' := by
  intro k
  induction between generalizing entries' with
  | nil =>
    obtain rfl : entries' = [] := List.map_eq_nil_iff.1 hkeys.symm
    exact .none
  | cons e between ih =>
    cases entries' with
    | nil => cases hkeys
    | cons e' entries' =>
      obtain ⟨k₁, d₁⟩ := e
      obtain ⟨k₂, d₂⟩ := e'
      obtain ⟨hk, hmore⟩ := List.cons.inj hkeys
      obtain ⟨hd, hrest⟩ := List.forall₂_cons.1 hvalues
      obtain rfl : k₁ = k₂ := hk
      simp only [lookup]
      split
      · exact .some hd
      · exact ih hmore hrest

theorem Alike.finds (h : Alike (.table entries) d') (hkeys : (entries.map (·.1)).Nodup) :
    ∃ entries', d' = .table entries' ∧ Finds entries fun k => lookup k entries' := by
  obtain ⟨between, entries', rfl, hp, hkeys', hvalues⟩ := h.exists_table
  refine ⟨entries', rfl, fun k => ?_⟩
  rw [lookup_perm hp hkeys]
  exact finds_of_forall₂ hkeys' hvalues k

theorem Finds.exists_alike (h : Finds entries fields) (hk : lookup k entries = some d) :
    ∃ d', fields k = some d' ∧ Alike d d' := by
  have hrel := h k
  rw [hk] at hrel
  cases hd' : fields k with
  | none =>
    rw [hd'] at hrel
    cases hrel
  | some d' =>
    rw [hd'] at hrel
    cases hrel with
    | some hd => exact ⟨d', rfl, hd⟩

theorem Finds.required (h : Finds entries fields) (hk : lookup k entries = some d)
    (hd : Reads f d x) : fields.required k f = some x := by
  obtain ⟨d', hk', hd'⟩ := h.exists_alike hk
  rw [Fields.required, hk', Option.bind_some, hd d' hd']

theorem Finds.withDefault (h : Finds entries fields) (hk : lookup k entries = some d)
    (hd : Reads f d x) (y : α) : fields.withDefault k f y = some x := by
  obtain ⟨d', hk', hd'⟩ := h.exists_alike hk
  simp only [Fields.withDefault, hk', hd d' hd']

theorem Finds.default (h : Finds entries fields) (hk : lookup k entries = none)
    (f : Decoder α) (y : α) : fields.withDefault k f y = some y := by
  have hrel := h k
  rw [hk] at hrel
  cases hd' : fields k with
  | none => simp only [Fields.withDefault, hd']
  | some d' =>
    rw [hd'] at hrel
    cases hrel

theorem mapM_entries {l : List (String × α)}
    (hl : List.Forall₂ (fun e e' : String × _ => e.1 = e'.1 ∧ Reads f e.2 e'.2) between l)
    (hkeys : between.map (·.1) = entries'.map (·.1))
    (hvalues : List.Forall₂ Alike (between.map (·.2)) (entries'.map (·.2))) :
    (entries'.mapM fun (e : String × Datum) => (f e.2).map fun x => (e.1, x)) = some l := by
  induction hl generalizing entries' with
  | nil =>
    obtain rfl : entries' = [] := List.map_eq_nil_iff.1 hkeys.symm
    rfl
  | @cons e e' between l hread hl ih =>
    cases entries' with
    | nil => cases hkeys
    | cons e'' entries' =>
      obtain ⟨hk, hmore⟩ := List.cons.inj hkeys
      obtain ⟨hd, hvalues⟩ := List.forall₂_cons.1 hvalues
      have hk' : e''.1 = e'.1 := hk.symm.trans hread.1
      rw [List.mapM_cons, hread.2 _ hd, ih hmore hvalues, hk']
      rfl

theorem reads_map {write : α → Datum} (hf : ∀ x, Reads f (write x) x) (m : OrderedMap String α) :
    Reads (asMap f) (.table (m.entries.map fun e => (e.1, write e.2))) m := by
  intro d' h
  obtain ⟨between, entries', rfl, hp, hkeys, hvalues⟩ := h.exists_table
  have hwritten : List.Forall₂ (fun e e' : String × _ => e.1 = e'.1 ∧ Reads f e.2 e'.2)
      (m.entries.map fun e => (e.1, write e.2)) m.entries :=
    List.forall₂_map_left_iff.2 (List.forall₂_same.2 fun e _ => ⟨rfl, hf e.2⟩)
  obtain ⟨l, hl, hlm⟩ := List.perm_comp_forall₂ hp.symm hwritten
  have hofList : OrderedMap.ofList l = m := by
    rw [← OrderedMap.ofList_eq_of_perm hlm.symm m.pairwise_compare_ne, OrderedMap.ofList_entries]
  rw [asMap, mapM_entries hl hkeys hvalues, Option.map_some, hofList]

end Tables

end PackagePlan.Datum
