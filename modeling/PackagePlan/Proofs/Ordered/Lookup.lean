import PackagePlan.Ordered.Map

/-! # Lookup in ordered maps

Where keys that compare equal are equal, an ordered map is known by its
lookups: writing to a key changes what is found there and nothing else.
-/

namespace PackagePlan

open Std

universe u v w

namespace OrderedMap

variable {κ : Type u} {α : Type v} [Ord κ]

theorem lookup_isSome_iff {k : κ} {l : List (κ × α)} :
    (lookup k l).isSome ↔ ∃ e ∈ l, compare k e.1 = .eq := by
  induction l with
  | nil => simp [lookup]
  | cons hd tl ih =>
    obtain ⟨k', x⟩ := hd
    rw [lookup]
    by_cases h : compare k k' = .eq <;> simp [h, ih]

theorem exists_mem_of_lookup {k : κ} {x : α} {l : List (κ × α)} (h : lookup k l = some x) :
    ∃ e ∈ l, e.2 = x := by
  induction l with
  | nil => cases h
  | cons e l ih =>
    rw [lookup] at h
    split at h
    · cases h
      exact ⟨e, .head _, rfl⟩
    · obtain ⟨e', he', hx⟩ := ih h
      exact ⟨e', .tail _ he', hx⟩

theorem mem_values_of_get? {m : OrderedMap κ α} {k : κ} {x : α} (h : m.get? k = some x) :
    x ∈ m.values :=
  List.mem_map.2 (exists_mem_of_lookup h)

theorem contains_iff_exists_key {m : OrderedMap κ α} {k : κ} :
    m.contains k = true ↔ ∃ k' ∈ m.keys, compare k k' = .eq := by
  rw [contains, get?, lookup_isSome_iff]
  simp [keys]

theorem ascending_keys (m : OrderedMap κ α) : m.keys.Pairwise fun k k' => compare k k' = .lt :=
  List.pairwise_map.2 m.ascending

theorem pairwise_compare_ne (m : OrderedMap κ α) :
    m.entries.Pairwise fun e e' => compare e.1 e'.1 ≠ .eq := by
  refine m.ascending.imp fun hlt heq => ?_
  rw [hlt] at heq
  cases heq

theorem place_perm {k : κ} {f : Option α → α} {l : List (κ × α)} (h : lookup k l = none) :
    (place k f l).Perm ((k, f none) :: l) := by
  induction l with
  | nil => rfl
  | cons e l ih =>
    obtain ⟨k', x⟩ := e
    rw [lookup] at h
    rw [place]
    split
    · rfl
    · next heq =>
      rw [if_pos heq] at h
      cases h
    · next hgt =>
      rw [if_neg (by rw [hgt]; decide)] at h
      exact ((ih h).cons _).trans (.swap _ _ _)

section

variable [TransOrd κ]

theorem get?_congr {m : OrderedMap κ α} {k k' : κ} (h : compare k k' = .eq) :
    m.get? k = m.get? k' := by
  unfold get?
  generalize m.entries = l
  induction l with
  | nil => rfl
  | cons e l ih => rw [lookup, lookup, TransCmp.congr_left h, ih]

theorem mem_keys_place {k k' : κ} {f : Option α → α} {l : List (κ × α)}
    (hl : l.Pairwise fun a b => compare a.1 b.1 = .lt) :
    k' ∈ (place k f l).map (·.1) ↔ k' ∈ l.map (·.1) ∨ k' = k ∧ lookup k l = none := by
  induction l with
  | nil => simp [place, lookup]
  | cons hd tl ih =>
    obtain ⟨k'', x⟩ := hd
    obtain ⟨-, htl⟩ := List.pairwise_cons.1 hl
    rw [place]
    split
    · next hlt =>
      have hn : lookup k ((k'', x) :: tl) = none :=
        lookup_eq_none_of_lt hl (by simpa using hlt)
      simp [hn, or_comm]
    · next heq => simp [lookup, heq]
    · next hgt => simp only [List.map_cons, List.mem_cons, ih htl, lookup, hgt, reduceCtorEq,
        if_false, or_assoc]

theorem pairwise_keys_ne (m : OrderedMap κ α) : m.entries.Pairwise fun e e' => e.1 ≠ e'.1 := by
  refine m.ascending.imp fun {e e'} hlt he => ?_
  rw [he, ReflOrd.compare_self] at hlt
  cases hlt

theorem nodup_keys (m : OrderedMap κ α) : m.keys.Nodup :=
  List.pairwise_map.2 m.pairwise_keys_ne

theorem mem_keys_insert {m : OrderedMap κ α} {k k' : κ} {x : α} :
    k' ∈ (m.insert k x).keys ↔ k' ∈ m.keys ∨ k' = k ∧ m.contains k = false := by
  rw [contains, get?, Option.isSome_eq_false_iff, Option.isNone_iff_eq_none]
  exact mem_keys_place m.ascending

theorem foldl_insert_perm {l : List (κ × α)} {m : OrderedMap κ α}
    (hl : l.Pairwise fun e e' => compare e.1 e'.1 ≠ .eq) (hm : ∀ e ∈ l, m.get? e.1 = none) :
    (l.foldl (fun m e => m.insert e.1 e.2) m).entries.Perm (l ++ m.entries) := by
  induction l generalizing m with
  | nil => rfl
  | cons e l ih =>
    obtain ⟨he, hl⟩ := List.pairwise_cons.1 hl
    have hfresh : ∀ e' ∈ l, (m.insert e.1 e.2).get? e'.1 = none := by
      intro e' he'
      have hne : compare e'.1 e.1 ≠ .eq := fun heq => he e' he' (OrientedCmp.eq_symm heq)
      rw [insert, get?_alter_of_ne _ _ hne]
      exact hm e' (.tail _ he')
    have hplace : (m.insert e.1 e.2).entries.Perm (e :: m.entries) := place_perm (hm e (.head _))
    exact (ih hl hfresh).trans ((hplace.append_left l).trans List.perm_middle)

theorem ofList_perm {l : List (κ × α)} (hl : l.Pairwise fun e e' => compare e.1 e'.1 ≠ .eq) :
    (ofList l).entries.Perm l := by
  have h := foldl_insert_perm (m := empty) hl fun _ _ => rfl
  rwa [show (empty : OrderedMap κ α).entries = [] from rfl, List.append_nil] at h

theorem eq_of_perm_of_ascending {β : Type w} {key : β → κ} {l l' : List β} (h : l.Perm l')
    (hl : l.Pairwise fun a b => compare (key a) (key b) = .lt)
    (hl' : l'.Pairwise fun a b => compare (key a) (key b) = .lt) : l = l' := by
  apply h.eq_of_pairwise _ hl hl'
  intro a b _ _ hlt hgt
  rw [OrientedCmp.gt_of_lt hlt] at hgt
  cases hgt

theorem eq_of_perm {m m' : OrderedMap κ α} (h : m.entries.Perm m'.entries) : m = m' := by
  have entries : m.entries = m'.entries := eq_of_perm_of_ascending h m.ascending m'.ascending
  rcases m with ⟨es, hes⟩
  rcases m' with ⟨es', hes'⟩
  cases entries
  rfl

theorem ofList_eq_of_perm {l l' : List (κ × α)} (hp : l.Perm l')
    (hl : l.Pairwise fun e e' => compare e.1 e'.1 ≠ .eq) : ofList l = ofList l' := by
  have hl' : l'.Pairwise fun e e' => compare e.1 e'.1 ≠ .eq :=
    hp.pairwise hl fun h heq => h (OrientedCmp.eq_symm heq)
  exact eq_of_perm ((ofList_perm hl).trans (hp.trans (ofList_perm hl').symm))

theorem ofList_entries (m : OrderedMap κ α) : ofList m.entries = m :=
  eq_of_perm (ofList_perm m.pairwise_compare_ne)

end

theorem lookup_eq_some_iff [TransOrd κ] [LawfulEqOrd κ] {k : κ} {x : α} {l : List (κ × α)}
    (hl : l.Pairwise fun a b => compare a.1 b.1 = .lt) :
    lookup k l = some x ↔ (k, x) ∈ l := by
  induction l with
  | nil => simp [lookup]
  | cons hd tl ih =>
    obtain ⟨k', y⟩ := hd
    obtain ⟨hhd, htl⟩ := List.pairwise_cons.1 hl
    rw [lookup]
    by_cases h : compare k k' = .eq
    · obtain rfl : k = k' := LawfulEqOrd.eq_of_compare h
      have hn : (k, x) ∉ tl := fun hm => by simpa using hhd _ hm
      simp [hn, eq_comm]
    · have hne : k ≠ k' := fun he => h (he ▸ ReflOrd.compare_self)
      simp [h, ih htl, hne]

variable [TransOrd κ] [LawfulEqOrd κ]

theorem mem_entries_iff {m : OrderedMap κ α} {k : κ} {x : α} :
    (k, x) ∈ m.entries ↔ m.get? k = some x :=
  (lookup_eq_some_iff m.ascending).symm

theorem mem_keys_iff {m : OrderedMap κ α} {k : κ} : k ∈ m.keys ↔ ∃ x, m.get? k = some x := by
  simp only [keys, List.mem_map, Prod.exists, exists_and_right, exists_eq_right, mem_entries_iff]

theorem mem_values_iff {m : OrderedMap κ α} {x : α} : x ∈ m.values ↔ ∃ k, m.get? k = some x := by
  simp only [values, List.mem_map, Prod.exists, exists_eq_right, mem_entries_iff]

theorem get?_alter [DecidableEq κ] (m : OrderedMap κ α) (k k' : κ) (f : Option α → α) :
    (m.alter k f).get? k' = if k' = k then some (f (m.get? k)) else m.get? k' := by
  split
  · next h => rw [h, get?_alter_self]
  · next h => exact get?_alter_of_ne m f fun he => h (LawfulEqOrd.eq_of_compare he)

theorem get?_insert [DecidableEq κ] (m : OrderedMap κ α) (k k' : κ) (x : α) :
    (m.insert k x).get? k' = if k' = k then some x else m.get? k' :=
  get?_alter m k k' _

theorem get?_erase [DecidableEq κ] (m : OrderedMap κ α) (k k' : κ) :
    (m.erase k).get? k' = if k' = k then none else m.get? k' := by
  refine Option.ext fun x => ?_
  rw [← mem_entries_iff, erase, filter, List.mem_filter, mem_entries_iff]
  by_cases h : k' = k
  · simp [h]
  · have hne : compare k k' ≠ .eq := fun he => h (LawfulEqOrd.eq_of_compare he).symm
    simp [h, hne]

theorem ext_get? {m m' : OrderedMap κ α} (h : ∀ k, m.get? k = m'.get? k) : m = m' := by
  have nodup : ∀ m : OrderedMap κ α, m.entries.Nodup := fun m =>
    m.pairwise_keys_ne.imp fun hne he => hne (congrArg Prod.fst he)
  apply eq_of_perm
  rw [List.perm_ext_iff_of_nodup (nodup m) (nodup m')]
  rintro ⟨k, x⟩
  rw [mem_entries_iff, mem_entries_iff, h]

theorem keys_ext {m m' : OrderedMap κ α} (h : ∀ k, m.contains k = m'.contains k) :
    m.keys = m'.keys := by
  have mem : ∀ k, k ∈ m.keys ↔ k ∈ m'.keys := by
    intro k
    rw [mem_keys_iff, mem_keys_iff, ← Option.isSome_iff_exists, ← Option.isSome_iff_exists]
    exact Bool.eq_iff_iff.1 (h k)
  have perm : m.keys.Perm m'.keys :=
    (List.perm_ext_iff_of_nodup m.nodup_keys m'.nodup_keys).2 mem
  exact eq_of_perm_of_ascending perm m.ascending_keys m'.ascending_keys

section Alter

variable [DecidableEq κ] {m : OrderedMap κ α} {k k' : κ} {f f' : Option α → α}

theorem alter_congr (h : f (m.get? k) = f' (m.get? k)) : m.alter k f = m.alter k f' := by
  apply ext_get?
  intro k'
  rw [get?_alter, get?_alter, h]

theorem alter_alter : (m.alter k f).alter k f' = m.alter k fun x => f' (some (f x)) := by
  apply ext_get?
  intro k'
  simp only [get?_alter, if_true]
  split <;> rfl

theorem alter_comm (h : k ≠ k') : (m.alter k f).alter k' f' = (m.alter k' f').alter k f := by
  apply ext_get?
  intro k''
  simp only [get?_alter, h, h.symm, if_false]
  by_cases hk : k'' = k
  · subst hk
    simp only [h, if_true, if_false]
  · simp only [hk, if_false]

end Alter

theorem get?_ofList {l : List (κ × α)} {k : κ} {x : α} (h : (ofList l).get? k = some x) :
    (k, x) ∈ l := by
  classical
  suffices ∀ (l : List (κ × α)) (m : OrderedMap κ α),
      (l.foldl (fun m e => m.insert e.1 e.2) m).get? k = some x →
        (k, x) ∈ l ∨ m.get? k = some x from
    (this l empty h).resolve_right (by simp [get?_empty])
  intro l
  induction l with
  | nil => exact fun m h => .inr h
  | cons e l ih =>
    intro m h
    rcases ih _ h with h | h
    · exact .inl (.tail _ h)
    · rw [get?_insert] at h
      split at h
      · next hk =>
        obtain rfl := Option.some.inj h
        exact .inl (by simp [hk])
      · exact .inr h

end OrderedMap

namespace OrderedSet

variable {κ : Type u} [Ord κ] [TransOrd κ] [LawfulEqOrd κ] [DecidableEq κ]

theorem contains_insert {s : OrderedSet κ} {k k' : κ} :
    (s.insert k).contains k' = true ↔ k' = k ∨ s.contains k' = true := by
  rw [contains, insert, OrderedMap.contains, OrderedMap.get?_insert]
  by_cases h : k' = k <;> simp [h, contains, OrderedMap.contains]

theorem insert_insert {s : OrderedSet κ} {k : κ} : (s.insert k).insert k = s.insert k :=
  congrArg OrderedSet.mk OrderedMap.alter_alter

theorem contains_erase {s : OrderedSet κ} {k k' : κ} :
    (s.erase k).contains k' = true ↔ k' ≠ k ∧ s.contains k' = true := by
  rw [contains, erase, OrderedMap.contains, OrderedMap.get?_erase]
  by_cases h : k' = k <;> simp [h, contains, OrderedMap.contains]

omit [DecidableEq κ] in
theorem mem_toList_iff {s : OrderedSet κ} {k : κ} : k ∈ s.toList ↔ s.contains k = true := by
  rw [toList, OrderedMap.mem_keys_iff, contains, OrderedMap.contains, Option.isSome_iff_exists]

omit [TransOrd κ] [LawfulEqOrd κ] [DecidableEq κ] in
theorem isEmpty_iff {s : OrderedSet κ} : s.isEmpty = true ↔ s.toList = [] := by
  rw [isEmpty, OrderedMap.isEmpty, List.isEmpty_iff, toList, OrderedMap.keys, List.map_eq_nil_iff]

theorem contains_foldl_insert {l : List κ} {s : OrderedSet κ} {k : κ} :
    (l.foldl insert s).contains k = true ↔ k ∈ l ∨ s.contains k = true := by
  induction l generalizing s with
  | nil => simp
  | cons a l ih => rw [List.foldl_cons, ih, contains_insert, List.mem_cons, or_left_comm, or_assoc]

theorem contains_ofList {l : List κ} {k : κ} : (ofList l).contains k = true ↔ k ∈ l := by
  rw [ofList, contains_foldl_insert]
  simp [contains, empty, OrderedMap.contains, OrderedMap.get?_empty]

theorem contains_union {s t : OrderedSet κ} {k : κ} :
    (s.union t).contains k = true ↔ s.contains k = true ∨ t.contains k = true := by
  rw [union, contains_foldl_insert, mem_toList_iff, or_comm]

omit [TransOrd κ] [LawfulEqOrd κ] [DecidableEq κ] in
theorem ascending_toList (s : OrderedSet κ) : s.toList.Pairwise fun a b => compare a b = .lt :=
  s.members.ascending_keys

omit [LawfulEqOrd κ] [DecidableEq κ] in
theorem nodup_toList (s : OrderedSet κ) : s.toList.Nodup := s.members.nodup_keys

theorem toList_ofList_perm {l : List κ} (hl : l.Nodup) : (ofList l).toList.Perm l := by
  rw [List.perm_iff_count]
  intro k
  rw [(ofList l).nodup_toList.count, hl.count]
  simp only [mem_toList_iff, contains_ofList]

end OrderedSet

end PackagePlan
