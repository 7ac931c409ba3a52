/-! # Ordered maps and sets

A finite map kept as the list of its entries, strictly ascending by key, so
that equal maps have equal entries and every traversal is in key order.
Writing to a key that is already there keeps the key and changes the value.
-/

namespace PackagePlan

open Std

universe u v w

structure OrderedMap (κ : Type u) (α : Type v) [Ord κ] where
  entries : List (κ × α)
  ascending : entries.Pairwise fun a b => compare a.1 b.1 = .lt
  deriving DecidableEq

namespace OrderedMap

variable {κ : Type u} {α : Type v} [Ord κ]

def empty : OrderedMap κ α := ⟨[], .nil⟩

instance : Inhabited (OrderedMap κ α) := ⟨empty⟩

instance : EmptyCollection (OrderedMap κ α) := ⟨empty⟩

def keys (m : OrderedMap κ α) : List κ := m.entries.map (·.1)

def values (m : OrderedMap κ α) : List α := m.entries.map (·.2)

def size (m : OrderedMap κ α) : Nat := m.entries.length

def isEmpty (m : OrderedMap κ α) : Bool := m.entries.isEmpty

def lookup (k : κ) : List (κ × α) → Option α
  | [] => none
  | (k', x) :: rest => if compare k k' = .eq then some x else lookup k rest

def get? (m : OrderedMap κ α) (k : κ) : Option α := lookup k m.entries

def contains (m : OrderedMap κ α) (k : κ) : Bool := (m.get? k).isSome

def getD (m : OrderedMap κ α) (k : κ) (x : α) : α := (m.get? k).getD x

/-- Puts `f` of the value at `k` back at its place in an ascending list of entries. -/
def place (k : κ) (f : Option α → α) : List (κ × α) → List (κ × α)
  | [] => [(k, f none)]
  | (k', x) :: rest =>
    match compare k k' with
    | .lt => (k, f none) :: (k', x) :: rest
    | .eq => (k', f (some x)) :: rest
    | .gt => (k', x) :: place k f rest

theorem key_of_mem_place {k : κ} {f : Option α → α} {l : List (κ × α)} {e : κ × α}
    (h : e ∈ place k f l) : e.1 = k ∨ ∃ e' ∈ l, e'.1 = e.1 := by
  induction l with
  | nil => simp [place] at h; simp [h]
  | cons hd tl ih =>
    obtain ⟨k', x⟩ := hd
    rw [place] at h
    split at h
    · rcases List.mem_cons.1 h with rfl | h
      · exact .inl rfl
      · exact .inr ⟨e, h, rfl⟩
    · rcases List.mem_cons.1 h with rfl | h
      · exact .inr ⟨(k', x), by simp⟩
      · exact .inr ⟨e, .tail _ h, rfl⟩
    · rcases List.mem_cons.1 h with rfl | h
      · exact .inr ⟨(k', x), by simp⟩
      · rcases ih h with h | ⟨e', he', hk⟩
        · exact .inl h
        · exact .inr ⟨e', .tail _ he', hk⟩

theorem ascending_place [TransOrd κ] (k : κ) (f : Option α → α) {l : List (κ × α)}
    (h : l.Pairwise fun a b => compare a.1 b.1 = .lt) :
    (place k f l).Pairwise fun a b => compare a.1 b.1 = .lt := by
  induction l with
  | nil => simp [place]
  | cons hd tl ih =>
    obtain ⟨k', x⟩ := hd
    obtain ⟨hhd, htl⟩ := List.pairwise_cons.1 h
    rw [place]
    split
    · rename_i hlt
      refine .cons (fun e he => ?_) h
      rcases List.mem_cons.1 he with rfl | he
      · exact hlt
      · exact TransCmp.lt_trans hlt (hhd e he)
    · exact .cons hhd htl
    · rename_i hgt
      refine .cons (fun e he => ?_) (ih htl)
      rcases key_of_mem_place he with hk | ⟨e', he', hk⟩
      · rw [hk]; exact OrientedCmp.lt_of_gt hgt
      · rw [← hk]; exact hhd e' he'

theorem ascending_filter {p : κ × α → Bool} {l : List (κ × α)}
    (h : l.Pairwise fun a b => compare a.1 b.1 = .lt) :
    (l.filter p).Pairwise fun a b => compare a.1 b.1 = .lt :=
  h.sublist List.filter_sublist

def alter [TransOrd κ] (m : OrderedMap κ α) (k : κ) (f : Option α → α) : OrderedMap κ α :=
  ⟨place k f m.entries, ascending_place k f m.ascending⟩

def insert [TransOrd κ] (m : OrderedMap κ α) (k : κ) (x : α) : OrderedMap κ α :=
  m.alter k fun _ => x

def filter (m : OrderedMap κ α) (p : κ → α → Bool) : OrderedMap κ α :=
  ⟨m.entries.filter fun e => p e.1 e.2, ascending_filter m.ascending⟩

def erase (m : OrderedMap κ α) (k : κ) : OrderedMap κ α :=
  m.filter fun k' _ => compare k k' != .eq

/-- Later entries win. -/
def ofList [TransOrd κ] (l : List (κ × α)) : OrderedMap κ α :=
  l.foldl (fun m e => m.insert e.1 e.2) empty

def compareEntries [Ord α] : List (κ × α) → List (κ × α) → Ordering :=
  List.compareLex (compareLex (compareOn Prod.fst) (compareOn Prod.snd))

instance [Ord α] : Ord (OrderedMap κ α) := ⟨fun a b => compareEntries a.entries b.entries⟩

instance [TransOrd κ] [Ord α] [TransOrd α] :
    TransCmp (compareEntries : List (κ × α) → List (κ × α) → Ordering) := by
  unfold compareEntries; infer_instance

instance [TransOrd κ] [Ord α] [TransOrd α] : TransOrd (OrderedMap κ α) where
  eq_swap {a b} := @OrientedCmp.eq_swap _ compareEntries _ a.entries b.entries
  isLE_trans {a b c} := @TransCmp.isLE_trans _ compareEntries _ a.entries b.entries c.entries

theorem get?_empty (k : κ) : (empty : OrderedMap κ α).get? k = none := rfl

theorem lookup_eq_none_of_lt [TransOrd κ] {k : κ} {l : List (κ × α)}
    (hl : l.Pairwise fun a b => compare a.1 b.1 = .lt)
    (h : ∀ e ∈ l.head?, compare k e.1 = .lt) : lookup k l = none := by
  induction l with
  | nil => rfl
  | cons hd tl ih =>
    obtain ⟨k', x⟩ := hd
    have hk : compare k k' = .lt := h _ rfl
    obtain ⟨hhd, htl⟩ := List.pairwise_cons.1 hl
    simp only [lookup, hk, reduceCtorEq, if_false]
    refine ih htl fun e he => TransCmp.lt_trans hk (hhd e (List.mem_of_mem_head? he))

theorem lookup_place_eq [TransOrd κ] (k : κ) (f : Option α → α) {l : List (κ × α)}
    (hl : l.Pairwise fun a b => compare a.1 b.1 = .lt) :
    lookup k (place k f l) = some (f (lookup k l)) := by
  induction l with
  | nil => simp [place, lookup]
  | cons hd tl ih =>
    obtain ⟨k', x⟩ := hd
    obtain ⟨-, htl⟩ := List.pairwise_cons.1 hl
    rw [place]
    split
    · rename_i hlt
      rw [lookup_eq_none_of_lt hl (by simpa using hlt)]; simp [lookup]
    · rename_i heq; simp [lookup, heq]
    · rename_i hgt
      simp only [lookup, hgt, reduceCtorEq, if_false]
      exact ih htl

theorem lookup_place_ne [TransOrd κ] {k k' : κ} (f : Option α → α) (l : List (κ × α))
    (h : compare k' k ≠ .eq) : lookup k' (place k f l) = lookup k' l := by
  induction l with
  | nil => simp [place, lookup, h]
  | cons hd tl ih =>
    obtain ⟨k'', x⟩ := hd
    rw [place]
    split
    · simp [lookup, h]
    · rename_i heq
      have hne : compare k' k'' ≠ .eq := fun hk =>
        h (TransCmp.eq_trans hk (OrientedCmp.eq_symm heq))
      simp [lookup, hne]
    · simp only [lookup, ih]

theorem get?_alter_self [TransOrd κ] (m : OrderedMap κ α) (k : κ) (f : Option α → α) :
    (m.alter k f).get? k = some (f (m.get? k)) :=
  lookup_place_eq k f m.ascending

theorem get?_alter_of_ne [TransOrd κ] (m : OrderedMap κ α) {k k' : κ} (f : Option α → α)
    (h : compare k' k ≠ .eq) : (m.alter k f).get? k' = m.get? k' :=
  lookup_place_ne f m.entries h

end OrderedMap

/-- A set as the ascending list of its elements. -/
structure OrderedSet (κ : Type u) [Ord κ] where
  members : OrderedMap κ Unit
  deriving DecidableEq

namespace OrderedSet

variable {κ : Type u} [Ord κ]

def empty : OrderedSet κ := ⟨.empty⟩

instance : Inhabited (OrderedSet κ) := ⟨empty⟩

instance : EmptyCollection (OrderedSet κ) := ⟨empty⟩

def toList (s : OrderedSet κ) : List κ := s.members.keys

def size (s : OrderedSet κ) : Nat := s.members.size

def isEmpty (s : OrderedSet κ) : Bool := s.members.isEmpty

def contains (s : OrderedSet κ) (k : κ) : Bool := s.members.contains k

def insert [TransOrd κ] (s : OrderedSet κ) (k : κ) : OrderedSet κ := ⟨s.members.insert k ()⟩

def erase (s : OrderedSet κ) (k : κ) : OrderedSet κ := ⟨s.members.erase k⟩

def filter (s : OrderedSet κ) (p : κ → Bool) : OrderedSet κ := ⟨s.members.filter fun k _ => p k⟩

def ofList [TransOrd κ] (l : List κ) : OrderedSet κ := l.foldl insert empty

def union [TransOrd κ] (s t : OrderedSet κ) : OrderedSet κ := t.toList.foldl insert s

end OrderedSet

end PackagePlan
