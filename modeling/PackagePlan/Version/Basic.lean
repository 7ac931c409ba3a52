/-! # Versions

A version has numeric components, perhaps a letter, suffixes and a revision.
The order compares them in this sequence; a suffix list is compared as if its
end were a suffix of its own, above `_rc` and below `_p`.
-/

namespace PackagePlan

open Std

inductive SuffixKind | alpha | beta | pre | rc | p
  deriving DecidableEq

namespace SuffixKind

def rank : SuffixKind → Nat
  | alpha => 0
  | beta => 1
  | pre => 2
  | rc => 3
  | p => 5

/-- The rank of having no further suffix. -/
def endRank : Nat := 4

theorem rank_ne_endRank (k : SuffixKind) : k.rank ≠ endRank := by cases k <;> decide

theorem rank_injective {k l : SuffixKind} (h : k.rank = l.rank) : k = l := by
  cases k <;> cases l <;> first | rfl | exact absurd h (by decide)

end SuffixKind

structure Version where
  text : String
  components : List Nat
  letter : Option Char
  suffixes : List (SuffixKind × Nat)
  revision : Nat
  deriving Inhabited

namespace Version

instance : ToString Version := ⟨text⟩

/-- The suffixes as a list of numbers whose lexicographic order is theirs. -/
def suffixKey (v : Version) : List Nat :=
  v.suffixes.flatMap (fun s => [s.1.rank, s.2]) ++ [SuffixKind.endRank]

def compareIgnoringRevision : Version → Version → Ordering :=
  compareLex (compareOn components) (compareLex (compareOn letter) (compareOn suffixKey))

instance : Ord Version := ⟨compareLex compareIgnoringRevision (compareOn revision)⟩

instance : TransCmp compareIgnoringRevision := by
  unfold compareIgnoringRevision; infer_instance

instance : TransOrd Version :=
  inferInstanceAs (TransCmp (compareLex compareIgnoringRevision (compareOn revision)))

/-- Versions are equal when they compare equal, however they are written. -/
instance : BEq Version := ⟨fun a b => compare a b == .eq⟩

theorem beq_iff_compare {a b : Version} : (a == b) = true ↔ compare a b = .eq := by
  change (compare a b == .eq) = true ↔ _
  simp

def startsWith (v w : Version) : Bool := w.components.isPrefixOf v.components

/-- The parts on which equality of versions depends. -/
def key (v : Version) : List Nat × Option Char × List (SuffixKind × Nat) × Nat :=
  (v.components, v.letter, v.suffixes, v.revision)

end Version

end PackagePlan
