/-! # Decimal numerals

Numbers written in ASCII digits that have to fit a 64-bit word.
-/

namespace PackagePlan.Text

def wordLimit : Nat := 18446744073709551616

def isNumeral (s : List Char) : Bool := !s.isEmpty && s.all Char.isDigit

def numeralValue (s : List Char) : Nat := s.foldl (fun n c => 10 * n + (c.toNat - '0'.toNat)) 0

def word? (s : List Char) : Option Nat :=
  if isNumeral s && numeralValue s < wordLimit then some (numeralValue s) else none

/-- A numeral below the word limit, with one plus sign allowed before it. -/
def signedWord? : List Char → Option Nat
  | '+' :: s => word? s
  | s => word? s

def rightAligned (width n : Nat) : String :=
  let digits := toString n
  String.ofList (List.replicate (width - digits.length) ' ') ++ digits

end PackagePlan.Text
