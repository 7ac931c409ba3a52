/-! # Blank characters

The characters with the Unicode property White_Space, and what trimming and
reading words mean with respect to them.
-/

namespace PackagePlan.Text

def isBlank (c : Char) : Bool :=
  let n := c.toNat
  (0x9 ≤ n && n ≤ 0xD) || n == 0x20 || n == 0x85 || n == 0xA0 || n == 0x1680 ||
    (0x2000 ≤ n && n ≤ 0x200A) || n == 0x2028 || n == 0x2029 || n == 0x202F ||
    n == 0x205F || n == 0x3000

def trimStart (s : List Char) : List Char := s.dropWhile isBlank

def trimEnd (s : List Char) : List Char := (s.reverse.dropWhile isBlank).reverse

def trim (s : List Char) : List Char := trimEnd (trimStart s)

/-- The stretches of `s` between the characters that satisfy `p`, empty ones included. -/
def pieces (p : Char → Bool) : List Char → List (List Char)
  | [] => [[]]
  | c :: s =>
    if p c then [] :: pieces p s
    else
      match pieces p s with
      | [] => [[c]]
      | w :: ws => (c :: w) :: ws

theorem pieces_ne_nil (p : Char → Bool) (s : List Char) : pieces p s ≠ [] := by
  cases s with
  | nil => simp [pieces]
  | cons c s =>
    rw [pieces]
    split
    · simp
    · split <;> simp

def words (s : List Char) : List (List Char) := (pieces isBlank s).filter (!·.isEmpty)

/-- What follows `mark` at the start of a text. -/
def afterStart? : List Char → List Char → Option (List Char)
  | [], s => some s
  | m :: mark, c :: s => if m = c then afterStart? mark s else none
  | _ :: _, [] => none

/-- What stands before `mark` at the end of `s`. -/
def beforeEnd? (mark s : List Char) : Option (List Char) :=
  (afterStart? mark.reverse s.reverse).map List.reverse

theorem afterStart?_eq_some_iff {mark s rest : List Char} :
    afterStart? mark s = some rest ↔ s = mark ++ rest := by
  induction mark generalizing s with
  | nil => simp [afterStart?]
  | cons m mark ih =>
    cases s with
    | nil => simp [afterStart?]
    | cons c s =>
      rw [afterStart?]
      split
      · rename_i h; simp [ih, h]
      · rename_i h; simp [Ne.symm h]

/-- What stands before and after the first `mark` in `s`. -/
def cutFirst? (mark : List Char) : List Char → Option (List Char × List Char)
  | [] => none
  | c :: s =>
    match afterStart? mark (c :: s) with
    | some rest => some ([], rest)
    | none => (cutFirst? mark s).map fun (a, b) => (c :: a, b)

/-- What stands before and after the last `mark` in `s`. -/
def cutLast? (mark : List Char) : List Char → Option (List Char × List Char)
  | [] => none
  | c :: s =>
    match cutLast? mark s with
    | some (a, b) => some (c :: a, b)
    | none => (afterStart? mark (c :: s)).map fun rest => ([], rest)

def join (sep : String) (parts : List String) : String := sep.intercalate parts

end PackagePlan.Text
