import PackagePlan.Text.Numeral

/-! # TOML strings

The characters of TOML and its four kinds of strings. A reader takes a text
and returns what it has read and the rest, or nothing if the text is wrong.
-/

namespace PackagePlan.Toml

/-- What a reader makes of the beginning of a text, and the rest. -/
abbrev Reader (α : Type) := List Char → Option (α × List Char)

/-- Every character but a control character that is no tab. -/
def isPrintable (c : Char) : Bool := c == '\t' || (0x20 ≤ c.toNat && c.toNat != 0x7F)

def isSpace (c : Char) : Bool := c == ' ' || c == '\t'

def skipSpace (s : List Char) : List Char := s.dropWhile isSpace

def lineEnd? : List Char → Option (List Char)
  | [] => some []
  | '\n' :: s => some s
  | '\r' :: '\n' :: s => some s
  | _ => none

/-- The rest of a line that holds nothing but space and a comment, and the text after it. -/
def skipComment (s : List Char) : Option (List Char) :=
  match skipSpace s with
  | '#' :: s => lineEnd? (s.dropWhile isPrintable)
  | s => lineEnd? s

/-- Space, comments and line ends, in any number. `inComment` holds inside a comment. -/
def skipLines (inComment : Bool) : List Char → Option (List Char)
  | [] => some []
  | '\n' :: s => skipLines false s
  | '\r' :: '\n' :: s => skipLines false s
  | c :: s =>
    if inComment then if isPrintable c then skipLines true s else none
    else if isSpace c then skipLines false s
    else if c == '#' then skipLines true s
    else some (c :: s)

def hexDigit? (c : Char) : Option Nat :=
  if '0' ≤ c ∧ c ≤ '9' then some (c.toNat - 48)
  else if 'a' ≤ c ∧ c ≤ 'f' then some (c.toNat - 87)
  else if 'A' ≤ c ∧ c ≤ 'F' then some (c.toNat - 55)
  else none

/-- The character with a hexadecimal code; surrogates are none. -/
def scalar? (digits : List Char) : Option Char := do
  let values ← digits.mapM hexDigit?
  let n := values.foldl (fun n d => 16 * n + d) 0
  if n.isValidChar then some (.ofNat n) else none

def escaped? : Char → Option Char
  | 'b' => some (.ofNat 8)
  | 't' => some '\t'
  | 'n' => some '\n'
  | 'f' => some (.ofNat 12)
  | 'r' => some '\r'
  | '"' => some '"'
  | '\\' => some '\\'
  | _ => none

def basicString : Reader (List Char)
  | [] => none
  | '"' :: s => some ([], s)
  | '\\' :: 'u' :: a :: b :: c :: d :: s => do
    let x ← scalar? [a, b, c, d]
    let (xs, s) ← basicString s
    some (x :: xs, s)
  | '\\' :: 'U' :: a :: b :: c :: d :: e :: f :: g :: h :: s => do
    let x ← scalar? [a, b, c, d, e, f, g, h]
    let (xs, s) ← basicString s
    some (x :: xs, s)
  | '\\' :: e :: s => do
    let x ← escaped? e
    let (xs, s) ← basicString s
    some (x :: xs, s)
  | c :: s =>
    if isPrintable c && c != '\\' then (basicString s).map fun (xs, s) => (c :: xs, s) else none

def literalString : Reader (List Char)
  | [] => none
  | '\'' :: s => some ([], s)
  | c :: s => if isPrintable c then (literalString s).map fun (xs, s) => (c :: xs, s) else none

/-- A backslash before these characters swallows them and all space and line ends after them. -/
def continuesLine (s : List Char) : Bool :=
  match skipSpace s with
  | '\n' :: _ | '\r' :: '\n' :: _ => true
  | _ => false

/-- The rest of a string in triple double quotes. `skipping` holds after a line that is continued.
Up to two quotes may stand directly before the closing ones. -/
def basicLines (skipping : Bool) : Reader (List Char)
  | [] => none
  | '"' :: '"' :: '"' :: '"' :: '"' :: s => some (['"', '"'], s)
  | '"' :: '"' :: '"' :: '"' :: s => some (['"'], s)
  | '"' :: '"' :: '"' :: s => some ([], s)
  | '\r' :: '\n' :: s =>
    if skipping then basicLines true s
    else (basicLines false s).map fun (xs, s) => ('\n' :: xs, s)
  | '\n' :: s =>
    if skipping then basicLines true s
    else (basicLines false s).map fun (xs, s) => ('\n' :: xs, s)
  | '\\' :: 'u' :: a :: b :: c :: d :: s => do
    let x ← scalar? [a, b, c, d]
    let (xs, s) ← basicLines false s
    some (x :: xs, s)
  | '\\' :: 'U' :: a :: b :: c :: d :: e :: f :: g :: h :: s => do
    let x ← scalar? [a, b, c, d, e, f, g, h]
    let (xs, s) ← basicLines false s
    some (x :: xs, s)
  | '\\' :: e :: s =>
    if continuesLine (e :: s) then basicLines true (e :: s)
    else do
      let x ← escaped? e
      let (xs, s) ← basicLines false s
      some (x :: xs, s)
  | c :: s =>
    if skipping && isSpace c then basicLines true s
    else if isPrintable c && c != '\\' then
      (basicLines false s).map fun (xs, s) => (c :: xs, s)
    else none

def literalLines : Reader (List Char)
  | [] => none
  | '\'' :: '\'' :: '\'' :: '\'' :: '\'' :: s => some (['\'', '\''], s)
  | '\'' :: '\'' :: '\'' :: '\'' :: s => some (['\''], s)
  | '\'' :: '\'' :: '\'' :: s => some ([], s)
  | '\r' :: '\n' :: s => (literalLines s).map fun (xs, s) => ('\n' :: xs, s)
  | '\n' :: s => (literalLines s).map fun (xs, s) => ('\n' :: xs, s)
  | c :: s => if isPrintable c then (literalLines s).map fun (xs, s) => (c :: xs, s) else none

/-- A line end directly after the opening quotes does not count. -/
def skipFirstLineEnd : List Char → List Char
  | '\n' :: s => s
  | '\r' :: '\n' :: s => s
  | s => s

def anyString : Reader (List Char)
  | '"' :: '"' :: '"' :: s => basicLines false (skipFirstLineEnd s)
  | '"' :: s => basicString s
  | '\'' :: '\'' :: '\'' :: s => literalLines (skipFirstLineEnd s)
  | '\'' :: s => literalString s
  | _ => none

end PackagePlan.Toml
