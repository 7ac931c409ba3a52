import PackagePlan.Data.Toml.Scalar
import PackagePlan.Data.Toml.Table

/-! # Reading TOML

A document is read line by line into sections, and its tables are then built
from them. Arrays and tables in braces nest less than `depthLimit` deep, and
so do dotted keys.
-/

namespace PackagePlan.Toml

def depthLimit : Nat := 80

def isBareKeyChar (c : Char) : Bool := c.isAlphanum || c == '_' || c == '-'

def simpleKey : Reader String
  | '"' :: s => (basicString s).map fun (k, s) => (String.ofList k, s)
  | '\'' :: s => (literalString s).map fun (k, s) => (String.ofList k, s)
  | s =>
    match s.takeWhile isBareKeyChar with
    | [] => none
    | k => some (String.ofList k, s.dropWhile isBareKeyChar)

/-- A key of at most `fuel` parts with dots between them, and space anywhere around the parts. -/
def dottedKey : Nat → Reader (List String)
  | 0, _ => none
  | fuel + 1, s => do
    let (k, s) ← simpleKey (skipSpace s)
    match skipSpace s with
    | '.' :: s =>
      let (ks, s) ← dottedKey fuel s
      some (k :: ks, s)
    | s => some ([k], s)

def key : Reader (List String) := dottedKey (depthLimit - 1)

def keyValue (value : Reader Datum) : Reader (List String × Datum) := fun s => do
  let (k, s) ← key s
  let s ← expect '=' s
  let (d, s) ← value (skipSpace s)
  some ((k, d), s)

/-- The rest of an array: items and commas, one of which may stand at the end. -/
def items (value : Reader Datum) : Nat → Reader (List Datum)
  | 0, _ => none
  | fuel + 1, s => do
    match ← skipLines false s with
    | ']' :: s => some ([], s)
    | s =>
      let (d, s) ← value s
      match ← skipLines false s with
      | ',' :: s =>
        let (ds, s) ← items value fuel s
        some (d :: ds, s)
      | ']' :: s => some ([d], s)
      | _ => none

def fields (value : Reader Datum) : Nat → Reader (List (List String × Datum))
  | 0, _ => none
  | fuel + 1, s => do
    let (f, s) ← keyValue value s
    match skipSpace s with
    | ',' :: s =>
      let (fs, s) ← fields value fuel s
      some (f :: fs, s)
    | '}' :: s => some ([f], s)
    | _ => none

/-- A value, in which arrays and tables may nest `depth` deep. -/
def value : Nat → Reader Datum
  | 0, s =>
    match s with
    | '"' :: _ | '\'' :: _ => (anyString s).map fun (cs, s) => (.string (String.ofList cs), s)
    | s => scalar s
  | depth + 1, s =>
    match s with
    | '"' :: _ | '\'' :: _ => (anyString s).map fun (cs, s) => (.string (String.ofList cs), s)
    | '[' :: s => (items (value depth) (s.length + 1) s).map fun (ds, s) => (.array ds, s)
    | '{' :: s =>
      match skipSpace s with
      | '}' :: s => some (.table [], s)
      | s => do
        let (fs, s) ← fields (value depth) (s.length + 1) s
        some (← buildInline fs, s)
    | s => scalar s

inductive Line
  | blank
  | header (path : List String) (isElement : Bool)
  | field (path : List String) (d : Datum)

/-- A line, which ends before the rest; values may go over several lines of text. -/
def line (s : List Char) : Option (Line × List Char) :=
  match skipSpace s with
  | '[' :: '[' :: s => do
    let (path, s) ← key s
    let s ← expect ']' s
    let s ← expect ']' s
    some (.header path true, ← skipComment s)
  | '[' :: s => do
    let (path, s) ← key s
    let s ← expect ']' s
    some (.header path false, ← skipComment s)
  | s =>
    match skipComment s with
    | some rest => some (.blank, rest)
    | none => do
      let ((path, d), s) ← keyValue (value (depthLimit - 1)) s
      some (.field path d, ← skipComment s)

def lines : Nat → List Char → Option (List Line)
  | _, [] => some []
  | 0, _ => none
  | fuel + 1, s => do
    let (l, s) ← line s
    (l :: ·) <$> lines fuel s

/-- The fields above all headers, and the sections. -/
def sections : List Line → List (List String × Datum) × List Section
  | [] => ([], [])
  | .blank :: ls => sections ls
  | .field path d :: ls =>
    let (top, rest) := sections ls
    ((path, d) :: top, rest)
  | .header path isElement :: ls =>
    let (values, rest) := sections ls
    ([], ⟨path, isElement, values⟩ :: rest)

def skipByteOrderMark : List Char → List Char
  | c :: s => if c.toNat = 0xFEFF then s else c :: s
  | [] => []

def read (s : String) : Option (List (String × Datum)) := do
  let text := skipByteOrderMark s.toList
  let (top, rest) := sections (← lines (text.length + 1) text)
  buildDocument top rest

end PackagePlan.Toml
