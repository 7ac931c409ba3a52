import PackagePlan.Data.Datum
import PackagePlan.Data.Toml.Text

/-! # TOML scalars

Numbers, booleans, dates and times. A scalar is the longest stretch of the
characters that scalars are made of, and has to be one as a whole.
-/

namespace PackagePlan.Toml

/-- Digits with single underscores between them, without the underscores. -/
def digits? (isDigit : Char → Bool) : List Char → Option (List Char)
  | [] => none
  | [d] => if isDigit d then some [d] else none
  | d :: '_' :: e :: s => if isDigit d then (digits? isDigit (e :: s)).map (d :: ·) else none
  | d :: s => if isDigit d then (digits? isDigit s).map (d :: ·) else none

def wholeDigits? : List Char → Option (List Char)
  | ['0'] => some ['0']
  | '0' :: _ => none
  | s => digits? Char.isDigit s

def valueIn (base : Nat) (digits : List Char) : Nat :=
  digits.foldl (fun n c => base * n + (hexDigit? c).getD 0) 0

def inRange (n : Int) : Bool := -9223372036854775808 ≤ n && n ≤ 9223372036854775807

def checked (n : Int) : Option Datum := if inRange n then some (.integer n) else none

def radix? (base : Nat) (s : List Char) : Option Datum := do
  let digits ← digits? (fun c => (hexDigit? c).any (· < base)) s
  checked (valueIn base digits)

def cutSign : List Char → Bool × List Char
  | '+' :: s => (false, s)
  | '-' :: s => (true, s)
  | s => (false, s)

def integer? : List Char → Option Datum
  | '0' :: 'x' :: s => radix? 16 s
  | '0' :: 'o' :: s => radix? 8 s
  | '0' :: 'b' :: s => radix? 2 s
  | s => do
    let (negative, s) := cutSign s
    let n : Int := valueIn 10 (← wholeDigits? s)
    checked (if negative then -n else n)

/-- The least decimal that rounds to no finite number is `floatLimit`. -/
def floatLimit : Nat := Nat.pow 2 1024 - Nat.pow 2 970

/-- `digits · 10 ^ exponent` is finite as a number of double precision. -/
def isFinite (digits : List Char) (exponent : Int) : Bool :=
  let digits := digits.dropWhile (· == '0')
  let n := valueIn 10 digits
  if digits.isEmpty || (digits.length : Int) + exponent < 300 then true
  else if (digits.length : Int) + exponent > 320 then false
  else if exponent ≥ 0 then n * Nat.pow 10 exponent.toNat < floatLimit
  else n < floatLimit * Nat.pow 10 (-exponent).toNat

def exponent? (s : List Char) : Option Int := do
  let (negative, s) := cutSign s
  let n : Int := valueIn 10 (← digits? Char.isDigit s)
  some (if negative then -n else n)

def isExponentMark (c : Char) : Bool := c == 'e' || c == 'E'

def float? (s : List Char) : Option Datum := do
  let (negative, body) := cutSign s
  if body = ['i', 'n', 'f'] ∨ body = ['n', 'a', 'n'] then some (.float (String.ofList s))
  else do
    let mantissa := body.takeWhile (!isExponentMark ·)
    let exponent ←
      match body.dropWhile (!isExponentMark ·) with
      | [] => some none
      | _ :: e => (exponent? e).map some
    let whole ← wholeDigits? (mantissa.takeWhile (· != '.'))
    let fraction ←
      match mantissa.dropWhile (· != '.') with
      | [] => some none
      | _ :: f => (digits? Char.isDigit f).map some
    if exponent.isNone && fraction.isNone then none
    else if negative ||
        isFinite (whole ++ fraction.getD []) (exponent.getD 0 - (fraction.getD []).length) then
      some (.float (String.ofList s))
    else none

def fixedNumber (n : Nat) (s : List Char) : Option (Nat × List Char) :=
  let digits := s.take n
  if digits.length = n ∧ digits.all Char.isDigit then some (valueIn 10 digits, s.drop n) else none

def isLeapYear (y : Nat) : Bool := y % 4 == 0 && (y % 100 != 0 || y % 400 == 0)

def daysIn (year month : Nat) : Nat :=
  if month = 2 then if isLeapYear year then 29 else 28
  else if [4, 6, 9, 11].contains month then 30
  else 31

def expect (c : Char) : List Char → Option (List Char)
  | d :: s => if d = c then some s else none
  | [] => none

def skipDate (s : List Char) : Option (List Char) := do
  let (year, s) ← fixedNumber 4 s
  let (month, s) ← fixedNumber 2 (← expect '-' s)
  let (day, s) ← fixedNumber 2 (← expect '-' s)
  if 1 ≤ month ∧ month ≤ 12 ∧ 1 ≤ day ∧ day ≤ daysIn year month then some s else none

def skipTime (s : List Char) : Option (List Char) := do
  let (hour, s) ← fixedNumber 2 s
  let (minute, s) ← fixedNumber 2 (← expect ':' s)
  let (second, s) ← fixedNumber 2 (← expect ':' s)
  if hour ≤ 23 ∧ minute ≤ 59 ∧ second ≤ 60 then
    match s with
    | '.' :: d :: s => if d.isDigit then some (s.dropWhile Char.isDigit) else none
    | '.' :: [] => none
    | s => some s
  else none

def skipOffset : List Char → Option (List Char)
  | [] => some []
  | 'Z' :: s => some s
  | 'z' :: s => some s
  | c :: s => do
    if c = '+' ∨ c = '-' then
      let (hour, s) ← fixedNumber 2 s
      let (minute, s) ← fixedNumber 2 (← expect ':' s)
      if hour ≤ 23 ∧ minute ≤ 59 then some s else none
    else none

def isTimeWithOffset (s : List Char) : Bool := ((skipTime s).bind skipOffset) == some []

def isDateDelimiter (c : Char) : Bool := c == 'T' || c == 't' || c == ' '

def isDatetime (s : List Char) : Bool :=
  skipTime s == some [] ||
    match skipDate s with
    | none => false
    | some [] => true
    | some (c :: s) => isDateDelimiter c && isTimeWithOffset s

def datetime? (s : List Char) : Option Datum :=
  if isDatetime s then some (.datetime (String.ofList s)) else none

def scalarOf? (s : List Char) : Option Datum :=
  if s = "true".toList then some (.bool true)
  else if s = "false".toList then some (.bool false)
  else integer? s <|> float? s <|> datetime? s

def isScalarChar (c : Char) : Bool :=
  c.isAlphanum || c == '+' || c == '-' || c == '.' || c == '_' || c == ':'

/-- The time after a date, if only a blank divides the two. -/
def timeAfterBlank (date : List Char) : List Char → List Char
  | ' ' :: s =>
    let time := s.takeWhile isScalarChar
    if skipDate date == some [] && isTimeWithOffset time then ' ' :: time else []
  | _ => []

def scalar : Reader Datum := fun s =>
  let first := s.takeWhile isScalarChar
  let rest := s.dropWhile isScalarChar
  let time := timeAfterBlank first rest
  (scalarOf? (first ++ time)).map (·, rest.drop time.length)

end PackagePlan.Toml
