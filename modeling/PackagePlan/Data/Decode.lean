import PackagePlan.Data.Datum
import PackagePlan.Ordered.Map
import PackagePlan.Text.Numeral

/-! # Decoding

How data are read as values of known types. A record may be given by its keys,
of which unknown ones are ignored, or by its values in order.
-/

namespace PackagePlan

inductive Format
  | toml
  | json
  deriving DecidableEq

namespace Datum

abbrev Decoder (α : Type) := Datum → Option α

def asString : Decoder String
  | string s => some s
  | _ => none

def asBool : Decoder Bool
  | bool b => some b
  | _ => none

/-- A number of 64 bits without a sign. -/
def asCount : Decoder Nat
  | integer n => if 0 ≤ n ∧ n < Text.wordLimit then some n.toNat else none
  | _ => none

def asOption {α : Type} (f : Decoder α) : Decoder (Option α)
  | null => some none
  | d => (f d).map some

def asList {α : Type} (f : Decoder α) : Decoder (List α)
  | array items => items.mapM f
  | _ => none

def asStrings : Decoder (List String) := asList asString

def asMap {α : Type} (f : Decoder α) : Decoder (OrderedMap String α)
  | table entries =>
    (entries.mapM fun (e : String × Datum) => (f e.2).map fun x => (e.1, x)).map .ofList
  | _ => none

/-- What may stand beside a name in place of a value. -/
def isUnit : Format → Datum → Bool
  | .json, null => true
  | .toml, array [] => true
  | .toml, table [] => true
  | _, _ => false

/-- One of several names, alone or as the only key of a table that says no more. -/
def asName {α : Type} (fmt : Format) (ofName? : String → Option α) : Decoder α
  | string s => ofName? s
  | table [(k, d)] => if isUnit fmt d then ofName? k else none
  | _ => none

abbrev Fields := String → Option Datum

def asRecord (fmt : Format) (names : List String) : Decoder Fields
  | table entries => some fun k => lookup k entries
  | array items =>
    if fmt = .json ∧ items.length > names.length then none
    else some fun k => lookup k (names.zip items)
  | datetime _ => some fun _ => none
  | _ => none

namespace Fields

def required {α : Type} (fields : Fields) (name : String) (f : Decoder α) : Option α :=
  (fields name).bind f

def withDefault {α : Type} (fields : Fields) (name : String) (f : Decoder α) (default : α) :
    Option α :=
  match fields name with
  | none => some default
  | some d => f d

end Fields

end Datum

end PackagePlan
