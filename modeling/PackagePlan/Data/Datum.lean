/-! # Data

Values as they are found in files: what TOML and JSON texts have in common,
with the keys of a table in the order in which they came.
-/

namespace PackagePlan

inductive Datum
  | null
  | bool (b : Bool)
  | integer (n : Int)
  /-- A number with a fraction or exponent, as written. -/
  | float (text : String)
  | datetime (text : String)
  | string (s : String)
  | array (items : List Datum)
  | table (entries : List (String × Datum))

namespace Datum

instance : Inhabited Datum := ⟨null⟩

def lookup (key : String) : List (String × Datum) → Option Datum
  | [] => none
  | (k, d) :: entries => if k = key then some d else lookup key entries

mutual

def withoutNulls : Datum → Datum
  | array items => array (itemsWithoutNulls items)
  | table entries => table (entriesWithoutNulls entries)
  | d => d

def itemsWithoutNulls : List Datum → List Datum
  | [] => []
  | d :: ds => d.withoutNulls :: itemsWithoutNulls ds

def entriesWithoutNulls : List (String × Datum) → List (String × Datum)
  | [] => []
  | (_, null) :: entries => entriesWithoutNulls entries
  | (k, d) :: entries => (k, d.withoutNulls) :: entriesWithoutNulls entries

end

end Datum

end PackagePlan
