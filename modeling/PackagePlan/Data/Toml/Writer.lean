import PackagePlan.Data.Datum
import PackagePlan.Data.Json

/-! # Writing TOML

The text of a table: one line for each key, with its value in brackets or
braces where it has parts. Keys and strings are written in double quotes with
every control character escaped.
-/

namespace PackagePlan.Toml

def escapeChar (c : Char) : List Char :=
  if c = '"' then ['\\', '"']
  else if c = '\\' then ['\\', '\\']
  else if c.toNat < 0x20 ∨ c.toNat = 0x7F then
    ['\\', 'u', '0', '0', Json.hexDigit (c.toNat / 16), Json.hexDigit (c.toNat % 16)]
  else [c]

def quote (s : String) : List Char := '"' :: s.toList.flatMap escapeChar ++ ['"']

mutual

/-- The text of a value. A missing value has none. -/
def writeValue : Datum → List Char
  | .null => []
  | .bool b => (toString b).toList
  | .integer n => (toString n).toList
  | .float text | .datetime text => text.toList
  | .string s => quote s
  | .array ds => '[' :: writeItems ds
  | .table entries => '{' :: writeFields entries

def writeItems : List Datum → List Char
  | [] => [']']
  | d :: ds => writeValue d ++ ',' :: writeItems ds

def writeFields : List (String × Datum) → List Char
  | [] => ['}']
  | [(k, d)] => quote k ++ '=' :: writeValue d ++ ['}']
  | (k, d) :: entries => quote k ++ '=' :: writeValue d ++ ',' :: writeFields entries

end

def writeLines : List (String × Datum) → List Char
  | [] => []
  | (k, d) :: entries => quote k ++ '=' :: writeValue d ++ '\n' :: writeLines entries

def write (entries : List (String × Datum)) : String := String.ofList (writeLines entries)

end PackagePlan.Toml
