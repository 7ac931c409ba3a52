import PackagePlan.Proofs.Toml.Strings

/-! # TOML documents written and read

What is written of a table is read as the same table, with its keys in their
order, if it holds nothing but booleans, strings, arrays and tables, nests less
deep than readers allow, and nowhere has a key twice.
-/

namespace PackagePlan.Toml

/-- Booleans, strings, arrays and tables in which all keys differ, nested at most `n` deep. -/
inductive Plain : Nat → Datum → Prop
  | bool {n b} : Plain n (.bool b)
  | string {n s} : Plain n (.string s)
  | array {n ds} : (∀ d ∈ ds, Plain n d) → Plain (n + 1) (.array ds)
  | table {n entries} : (entries.map (·.1)).Nodup → (∀ e ∈ entries, Plain n e.2) →
      Plain (n + 1) (.table entries)

inductive Stops : List Char → Prop
  | comma (s) : Stops (',' :: s)
  | brace (s) : Stops ('}' :: s)
  | line (s) : Stops ('\n' :: s)

inductive Begins : List Char → Prop
  | string (s) : Begins ('"' :: s)
  | array (s) : Begins ('[' :: s)
  | table (s) : Begins ('{' :: s)
  | yes (s) : Begins ('t' :: s)
  | no (s) : Begins ('f' :: s)

variable {n : Nat} {d : Datum} {s rest : List Char} {k : String} {ds : List Datum}
  {entries : List (String × Datum)} {value : Reader Datum}

theorem Plain.begins (h : Plain n d) (rest : List Char) : Begins (writeValue d ++ rest) := by
  cases h with
  | @bool _ b =>
    cases b with
    | false => exact .no _
    | true => exact .yes _
  | string => exact .string _
  | array =>
    rw [writeValue]
    exact .array _
  | table =>
    rw [writeValue]
    exact .table _

theorem Begins.skipLines (h : Begins s) : skipLines false s = some s := by
  cases h <;> rfl

theorem Begins.skipSpace (h : Begins s) : skipSpace s = s := by
  cases h <;> rfl

section Scalars

theorem Stops.not_scalar (h : Stops rest) :
    rest.takeWhile isScalarChar = [] ∧ rest.dropWhile isScalarChar = rest := by
  cases h <;> exact ⟨rfl, rfl⟩

theorem Stops.not_time (h : Stops rest) (date : List Char) : timeAfterBlank date rest = [] := by
  cases h <;> rfl

theorem scalar_append {text : List Char} (htext : ∀ c ∈ text, isScalarChar c = true)
    (h : Stops rest) : scalar (text ++ rest) = (scalarOf? text).map (·, rest) := by
  have first : (text ++ rest).takeWhile isScalarChar = text := by
    rw [List.takeWhile_append_of_pos htext, h.not_scalar.1, List.append_nil]
  have after : (text ++ rest).dropWhile isScalarChar = rest := by
    rw [List.dropWhile_append_of_pos htext, h.not_scalar.2]
  simp [scalar, first, after, h.not_time]

theorem scalar_bool (b : Bool) (h : Stops rest) :
    scalar ((toString b).toList ++ rest) = some (.bool b, rest) := by
  have hscalar : (toString b).toList.all isScalarChar = true := by cases b <;> rfl
  rw [scalar_append (List.all_eq_true.1 hscalar) h]
  cases b <;> rfl

end Scalars

/-- The reader takes up every value that nests `n` deep, up to what follows it. -/
def Takes (value : Reader Datum) (n : Nat) : Prop :=
  ∀ {d rest}, Plain n d → Stops rest → value (writeValue d ++ rest) = some (d, rest)

section Arrays

theorem items_cons (hvalue : Takes value n) (hd : Plain n d) (fuel : Nat) (s : List Char) :
    items value (fuel + 1) (writeValue d ++ ',' :: s) =
      (items value fuel s).map fun (ds, s) => (d :: ds, s) := by
  have hread := hvalue hd (.comma s)
  have hbegins := hd.begins (',' :: s)
  have hcomma : skipLines false (',' :: s) = some (',' :: s) := rfl
  have hskip := hbegins.skipLines
  generalize writeValue d ++ ',' :: s = text at hread hbegins hskip ⊢
  cases h : items value fuel s <;> cases hbegins <;> simp [items, hskip, hread, hcomma, h]

theorem items_writeItems (hvalue : Takes value n) (hds : ∀ d ∈ ds, Plain n d) {fuel : Nat}
    (hfuel : ds.length < fuel) : items value fuel (writeItems ds ++ rest) = some (ds, rest) := by
  induction ds generalizing fuel with
  | nil =>
    obtain ⟨fuel, rfl⟩ := Nat.exists_eq_succ_of_ne_zero (Nat.ne_zero_of_lt hfuel)
    have hskip : skipLines false (']' :: rest) = some (']' :: rest) := rfl
    simp [writeItems, items, hskip]
  | cons d ds ih =>
    obtain ⟨hd, hds⟩ := List.forall_mem_cons.1 hds
    obtain ⟨fuel, rfl⟩ := Nat.exists_eq_succ_of_ne_zero (Nat.ne_zero_of_lt hfuel)
    rw [writeItems, List.append_assoc, List.cons_append, items_cons hvalue hd,
      ih hds (Nat.lt_of_succ_lt_succ hfuel)]
    rfl

theorem length_writeItems (ds : List Datum) : ds.length < (writeItems ds).length := by
  induction ds with
  | nil => decide
  | cons d ds ih =>
    simp only [writeItems, List.length_append, List.length_cons] at ih ⊢
    omega

end Arrays

section Keys

theorem key_quote (k : String) (rest : List Char) :
    key (quote k ++ '=' :: rest) = some ([k], '=' :: rest) := by
  have hspace : skipSpace (quote k ++ '=' :: rest) = quote k ++ '=' :: rest := by
    rw [quote_append]
    rfl
  have hequals : skipSpace ('=' :: rest) = '=' :: rest := rfl
  rw [key, show depthLimit - 1 = 78 + 1 from rfl, dottedKey, hspace, simpleKey_quote]
  simp only [Option.bind_eq_bind, Option.bind_some, hequals]
  rfl

theorem keyValue_quote (hvalue : Takes value n) (hd : Plain n d) (hrest : Stops rest) (k : String) :
    keyValue value (quote k ++ '=' :: (writeValue d ++ rest)) = some (([k], d), rest) := by
  simp [keyValue, key_quote, expect, (hd.begins rest).skipSpace, hvalue hd hrest]

end Keys

section Tables

theorem fields_last (hvalue : Takes value n) (hd : Plain n d) (k : String) (fuel : Nat)
    (s : List Char) :
    fields value (fuel + 1) (quote k ++ '=' :: (writeValue d ++ '}' :: s)) =
      some ([([k], d)], s) := by
  have hread := keyValue_quote hvalue hd (.brace s) k
  have hspace : skipSpace ('}' :: s) = '}' :: s := rfl
  simp [fields, hread, hspace]

theorem fields_cons (hvalue : Takes value n) (hd : Plain n d) (k : String) (fuel : Nat)
    (s : List Char) :
    fields value (fuel + 1) (quote k ++ '=' :: (writeValue d ++ ',' :: s)) =
      (fields value fuel s).map fun (fs, s) => (([k], d) :: fs, s) := by
  have hread := keyValue_quote hvalue hd (.comma s) k
  have hspace : skipSpace (',' :: s) = ',' :: s := rfl
  cases h : fields value fuel s <;> simp [fields, hread, hspace, h]

theorem fields_writeFields (hvalue : Takes value n) (hne : entries ≠ [])
    (hentries : ∀ e ∈ entries, Plain n e.2) {fuel : Nat} (hfuel : entries.length ≤ fuel) :
    fields value fuel (writeFields entries ++ rest) =
      some (entries.map fun e => ([e.1], e.2), rest) := by
  induction entries generalizing fuel with
  | nil => exact absurd rfl hne
  | cons e entries ih =>
    obtain ⟨k, d⟩ := e
    obtain ⟨hd, hentries⟩ := List.forall_mem_cons.1 hentries
    obtain ⟨fuel, rfl⟩ := Nat.exists_eq_succ_of_ne_zero (Nat.ne_zero_of_lt hfuel)
    cases entries with
    | nil => simp [writeFields, fields_last hvalue hd]
    | cons e' entries =>
      have hmore := ih (List.cons_ne_nil _ _) hentries (Nat.le_of_succ_le_succ hfuel)
      simp [writeFields, fields_cons hvalue hd, hmore]

theorem length_writeFields (entries : List (String × Datum)) :
    entries.length < (writeFields entries).length := by
  induction entries with
  | nil => decide
  | cons e entries ih =>
    cases entries with
    | nil =>
      simp only [writeFields, quote, List.length_append, List.length_cons, List.length_nil] at ih ⊢
      omega
    | cons e' entries =>
      simp only [writeFields, List.length_append, List.length_cons] at ih ⊢
      omega

theorem get?_append_value {acc : Entries} (hk : k ∉ acc.map (·.1)) :
    Entries.get? k acc = none ∧ ∀ m, Entries.set k m acc = acc ++ [(k, m)] := by
  induction acc with
  | nil => exact ⟨rfl, fun _ => rfl⟩
  | cons e acc ih =>
    obtain ⟨hne, hk⟩ := not_or.1 (mt List.mem_cons.2 hk)
    have hne' : e.1 ≠ k := Ne.symm hne
    simp [Entries.get?, Entries.set, hne', ih hk]

theorem addValue_single {acc : Entries} (hk : k ∉ acc.map (·.1)) (d : Datum) :
    Entries.addValue [k] d acc = some (acc ++ [(k, .value d)]) := by
  obtain ⟨hget, hset⟩ := get?_append_value hk
  simp [Entries.addValue, Entries.changeAt, hget, hset]

theorem addValues_append {acc : Entries}
    (hkeys : (acc.map (·.1) ++ entries.map (·.1)).Nodup) :
    Entries.addValues acc (entries.map fun e => ([e.1], e.2)) =
      some (acc ++ entries.map fun e => (e.1, .value e.2)) := by
  induction entries generalizing acc with
  | nil => simp [Entries.addValues]
  | cons e entries ih =>
    have hkeys' : ((acc ++ [(e.1, Node.value e.2)]).map (·.1) ++ entries.map (·.1)).Nodup := by
      simpa using hkeys
    have hnew : e.1 ∉ acc.map (·.1) := fun hm =>
      (List.nodup_append.1 hkeys).2.2 e.1 hm e.1 List.mem_cons_self rfl
    have hrest := ih hkeys'
    rw [Entries.addValues] at hrest ⊢
    rw [List.map_cons, List.foldlM_cons]
    simp [addValue_single hnew, hrest]

theorem entriesToData_values (entries : List (String × Datum)) :
    Node.entriesToData (entries.map fun e => (e.1, .value e.2)) = entries := by
  induction entries with
  | nil => rfl
  | cons e entries ih => simp [Node.entriesToData, Node.toDatum, ih]

theorem addValues_nil (hkeys : (entries.map (·.1)).Nodup) :
    Entries.addValues [] (entries.map fun e => ([e.1], e.2)) =
      some (entries.map fun e => (e.1, .value e.2)) :=
  addValues_append hkeys

theorem buildInline_values (hkeys : (entries.map (·.1)).Nodup) :
    buildInline (entries.map fun e => ([e.1], e.2)) = some (.table entries) := by
  rw [buildInline, addValues_nil hkeys, Option.map_some, entriesToData_values]

end Tables

section Values

theorem value_bool (n : Nat) (b : Bool) (hrest : Stops rest) :
    Toml.value n ((toString b).toList ++ rest) = some (.bool b, rest) := by
  have hscalar : Toml.value n ((toString b).toList ++ rest) =
      scalar ((toString b).toList ++ rest) := by
    cases b <;> cases n <;> rfl
  rw [hscalar, scalar_bool b hrest]

theorem value_string (n : Nat) (s : String) (hrest : Stops rest) :
    Toml.value n (quote s ++ rest) = some (.string s, rest) := by
  have hquoted : Toml.value n (quote s ++ rest) =
      (anyString (quote s ++ rest)).map fun r => (.string (String.ofList r.1), r.2) := by
    rw [quote_append]
    cases n <;> rfl
  have hnext : rest.head? ≠ some '"' := by cases hrest <;> simp
  simp [hquoted, anyString_quote hnext]

theorem value_array (hvalue : Takes (Toml.value n) n) (hds : ∀ d ∈ ds, Plain n d) :
    Toml.value (n + 1) ('[' :: (writeItems ds ++ rest)) = some (.array ds, rest) := by
  have hfuel : ds.length < (writeItems ds ++ rest).length + 1 := by
    have := length_writeItems ds
    rw [List.length_append]
    omega
  rw [Toml.value, items_writeItems hvalue hds hfuel]
  rfl

theorem exists_writeFields (hne : entries ≠ []) : ∃ t, writeFields entries = '"' :: t := by
  cases entries with
  | nil => exact absurd rfl hne
  | cons e entries => cases entries <;> exact ⟨_, by simp [writeFields, quote]; rfl⟩

theorem value_table (hvalue : Takes (Toml.value n) n) (hkeys : (entries.map (·.1)).Nodup)
    (hentries : ∀ e ∈ entries, Plain n e.2) :
    Toml.value (n + 1) ('{' :: (writeFields entries ++ rest)) = some (.table entries, rest) := by
  by_cases hne : entries = []
  · subst hne
    rfl
  · have hfuel : entries.length ≤ (writeFields entries ++ rest).length + 1 := by
      have := length_writeFields entries
      rw [List.length_append]
      omega
    have hfields : fields (Toml.value n) ((writeFields entries ++ rest).length + 1)
        (writeFields entries ++ rest) = some (entries.map fun e => ([e.1], e.2), rest) :=
      fields_writeFields hvalue hne hentries hfuel
    obtain ⟨t, ht⟩ := exists_writeFields hne
    rw [ht, List.cons_append] at hfields ⊢
    have hspace : skipSpace ('"' :: (t ++ rest)) = '"' :: (t ++ rest) := rfl
    rw [Toml.value, hspace]
    split
    · next hclose => cases hclose
    · simp only [hfields, Option.bind_eq_bind, Option.bind_some, buildInline_values hkeys]

theorem value_takes (n : Nat) : Takes (Toml.value n) n := by
  induction n with
  | zero =>
    intro d rest hd hrest
    cases hd with
    | bool => exact value_bool 0 _ hrest
    | string => exact value_string 0 _ hrest
  | succ n ih =>
    intro d rest hd hrest
    cases hd with
    | bool => exact value_bool _ _ hrest
    | string => exact value_string _ _ hrest
    | array hds =>
      rw [writeValue]
      exact value_array ih hds
    | table hkeys hentries =>
      rw [writeValue]
      exact value_table ih hkeys hentries

end Values

section Documents

theorem line_field (hd : Plain (depthLimit - 1) d) (k : String) (s : List Char) :
    line (quote k ++ '=' :: (writeValue d ++ '\n' :: s)) = some (.field [k] d, s) := by
  have hread := keyValue_quote (value_takes _) hd (.line s) k
  have hend : skipComment ('\n' :: s) = some s := rfl
  rw [quote_append] at hread ⊢
  have hspace : ∀ t, skipSpace ('"' :: t) = '"' :: t := fun _ => rfl
  have hvalue : ∀ t, skipComment ('"' :: t) = none := fun _ => rfl
  rw [line, hspace]
  simp [hvalue, hread, hend]

theorem writeLines_cons (k : String) (d : Datum) (entries : List (String × Datum)) :
    writeLines ((k, d) :: entries) =
      quote k ++ '=' :: (writeValue d ++ '\n' :: writeLines entries) := by
  simp [writeLines]

theorem lines_writeLines (hentries : ∀ e ∈ entries, Plain (depthLimit - 1) e.2) {fuel : Nat}
    (hfuel : entries.length ≤ fuel) :
    lines fuel (writeLines entries) = some (entries.map fun e => .field [e.1] e.2) := by
  induction entries generalizing fuel with
  | nil => cases fuel <;> rfl
  | cons e entries ih =>
    obtain ⟨k, d⟩ := e
    obtain ⟨hd, hentries⟩ := List.forall_mem_cons.1 hentries
    obtain ⟨fuel, rfl⟩ := Nat.exists_eq_succ_of_ne_zero (Nat.ne_zero_of_lt hfuel)
    have hline := line_field hd k (writeLines entries)
    have hmore := ih hentries (Nat.le_of_succ_le_succ hfuel)
    rw [writeLines_cons]
    rw [quote_append] at hline ⊢
    rw [lines]
    · simp [hline, hmore]
    · exact List.cons_ne_nil _ _

theorem length_writeLines (entries : List (String × Datum)) :
    entries.length ≤ (writeLines entries).length := by
  induction entries with
  | nil => exact Nat.le_refl 0
  | cons e entries ih =>
    simp only [writeLines, List.length_append, List.length_cons] at ih ⊢
    omega

theorem sections_fields (entries : List (String × Datum)) :
    sections (entries.map fun e => .field [e.1] e.2) = (entries.map fun e => ([e.1], e.2), []) := by
  induction entries with
  | nil => rfl
  | cons e entries ih => simp [sections, ih]

/-- A document is read as it has been written. -/
theorem read_write (hkeys : (entries.map (·.1)).Nodup)
    (hentries : ∀ e ∈ entries, Plain (depthLimit - 1) e.2) :
    read (write entries) = some entries := by
  have hmark : skipByteOrderMark (writeLines entries) = writeLines entries := by
    cases entries with
    | nil => rfl
    | cons e entries =>
      rw [writeLines_cons, quote_append]
      rfl
  have hlines : lines ((writeLines entries).length + 1) (writeLines entries) =
      some (entries.map fun e => .field [e.1] e.2) :=
    lines_writeLines hentries (Nat.le_succ_of_le (length_writeLines entries))
  simp [read, write, hmark, hlines, sections_fields, buildDocument, addValues_nil hkeys,
    entriesToData_values]

end Documents

end PackagePlan.Toml
