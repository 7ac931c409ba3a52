import PackagePlan.Data.Toml.Reader
import PackagePlan.Data.Toml.Writer

/-! # TOML strings written and read

A quoted string is read as it has been written, whatever its characters are and
whatever stands after the closing quote.
-/

namespace PackagePlan.Toml

variable {c : Char} {s t rest : List Char}

theorem hexDigit?_hexDigit {n : Nat} (h : n < 16) : hexDigit? (Json.hexDigit n) = some n := by
  have all_digits : ∀ n < 16, hexDigit? (Json.hexDigit n) = some n := by decide
  exact all_digits n h

theorem scalar?_hexDigits (h : c.toNat < 256) :
    scalar? ['0', '0', Json.hexDigit (c.toNat / 16), Json.hexDigit (c.toNat % 16)] = some c := by
  have hzero : hexDigit? '0' = some 0 := by decide
  have hhigh := hexDigit?_hexDigit (n := c.toNat / 16) (by omega)
  have hlow := hexDigit?_hexDigit (n := c.toNat % 16) (by omega)
  have hvalue : 16 * (c.toNat / 16) + c.toNat % 16 = c.toNat := Nat.div_add_mod _ _
  have hvalid : c.toNat.isValidChar := c.valid
  simp [scalar?, hzero, hhigh, hlow, hvalue, hvalid, Char.ofNat_toNat]

theorem basicString_escapeChar (c : Char) (s : List Char) :
    basicString (escapeChar c ++ s) = (basicString s).map fun (xs, s) => (c :: xs, s) := by
  unfold escapeChar
  split
  · next hquote =>
    subst hquote
    cases h : basicString s <;> simp [basicString, escaped?, h]
  · next hquote =>
    split
    · next hslash =>
      subst hslash
      cases h : basicString s <;> simp [basicString, escaped?, h]
    · next hslash =>
      split
      · next hcontrol =>
        have hscalar := scalar?_hexDigits (c := c) (by omega)
        cases h : basicString s <;> simp [basicString, hscalar, h]
      · next hcontrol =>
        have hprintable : isPrintable c = true := by
          simp only [isPrintable, Bool.or_eq_true, Bool.and_eq_true, decide_eq_true_eq,
            bne_iff_ne]
          omega
        simp [basicString, hslash, hprintable]

theorem basicString_append (s rest : List Char) :
    basicString (s.flatMap escapeChar ++ '"' :: rest) = some (s, rest) := by
  induction s with
  | nil => simp [basicString]
  | cons c s ih => rw [List.flatMap_cons, List.append_assoc, basicString_escapeChar, ih]; rfl

theorem exists_escapeChar (c : Char) : ∃ x xs, escapeChar c = x :: xs ∧ x ≠ '"' := by
  unfold escapeChar
  split
  · exact ⟨_, _, rfl, by decide⟩
  · next hquote =>
    split
    · exact ⟨_, _, rfl, by decide⟩
    · split
      · exact ⟨_, _, rfl, by decide⟩
      · exact ⟨c, [], rfl, hquote⟩

theorem quote_append (s : String) (rest : List Char) :
    quote s ++ rest = '"' :: (s.toList.flatMap escapeChar ++ '"' :: rest) := by
  simp [quote]

/-- The opening quote is not taken for one of three, unless the text is empty and a third quote
follows it. -/
theorem anyString_quote {s : String} (hrest : rest.head? ≠ some '"') :
    anyString (quote s ++ rest) = some (s.toList, rest) := by
  have single : ∀ t, s.toList.flatMap escapeChar ++ '"' :: rest ≠ '"' :: '"' :: t := by
    intro t ht
    cases hs : s.toList with
    | nil =>
      rw [hs, List.flatMap_nil, List.nil_append] at ht
      rw [(List.cons.inj ht).2] at hrest
      exact hrest rfl
    | cons c s =>
      obtain ⟨x, xs, hx, hne⟩ := exists_escapeChar c
      rw [hs, List.flatMap_cons, hx] at ht
      exact hne (List.cons.inj ht).1
  rw [quote_append, anyString]
  · exact basicString_append _ _
  · exact single

theorem simpleKey_quote (k : String) (rest : List Char) :
    simpleKey (quote k ++ rest) = some (k, rest) := by
  simp [quote_append, simpleKey, basicString_append]

end PackagePlan.Toml
