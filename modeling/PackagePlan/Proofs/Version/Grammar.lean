import Mathlib.Data.Nat.Digits.Defs
import PackagePlan.Proofs.Version.Reading

/-! # The grammar of versions

A version is `D(.D)*`, then at most one letter, then any number of suffixes,
each with or without a number, then perhaps `-rD`. Reading accepts these texts
and no others, but for a plus sign that may stand before the number of a
suffix.
-/

namespace PackagePlan

open Text

namespace Version

/-- A run of digits and the number below the word limit that they denote. -/
structure Number (s : List Char) (n : Nat) : Prop where
  nonempty : s ≠ []
  digits : ∀ c ∈ s, c.isDigit = true
  value : n = Nat.ofDigits 10 (s.reverse.map fun c => c.toNat - '0'.toNat)
  bounded : n < wordLimit

inductive SignedNumber : List Char → Nat → Prop
  | plain {s n} : Number s n → SignedNumber s n
  | plus {s n} : Number s n → SignedNumber ('+' :: s) n

/-- `D(.D)*` -/
inductive Components : List Char → List Nat → Prop
  | last {s n} : Number s n → Components s [n]
  | more {s n t ns} : Number s n → Components t ns → Components (s ++ '.' :: t) (n :: ns)

inductive Letter : List Char → Option Char → Prop
  | absent : Letter [] none
  | present {c} : isLetter c = true → Letter [c] (some c)

/-- A suffix after its underscore, with `Count` for the number that may follow its name. -/
inductive Suffix (Count : List Char → Nat → Prop) : List Char → SuffixKind × Nat → Prop
  | bare (k : SuffixKind) : Suffix Count k.name.toList (k, 0)
  | counted (k : SuffixKind) {s n} : Count s n → Suffix Count (k.name.toList ++ s) (k, n)

inductive Suffixes (Count : List Char → Nat → Prop) :
    List Char → List (SuffixKind × Nat) → Prop
  | nil : Suffixes Count [] []
  | cons {s x t xs} : Suffix Count s x → Suffixes Count t xs →
      Suffixes Count ('_' :: s ++ t) (x :: xs)

/-- At most one `-rD`. -/
inductive Revision : List Char → Nat → Prop
  | absent : Revision [] 0
  | present {s n} : Number s n → Revision ('-' :: 'r' :: s) n

/-- The text of a version with what is read off it. -/
inductive Spells (Count : List Char → Nat → Prop) : List Char → Version → Prop
  | mk {a b c d components letter suffixes revision} : Components a components →
      Letter b letter → Suffixes Count c suffixes → Revision d revision →
      Spells Count (a ++ b ++ c ++ d)
        ⟨String.ofList (a ++ b ++ c ++ d), components, letter, suffixes, revision⟩

variable {s t a b c d body digits numeric : List Char} {x : Char} {n : Nat} {ns : List Nat}
  {l : List (List Char)} {letter : Option Char} {k : SuffixKind} {suffix : SuffixKind × Nat}
  {suffixes : List (SuffixKind × Nat)} {v : Version} {Count : List Char → Nat → Prop}

section Numbers

theorem numeralValue_eq_ofDigits (s : List Char) :
    numeralValue s = Nat.ofDigits 10 (s.reverse.map fun c => c.toNat - '0'.toNat) := by
  rw [Nat.ofDigits_eq_foldr, List.foldr_map, List.foldr_reverse, numeralValue]
  congr 1
  funext n c
  exact Nat.add_comm _ _

theorem word?_eq_some_iff : word? s = some n ↔ Number s n := by
  unfold word?
  constructor
  · intro h
    split at h
    · next hw =>
      cases h
      obtain ⟨hs, hlt⟩ := Bool.and_eq_true_iff.1 hw
      exact ⟨(isNumeral_iff.1 hs).1, (isNumeral_iff.1 hs).2, numeralValue_eq_ofDigits s,
        of_decide_eq_true hlt⟩
    · cases h
  · rintro ⟨hne, hdigits, hvalue, hlt⟩
    rw [← numeralValue_eq_ofDigits] at hvalue
    rw [isNumeral_iff.2 ⟨hne, hdigits⟩, ← hvalue]
    simp [hlt]

theorem readComponent_eq_ok_iff : readComponent s = .ok n ↔ Number s n := by
  rw [← word?_eq_some_iff]
  unfold readComponent
  constructor
  · intro h
    split at h
    · split at h
      · next hw =>
        cases h
        exact hw
      · cases h
    · cases h
  · intro h
    rw [if_pos (isNumeral_iff.2 ⟨(word?_eq_some_iff.1 h).nonempty, (word?_eq_some_iff.1 h).digits⟩),
      h]

theorem signedWord?_eq_some_iff : signedWord? s = some n ↔ SignedNumber s n := by
  constructor
  · intro h
    unfold signedWord? at h
    split at h
    · exact .plus (word?_eq_some_iff.1 h)
    · exact .plain (word?_eq_some_iff.1 h)
  · rintro (h | h)
    · rw [signedWord?, word?_eq_some_iff.2 h]
      rintro t rfl
      exact absurd (h.digits '+' (.head _)) (by decide)
    · exact word?_eq_some_iff.2 h

end Numbers

section Characters

theorem Number.notMem (h : Number s n) (hx : x.isDigit = false) : x ∉ s := fun hm => by
  rw [h.digits x hm] at hx
  cases hx

theorem isLetter_of_isDigit (h : x.isDigit = true) : isLetter x = false := by
  have hrange := Char.isDigit_iff_toNat.1 h
  have hnine : x.toNat ≤ 57 := hrange.2
  simp only [isLetter, Char.le_def, UInt32.le_iff_toNat_le, Bool.and_eq_false_iff,
    decide_eq_false_iff_not]
  left
  change ¬ 97 ≤ x.toNat
  omega

theorem SignedNumber.head (h : SignedNumber s n) : ∀ x ∈ s.head?, isLetter x = false := by
  intro x hx
  cases h with
  | plain hn => exact isLetter_of_isDigit (hn.digits x (List.mem_of_mem_head? hx))
  | plus hn =>
    obtain rfl := Option.some.inj hx
    rfl

theorem Components.isDigit_or_dot (h : Components s ns) (hx : x ∈ s) : x.isDigit ∨ x = '.' := by
  induction h with
  | last hs => exact .inl (hs.digits x hx)
  | more hs _ ih =>
    rcases List.mem_append.1 hx with hx | hx
    · exact .inl (hs.digits x hx)
    · rcases List.mem_cons.1 hx with rfl | hx
      · exact .inr rfl
      · exact ih hx

theorem Components.ne_nil (h : Components s ns) : s ≠ [] := by
  cases h with
  | last hn => exact hn.nonempty
  | more hn _ => exact List.append_ne_nil_of_left_ne_nil hn.nonempty _

theorem Letter.isLetter (h : Letter s letter) (hx : x ∈ s) : isLetter x = true := by
  cases h with
  | absent => cases hx
  | present hl =>
    obtain rfl := List.mem_singleton.1 hx
    exact hl

theorem notMem_numeric (ha : Components a ns) (hb : Letter b letter) (hx : x ∈ ['_', '-', '+']) :
    x ∉ a ++ b := by
  intro hm
  have hnumeric : (x.isDigit = true ∨ x = '.') ∨ Version.isLetter x = true :=
    (List.mem_append.1 hm).imp ha.isDigit_or_dot hb.isLetter
  simp only [List.mem_cons, List.not_mem_nil, or_false] at hx
  rcases hx with rfl | rfl | rfl <;> exact absurd hnumeric (by decide)

theorem SignedNumber.notMem (h : SignedNumber s n) (hx : x.isDigit = false) (hplus : x ≠ '+') :
    x ∉ s := by
  cases h with
  | plain hn => exact hn.notMem hx
  | plus hn => exact fun hm => (List.mem_cons.1 hm).elim hplus (hn.notMem hx)

theorem Suffix.notMem (h : Suffix Count s suffix) (hcount : ∀ {t n}, Count t n → x ∉ t)
    (hx : isLetter x = false) : x ∉ s := by
  have notMem_name : ∀ {k : SuffixKind}, x ∉ k.name.toList := fun hm => by
    rw [SuffixKind.isLetter_of_mem_name hm] at hx
    cases hx
  cases h with
  | bare k => exact notMem_name
  | counted k hn => exact fun hm => (List.mem_append.1 hm).elim notMem_name (hcount hn)

theorem Suffixes.notMem (h : Suffixes Count s suffixes) (hcount : ∀ {t n}, Count t n → x ∉ t)
    (hx : isLetter x = false) (hmark : x ≠ '_') : x ∉ s := by
  induction h with
  | nil => exact List.not_mem_nil
  | cons hs _ ih =>
    intro hm
    rcases List.mem_append.1 hm with hm | hm
    · exact (List.mem_cons.1 hm).elim hmark (hs.notMem hcount hx)
    · exact ih hm

end Characters

section Components

theorem components_of_pieces (hl : l ≠ []) (h : l.map readComponent = ns.map .ok) :
    Components (['.'].intercalate l) ns := by
  induction l generalizing ns with
  | nil => exact absurd rfl hl
  | cons w l ih =>
    cases ns with
    | nil => cases h
    | cons n ns =>
      obtain ⟨hw, h⟩ := List.cons.inj h
      have hn := readComponent_eq_ok_iff.1 hw
      cases l with
      | nil =>
        obtain rfl : ns = [] := List.map_eq_nil_iff.1 h.symm
        rw [List.intercalate_singleton]
        exact .last hn
      | cons w' l =>
        rw [List.intercalate_cons_cons, List.append_assoc]
        exact .more hn (ih (List.cons_ne_nil _ _) h)

theorem Components.pieces (h : Components s ns) :
    (pieces (· == '.') s).map readComponent = ns.map .ok := by
  have single : ∀ {s n}, Number s n → Text.pieces (· == '.') s = [s] := fun hn =>
    pieces_eq_singleton_of_notMem (hn.notMem rfl)
  induction h with
  | last hn => rw [single hn, List.map_singleton, readComponent_eq_ok_iff.2 hn]; rfl
  | more hn _ ih =>
    rw [pieces_append rfl, single hn, List.map_append, ih, List.map_singleton,
      readComponent_eq_ok_iff.2 hn]
    rfl

end Components

section Suffixes

theorem read?_name (h : ∀ x ∈ s.head?, isLetter x = false) :
    SuffixKind.read? (k.name.toList ++ s) = some (k, s) := by
  cases s with
  | nil => cases k <;> rfl
  | cons x s =>
    have hx : 'r' ≠ x := by
      rintro rfl
      exact absurd (h 'r' rfl) (by decide)
    cases k <;> simp [SuffixKind.read?, SuffixKind.all, SuffixKind.name, afterStart?, hx]

theorem readSuffix_eq_ok_iff : readSuffix s = .ok suffix ↔ Suffix SignedNumber s suffix := by
  constructor
  · intro h
    unfold readSuffix at h
    split at h
    · cases h
    · next k hk =>
      cases h
      rw [SuffixKind.eq_of_read? hk, List.append_nil]
      exact .bare k
    · next k number _ hk =>
      split at h
      · next n hn =>
        cases h
        rw [SuffixKind.eq_of_read? hk]
        exact .counted k (signedWord?_eq_some_iff.1 hn)
      · cases h
  · intro h
    cases h with
    | bare k =>
      have hk := read?_name (k := k) (s := []) fun x hx => by cases hx
      rw [List.append_nil] at hk
      rw [readSuffix, hk]
    | @counted k s n hn =>
      have hword := signedWord?_eq_some_iff.2 hn
      rw [readSuffix, read?_name hn.head]
      cases s with
      | nil => cases hword
      | cons x s => simp only [hword]

theorem suffixes_of_pieces (h : l.map readSuffix = suffixes.map .ok) :
    Suffixes SignedNumber (l.flatMap ('_' :: ·)) suffixes := by
  induction l generalizing suffixes with
  | nil =>
    obtain rfl : suffixes = [] := List.map_eq_nil_iff.1 h.symm
    exact .nil
  | cons w l ih =>
    cases suffixes with
    | nil => cases h
    | cons suffix suffixes =>
      obtain ⟨hw, h⟩ := List.cons.inj h
      exact .cons (readSuffix_eq_ok_iff.1 hw) (ih h)

theorem Suffixes.pieces (h : Suffixes SignedNumber c suffixes) (hs : '_' ∉ s) :
    ∃ l, pieces (· == '_') (s ++ c) = s :: l ∧ l.map readSuffix = suffixes.map .ok := by
  induction h generalizing s with
  | nil => exact ⟨[], by rw [List.append_nil, pieces_eq_singleton_of_notMem hs], rfl⟩
  | @cons w suffix t suffixes hw _ ih =>
    have hmark : '_' ∉ w := hw.notMem (fun hn => hn.notMem rfl (by decide)) rfl
    obtain ⟨l, hl, hread⟩ := ih hmark
    refine ⟨w :: l, ?_, ?_⟩
    · rw [List.cons_append, pieces_append rfl, hl, pieces_eq_singleton_of_notMem hs]
      rfl
    · rw [List.map_cons, readSuffix_eq_ok_iff.2 hw, hread, List.map_cons]

end Suffixes

section Ends

theorem letter_of_cutLetter (h : cutLetter s = (digits, letter)) :
    ∃ b, Letter b letter ∧ s = digits ++ b := by
  unfold cutLetter at h
  split at h
  · next x hx =>
    split at h
    · next hletter =>
      cases h
      obtain ⟨before, rfl⟩ := List.getLast?_eq_some_iff.1 hx
      exact ⟨[x], .present hletter, by rw [List.dropLast_concat]⟩
    · cases h
      exact ⟨[], .absent, (List.append_nil s).symm⟩
  · cases h
    exact ⟨[], .absent, (List.append_nil s).symm⟩

theorem cutLetter_append (ha : Components a ns) (hb : Letter b letter) :
    cutLetter (a ++ b) = (a, letter) := by
  unfold cutLetter
  cases hb with
  | absent =>
    rw [List.append_nil]
    split
    · next x hx =>
      have hletter : isLetter x = false := by
        rcases ha.isDigit_or_dot (List.mem_of_getLast? hx) with h | rfl
        · exact isLetter_of_isDigit h
        · rfl
      rw [hletter]
      rfl
    · rfl
  | present hletter =>
    rw [List.getLast?_concat, List.dropLast_concat]
    simp only [hletter, if_true]

theorem revision_of_cutRevision (h : cutRevision s = .ok (body, n)) :
    ∃ d, Revision d n ∧ s = body ++ d := by
  unfold cutRevision at h
  split at h
  · next before digits hcut =>
    split at h
    · split at h
      · next n hn =>
        cases h
        exact ⟨_, .present (word?_eq_some_iff.1 hn), eq_of_cutLast? hcut⟩
      · cases h
    · cases h
      exact ⟨[], .absent, (List.append_nil s).symm⟩
  · cases h
    exact ⟨[], .absent, (List.append_nil s).symm⟩

theorem cutRevision_append (hbody : '-' ∉ body) (hd : Revision d n) :
    cutRevision (body ++ d) = .ok (body, n) := by
  unfold cutRevision
  cases hd with
  | absent => rw [List.append_nil, cutLast?_eq_none hbody]
  | @present s n hn =>
    have cut : cutLast? ['-', 'r'] (body ++ '-' :: 'r' :: s) = some (body, s) :=
      cutLast?_append (by decide) (hn.notMem rfl)
    simp only [cut, isNumeral_iff.2 ⟨hn.nonempty, hn.digits⟩, word?_eq_some_iff.2 hn, if_true]

end Ends

/-- Reading accepts what is spelled with a number, perhaps after a plus sign, behind the names of
suffixes, and gives what can be read off it. -/
theorem read_eq_ok_iff_spells : read s = .ok v ↔ Spells SignedNumber s v := by
  rw [read_eq_ok_iff]
  constructor
  · rintro ⟨body, numeric, parts, digits, hrevision, hpieces, -, hletter, hcomponents, hsuffixes,
      htext⟩
    obtain ⟨d, hd, rfl⟩ := revision_of_cutRevision hrevision
    obtain ⟨b, hb, rfl⟩ := letter_of_cutLetter hletter
    have hbody : body = digits ++ b ++ parts.flatMap ('_' :: ·) := by
      rw [← intercalate_pieces '_' body, hpieces, intercalate_cons]
    have ha : Components digits v.components := by
      rw [← intercalate_pieces '.' digits]
      exact components_of_pieces (pieces_ne_nil _ _) hcomponents
    have hc := suffixes_of_pieces hsuffixes
    obtain ⟨text, components, letter, suffixes, revision⟩ := v
    subst htext hbody
    exact .mk ha hb hc hd
  · rintro ⟨ha, hb, hc, hd⟩
    obtain ⟨parts, hpieces, hsuffixes⟩ := hc.pieces (notMem_numeric ha hb (.head _))
    refine ⟨_, _, parts, _, cutRevision_append ?_ hd, hpieces, ?_, cutLetter_append ha hb,
      ha.pieces, hsuffixes, rfl⟩
    · have hdash := hc.notMem (x := '-') (fun hn => hn.notMem rfl (by decide)) rfl (by decide)
      exact fun hm => (List.mem_append.1 hm).elim (notMem_numeric ha hb (by decide)) hdash
    · exact List.append_ne_nil_of_left_ne_nil ha.ne_nil _

section Signs

theorem Suffixes.signed (h : Suffixes Number s suffixes) : Suffixes SignedNumber s suffixes := by
  induction h with
  | nil => exact .nil
  | cons hs _ ih =>
    refine .cons ?_ ih
    cases hs with
    | bare k => exact .bare k
    | counted k hn => exact .counted k (.plain hn)

theorem Suffixes.unsigned (h : Suffixes SignedNumber s suffixes) (hs : '+' ∉ s) :
    Suffixes Number s suffixes := by
  induction h with
  | nil => exact .nil
  | cons hsuffix _ ih =>
    obtain ⟨hfirst, hrest⟩ := not_or.1 (mt List.mem_append.2 hs)
    refine .cons ?_ (ih hrest)
    cases hsuffix with
    | bare k => exact .bare k
    | counted k hn =>
      cases hn with
      | plain hn => exact .counted k hn
      | plus hn => exact absurd (by simp) hfirst

theorem Spells.notMem_plus (h : Spells Number s v) : '+' ∉ s := by
  obtain ⟨ha, hb, hc, hd⟩ := h
  have hrevision : ∀ {d n}, Revision d n → '+' ∉ d := by
    rintro d n (_ | hn)
    · exact List.not_mem_nil
    · simp [hn.notMem (x := '+') rfl]
  intro hm
  rcases List.mem_append.1 hm with hm | hm
  · rcases List.mem_append.1 hm with hm | hm
    · exact notMem_numeric ha hb (by decide) hm
    · exact hc.notMem (fun hn => hn.notMem rfl) rfl (by decide) hm
  · exact hrevision hd hm

theorem spells_number_iff : Spells Number s v ↔ Spells SignedNumber s v ∧ '+' ∉ s := by
  constructor
  · intro h
    refine ⟨?_, h.notMem_plus⟩
    obtain ⟨ha, hb, hc, hd⟩ := h
    exact .mk ha hb hc.signed hd
  · rintro ⟨⟨ha, hb, hc, hd⟩, hs⟩
    refine .mk ha hb (hc.unsigned fun hm => hs ?_) hd
    exact List.mem_append_left _ (List.mem_append_right _ hm)

end Signs

/-- A text is read as a version if and only if it is `D(.D)*`, at most one letter, any number of
suffixes and at most one `-rD`, and what is read is what stands there. The number of a suffix may
have a plus sign before it; without one, the text follows the grammar of plain numbers. -/
theorem parse_eq_ok_iff_spells (s : String) (v : Version) :
    (parse s = .ok v ↔ Spells SignedNumber s.toList v) ∧
      ('+' ∉ s.toList → (parse s = .ok v ↔ Spells Number s.toList v)) := by
  have hread : parse s = .ok v ↔ Spells SignedNumber s.toList v :=
    parse_eq_ok_iff.trans read_eq_ok_iff_spells
  refine ⟨hread, fun hs => ?_⟩
  rw [spells_number_iff, hread]
  exact (and_iff_left hs).symm

theorem parse_eq_ok_iff_spells_candidate : '+' ∉ "1.20b_rc3_p-r4".toList ∧
    Spells Number "1.20b_rc3_p-r4".toList
      ⟨"1.20b_rc3_p-r4", [1, 20], some 'b', [(.rc, 3), (.p, 0)], 4⟩ :=
  ⟨by decide, ((parse_eq_ok_iff_spells _ _).2 (by decide)).1 (by rfl)⟩

/-- The number of a suffix is read with a sign, although no other number of a version is. -/
theorem signed_suffix_read : (∃ v, parse "1_p+1" = .ok v) ∧
    ¬ ∃ v, Spells Number "1_p+1".toList v := by
  refine ⟨⟨⟨"1_p+1", [1], none, [(.p, 1)], 0⟩, by rfl⟩, ?_⟩
  rintro ⟨v, hv⟩
  exact hv.notMem_plus (by decide)

end Version

end PackagePlan
