import Mathlib.Data.List.Basic
import PackagePlan.Version.Parser
import PackagePlan.Proofs.Sequence
import PackagePlan.Proofs.Text.Cutting

/-! # What versions are read from

A text from which a version is read begins with a digit and has no blanks. It
has at most one dash, which stands before the `r` of the revision.
-/

namespace PackagePlan

open Text

theorem Text.isNumeral_iff {s : List Char} :
    isNumeral s = true ↔ s ≠ [] ∧ ∀ c ∈ s, c.isDigit = true := by
  simp [isNumeral]

theorem Text.digits_of_word? {s : List Char} {n : Nat} (h : word? s = some n) :
    ∀ c ∈ s, c.isDigit = true := by
  rw [word?] at h
  split at h
  · next hw => exact (isNumeral_iff.1 (Bool.and_eq_true_iff.1 hw).1).2
  · cases h

theorem SuffixKind.eq_of_read? {s rest : List Char} {k : SuffixKind}
    (h : read? s = some (k, rest)) : s = k.name.toList ++ rest := by
  obtain ⟨k', -, hk⟩ := List.exists_of_findSome?_eq_some h
  obtain ⟨rest', hrest, heq⟩ := Option.map_eq_some_iff.1 hk
  cases heq
  exact afterStart?_eq_some_iff.1 hrest

theorem SuffixKind.isLetter_of_mem_name {k : SuffixKind} {c : Char} (h : c ∈ k.name.toList) :
    Version.isLetter c = true := by
  have all_letters : k.name.toList.all Version.isLetter = true := by cases k <;> decide
  exact List.all_eq_true.1 all_letters c h

namespace Version

variable {a b s body numeric digits : List Char} {c : Char} {v : Version} {n : Nat}

def IsBodyChar (c : Char) : Prop := c.isDigit = true ∨ isLetter c = true ∨ c ∈ ['.', '_', '+']

theorem read_eq_ok_iff : read s = .ok v ↔ ∃ body numeric suffixes digits,
    cutRevision s = .ok (body, v.revision) ∧ pieces (· == '_') body = numeric :: suffixes ∧
      numeric ≠ [] ∧ cutLetter numeric = (digits, v.letter) ∧
        (pieces (· == '.') digits).map readComponent = v.components.map .ok ∧
          suffixes.map readSuffix = v.suffixes.map .ok ∧ v.text = String.ofList s := by
  rw [read, bind_eq_ok_iff]
  constructor
  · rintro ⟨⟨body, revision⟩, hrevision, h⟩
    dsimp only at h
    split at h
    · cases h
    · cases h
    · next numeric suffixes hne hpieces =>
      obtain ⟨components, hcomponents, h⟩ := bind_eq_ok_iff.1 h
      obtain ⟨kinds, hkinds, h⟩ := bind_eq_ok_iff.1 h
      cases h
      exact ⟨body, numeric, suffixes, _, hrevision, hpieces, hne, rfl,
        mapM_eq_ok_iff.1 hcomponents, mapM_eq_ok_iff.1 hkinds, rfl⟩
  · rintro ⟨body, numeric, suffixes, digits, hrevision, hpieces, hne, hletter, hcomponents, hkinds,
      htext⟩
    refine ⟨(body, v.revision), hrevision, ?_⟩
    obtain ⟨text, components, letter, kinds, revision⟩ := v
    cases htext
    cases numeric with
    | nil => exact absurd rfl hne
    | cons c numeric =>
      simp only [hpieces, hletter, bind_eq_ok_iff, mapM_eq_ok_iff]
      exact ⟨components, hcomponents, kinds, hkinds, rfl⟩

theorem eq_of_cutRevision (h : cutRevision s = .ok (body, n)) :
    s = body ∨ ∃ rev, s = body ++ '-' :: 'r' :: rev ∧ ∀ c ∈ rev, c.isDigit = true := by
  unfold cutRevision at h
  split at h
  · next before rev hcut =>
    split at h
    · next hrev =>
      split at h
      · cases h
        exact .inr ⟨rev, by simpa using eq_of_cutLast? hcut, (isNumeral_iff.1 hrev).2⟩
      · cases h
    · cases h
      exact .inl rfl
  · cases h
    exact .inl rfl

theorem eq_of_cutLetter {letter : Option Char} (h : cutLetter s = (digits, letter)) :
    s = digits ∨ ∃ c, isLetter c = true ∧ s = digits ++ [c] := by
  unfold cutLetter at h
  split at h
  · next c hc =>
    split at h
    · next hletter =>
      cases h
      obtain ⟨before, rfl⟩ := List.getLast?_eq_some_iff.1 hc
      exact .inr ⟨c, hletter, by rw [List.dropLast_concat]⟩
    · cases h
      exact .inl rfl
  · cases h
    exact .inl rfl

theorem isNumeral_of_readComponent (h : readComponent s = .ok n) : isNumeral s = true := by
  unfold readComponent at h
  split at h
  · assumption
  · cases h

theorem isBodyChar_of_readSuffix {x : SuffixKind × Nat} (h : readSuffix s = .ok x) (hc : c ∈ s) :
    IsBodyChar c := by
  have isBodyChar_name : ∀ {k : SuffixKind}, c ∈ k.name.toList → IsBodyChar c :=
    fun hk => .inr (.inl (SuffixKind.isLetter_of_mem_name hk))
  unfold readSuffix at h
  split at h
  · cases h
  · next k hk =>
    rw [SuffixKind.eq_of_read? hk, List.append_nil] at hc
    exact isBodyChar_name hc
  · next k number _ hk =>
    split at h
    · next hnumber =>
      rw [SuffixKind.eq_of_read? hk, List.mem_append] at hc
      refine hc.elim isBodyChar_name fun hc => ?_
      unfold signedWord? at hnumber
      split at hnumber
      · rcases List.mem_cons.1 hc with rfl | hc
        · exact .inr (.inr (by decide))
        · exact .inl (digits_of_word? hnumber c hc)
      · exact .inl (digits_of_word? hnumber c hc)
    · cases h

theorem isBodyChar_of_numeric {letter : Option Char} {components : List Nat}
    (hletter : cutLetter numeric = (digits, letter))
    (hcomponents : (pieces (· == '.') digits).map readComponent = components.map .ok)
    (hc : c ∈ numeric) : IsBodyChar c := by
  have isBodyChar_digits : c ∈ digits → IsBodyChar c := by
    intro hc
    rw [← intercalate_pieces '.' digits] at hc
    rcases eq_or_exists_of_mem_intercalate hc with rfl | ⟨w, hw, hc⟩
    · exact .inr (.inr (by decide))
    · obtain ⟨n, hn⟩ := exists_ok_of_mem hcomponents hw
      exact .inl ((isNumeral_iff.1 (isNumeral_of_readComponent hn)).2 c hc)
  rcases eq_of_cutLetter hletter with rfl | ⟨letter, hl, rfl⟩
  · exact isBodyChar_digits hc
  · rcases List.mem_append.1 hc with hc | hc
    · exact isBodyChar_digits hc
    · obtain rfl := List.mem_singleton.1 hc
      exact .inr (.inl hl)

theorem prefix_of_cutLetter {letter : Option Char} (h : cutLetter s = (digits, letter)) :
    digits <+: s := by
  rcases eq_of_cutLetter h with rfl | ⟨c, -, rfl⟩
  · exact List.prefix_rfl
  · exact List.prefix_append _ _

/-- Before the revision a version has no dash. -/
theorem exists_body_of_read (h : read s = .ok v) : ∃ body,
    (s = body ∨ ∃ rev, s = body ++ '-' :: 'r' :: rev ∧ ∀ c ∈ rev, c.isDigit = true) ∧
      (∀ c ∈ body, IsBodyChar c) ∧ ∃ d, [d] <+: body ∧ d.isDigit = true := by
  obtain ⟨body, numeric, suffixes, digits, hrevision, hpieces, -, hletter, hcomponents, hkinds,
    -⟩ := read_eq_ok_iff.1 h
  have hbody : body = ['_'].intercalate (numeric :: suffixes) := by
    rw [← hpieces, intercalate_pieces]
  refine ⟨body, eq_of_cutRevision hrevision, fun c hc => ?_, ?_⟩
  · rw [hbody] at hc
    rcases eq_or_exists_of_mem_intercalate hc with rfl | ⟨w, hw, hcw⟩
    · exact .inr (.inr (by decide))
    · rcases List.mem_cons.1 hw with rfl | hw
      · exact isBodyChar_of_numeric hletter hcomponents hcw
      · obtain ⟨x, hx⟩ := exists_ok_of_mem hkinds hw
        exact isBodyChar_of_readSuffix hx hcw
  · cases hfirst : pieces (· == '.') digits with
    | nil => exact absurd hfirst (pieces_ne_nil _ _)
    | cons w ws =>
      obtain ⟨n, hn⟩ := exists_ok_of_mem hcomponents (hfirst ▸ List.mem_cons_self)
      obtain ⟨hne, hdigits⟩ := isNumeral_iff.1 (isNumeral_of_readComponent hn)
      obtain ⟨d, w, rfl⟩ := List.exists_cons_of_ne_nil hne
      have hd : [d] <+: d :: w := List.prefix_append [d] w
      have hw : d :: w <+: digits := by
        rw [← intercalate_pieces '.' digits, hfirst]
        exact prefix_intercalate
      have hnumeric : numeric <+: body := hbody ▸ prefix_intercalate
      exact ⟨d, ((hd.trans hw).trans (prefix_of_cutLetter hletter)).trans hnumeric,
        hdigits d (.head _)⟩

theorem IsBodyChar.toNat_range (h : IsBodyChar c) :
    c.toNat = 43 ∨ c.toNat = 46 ∨ (48 ≤ c.toNat ∧ c.toNat ≤ 57) ∨ c.toNat = 95 ∨
      (97 ≤ c.toNat ∧ c.toNat ≤ 122) := by
  rcases h with h | h | h
  · have hrange := Char.isDigit_iff_toNat.1 h
    exact .inr (.inr (.inl hrange))
  · have hrange : 97 ≤ c.toNat ∧ c.toNat ≤ 122 := by
      simpa [isLetter, Char.le_def, UInt32.le_iff_toNat_le] using h
    exact .inr (.inr (.inr (.inr hrange)))
  · simp only [List.mem_cons, List.not_mem_nil, or_false] at h
    rcases h with rfl | rfl | rfl <;> decide

theorem IsBodyChar.ne_dash (h : IsBodyChar c) : c ≠ '-' := by
  rintro rfl
  exact absurd h.toNat_range (by decide)

theorem isBodyChar_or_dash_of_read (h : read s = .ok v) (hc : c ∈ s) : IsBodyChar c ∨ c = '-' := by
  obtain ⟨body, hs, hbody, -⟩ := exists_body_of_read h
  rcases hs with rfl | ⟨rev, rfl, hrev⟩
  · exact .inl (hbody c hc)
  · rcases List.mem_append.1 hc with hc | hc
    · exact .inl (hbody c hc)
    · rcases List.mem_cons.1 hc with hc | hc
      · exact .inr hc
      · rcases List.mem_cons.1 hc with rfl | hc
        · exact .inl (.inr (.inl (by decide)))
        · exact .inl (.inl (hrev c hc))

theorem plain_of_read (h : read s = .ok v) (hc : c ∈ s) :
    isBlank c = false ∧ c ∉ [':', '[', ']', '*'] := by
  rcases isBodyChar_or_dash_of_read h hc with h | rfl
  · have hrange := h.toNat_range
    constructor
    · simp only [isBlank, Bool.or_eq_false_iff, Bool.and_eq_false_iff, decide_eq_false_iff_not,
        beq_eq_false_iff_ne]
      omega
    · intro hm
      simp only [List.mem_cons, List.not_mem_nil, or_false] at hm
      rcases hm with rfl | rfl | rfl | rfl <;> exact absurd hrange (by decide)
  · decide

theorem getLast?_of_read (h : read s = .ok v) : s.getLast? ≠ some '*' := fun hs =>
  (plain_of_read h (List.mem_of_getLast? hs)).2 (by decide)

theorem comma_notMem_of_read (h : read s = .ok v) : ',' ∉ s := by
  intro hm
  rcases isBodyChar_or_dash_of_read h hm with h | h
  · exact absurd h.toNat_range (by decide)
  · cases h

theorem exists_digit_of_read (h : read s = .ok v) : ∃ d t, s = d :: t ∧ d.isDigit = true := by
  obtain ⟨body, hs, -, d, ⟨t, rfl⟩, hd⟩ := exists_body_of_read h
  rcases hs with rfl | ⟨rev, rfl, -⟩
  · exact ⟨d, t, rfl, hd⟩
  · exact ⟨d, t ++ '-' :: 'r' :: rev, rfl, hd⟩

theorem eq_of_dash (h : read (a ++ '-' :: c :: b) = .ok v) : c = 'r' := by
  obtain ⟨body, hs, hbody, -⟩ := exists_body_of_read h
  have notMem_body : '-' ∉ body := fun hm => (hbody _ hm).ne_dash rfl
  rcases hs with hs | ⟨rev, hs, hrev⟩
  · exact absurd (hs ▸ by simp) notMem_body
  · have notMem_rev : '-' ∉ 'r' :: rev := by
      intro hm
      rcases List.mem_cons.1 hm with hr | hm
      · cases hr
      · exact absurd (hrev _ hm) (by decide)
    obtain ⟨-, -, hr⟩ := (List.append_cons_inj_of_notMem notMem_body notMem_rev).1 hs.symm
    exact (List.cons.inj hr).1.symm

def Written (v : Version) : Prop := ∃ s, parse s = .ok v

theorem parse_eq_ok_iff {s : String} : parse s = .ok v ↔ read s.toList = .ok v := by
  rw [parse]
  cases read s.toList <;> simp [Except.mapError]

theorem text_of_read (h : read s = .ok v) : v.text = String.ofList s := by
  obtain ⟨-, -, -, -, -, -, -, -, -, -, htext⟩ := read_eq_ok_iff.1 h
  exact htext

theorem Written.read_text (h : v.Written) : read v.text.toList = .ok v := by
  obtain ⟨s, hs⟩ := h
  have hread := parse_eq_ok_iff.1 hs
  rw [text_of_read hread, String.toList_ofList, hread]

end Version

end PackagePlan
