import Mathlib.Data.Bool.AllAny
import PackagePlan.Requirement.Parser
import PackagePlan.Proofs.Ordered.Lookup
import PackagePlan.Proofs.Version.Rendering

/-! # Requirements written and read

A requirement is read from its end: first its choices, then its repository, its
slot and its version, which begins after the first dash that has a version
after it. Where no part contains the marks between the parts, what has been
written is read again.
-/

namespace PackagePlan

open Text

namespace VersionRange

/-- The range is written before and after a name: it allows any version, or makes one comparison
other than that two versions differ. -/
def FitsName : VersionRange → Prop
  | any => True
  | exact v | newerThan v | atLeast v | olderThan v | atMost v | sameIgnoringRevision v
  | startsWith v => v.Written
  | notEqual _ | both _ _ => False

end VersionRange

namespace Requirement

open VersionRange

variable {s t name text : List Char} {c d : Char} {v : Version} {range : VersionRange}
  {op : String} {slot repository : Option String} {choices : Choices} {r : Requirement}

section Version

theorem isVersionText_of_read (h : Version.read s = .ok v) (hs : s.getLast? ≠ some '*') :
    isVersionText s = true := by
  rw [isVersionText, beforeEnd?_eq_none hs, Option.getD_none, h]

theorem isVersionText_star_of_read (h : Version.read s = .ok v) :
    isVersionText (s ++ ['*']) = true := by
  rw [isVersionText, beforeEnd?_append, Option.getD_some, h]

theorem isVersionText_dash (hd : d.isDigit = true) :
    isVersionText (s ++ '-' :: d :: t) = false := by
  have not_read : ∀ {t v}, Version.read (s ++ '-' :: d :: t) ≠ .ok v := by
    intro t v h
    rw [Version.eq_of_dash h] at hd
    exact absurd hd (by decide)
  have unstarred : ∃ t', (beforeEnd? ['*'] (s ++ '-' :: d :: t)).getD (s ++ '-' :: d :: t) =
      s ++ '-' :: d :: t' := by
    cases h : beforeEnd? ['*'] (s ++ '-' :: d :: t) with
    | none => exact ⟨t, rfl⟩
    | some before =>
      have heq := beforeEnd?_eq_some_iff.1 h
      rcases List.eq_nil_or_concat t with rfl | ⟨t', x, rfl⟩
      · have heq' : (s ++ ['-']) ++ [d] = before ++ ['*'] := by
          rw [List.append_assoc, ← heq]
          rfl
        obtain rfl : d = '*' := (List.cons.inj (List.append_inj' heq' rfl).2).1
        exact absurd hd (by decide)
      · refine ⟨t', ?_⟩
        have heq' : (s ++ '-' :: d :: t') ++ [x] = before ++ ['*'] := by simpa using heq
        exact (List.append_inj' heq' rfl).1.symm
  obtain ⟨t', ht'⟩ := unstarred
  rw [isVersionText, ht']
  split
  · next h => exact absurd h not_read
  · rfl

/-- The first dash with a version after it is the one between name and version, whatever dashes the
name has. -/
theorem cutVersion?_append (h : isVersionText text = true)
    (hd : ∃ d t, text = d :: t ∧ d.isDigit = true) :
    cutVersion? (name ++ '-' :: text) = some (name, text) := by
  obtain ⟨d, t, rfl, hd⟩ := hd
  induction name with
  | nil => simp [cutVersion?, hd, h]
  | cons c name ih =>
    rw [List.cons_append, cutVersion?, isVersionText_dash hd, Bool.and_false, ih]
    rfl

end Version

section Operator

/-- The range is `op` before the name and `text` after a dash behind it. -/
structure Spelled (range : VersionRange) (op : String) (text : List Char) : Prop where
  op_mem : op ∈ operators
  render : ∀ name, renderNameAndVersion name range = op ++ name ++ "-" ++ String.ofList text
  read : ofOperator op text = .ok range
  isVersionText : isVersionText text = true
  digit : ∃ d t, text = d :: t ∧ d.isDigit = true
  plain : ∀ c ∈ text, isBlank c = false ∧ c ∉ [':', '[', ']']

theorem plain_of_mem_text (h : v.Written) (hc : c ∈ v.text.toList) :
    isBlank c = false ∧ c ∉ [':', '[', ']'] :=
  (Version.plain_of_read h.read_text hc).imp_right fun hc hm => hc (List.mem_append_left ['*'] hm)

theorem spelled_comparison (h : v.Written) {make : Version → VersionRange} (hop : op ∈ operators)
    (hmake : comparison? op = some make)
    (hrender : ∀ name, renderNameAndVersion name (make v) = op ++ name ++ "-" ++ v.text) :
    Spelled (make v) op v.text.toList := by
  have hread := h.read_text
  refine ⟨hop, fun name => ?_, ofOperator_comparison h hmake,
    isVersionText_of_read hread (Version.getLast?_of_read hread),
    Version.exists_digit_of_read hread, fun c => plain_of_mem_text h⟩
  rw [hrender, String.ofList_toList]

theorem spelled_startsWith (h : v.Written) :
    Spelled (startsWith v) "=" (v.text.toList ++ ['*']) := by
  have hread := h.read_text
  refine ⟨by decide, fun name => ?_, ofOperator_star h, isVersionText_star_of_read hread, ?_,
    fun c hc => ?_⟩
  · rw [renderNameAndVersion, String.ofList_append, String.ofList_toList, ← String.append_assoc]
  · obtain ⟨d, t, ht, hd⟩ := Version.exists_digit_of_read hread
    exact ⟨d, t ++ ['*'], by rw [ht, List.cons_append], hd⟩
  · rcases List.mem_append.1 hc with hc | hc
    · exact plain_of_mem_text h hc
    · obtain rfl := List.mem_singleton.1 hc
      decide

theorem exists_spelled (h : range.FitsName) : range = any ∨ ∃ op text, Spelled range op text := by
  cases range with
  | any => exact .inl rfl
  | exact v => exact .inr ⟨"=", _, spelled_comparison h (by decide) rfl fun _ => rfl⟩
  | newerThan v => exact .inr ⟨">", _, spelled_comparison h (by decide) rfl fun _ => rfl⟩
  | atLeast v => exact .inr ⟨">=", _, spelled_comparison h (by decide) rfl fun _ => rfl⟩
  | olderThan v => exact .inr ⟨"<", _, spelled_comparison h (by decide) rfl fun _ => rfl⟩
  | atMost v => exact .inr ⟨"<=", _, spelled_comparison h (by decide) rfl fun _ => rfl⟩
  | sameIgnoringRevision v =>
    exact .inr ⟨"~", _, spelled_comparison h (by decide) rfl fun _ => rfl⟩
  | startsWith v => exact .inr ⟨"=", _, spelled_startsWith h⟩
  | notEqual v => exact h.elim
  | both r s => exact h.elim

def signs : List Char := ['!', '<', '>', '=', '~']

theorem cutOperator?_eq_none (hc : c ∉ signs) : cutOperator? operators (c :: s) = none := by
  simp only [signs, List.mem_cons, List.not_mem_nil, or_false, not_or] at hc
  obtain ⟨-, hlt, hgt, heq, htilde⟩ := hc
  simp [cutOperator?, operators, afterStart?, Ne.symm hlt, Ne.symm hgt, Ne.symm heq, Ne.symm htilde]

theorem cutOperator?_append (hop : op ∈ operators) (hc : c ∉ signs) :
    cutOperator? operators (op.toList ++ c :: s) = some (op, c :: s) := by
  simp only [signs, List.mem_cons, List.not_mem_nil, or_false, not_or] at hc
  obtain ⟨-, -, -, heq, -⟩ := hc
  simp only [operators, List.mem_cons, List.not_mem_nil, or_false] at hop
  rcases hop with rfl | rfl | rfl | rfl | rfl | rfl <;>
    simp [cutOperator?, operators, afterStart?, Ne.symm heq]

end Operator

section Parts

variable {l : List (String × Bool)} {e : String × Bool} {x : String}

/-- A text without blanks and without the marks between the parts of a requirement. -/
def IsPart (x : String) : Prop := x ≠ "" ∧ ∀ c ∈ x.toList, isBlank c = false ∧ c ∉ [':', '[', ']']

def IsFlag (x : String) : Prop :=
  x ≠ "" ∧ x.toList.head? ≠ some '-' ∧ ∀ c ∈ x.toList, isBlank c = false ∧ c ∉ [',', '[', ']']

instance (x : String) : Decidable (IsPart x) :=
  decidable_of_iff (x ≠ "" ∧ (x.toList.all fun c => isBlank c = false ∧ c ∉ [':', '[', ']']) = true)
    (and_congr_right' List.all_iff_forall_prop)

instance (x : String) : Decidable (IsFlag x) :=
  decidable_of_iff (x ≠ "" ∧ x.toList.head? ≠ some '-' ∧
    (x.toList.all fun c => isBlank c = false ∧ c ∉ [',', '[', ']']) = true)
    (and_congr_right' (and_congr_right' List.all_iff_forall_prop))

theorem IsPart.exists_cons (h : IsPart x) :
    ∃ c t, x.toList = c :: t ∧ c ≠ ':' ∧ ':' ∉ x.toList := by
  have notMem : ':' ∉ x.toList := fun hm => (h.2 ':' hm).2 (by decide)
  obtain ⟨c, t, ht⟩ := List.exists_cons_of_ne_nil (mt String.toList_eq_nil_iff.1 h.1)
  exact ⟨c, t, ht, fun hc => notMem (by rw [ht, hc]; exact .head _), notMem⟩

def choiceText (e : String × Bool) : List Char := (renderChoice e.1 e.2).toList

theorem choiceText_eq (e : String × Bool) :
    choiceText e = if e.2 then e.1.toList else '-' :: e.1.toList := by
  rw [choiceText, renderChoice]
  split
  · rfl
  · rw [String.toList_append]
    rfl

theorem readChoice_choiceText (h : IsFlag e.1) : readChoice (choiceText e) = e := by
  obtain ⟨flag, on⟩ := e
  cases on with
  | false => simp [choiceText_eq, readChoice]
  | true =>
    rw [choiceText_eq, if_pos rfl, readChoice]
    · rw [String.ofList_toList]
    · intro t ht
      exact h.2.1 (by rw [ht, List.head?_cons])

theorem plain_of_mem_choiceText (h : IsFlag e.1) (hc : c ∈ choiceText e) :
    isBlank c = false ∧ c ∉ [',', '[', ']'] := by
  rw [choiceText_eq] at hc
  split at hc
  · exact h.2.2 c hc
  · rcases List.mem_cons.1 hc with rfl | hc
    · decide
    · exact h.2.2 c hc

theorem choiceText_ne_nil (h : IsFlag e.1) : choiceText e ≠ [] := by
  rw [choiceText_eq]
  split
  · exact mt String.toList_eq_nil_iff.1 h.1
  · exact List.cons_ne_nil _ _

theorem readChoices_intercalate (hne : l ≠ []) (h : ∀ e ∈ l, IsFlag e.1) :
    readChoices ([','].intercalate (l.map choiceText)) = .ofList l := by
  have cut : pieces (· == ',') ([','].intercalate (l.map choiceText)) = l.map choiceText := by
    refine pieces_intercalate (by simpa using hne) (List.forall_mem_map.2 fun e he hm => ?_)
    exact (plain_of_mem_choiceText (h e he) hm).2 (by decide)
  have trimmed : (l.map choiceText).map trim = l.map choiceText := by
    rw [List.map_map]
    exact List.map_congr_left fun e he => trim_eq_self fun c hc =>
      (plain_of_mem_choiceText (h e he) hc).1
  have kept : (l.map choiceText).filter (!·.isEmpty) = l.map choiceText :=
    List.filter_eq_self.2 (List.forall_mem_map.2 fun e he => by simp [choiceText_ne_nil (h e he)])
  have read : (l.map choiceText).map readChoice = l := by
    rw [List.map_map]
    exact (List.map_congr_left fun e he => readChoice_choiceText (h e he)).trans (List.map_id' l)
  rw [readChoices, cut, trimmed, kept, read]

theorem renderChoices_eq {choices : Choices} (h : choices.isEmpty = false) :
    (renderChoices choices).toList =
      '[' :: [','].intercalate (choices.entries.map choiceText) ++ [']'] := by
  rw [renderChoices, if_neg (by rw [h]; decide), String.toList_append, String.toList_append,
    Text.join, String.toList_intercalate, List.map_map]
  rfl

theorem cutChoices_append {choices : Choices} (h : ∀ e ∈ choices.entries, IsFlag e.1)
    (hs : ']' ∉ s) : cutChoices (s ++ (renderChoices choices).toList) = .ok (s, choices) := by
  cases hempty : choices.isEmpty with
  | true =>
    have entries : choices.entries = [] := List.isEmpty_iff.1 hempty
    have choices_eq : choices = ∅ := OrderedMap.eq_of_perm (by rw [entries]; rfl)
    have unmarked : s.getLast? ≠ some ']' := fun hl => hs (List.mem_of_getLast? hl)
    rw [renderChoices, if_pos hempty, String.toList_empty, List.append_nil, cutChoices,
      beforeEnd?_eq_none unmarked, choices_eq]
  | false =>
    have hne : choices.entries ≠ [] := fun hnil => by simp [OrderedMap.isEmpty, hnil] at hempty
    have notMem : '[' ∉ [','].intercalate (choices.entries.map choiceText) := by
      intro hm
      rcases eq_or_exists_of_mem_intercalate hm with hc | ⟨w, hw, hm⟩
      · cases hc
      · obtain ⟨e, he, rfl⟩ := List.mem_map.1 hw
        exact (plain_of_mem_choiceText (h e he) hm).2 (by decide)
    rw [renderChoices_eq hempty, ← List.append_assoc, cutChoices, beforeEnd?_append]
    simp only [cutLast?_eq_some notMem, readChoices_intercalate hne h, OrderedMap.ofList_entries]

theorem cutFirst?_colon (h : IsPart x) : cutFirst? [':', ':'] (':' :: x.toList ++ s) =
    (cutFirst? [':', ':'] s).map fun (before, after) => (':' :: x.toList ++ before, after) := by
  obtain ⟨c, t, ht, hc, hm⟩ := h.exists_cons
  have single : afterStart? [':', ':'] (':' :: (x.toList ++ s)) = none := by
    simp [ht, afterStart?, Ne.symm hc]
  rw [List.cons_append, cutFirst?, single, cutFirst?_append hm, Option.map_map]
  rfl

def partText (mark : String) (part : Option String) : List Char :=
  ((part.map (mark ++ ·)).getD "").toList

theorem partText_some {mark : String} :
    partText mark (some x) = mark.toList ++ x.toList := by
  rw [partText, Option.map_some, Option.getD_some, String.toList_append]

theorem cutSlot_append (hs : ':' ∉ s) (h : ∀ x ∈ slot, IsPart x) :
    cutSlot (s ++ partText ":" slot) = .ok (s, slot) := by
  cases slot with
  | none => simp [partText, cutSlot, cutLast?_eq_none hs]
  | some x =>
    obtain ⟨c, t, ht, -, hm⟩ := (h x rfl).exists_cons
    have cut : cutLast? [':'] (s ++ (":".toList ++ x.toList)) = some (s, x.toList) :=
      cutLast?_eq_some hm
    rw [partText_some, cutSlot, cut, ht]
    simp only [← ht, String.ofList_toList]

theorem cutFirst?_slot (hs : ':' ∉ s) (h : ∀ x ∈ slot, IsPart x) :
    cutFirst? [':', ':'] (s ++ (partText ":" slot ++ t)) =
      (cutFirst? [':', ':'] t).map fun (before, after) =>
        (s ++ (partText ":" slot ++ before), after) := by
  rw [cutFirst?_append hs]
  cases slot with
  | none => rfl
  | some x =>
    have slotText : partText ":" (some x) = ':' :: x.toList := partText_some
    rw [slotText, cutFirst?_colon (h x rfl), Option.map_map]
    rfl

theorem cutRepository_append (hs : ':' ∉ s) (hslot : ∀ x ∈ slot, IsPart x)
    (h : ∀ x ∈ repository, IsPart x) :
    cutRepository (s ++ partText ":" slot ++ partText "::" repository) =
      .ok (s ++ partText ":" slot, repository) := by
  rw [cutRepository, List.append_assoc, cutFirst?_slot hs hslot]
  cases repository with
  | none => simp [partText, cutFirst?]
  | some x =>
    obtain ⟨c, t, ht, -, -⟩ := (h x rfl).exists_cons
    have found : cutFirst? [':', ':'] ("::".toList ++ x.toList) = some ([], x.toList) := rfl
    rw [partText_some, found, Option.map_some, ht]
    simp only [List.append_nil, ← ht, String.ofList_toList]

end Parts

section Whole

variable {mark : String} {part : Option String}

theorem plain_of_mem_partText (hmark : (mark.toList.all (· == ':')) = true)
    (h : ∀ x ∈ part, IsPart x) (hc : c ∈ partText mark part) :
    isBlank c = false ∧ c ∉ ['[', ']'] := by
  cases part with
  | none => cases hc
  | some x =>
    rw [partText_some, List.mem_append] at hc
    rcases hc with hc | hc
    · rw [beq_iff_eq.1 (List.all_eq_true.1 hmark c hc)]
      decide
    · exact ((h x rfl).2 c hc).imp_right fun hc hm => hc (List.mem_cons_of_mem _ hm)

theorem not_isBlank_of_mem_renderChoices {choices : Choices}
    (h : ∀ e ∈ choices.entries, IsFlag e.1) (hc : c ∈ (renderChoices choices).toList) :
    isBlank c = false := by
  cases hempty : choices.isEmpty with
  | true =>
    rw [renderChoices, if_pos hempty] at hc
    cases hc
  | false =>
    rw [renderChoices_eq hempty, List.mem_append, List.mem_cons, List.mem_singleton] at hc
    rcases hc with (rfl | hc) | rfl
    · decide
    · rcases eq_or_exists_of_mem_intercalate hc with rfl | ⟨w, hw, hc⟩
      · decide
      · obtain ⟨e, he, rfl⟩ := List.mem_map.1 hw
        exact (plain_of_mem_choiceText (h e he) hc).1
    · decide

/-- The parts of the requirement keep clear of the marks between them. -/
structure Legible (r : Requirement) : Prop where
  name : IsPart r.name
  start : ∀ c ∈ signs, r.name.toList.head? ≠ some c
  version : r.version.FitsName
  slot : ∀ x ∈ r.slot, IsPart x
  repository : ∀ x ∈ r.repository, IsPart x
  choices : ∀ e ∈ r.choices.entries, IsFlag e.1

def headText (r : Requirement) : List Char := (renderNameAndVersion r.name r.version).toList

namespace Legible

variable (h : r.Legible)
include h

theorem toList_render : r.render.toList =
    r.headText ++ partText ":" r.slot ++ partText "::" r.repository ++
      (renderChoices r.choices).toList := by
  have conjunction : renderConjunction r.version = "" := by
    cases hv : r.version with
    | both => exact (hv ▸ h.version : (VersionRange.both _ _).FitsName).elim
    | _ => rfl
  simp [render, conjunction, partText, headText]

theorem exists_name : ∃ c t, r.name.toList = c :: t ∧ c ∉ signs := by
  obtain ⟨c, t, ht, -⟩ := h.name.exists_cons
  exact ⟨c, t, ht, fun hc => h.start c hc (by rw [ht, List.head?_cons])⟩

theorem headText_cases : r.version = .any ∧ r.headText = r.name.toList ∨
    ∃ op text, Spelled r.version op text ∧
      r.headText = op.toList ++ (r.name.toList ++ '-' :: text) := by
  rcases exists_spelled h.version with hany | ⟨op, text, hs⟩
  · refine .inl ⟨hany, ?_⟩
    rw [headText, hany, renderNameAndVersion]
  · refine .inr ⟨op, text, hs, ?_⟩
    simp [headText, hs.render]

theorem readNameAndVersion_headText :
    readNameAndVersion r.headText = .ok (r.name.toList, r.version) := by
  obtain ⟨c, t, ht, hc⟩ := h.exists_name
  rcases h.headText_cases with ⟨hv, heq⟩ | ⟨op, text, hs, heq⟩
  · rw [heq, ht, readNameAndVersion, cutOperator?_eq_none hc, hv]
  · rw [heq, ht, List.cons_append, readNameAndVersion, cutOperator?_append hs.op_mem hc]
    simp only [← List.cons_append, ← ht, cutVersion?_append hs.isVersionText hs.digit, hs.read]

theorem plain_of_mem_headText (hc : c ∈ r.headText) : isBlank c = false ∧ c ∉ [':', '[', ']'] := by
  have plain_operator : ∀ op ∈ operators,
      (op.toList.all fun c => isBlank c = false ∧ c ∉ [':', '[', ']']) = true := by
    decide
  rcases h.headText_cases with ⟨-, heq⟩ | ⟨op, text, hs, heq⟩
  · exact h.name.2 c (heq ▸ hc)
  · rw [heq, List.mem_append, List.mem_append, List.mem_cons] at hc
    rcases hc with hc | hc | rfl | hc
    · exact List.all_iff_forall_prop.1 (plain_operator op hs.op_mem) c hc
    · exact h.name.2 c hc
    · decide
    · exact hs.plain c hc

theorem exists_headText : ∃ c t, r.headText = c :: t ∧ c ≠ '!' := by
  have operator_head : ∀ op ∈ operators, op.toList ≠ [] ∧ op.toList.head? ≠ some '!' := by
    decide
  rcases h.headText_cases with ⟨-, heq⟩ | ⟨op, text, hs, heq⟩
  · obtain ⟨c, t, ht, hc⟩ := h.exists_name
    exact ⟨c, t, heq.trans ht, fun hbang => hc (hbang ▸ by decide)⟩
  · obtain ⟨hne, hbang⟩ := operator_head op hs.op_mem
    obtain ⟨c, t, ht⟩ := List.exists_cons_of_ne_nil hne
    rw [ht, List.head?_cons] at hbang
    exact ⟨c, _, by rw [heq, ht, List.cons_append], fun hc => hbang (congrArg some hc)⟩

theorem isName : isName r.name.toList = true := by
  obtain ⟨c, t, ht, hc⟩ := h.exists_name
  have unblank : r.name.toList.any isBlank = false :=
    List.any_eq_false.2 fun c hc => by simp [(h.name.2 c hc).1]
  have bang : c ≠ '!' := fun hbang => hc (hbang ▸ by decide)
  rw [Requirement.isName, unblank, ht]
  simp [bang]

theorem not_isBlank_of_mem_render (hc : c ∈ r.render.toList) : isBlank c = false := by
  rw [h.toList_render, List.mem_append, List.mem_append, List.mem_append] at hc
  rcases hc with ((hc | hc) | hc) | hc
  · exact (h.plain_of_mem_headText hc).1
  · exact (plain_of_mem_partText (by decide) h.slot hc).1
  · exact (plain_of_mem_partText (by decide) h.repository hc).1
  · exact not_isBlank_of_mem_renderChoices h.choices hc

theorem read_render : read r.render.toList = .ok r := by
  obtain ⟨c, t, ht, -⟩ := h.exists_headText
  have colon : ':' ∉ r.headText := fun hm => (h.plain_of_mem_headText hm).2 (by decide)
  have bracket : ']' ∉ r.headText ++ partText ":" r.slot ++ partText "::" r.repository := by
    rw [List.mem_append, List.mem_append]
    rintro ((hm | hm) | hm)
    · exact (h.plain_of_mem_headText hm).2 (by decide)
    · exact (plain_of_mem_partText (by decide) h.slot hm).2 (by decide)
    · exact (plain_of_mem_partText (by decide) h.repository hm).2 (by decide)
  have nonempty : r.render.toList.isEmpty = false := by
    rw [h.toList_render, ht]
    rfl
  rw [read, nonempty, h.toList_render]
  simp only [Bool.false_eq_true, if_false, cutChoices_append h.choices bracket,
    cutRepository_append colon h.slot h.repository, cutSlot_append colon h.slot,
    h.readNameAndVersion_headText, h.isName, if_true, String.ofList_toList, bind, Except.bind]

theorem trim_append {marks : List Char} (hm : (marks.any isBlank) = false) :
    trim (marks ++ r.render.toList) = marks ++ r.render.toList := by
  refine trim_eq_self fun c hc => ?_
  rcases List.mem_append.1 hc with hc | hc
  · exact Bool.eq_false_iff.2 (List.any_eq_false.1 hm c hc)
  · exact h.not_isBlank_of_mem_render hc

theorem parse_render : parse r.render = .ok r := by
  rw [parse, trim_eq_self fun _ => h.not_isBlank_of_mem_render, h.read_render]
  rfl

theorem exists_render : ∃ c t, r.render.toList = c :: t ∧ c ≠ '!' := by
  obtain ⟨c, t, ht, hc⟩ := h.exists_headText
  exact ⟨c, _, by rw [h.toList_render, ht]; rfl, hc⟩

theorem blocker_parse_weak : Blocker.parse ("!" ++ r.render) = .ok ⟨r, false⟩ := by
  obtain ⟨c, t, ht, hc⟩ := h.exists_render
  have trimmed : trim ("!" ++ r.render).toList = '!' :: c :: t := by
    rw [String.toList_append, h.trim_append (by decide), ht]
    rfl
  have hparse : parse (String.ofList (c :: t)) = .ok r := by
    rw [← ht, String.ofList_toList, h.parse_render]
  rw [Blocker.parse, trimmed]
  split
  · next heq =>
    cases heq
    exact absurd rfl hc
  · next heq =>
    cases heq
    rw [hparse]
    rfl
  · next hne => exact absurd rfl (hne _)

theorem blocker_parse_strong : Blocker.parse ("!!" ++ r.render) = .ok ⟨r, true⟩ := by
  have trimmed : trim ("!!" ++ r.render).toList = '!' :: '!' :: r.render.toList := by
    rw [String.toList_append, h.trim_append (by decide)]
    rfl
  rw [Blocker.parse, trimmed]
  simp only [String.ofList_toList, h.parse_render]
  rfl

end Legible

end Whole

end Requirement

theorem Blocker.parse_render {b : Blocker} (h : b.blocked.Legible) :
    Blocker.parse b.render = .ok b := by
  obtain ⟨r, strong⟩ := b
  cases strong with
  | false => exact h.blocker_parse_weak
  | true => exact h.blocker_parse_strong

namespace Requirement

/-- A legible requirement is read as it has been written, the text of its version included, and so
are the blockers of it. -/
theorem read_as_written {r : Requirement} (h : r.Legible) :
    parse r.render = .ok r ∧ Blocker.parse ("!" ++ r.render) = .ok ⟨r, false⟩ ∧
      Blocker.parse ("!!" ++ r.render) = .ok ⟨r, true⟩ :=
  ⟨h.parse_render, h.blocker_parse_weak, h.blocker_parse_strong⟩

namespace Sample

/-- The name ends in what would be a version if no dash came after it. -/
def gtk : Requirement where
  name := "x11-libs/gtk-2-1"
  version := .sameIgnoringRevision ⟨"2.24b_rc3-r1", [2, 24], some 'b', [(.rc, 3)], 1⟩
  slot := some "2"
  repository := some "main"
  choices := .ofList [("doc", false), ("introspection", true)]

theorem legible_gtk : gtk.Legible where
  name := by decide
  start := List.all_iff_forall_prop.1 (by decide)
  version := ⟨"2.24b_rc3-r1", rfl⟩
  slot := by decide
  repository := by decide
  choices := by decide

end Sample

theorem read_as_written_gtk : Sample.gtk.Legible ∧
    Sample.gtk.render = "~x11-libs/gtk-2-1-2.24b_rc3-r1:2::main[-doc,introspection]" ∧
      parse Sample.gtk.render = .ok Sample.gtk ∧
        Blocker.parse ("!" ++ Sample.gtk.render) = .ok ⟨Sample.gtk, false⟩ ∧
          Blocker.parse ("!!" ++ Sample.gtk.render) = .ok ⟨Sample.gtk, true⟩ :=
  ⟨Sample.legible_gtk, by decide, read_as_written Sample.legible_gtk⟩

end Requirement

end PackagePlan
