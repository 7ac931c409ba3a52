import PackagePlan.Text.Blank

/-! # Texts taken apart

A text that has been put together from parts is cut into these parts again if
none of them contains the mark at which it is cut. A text without blanks is a
word of its own, and there is nothing to trim.
-/

namespace PackagePlan.Text

variable {p : Char → Bool} {c x : Char} {a b s t w mark : List Char} {l : List (List Char)}

theorem pieces_eq_splitOnP (p : Char → Bool) (s : List Char) : pieces p s = s.splitOnP p := by
  induction s with
  | nil => rfl
  | cons c s ih =>
    rw [pieces, ih, List.splitOnP_cons_eq_if_modifyHead]
    cases h : s.splitOnP p with
    | nil => exact absurd h (List.splitOnP_ne_nil p s)
    | cons w ws => rfl

theorem pieces_append (hc : p c = true) : pieces p (a ++ c :: s) = pieces p a ++ pieces p s := by
  simp only [pieces_eq_splitOnP, List.splitOnP_append_cons a s hc]

theorem pieces_eq_singleton (h : ∀ x ∈ a, p x = false) : pieces p a = [a] := by
  rw [pieces_eq_splitOnP, List.splitOnP_eq_singleton h]

theorem pieces_eq_singleton_of_notMem (h : c ∉ a) : pieces (· == c) a = [a] :=
  pieces_eq_singleton fun _ hx => beq_eq_false_iff_ne.2 fun hc => h (hc ▸ hx)

theorem pieces_intercalate (hl : l ≠ []) (h : ∀ w ∈ l, c ∉ w) :
    pieces (· == c) ([c].intercalate l) = l :=
  (pieces_eq_splitOnP _ _).trans (List.splitOn_intercalate c h hl)

theorem intercalate_pieces (c : Char) (s : List Char) :
    [c].intercalate (pieces (· == c) s) = s :=
  (congrArg _ (pieces_eq_splitOnP _ _)).trans (List.intercalate_splitOn c)

theorem intercalate_cons (c : Char) (w : List Char) (l : List (List Char)) :
    [c].intercalate (w :: l) = w ++ l.flatMap (c :: ·) := by
  induction l generalizing w with
  | nil => simp
  | cons w' l ih => rw [List.intercalate_cons_cons, ih, List.flatMap_cons, List.append_assoc]; rfl

theorem eq_or_exists_of_mem_intercalate (h : x ∈ [c].intercalate l) : x = c ∨ ∃ w ∈ l, x ∈ w := by
  induction l with
  | nil => cases h
  | cons w l ih =>
    cases l with
    | nil =>
      rw [List.intercalate_singleton] at h
      exact .inr ⟨w, .head _, h⟩
    | cons w' l =>
      rw [List.intercalate_cons_cons, List.append_assoc, List.mem_append, List.singleton_append,
        List.mem_cons] at h
      rcases h with h | h | h
      · exact .inr ⟨w, .head _, h⟩
      · exact .inl h
      · exact (ih h).imp_right fun ⟨v, hv, hx⟩ => ⟨v, .tail _ hv, hx⟩

theorem prefix_intercalate : w <+: [c].intercalate (w :: l) := by
  rw [intercalate_cons]
  exact List.prefix_append _ _

theorem words_append (hc : isBlank c = true) : words (s ++ c :: t) = words s ++ words t := by
  rw [words, pieces_append hc, List.filter_append, words, words]

theorem words_eq_singleton (hs : s ≠ []) (h : ∀ x ∈ s, isBlank x = false) : words s = [s] := by
  rw [words, pieces_eq_singleton h]
  simp [hs]

theorem trim_eq_of_ends (hhead : ∀ x ∈ s.head?, isBlank x = false)
    (hlast : ∀ x ∈ s.getLast?, isBlank x = false) : trim s = s := by
  have dropWhile_eq : ∀ {t : List Char}, (∀ x ∈ t.head?, isBlank x = false) →
      t.dropWhile isBlank = t := by
    intro t ht
    cases t with
    | nil => rfl
    | cons x t => rw [List.dropWhile_cons_of_neg (by simp [ht x rfl])]
  rw [trim, trimStart, dropWhile_eq hhead, trimEnd, dropWhile_eq (by rwa [List.head?_reverse]),
    List.reverse_reverse]

theorem trim_eq_self (h : ∀ x ∈ s, isBlank x = false) : trim s = s :=
  trim_eq_of_ends (fun x hx => h x (List.mem_of_mem_head? hx))
    fun x hx => h x (List.mem_of_getLast? hx)

theorem trim_cons_blank (hc : isBlank c = true) : trim (c :: s) = trim s := by
  rw [trim, trim, trimStart, trimStart, List.dropWhile_cons_of_pos hc]

theorem beforeEnd?_eq_some_iff : beforeEnd? mark s = some a ↔ s = a ++ mark := by
  simp only [beforeEnd?, Option.map_eq_some_iff, afterStart?_eq_some_iff]
  constructor
  · rintro ⟨r, hr, rfl⟩
    rw [← List.reverse_reverse s, hr, List.reverse_append, List.reverse_reverse]
  · rintro rfl
    exact ⟨a.reverse, List.reverse_append, List.reverse_reverse a⟩

theorem beforeEnd?_append : beforeEnd? mark (a ++ mark) = some a := beforeEnd?_eq_some_iff.2 rfl

theorem beforeEnd?_eq_none (h : s.getLast? ≠ some c) : beforeEnd? [c] s = none := by
  refine Option.eq_none_iff_forall_ne_some.2 fun a ha => h ?_
  rw [beforeEnd?_eq_some_iff.1 ha, List.getLast?_concat]

theorem eq_of_cutLast? (h : cutLast? mark s = some (a, b)) : s = a ++ (mark ++ b) := by
  induction s generalizing a with
  | nil => cases h
  | cons x s ih =>
    rw [cutLast?] at h
    split at h
    · next before after hcut =>
      cases h
      rw [ih hcut, List.cons_append]
    · obtain ⟨rest, hrest, heq⟩ := Option.map_eq_some_iff.1 h
      cases heq
      rw [List.nil_append]
      exact afterStart?_eq_some_iff.1 hrest

theorem cutLast?_eq_none (h : c ∉ s) : cutLast? (c :: mark) s = none := by
  induction s with
  | nil => rfl
  | cons x s ih =>
    obtain ⟨hx, hs⟩ := not_or.1 (mt List.mem_cons.2 h)
    simp [cutLast?, ih hs, afterStart?, hx]

theorem cutLast?_append (hmark : c ∉ mark) (hb : c ∉ b) :
    cutLast? (c :: mark) (a ++ c :: (mark ++ b)) = some (a, b) := by
  have notMem : c ∉ mark ++ b := fun hm => (List.mem_append.1 hm).elim hmark hb
  have found : afterStart? (c :: mark) (c :: (mark ++ b)) = some b := afterStart?_eq_some_iff.2 rfl
  induction a with
  | nil => simp [cutLast?, cutLast?_eq_none notMem, found]
  | cons x a ih => simp [cutLast?, ih]

theorem cutLast?_eq_some (h : c ∉ b) : cutLast? [c] (a ++ c :: b) = some (a, b) :=
  cutLast?_append List.not_mem_nil h

theorem cutFirst?_append (h : c ∉ a) : cutFirst? (c :: mark) (a ++ s) =
    (cutFirst? (c :: mark) s).map fun (before, after) => (a ++ before, after) := by
  induction a with
  | nil => simp
  | cons x a ih =>
    obtain ⟨hx, ha⟩ := not_or.1 (mt List.mem_cons.2 h)
    simp [cutFirst?, afterStart?, hx, ih ha, Function.comp_def]

end PackagePlan.Text
