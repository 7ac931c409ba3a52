import PackagePlan.Dependency.Flatten
import PackagePlan.Dependency.Parser
import PackagePlan.Proofs.Requirement.RoundTrip

/-! # Dependency trees written and read

The words that a tree is written as make the reader go on with the tree as one
more child of the innermost open group. So a tree is read as it has been
written, inside the group that a text stands for, and comes to the same
dependencies.
-/

namespace PackagePlan

open Text

theorem Label.ofName?_name (l : Label) : ofName? l.name = some l := by
  cases l <;> decide

theorem Label.plain_of_mem_name {l : Label} {x : Char} (h : x ∈ l.name.toList) :
    isBlank x = false ∧ x ≠ '+' := by
  have plain : (l.name.toList.all fun x => isBlank x = false ∧ x ≠ '+') = true := by
    cases l <;> decide
  exact List.all_iff_forall_prop.1 plain x h

namespace DependencyTree

variable {source : String} {outer : List (Opening × List DependencyTree)}
  {done children ts : List DependencyTree} {w s : List Char} {ws : List (List Char)} {x : Char}
  {c : Condition} {ls : List Label} {r : Requirement} {b : Blocker} {t : DependencyTree}

/-- The text is one word, and one that no question mark or colon makes a condition or labels. -/
structure IsLeafText (s : List Char) : Prop where
  unblank : ∀ x ∈ s, isBlank x = false
  question : s.getLast? ≠ some '?'
  colon : s.getLast? ≠ some ':'

def marks : List (List Char) := [['('], [')'], ['|', '|']]

/-- Each part of the tree is written as words of its own kind. -/
inductive Legible : DependencyTree → Prop
  | all {children : List DependencyTree} (h : ∀ t ∈ children, Legible t) : Legible (.all children)
  | any {children : List DependencyTree} (h : ∀ t ∈ children, Legible t) : Legible (.any children)
  | given {c : Condition} {children : List DependencyTree} (nonempty : c.flag ≠ "")
      (unblank : ∀ x ∈ c.flag.toList, isBlank x = false) (bang : c.flag.toList.head? ≠ some '!')
      (h : ∀ t ∈ children, Legible t) : Legible (.given c children)
  | labels {ls : List Label} (nonempty : ls ≠ []) : Legible (.labels ls)
  | package {r : Requirement} (text : IsLeafText r.render.toList)
      (read : Requirement.parse r.render = .ok r) (bang : r.render.toList.head? ≠ some '!')
      (mark : r.render.toList ∉ marks) : Legible (.package r)
  | blocker {b : Blocker} (text : IsLeafText b.render.toList)
      (read : Blocker.parse b.render = .ok b) : Legible (.blocker b)

section Step

theorem notMem_marks_iff : w ∉ marks ↔ w ≠ ['('] ∧ w ≠ [')'] ∧ w ≠ ['|', '|'] := by
  simp [marks]

theorem notMem_marks_of_last (h : w.getLast? = some '?' ∨ w.getLast? = some ':') : w ∉ marks := by
  rw [notMem_marks_iff]
  refine ⟨?_, ?_, ?_⟩ <;> (rintro rfl; revert h; decide)

theorem notMem_marks_of_head (h : w.head? = some '!') : w ∉ marks := by
  rw [notMem_marks_iff]
  refine ⟨?_, ?_, ?_⟩ <;> (rintro rfl; revert h; decide)

theorem readWords_leaf (h : readWord source w = .ok (.leaf t)) (hmark : w ∉ marks) :
    readWords source outer done (w :: ws) = readWords source outer (t :: done) ws := by
  obtain ⟨hopen, hclose, -⟩ := notMem_marks_iff.1 hmark
  rw [readWords, h]
  · rfl
  · exact hclose
  · exact hopen

theorem readWords_opening {o : Opening} (h : readWord source w = .ok (.opening o))
    (hopen : w ≠ ['(']) (hclose : w ≠ [')']) :
    readWords source outer done (w :: ['('] :: ws) =
      readWords source ((o, done) :: outer) [] ws := by
  rw [readWords, h]
  · rfl
  · exact hclose
  · exact hopen

theorem toList_render_condition (c : Condition) :
    c.render.toList = (if c.negated then '!' :: c.flag.toList else c.flag.toList) ++ ['?'] := by
  rw [Condition.render, String.toList_append, String.toList_append]
  split <;> rfl

theorem notMem_marks_condition (c : Condition) : c.render.toList ∉ marks :=
  notMem_marks_of_last (.inl (by rw [toList_render_condition, List.getLast?_concat]))

theorem readCondition_flag (hne : c.flag ≠ "") (hbang : c.flag.toList.head? ≠ some '!') :
    readCondition (if c.negated then '!' :: c.flag.toList else c.flag.toList) = .ok c := by
  obtain ⟨flag, negated⟩ := c
  have flag_ne : flag.toList ≠ [] := mt String.toList_eq_nil_iff.1 hne
  have unmarked : ∀ s, flag.toList ≠ '!' :: s := fun s hs => hbang (by rw [hs, List.head?_cons])
  cases negated with
  | false =>
    rw [if_neg Bool.false_ne_true, readCondition, String.ofList_toList]
    · exact flag_ne
    · exact unmarked []
    · exact unmarked
  | true =>
    rw [if_pos rfl, readCondition, String.ofList_toList]
    exact flag_ne

theorem readWord_condition (hne : c.flag ≠ "") (hbang : c.flag.toList.head? ≠ some '!') :
    readWord source c.render.toList = .ok (.opening (.given c)) := by
  obtain ⟨-, -, mark⟩ := notMem_marks_iff.1 (notMem_marks_condition c)
  rw [readWord, if_neg mark, toList_render_condition, beforeEnd?_append]
  simp only [readCondition_flag hne hbang]
  rfl

theorem toList_render_labels (ls : List Label) :
    (labels ls).render.toList = ['+'].intercalate (ls.map fun l => l.name.toList) ++ [':'] := by
  rw [render, Label.renderList, Text.join, String.toList_append, String.toList_intercalate,
    List.map_map]
  rfl

theorem notMem_marks_labels (ls : List Label) : (labels ls).render.toList ∉ marks :=
  notMem_marks_of_last (.inr (by rw [toList_render_labels, List.getLast?_concat]))

theorem readWord_labels (hne : ls ≠ []) :
    readWord source (labels ls).render.toList = .ok (.leaf (.labels ls)) := by
  obtain ⟨-, -, mark⟩ := notMem_marks_iff.1 (notMem_marks_labels ls)
  have question : beforeEnd? ['?'] (labels ls).render.toList = none := by
    refine beforeEnd?_eq_none ?_
    rw [toList_render_labels, List.getLast?_concat]
    decide
  have names : pieces (· == '+') (['+'].intercalate (ls.map fun l => l.name.toList)) =
      ls.map fun l => l.name.toList :=
    pieces_intercalate (by simpa using hne)
      (List.forall_mem_map.2 fun l _ hm => (Label.plain_of_mem_name hm).2 rfl)
  have read : (ls.map fun l => l.name.toList).mapM readLabel = .ok ls := by
    rw [mapM_eq_ok_iff, List.map_map]
    refine List.map_congr_left fun l _ => ?_
    simp [readLabel, Label.ofName?_name]
  rw [readWord, if_neg mark, question, toList_render_labels, beforeEnd?_append]
  simp only [names, read]
  rfl

theorem readWord_of_isLeafText (h : IsLeafText s) (mark : s ∉ marks) :
    readWord source s = if s.head? = some '!' then
      (Blocker.parse (String.ofList s)).map fun b => .leaf (.blocker b)
    else (Requirement.parse (String.ofList s)).map fun r => .leaf (.package r) := by
  obtain ⟨-, -, mark⟩ := notMem_marks_iff.1 mark
  rw [readWord, if_neg mark, beforeEnd?_eq_none h.question, beforeEnd?_eq_none h.colon]

theorem head?_render_blocker (b : Blocker) : b.render.toList.head? = some '!' := by
  rw [Blocker.render, String.toList_append]
  cases b.strong <;> rfl

end Step

section Words

variable {s : String}

theorem words_group : words ("( " ++ s ++ " )").toList = ['('] :: (words s.toList ++ [[')']]) := by
  have text : ("( " ++ s ++ " )").toList = ['('] ++ ' ' :: (s.toList ++ ' ' :: [')']) := by
    simp
  rw [text, words_append (by decide), words_append (by decide)]
  rfl

theorem words_renderList_cons :
    words (renderList (t :: ts)).toList =
      words t.render.toList ++ words (renderList ts).toList := by
  cases ts with
  | nil =>
    rw [renderList, renderList]
    exact (List.append_nil _).symm
  | cons t' ts =>
    have text : (renderList (t :: t' :: ts)).toList =
        t.render.toList ++ ' ' :: (renderList (t' :: ts)).toList := by
      rw [renderList] <;> simp
    rw [text, words_append (by decide)]

theorem readWords_close {o : Opening} :
    readWords source ((o, done) :: outer) (children.reverse ++ []) ([[')']] ++ ws) =
      readWords source outer (o.close children :: done) ws := by
  rw [List.append_nil, List.singleton_append, readWords, List.reverse_reverse]

theorem words_any : words (any children).render.toList =
    ['|', '|'] :: ['('] :: (words (renderList children).toList ++ [[')']]) := by
  have text : (any children).render.toList =
      ['|', '|'] ++ ' ' :: ("( " ++ renderList children ++ " )").toList := by
    rw [render]
    simp
  rw [text, words_append (by decide), words_group]
  rfl

theorem words_condition (unblank : ∀ x ∈ c.flag.toList, isBlank x = false) :
    words c.render.toList = [c.render.toList] := by
  rw [toList_render_condition]
  refine words_eq_singleton (List.append_ne_nil_of_right_ne_nil _ (List.cons_ne_nil _ _))
    fun x hx => ?_
  rw [List.mem_append, List.mem_singleton] at hx
  rcases hx with hx | rfl
  · split at hx
    · rcases List.mem_cons.1 hx with rfl | hx
      · decide
      · exact unblank x hx
    · exact unblank x hx
  · decide

theorem words_given (unblank : ∀ x ∈ c.flag.toList, isBlank x = false) :
    words (given c children).render.toList =
      c.render.toList :: ['('] :: (words (renderList children).toList ++ [[')']]) := by
  have text : (given c children).render.toList =
      c.render.toList ++ ' ' :: ("( " ++ renderList children ++ " )").toList := by
    rw [render]
    simp
  rw [text, words_append (by decide), words_group, words_condition unblank]
  rfl

theorem words_labels : words (labels ls).render.toList = [(labels ls).render.toList] := by
  rw [toList_render_labels]
  refine words_eq_singleton (List.append_ne_nil_of_right_ne_nil _ (List.cons_ne_nil _ _))
    fun x hx => ?_
  rw [List.mem_append, List.mem_singleton] at hx
  rcases hx with hx | rfl
  · rcases eq_or_exists_of_mem_intercalate hx with rfl | ⟨w, hw, hx⟩
    · decide
    · obtain ⟨l, -, rfl⟩ := List.mem_map.1 hw
      exact (Label.plain_of_mem_name hx).1
  · decide

theorem words_package (text : IsLeafText r.render.toList)
    (read : Requirement.parse r.render = .ok r) :
    words (package r).render.toList = [r.render.toList] := by
  have nonempty : r.render.toList ≠ [] := by
    intro h
    rw [String.toList_eq_nil_iff.1 h] at read
    cases read
  rw [render, words_eq_singleton nonempty text.unblank]

theorem words_blocker (text : IsLeafText b.render.toList) :
    words (blocker b).render.toList = [b.render.toList] := by
  have nonempty : b.render.toList ≠ [] := fun h => by
    have hhead := head?_render_blocker b
    rw [h] at hhead
    cases hhead
  rw [render, words_eq_singleton nonempty text.unblank]

mutual

/-- Whatever groups are open and whatever comes after it, a tree becomes the next child of the
innermost one. -/
theorem readWords_render : ∀ {t : DependencyTree} {source outer done ws}, t.Legible →
    readWords source outer done (words t.render.toList ++ ws) =
      readWords source outer (t :: done) ws
  | .all children, source, outer, done, ws, .all h => by
    rw [render, words_group, List.cons_append, List.append_assoc, readWords,
      readWords_renderList h, readWords_close]
    rfl
  | .any children, source, outer, done, ws, .any h => by
    have word : readWord source ['|', '|'] = .ok (.opening .any) := rfl
    rw [words_any, List.cons_append, List.cons_append, List.append_assoc,
      readWords_opening word (by decide) (by decide), readWords_renderList h, readWords_close]
    rfl
  | .given c children, source, outer, done, ws, .given nonempty unblank bang h => by
    have word : readWord source c.render.toList = .ok (.opening (.given c)) :=
      readWord_condition nonempty bang
    obtain ⟨hopen, hclose, -⟩ := notMem_marks_iff.1 (notMem_marks_condition c)
    rw [words_given unblank, List.cons_append, List.cons_append, List.append_assoc,
      readWords_opening word hopen hclose, readWords_renderList h, readWords_close]
    rfl
  | .labels ls, source, outer, done, ws, .labels nonempty => by
    rw [words_labels, List.singleton_append,
      readWords_leaf (readWord_labels nonempty) (notMem_marks_labels ls)]
  | .package r, source, outer, done, ws, .package text read bang mark => by
    have word : readWord source r.render.toList = .ok (.leaf (.package r)) := by
      rw [readWord_of_isLeafText text mark, if_neg bang, String.ofList_toList, read]
      rfl
    rw [words_package text read, List.singleton_append, readWords_leaf word mark]
  | .blocker b, source, outer, done, ws, .blocker text read => by
    have bang := head?_render_blocker b
    have mark := notMem_marks_of_head bang
    have word : readWord source b.render.toList = .ok (.leaf (.blocker b)) := by
      rw [readWord_of_isLeafText text mark, if_pos bang, String.ofList_toList, read]
      rfl
    rw [words_blocker text, List.singleton_append, readWords_leaf word mark]

theorem readWords_renderList : ∀ {ts : List DependencyTree} {source outer done ws},
    (∀ t ∈ ts, t.Legible) → readWords source outer done (words (renderList ts).toList ++ ws) =
      readWords source outer (ts.reverse ++ done) ws
  | [], source, outer, done, ws, _ => by
    rw [renderList]
    rfl
  | t :: ts, source, outer, done, ws, h => by
    rw [words_renderList_cons, List.append_assoc, readWords_render (h t (.head _)),
      readWords_renderList fun t ht => h t (.tail _ ht), List.reverse_cons, List.append_assoc,
      List.singleton_append]

end

end Words

theorem dependencies_all_singleton {choices : Choices} {score : Scorer} :
    (all [t]).dependencies choices score = t.dependencies choices score := by
  cases t with
  | labels ls => rw [dependencies, flatten, flattenAll, flattenAll, dependencies, flatten]
  | all | any | given | package | blocker =>
    rw [dependencies, flatten, flattenAll, flattenAll, List.append_nil, dependencies]
    intro new h
    cases h

/-- A legible tree is read as it has been written, as the one child of the group that a text stands
for, and comes to the same dependencies. -/
theorem survives_rendering (h : t.Legible) :
    parse t.render = .ok (.all [t]) ∧ ∀ choices score,
      (all [t]).dependencies choices score = t.dependencies choices score := by
  have read : readWords t.render [] [] (words t.render.toList ++ []) =
      readWords t.render [] [t] [] := readWords_render h
  rw [List.append_nil] at read
  refine ⟨?_, fun choices score => dependencies_all_singleton⟩
  rw [parse, read]
  rfl

theorem legible_package (h : r.Legible) (question : r.render.toList.getLast? ≠ some '?')
    (colon : r.render.toList.getLast? ≠ some ':')
    (mark : r.render.toList ∉ marks) : (package r).Legible := by
  obtain ⟨x, s, hs, hx⟩ := h.exists_render
  exact .package ⟨fun _ => h.not_isBlank_of_mem_render, question, colon⟩ h.parse_render
    (by rw [hs, List.head?_cons]; exact fun hbang => hx (Option.some.inj hbang)) mark

theorem legible_blocker (h : b.blocked.Legible) (question : b.render.toList.getLast? ≠ some '?')
    (colon : b.render.toList.getLast? ≠ some ':') : (blocker b).Legible := by
  refine .blocker ⟨fun x hx => ?_, question, colon⟩ (Blocker.parse_render h)
  rw [Blocker.render, String.toList_append, List.mem_append] at hx
  rcases hx with hx | hx
  · have unblank : (if b.strong then "!!" else "!").toList.any isBlank = false := by
      cases b.strong <;> decide
    exact Bool.eq_false_iff.2 (List.any_eq_false.1 unblank x hx)
  · exact h.not_isBlank_of_mem_render hx

namespace Sample

/-- Of one alternative nothing is needed, and one condition asks for nothing. -/
def mixed : DependencyTree :=
  all [labels [.build, .test], package Requirement.Sample.gtk,
    any [all [], given ⟨"doc", true⟩ [package (.named "dev-libs/b-1")]], given ⟨"doc", false⟩ [],
    labels [.post], blocker ⟨.named "app-misc/old", true⟩]

theorem legible_mixed : mixed.Legible := by
  have legible_named : ∀ {name : String}, Requirement.IsPart name →
      (∀ c ∈ Requirement.signs, name.toList.head? ≠ some c) → (Requirement.named name).Legible :=
    fun hname hstart => ⟨hname, hstart, trivial, nofun, nofun, nofun⟩
  have legible_gtk : (package Requirement.Sample.gtk).Legible :=
    legible_package Requirement.Sample.legible_gtk (by decide) (by decide) (by decide)
  have legible_alternative : (package (.named "dev-libs/b-1")).Legible :=
    legible_package (legible_named (by decide) (List.all_iff_forall_prop.1 (by decide)))
      (by decide) (by decide) (by decide)
  have legible_old : (blocker ⟨.named "app-misc/old", true⟩).Legible :=
    legible_blocker (legible_named (by decide) (List.all_iff_forall_prop.1 (by decide)))
      (by decide) (by decide)
  have unblank : ∀ x ∈ "doc".toList, isBlank x = false := List.all_iff_forall_prop.1 (by decide)
  have legible_choice : (any [all [],
      given ⟨"doc", true⟩ [package (.named "dev-libs/b-1")]]).Legible := by
    refine .any (List.forall_mem_cons.2 ⟨.all nofun, List.forall_mem_singleton.2 ?_⟩)
    exact .given (by decide) unblank (by decide) (List.forall_mem_singleton.2 legible_alternative)
  refine .all fun t ht => ?_
  simp only [List.mem_cons, List.not_mem_nil, or_false] at ht
  rcases ht with rfl | rfl | rfl | rfl | rfl | rfl
  · exact .labels (by decide)
  · exact legible_gtk
  · exact legible_choice
  · exact .given (by decide) unblank (by decide) nofun
  · exact .labels (by decide)
  · exact legible_old

end Sample

theorem survives_rendering_mixed : Sample.mixed.Legible ∧
    Sample.mixed.render = "( build+test: " ++ Requirement.Sample.gtk.render ++
      " || ( (  ) !doc? ( dev-libs/b-1 ) ) doc? (  ) post: !!app-misc/old )" ∧
    parse Sample.mixed.render = .ok (.all [Sample.mixed]) ∧ ∀ choices score,
      (all [Sample.mixed]).dependencies choices score = Sample.mixed.dependencies choices score :=
  ⟨Sample.legible_mixed, by decide, survives_rendering Sample.legible_mixed⟩

end DependencyTree

end PackagePlan
