import Mathlib.Logic.Relation
import PackagePlan.Plan.Job
import PackagePlan.Proofs.Graph.Edges
import PackagePlan.Proofs.Graph.Paths

/-! # What a search for arrows finds

The search from a job goes on through nodes that have no job. It finds exactly
the jobs to which a path leads that has no other job on it, and exactly what is
needed in vain on these paths. What it says of a job it finds is merged from
first edges of such paths.
-/

namespace PackagePlan

open Relation

namespace PlanGraph

/-- A path leads from `a` to `b` on which no node has a job, except perhaps the first. -/
def Through (g : PlanGraph) (isJob : Resolvent → Bool) : Resolvent → Resolvent → Prop :=
  ReflTransGen fun a b => isJob b = false ∧ ∃ e, g.edge? a b = some e

/-- A path of at least one edge leads from `a` to `b`, and no node in between has a job. -/
def LeadsTo (g : PlanGraph) (isJob : Resolvent → Bool) (a b : Resolvent) : Prop :=
  ∃ z, g.Through isJob a z ∧ ∃ e, g.edge? z b = some e

def LeadsBy (g : PlanGraph) (isJob : Resolvent → Bool) (a b : Resolvent) (first : Edge) : Prop :=
  g.edge? a b = some first ∨
    ∃ z, isJob z = false ∧ g.edge? a z = some first ∧ g.LeadsTo isJob z b

/-- How a search from `a` comes to `z`: it starts there, or by a path with this first edge. -/
def Entered (g : PlanGraph) (isJob : Resolvent → Bool) (a z : Resolvent) : Option Edge → Prop
  | none => z = a
  | some first => ∃ y, isJob y = false ∧ g.edge? a y = some first ∧ g.Through isJob y z

variable {g : PlanGraph} {isJob : Resolvent → Bool} {a b z : Resolvent} {e : Edge}
  {first : Option Edge}

namespace Entered

theorem through (h : g.Entered isJob a z first) : g.Through isJob a z := by
  cases first with
  | none => exact h ▸ .refl
  | some first =>
    obtain ⟨y, hy, he, hyz⟩ := h
    exact hyz.head ⟨hy, first, he⟩

theorem leadsBy (h : g.Entered isJob a z first) (he : g.edge? z b = some e) :
    g.LeadsBy isJob a b (first.getD e) := by
  cases first with
  | none => exact .inl (h ▸ he)
  | some first =>
    obtain ⟨y, hy, hay, hyz⟩ := h
    exact .inr ⟨y, hy, hay, z, hyz, e, he⟩

theorem step (h : g.Entered isJob a z first) (he : g.edge? z b = some e) (hb : isJob b = false) :
    g.Entered isJob a b (some (first.getD e)) := by
  cases first with
  | none =>
    obtain rfl : z = a := h
    exact ⟨b, hb, he, .refl⟩
  | some first =>
    obtain ⟨y, hy, hay, hyz⟩ := h
    exact ⟨y, hy, hay, hyz.tail ⟨hb, e, he⟩⟩

end Entered

theorem LeadsBy.leadsTo (h : g.LeadsBy isJob a b e) : g.LeadsTo isJob a b := by
  obtain he | ⟨y, hy, hay, z, hyz, f, hf⟩ := h
  · exact ⟨a, .refl, e, he⟩
  · exact ⟨z, hyz.head ⟨hy, e, hay⟩, f, hf⟩

theorem LeadsBy.metIfAbsent (hg : g.Wired) (h : g.LeadsBy isJob a b e) : e.MetIfAbsent := by
  obtain he | ⟨y, -, he, -⟩ := h
  · exact hg.metIfAbsent he
  · exact hg.metIfAbsent he

end PlanGraph

/-- The edge has been merged from edges that satisfy `P`. -/
inductive Edge.Merged (P : Edge → Prop) : Edge → Prop
  | single {e : Edge} (he : P e) : Merged P e
  | merge {e f : Edge} (he : Merged P e) (hf : P f) : Merged P (e.merge f)

theorem Edge.Merged.exists_part {P : Edge → Prop} {e : Edge} (h : e.Merged P) : ∃ f, P f := by
  induction h with
  | single he => exact ⟨_, he⟩
  | merge _ hf _ => exact ⟨_, hf⟩

theorem Edge.Merged.metIfAbsent {P : Edge → Prop} {e : Edge} (h : e.Merged P)
    (hP : ∀ f, P f → f.MetIfAbsent) : e.MetIfAbsent := by
  induction h with
  | single he => exact hP _ he
  | merge _ hf ih => exact ih.merge (hP _ hf)

namespace ArrowSearch

open PlanGraph

variable {g : PlanGraph} {isJob : Resolvent → Bool} {r b z u : Resolvent} {e : Edge}
  {first : Option Edge} {s s' s'' : ArrowSearch}

def MergedFrom (P : Resolvent → Edge → Prop) (s : ArrowSearch) : Prop :=
  ∀ b e, s.arrows.get? b = some e → Edge.Merged (P b) e

/-- Nothing is found without a path to it. -/
structure Sound (g : PlanGraph) (isJob : Resolvent → Bool) (r : Resolvent) (s : ArrowSearch) :
    Prop where
  origin : s.visited.contains r = true
  visited : ∀ z, s.visited.contains z = true → g.Through isJob r z
  stacked : ∀ x ∈ s.stack, s.visited.contains x.1 = true ∧ g.Entered isJob r x.1 x.2
  jobs : ∀ b, s.arrows.contains b = true → isJob b = true
  arrows : s.MergedFrom (g.LeadsBy isJob r)
  unable : ∀ u, s.unable.contains u = true →
    ∃ z, g.Through isJob r z ∧ (g.needs z).contains u = true

def Covered (isJob : Resolvent → Bool) (s : ArrowSearch) (b : Resolvent) : Prop :=
  if isJob b then s.arrows.contains b = true else s.visited.contains b = true

structure Expanded (g : PlanGraph) (isJob : Resolvent → Bool) (s : ArrowSearch) (z : Resolvent) :
    Prop where
  covered : ∀ b e, g.edge? z b = some e → Covered isJob s b
  unable : ∀ u, (g.needs z).contains u = true → s.unable.contains u = true

/-- The search has gone on from every node that it does not have yet to go on from. -/
def Complete (g : PlanGraph) (isJob : Resolvent → Bool) (s : ArrowSearch) : Prop :=
  ∀ z, s.visited.contains z = true → (∃ x ∈ s.stack, x.1 = z) ∨ Expanded g isJob s z

/-- Nothing that was found gets lost, and the search will go on from what is new. -/
structure Grows (s s' : ArrowSearch) : Prop where
  visited : ∀ z, s.visited.contains z = true → s'.visited.contains z = true
  arrows : ∀ b, s.arrows.contains b = true → s'.arrows.contains b = true
  unable : ∀ u, s.unable.contains u = true → s'.unable.contains u = true
  stack : s.stack ⊆ s'.stack
  fresh : ∀ z, s'.visited.contains z = true →
    s.visited.contains z = true ∨ ∃ x ∈ s'.stack, x.1 = z

def left (g : PlanGraph) (s : ArrowSearch) : Nat :=
  (g.nodes.toList.filter (!s.visited.contains ·)).length + s.stack.length

namespace Grows

theorem refl (s : ArrowSearch) : Grows s s where
  visited _ h := h
  arrows _ h := h
  unable _ h := h
  stack := List.Subset.refl _
  fresh _ h := .inl h

theorem trans (h : Grows s s') (h' : Grows s' s'') : Grows s s'' where
  visited z hz := h'.visited z (h.visited z hz)
  arrows b hb := h'.arrows b (h.arrows b hb)
  unable u hu := h'.unable u (h.unable u hu)
  stack := List.Subset.trans h.stack h'.stack
  fresh z hz := by
    obtain hz | hz := h'.fresh z hz
    · obtain hz | ⟨x, hx, rfl⟩ := h.fresh z hz
      · exact .inl hz
      · exact .inr ⟨x, h'.stack hx, rfl⟩
    · exact .inr hz

theorem covered (h : Grows s s') (hb : Covered isJob s b) : Covered isJob s' b := by
  unfold Covered at hb ⊢
  split at hb
  · next hj => rw [if_pos hj]; exact h.arrows b hb
  · next hj => rw [if_neg hj]; exact h.visited b hb

theorem expanded (h : Grows s s') (hz : Expanded g isJob s z) : Expanded g isJob s' z :=
  ⟨fun b e he => h.covered (hz.covered b e he), fun u hu => h.unable u (hz.unable u hu)⟩

end Grows

section Follow

theorem follow_of_job (hj : isJob b = true) : follow isJob first s (b, e) =
    { s with arrows := s.arrows.alter b fun old =>
        (old.map (·.merge (first.getD e))).getD (first.getD e) } := by
  simp only [follow, hj, if_true]

theorem follow_of_visited (hj : isJob b = false) (hv : s.visited.contains b = true) :
    follow isJob first s (b, e) = s := by
  simp only [follow, hj, Bool.false_eq_true, if_false, hv, if_true]

theorem follow_of_new (hj : isJob b = false) (hv : s.visited.contains b = false) :
    follow isJob first s (b, e) =
      { s with visited := s.visited.insert b, stack := (b, some (first.getD e)) :: s.stack } := by
  simp only [follow, hj, Bool.false_eq_true, if_false, hv]

theorem contains_arrows_alter {f : Option Edge → Edge} {c : Resolvent} :
    (s.arrows.alter b f).contains c = true ↔ c = b ∨ s.arrows.contains c = true := by
  rw [OrderedMap.contains, OrderedMap.get?_alter]
  by_cases h : c = b <;> simp [h, OrderedMap.contains]

theorem follow_grows : Grows s (follow isJob first s (b, e)) := by
  cases hj : isJob b with
  | true =>
    rw [follow_of_job hj]
    exact { Grows.refl s with arrows := fun c hc => contains_arrows_alter.2 (.inr hc) }
  | false =>
    cases hv : s.visited.contains b with
    | true => rw [follow_of_visited hj hv]; exact .refl s
    | false =>
      rw [follow_of_new hj hv]
      refine { Grows.refl s with visited := ?_, stack := List.subset_cons_self _ _, fresh := ?_ }
      · exact fun z hz => OrderedSet.contains_insert.2 (.inr hz)
      · intro z hz
        obtain rfl | hz := OrderedSet.contains_insert.1 hz
        · exact .inr ⟨_, .head _, rfl⟩
        · exact .inl hz

theorem follow_covers : Covered isJob (follow isJob first s (b, e)) b := by
  unfold Covered
  cases hj : isJob b with
  | true =>
    rw [if_pos rfl, follow_of_job hj]
    exact contains_arrows_alter.2 (.inl rfl)
  | false =>
    rw [if_neg Bool.false_ne_true]
    cases hv : s.visited.contains b with
    | true => rw [follow_of_visited hj hv]; exact hv
    | false => rw [follow_of_new hj hv]; exact OrderedSet.contains_insert.2 (.inl rfl)

theorem follow_arrows (hj : isJob b = false) :
    (follow isJob first s (b, e)).arrows = s.arrows := by
  cases hv : s.visited.contains b with
  | true => rw [follow_of_visited hj hv]
  | false => rw [follow_of_new hj hv]

theorem follow_mergedFrom {P : Resolvent → Edge → Prop} (h : s.MergedFrom P)
    (hb : P b (first.getD e)) : (follow isJob first s (b, e)).MergedFrom P := by
  cases hj : isJob b with
  | false => rwa [MergedFrom, follow_arrows hj]
  | true =>
    rw [follow_of_job hj]
    intro c f hc
    simp only [OrderedMap.get?_alter] at hc
    split at hc
    · next hcb =>
      obtain rfl := Option.some.inj hc
      subst hcb
      cases hold : s.arrows.get? c with
      | none => exact .single hb
      | some old => exact .merge (h c old hold) hb
    · exact h c f hc

theorem follow_sound (h : Sound g isJob r s) (hz : g.Entered isJob r z first)
    (he : g.edge? z b = some e) : Sound g isJob r (follow isJob first s (b, e)) := by
  have harrows : (follow isJob first s (b, e)).MergedFrom (g.LeadsBy isJob r) :=
    follow_mergedFrom h.arrows (hz.leadsBy he)
  cases hj : isJob b with
  | true =>
    rw [follow_of_job hj] at harrows ⊢
    refine { h with jobs := fun c hc => ?_, arrows := harrows }
    obtain rfl | hc := contains_arrows_alter.1 hc
    · exact hj
    · exact h.jobs c hc
  | false =>
    cases hv : s.visited.contains b with
    | true => rw [follow_of_visited hj hv]; exact h
    | false =>
      rw [follow_of_new hj hv]
      refine { h with origin := ?_, visited := fun c hc => ?_, stacked := fun x hx => ?_ }
      · exact OrderedSet.contains_insert.2 (.inr h.origin)
      · obtain rfl | hc := OrderedSet.contains_insert.1 hc
        · exact hz.through.tail ⟨hj, e, he⟩
        · exact h.visited c hc
      · obtain rfl | hx := List.mem_cons.1 hx
        · exact ⟨OrderedSet.contains_insert.2 (.inl rfl), hz.step he hj⟩
        · exact ⟨OrderedSet.contains_insert.2 (.inr (h.stacked x hx).1), (h.stacked x hx).2⟩

theorem follow_left (hb : b ∈ g.nodes.toList) :
    left g (follow isJob first s (b, e)) ≤ left g s := by
  cases hj : isJob b with
  | true => rw [follow_of_job hj]; exact Nat.le_refl _
  | false =>
    cases hv : s.visited.contains b with
    | true => rw [follow_of_visited hj hv]
    | false =>
      rw [follow_of_new hj hv]
      have hrest : g.nodes.toList.filter (!(s.visited.insert b).contains ·) =
          (g.nodes.toList.filter (!s.visited.contains ·)).filter (· != b) := by
        rw [List.filter_filter]
        refine List.filter_congr fun c _ => ?_
        rw [Bool.eq_iff_iff, Bool.and_eq_true, Bool.not_eq_true', ← Bool.not_eq_true,
          OrderedSet.contains_insert, bne_iff_ne, Bool.not_eq_true', ← Bool.not_eq_true, not_or]
      have hless : ((g.nodes.toList.filter (!s.visited.contains ·)).filter (· != b)).length <
          (g.nodes.toList.filter (!s.visited.contains ·)).length := by
        refine List.length_filter_lt_length_iff_exists.2 ⟨b, ?_, by simp⟩
        exact List.mem_filter.2 ⟨hb, by rw [hv]; rfl⟩
      simp only [left, hrest, List.length_cons]
      omega

end Follow

section Expand

variable {node : Resolvent} {arrows : List (Resolvent × Edge)}

theorem foldl_follow_grows : Grows s (arrows.foldl (follow isJob first) s) := by
  induction arrows generalizing s with
  | nil => exact .refl s
  | cons x arrows ih => exact follow_grows.trans ih

theorem foldl_follow_covers (h : (b, e) ∈ arrows) :
    Covered isJob (arrows.foldl (follow isJob first) s) b := by
  induction arrows generalizing s with
  | nil => cases h
  | cons x arrows ih =>
    rw [List.foldl_cons]
    obtain rfl | h := List.mem_cons.1 h
    · exact foldl_follow_grows.covered follow_covers
    · exact ih h

theorem expand_grows : Grows s (expand g isJob s node first) := by
  have hunable : Grows s { s with unable := s.unable.union (g.needs node) } :=
    { Grows.refl s with unable := fun u hu => OrderedSet.contains_union.2 (.inl hu) }
  exact hunable.trans foldl_follow_grows

theorem expand_expanded : Expanded g isJob (expand g isJob s node first) node where
  covered _ _ he := foldl_follow_covers (mem_edgesFrom_iff.2 he)
  unable u hu := foldl_follow_grows.unable u (OrderedSet.contains_union.2 (.inr hu))

theorem expand_sound (h : Sound g isJob r s) (hz : g.Entered isJob r node first) :
    Sound g isJob r (expand g isJob s node first) := by
  refine List.foldlRecOn _ _ ?_ fun s hs x hx => follow_sound hs hz (mem_edgesFrom_iff.1 hx)
  refine { h with unable := fun u hu => ?_ }
  obtain hu | hu := OrderedSet.contains_union.1 hu
  · exact h.unable u hu
  · exact ⟨node, hz.through, hu⟩

theorem expand_left (hg : g.Wired) : left g (expand g isJob s node first) ≤ left g s := by
  refine List.foldlRecOn (motive := fun s' => left g s' ≤ left g s) _ _ (Nat.le_refl _)
    fun s' hs' x hx => ?_
  exact (follow_left (hg.target (mem_edgesFrom_iff.1 hx))).trans hs'

end Expand

section Run

variable {fuel : Nat}

theorem run_induction {P : ArrowSearch → Prop} (h : P s)
    (step : ∀ s node first stack, s.stack = (node, first) :: stack → P s →
      P (expand g isJob { s with stack } node first)) : P (run g isJob fuel s) := by
  induction fuel generalizing s with
  | zero => exact h
  | succ fuel ih =>
    rw [run]
    split
    · exact h
    · next node first stack hs => exact ih (step s node first stack hs h)

theorem run_sound (h : Sound g isJob r s) : Sound g isJob r (run g isJob fuel s) := by
  refine run_induction h fun s node first stack hs h => ?_
  have hnode := (h.stacked (node, first) (hs ▸ .head _)).2
  refine expand_sound { h with stacked := fun x hx => ?_ } hnode
  exact h.stacked x (hs ▸ .tail _ hx)

theorem expand_complete {node : Resolvent} {stack : List (Resolvent × Option Edge)}
    (hs : s.stack = (node, first) :: stack) (h : Complete g isJob s) :
    Complete g isJob (expand g isJob { s with stack } node first) := by
  intro z hz
  have hgrows : Grows { s with stack } (expand g isJob { s with stack } node first) :=
    expand_grows
  obtain hz | hz := hgrows.fresh z hz
  · obtain ⟨x, hx, rfl⟩ | hz := h z hz
    · obtain rfl | hx := List.mem_cons.1 (hs ▸ hx)
      · exact .inr expand_expanded
      · exact .inl ⟨x, hgrows.stack hx, rfl⟩
    · exact .inr (hgrows.expanded ⟨hz.covered, hz.unable⟩)
  · exact .inl hz

theorem run_complete (h : Complete g isJob s) : Complete g isJob (run g isJob fuel s) :=
  run_induction h fun _ _ _ _ hs h => expand_complete hs h

/-- With enough fuel the search goes on until nothing is left to go on from. -/
theorem run_stack (hg : g.Wired) (h : left g s ≤ fuel) : (run g isJob fuel s).stack = [] := by
  induction fuel generalizing s with
  | zero =>
    rw [left] at h
    exact List.eq_nil_of_length_eq_zero (by rw [run]; omega)
  | succ fuel ih =>
    rw [run]
    split
    · next hs => exact hs
    · next node first stack hs =>
      refine ih ((expand_left hg).trans ?_)
      simp only [left, hs, List.length_cons] at h ⊢
      omega

end Run

section Start

variable (hg : g.Wired)

def origin (r : Resolvent) : ArrowSearch := { visited := .ofList [r], stack := [(r, none)] }

theorem start_eq : start g isJob r = run g isJob (g.nodes.size + 1) (origin r) := rfl

theorem contains_visited_origin : (origin r).visited.contains z = true ↔ z = r := by
  rw [origin, OrderedSet.contains_ofList, List.mem_singleton]

theorem origin_mergedFrom {P : Resolvent → Edge → Prop} : (origin r).MergedFrom P := by
  intro b e h
  cases h

theorem origin_complete : Complete g isJob (origin r) := fun _ hz =>
  .inl ⟨_, .head _, (contains_visited_origin.1 hz).symm⟩

theorem start_sound : Sound g isJob r (start g isJob r) := by
  have hr : (origin r).visited.contains r = true := contains_visited_origin.2 rfl
  refine run_sound ⟨hr, fun z hz => ?_, fun x hx => ?_, fun b h => ?_, origin_mergedFrom,
    fun u h => ?_⟩
  · exact contains_visited_origin.1 hz ▸ .refl
  · obtain rfl := List.mem_singleton.1 hx
    exact ⟨hr, rfl⟩
  · cases h
  · cases h

include hg

theorem start_stack : (start g isJob r).stack = [] := by
  refine run_stack hg ?_
  have hsize : g.nodes.size = g.nodes.toList.length := (List.length_map _).symm
  rw [left, hsize]
  exact Nat.add_le_add_right (List.length_filter_le _ _) 1

theorem start_expanded (h : (start g isJob r).visited.contains z = true) :
    Expanded g isJob (start g isJob r) z := by
  obtain ⟨x, hx, -⟩ | h := run_complete origin_complete z h
  · rw [← start_eq, start_stack hg] at hx
    cases hx
  · exact h

theorem contains_visited_iff :
    (start g isJob r).visited.contains z = true ↔ g.Through isJob r z := by
  refine ⟨start_sound.visited z, fun h => ?_⟩
  induction h with
  | refl => exact start_sound.origin
  | tail _ hyz ih =>
    obtain ⟨hj, e, he⟩ := hyz
    have hcov := (start_expanded hg ih).covered _ e he
    rwa [Covered, if_neg (Bool.eq_false_iff.1 hj)] at hcov

theorem contains_arrows_iff : (start g isJob r).arrows.contains b = true ↔
    isJob b = true ∧ g.LeadsTo isJob r b := by
  constructor
  · intro h
    obtain ⟨e, he⟩ := Option.isSome_iff_exists.1 h
    obtain ⟨f, hf⟩ := (start_sound.arrows b e he).exists_part
    exact ⟨start_sound.jobs b h, hf.leadsTo⟩
  · rintro ⟨hj, z, hz, e, he⟩
    have hcov := (start_expanded hg ((contains_visited_iff hg).2 hz)).covered b e he
    rwa [Covered, if_pos hj] at hcov

end Start

end ArrowSearch

end PackagePlan
