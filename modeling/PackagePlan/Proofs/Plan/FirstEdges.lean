import PackagePlan.Proofs.Plan.HardArrows

/-! # The first edges that count

A search from a job leaves it for jobs, which end a way, and for nodes without
a job, its gates. It goes through the gates from the last to the first, and
through each to all that it has not come to before. So a node that several
gates lead to is reached through the last of these alone, and what the edges to
the others carry is lost on the jobs behind it.
-/

namespace PackagePlan

open Relation Std

namespace PlanGraph

/-- An edge leads from `a` to `y`, and `y` has no job. -/
def Gate (g : PlanGraph) (isJob : Resolvent → Bool) (a y : Resolvent) : Prop :=
  isJob y = false ∧ ∃ e, g.edge? a y = some e

/-- A path leads from `y` to `z` that comes to no job and to no other gate of `a`. -/
def Past (g : PlanGraph) (isJob : Resolvent → Bool) (a : Resolvent) :
    Resolvent → Resolvent → Prop :=
  ReflTransGen fun x z => isJob z = false ∧ ¬g.Gate isJob a z ∧ ∃ e, g.edge? x z = some e

/-- Of the gates of `a` from which such a path leads to `z`, `y` is the last. -/
structure LastGate (g : PlanGraph) (isJob : Resolvent → Bool) (a y z : Resolvent) : Prop where
  gate : g.Gate isJob a y
  past : g.Past isJob a y z
  last : ∀ y', g.Gate isJob a y' → g.Past isJob a y' z → (compare y' y).isLE = true

/-- The edge leads from `a` to `b`, or to the last gate for a node that has an edge to `b`. -/
def CountsFor (g : PlanGraph) (isJob : Resolvent → Bool) (a b : Resolvent) (first : Edge) : Prop :=
  g.edge? a b = some first ∨
    ∃ y z, g.edge? a y = some first ∧ g.LastGate isJob a y z ∧ ∃ e, g.edge? z b = some e

variable {g : PlanGraph} {isJob : Resolvent → Bool} {a b y y' z : Resolvent} {first : Edge}

theorem Past.through (h : g.Past isJob a y z) : g.Through isJob y z :=
  ReflTransGen.mono (fun _ _ ⟨hz, _, he⟩ => ⟨hz, he⟩) _ _ h

theorem Gate.last (h : g.Gate isJob a y) : g.LastGate isJob a y y where
  gate := h
  past := .refl
  last y' _ hp := by
    cases hp with
    | refl => exact ReflCmp.isLE_rfl
    | tail _ hy => exact absurd h hy.2.1

namespace LastGate

theorem unique (h : g.LastGate isJob a y z) (h' : g.LastGate isJob a y' z) : y = y' :=
  LawfulEqCmp.eq_of_compare
    (OrientedCmp.isLE_antisymm (h'.last y h.gate h.past) (h.last y' h'.gate h'.past))

theorem jobless (h : g.LastGate isJob a y z) : isJob z = false := by
  cases h.past with
  | refl => exact h.gate.1
  | tail _ hz => exact hz.1

theorem through (h : g.LastGate isJob a y z) : g.Through isJob a z :=
  h.past.through.head h.gate

end LastGate

theorem CountsFor.leadsBy (h : g.CountsFor isJob a b first) : g.LeadsBy isJob a b first := by
  obtain he | ⟨y, z, hy, hz, e, he⟩ := h
  · exact .inl he
  · exact .inr ⟨y, hz.gate.1, hy, z, hz.past.through, e, he⟩

end PlanGraph

namespace ArrowSearch

open PlanGraph RequirementKinds

variable {g : PlanGraph} {isJob : Resolvent → Bool} {a b c y y' z : Resolvent} {e f : Edge}
  {first : Option Edge} {s : ArrowSearch} {arrows : List (Resolvent × Edge)}
  {stack : List (Resolvent × Option Edge)}

def Tells (s : ArrowSearch) (b : Resolvent) (f : Edge) : Prop :=
  ∃ e, s.arrows.get? b = some e ∧ (ofEdge f).names ⊆ (ofEdge e).names

section Follow

theorem follow_tells (h : s.Tells c f) : (follow isJob first s (b, e)).Tells c f := by
  cases hj : isJob b with
  | false => rwa [Tells, follow_arrows hj]
  | true =>
    obtain ⟨old, hold, hf⟩ := h
    rw [follow_of_job hj]
    by_cases hcb : c = b
    · subst hcb
      refine ⟨old.merge (first.getD e), ?_, List.Subset.trans hf names_subset_merge.1⟩
      simp [OrderedMap.get?_alter, hold]
    · exact ⟨old, by simp [OrderedMap.get?_alter, hcb, hold], hf⟩

theorem follow_tells_self (hj : isJob b = true) :
    (follow isJob first s (b, e)).Tells b (first.getD e) := by
  rw [follow_of_job hj]
  refine ⟨_, (OrderedMap.get?_alter _ _ _ _).trans (if_pos rfl), ?_⟩
  cases s.arrows.get? b with
  | none => exact List.Subset.refl _
  | some old => exact names_subset_merge.2

/-- What comes on the stack when edges are followed: the ends of some of them in turn. -/
structure Opens (isJob : Resolvent → Bool) (first : Option Edge) (arrows : List (Resolvent × Edge))
    (s s' : ArrowSearch) (fresh : List (Resolvent × Option Edge)) : Prop where
  stack : s'.stack = fresh ++ s.stack
  inTurn : fresh.reverse.Sublist (arrows.map fun x => (x.1, some (first.getD x.2)))
  jobless : ∀ x ∈ fresh, isJob x.1 = false
  unvisited : ∀ x ∈ fresh, s.visited.contains x.1 = false
  visited : ∀ c, s'.visited.contains c = true →
    s.visited.contains c = true ∨ ∃ x ∈ fresh, x.1 = c

theorem exists_opens :
    ∃ fresh, Opens isJob first arrows s (arrows.foldl (follow isJob first) s) fresh := by
  induction arrows generalizing s with
  | nil => exact ⟨[], rfl, .refl _, by simp, by simp, fun _ hc => .inl hc⟩
  | cons x arrows ih =>
    obtain ⟨b, e⟩ := x
    rw [List.foldl_cons]
    obtain ⟨fresh, h⟩ := ih (s := follow isJob first s (b, e))
    cases hj : isJob b with
    | true =>
      rw [follow_of_job hj] at h ⊢
      exact ⟨fresh, h.stack, h.inTurn.cons _, h.jobless, h.unvisited, h.visited⟩
    | false =>
      cases hv : s.visited.contains b with
      | true =>
        rw [follow_of_visited hj hv] at h ⊢
        exact ⟨fresh, h.stack, h.inTurn.cons _, h.jobless, h.unvisited, h.visited⟩
      | false =>
        rw [follow_of_new hj hv] at h ⊢
        refine ⟨fresh ++ [(b, some (first.getD e))], ?_, ?_, ?_, ?_, ?_⟩
        · rw [h.stack, List.append_assoc, List.singleton_append]
        · rw [List.reverse_append]
          exact h.inTurn.cons_cons _
        · intro x hx
          obtain hx | hx := List.mem_append.1 hx
          · exact h.jobless x hx
          · exact List.mem_singleton.1 hx ▸ hj
        · intro x hx
          obtain hx | hx := List.mem_append.1 hx
          · have hnot := Bool.eq_false_iff.1 (h.unvisited x hx)
            exact Bool.eq_false_iff.2 fun hx => hnot (OrderedSet.contains_insert.2 (.inr hx))
          · exact List.mem_singleton.1 hx ▸ hv
        · intro c hc
          obtain hc | ⟨x, hx, rfl⟩ := h.visited c hc
          · obtain rfl | hc := OrderedSet.contains_insert.1 hc
            · exact .inr ⟨_, List.mem_append_right _ (.head _), rfl⟩
            · exact .inl hc
          · exact .inr ⟨x, List.mem_append_left _ hx, rfl⟩

end Follow

section Expand

theorem Opens.exists_edge {s' : ArrowSearch} {fresh : List (Resolvent × Option Edge)}
    {x : Resolvent × Option Edge} (h : Opens isJob first (g.edgesFrom z) s s' fresh)
    (hx : x ∈ fresh) : ∃ e, g.edge? z x.1 = some e ∧ x.2 = some (first.getD e) := by
  obtain ⟨x', hx', rfl⟩ := List.mem_map.1 (h.inTurn.subset (List.mem_reverse.2 hx))
  exact ⟨x'.2, mem_edgesFrom_iff.1 hx', rfl⟩

theorem expand_opens :
    ∃ fresh, Opens isJob first (g.edgesFrom z) s (expand g isJob s z first) fresh :=
  let ⟨fresh, h⟩ := exists_opens (s := { s with unable := s.unable.union (g.needs z) })
  ⟨fresh, h.stack, h.inTurn, h.jobless, h.unvisited, h.visited⟩

theorem expand_mergedFrom {P : Resolvent → Edge → Prop} (h : s.MergedFrom P)
    (hP : ∀ b e, g.edge? z b = some e → P b (first.getD e)) :
    (expand g isJob s z first).MergedFrom P :=
  List.foldlRecOn _ _ h fun _ hs x hx =>
    follow_mergedFrom hs (hP x.1 x.2 (mem_edgesFrom_iff.1 hx))

theorem foldl_follow_tells (h : s.Tells c f) :
    (arrows.foldl (follow isJob first) s).Tells c f :=
  List.foldlRecOn (motive := fun s => Tells s c f) _ _ h fun _ hs _ _ => follow_tells hs

theorem expand_tells (h : s.Tells c f) : (expand g isJob s z first).Tells c f :=
  foldl_follow_tells h

theorem expand_tells_end (hj : isJob b = true) (he : g.edge? z b = some e) :
    (expand g isJob s z first).Tells b (first.getD e) := by
  have tells : ∀ (arrows : List (Resolvent × Edge)) (s : ArrowSearch), (b, e) ∈ arrows →
      (arrows.foldl (follow isJob first) s).Tells b (first.getD e) := by
    intro arrows
    induction arrows with
    | nil =>
      intro s h
      cases h
    | cons x arrows ih =>
      intro s h
      rw [List.foldl_cons]
      obtain rfl | h := List.mem_cons.1 h
      · exact foldl_follow_tells (follow_tells_self hj)
      · exact ih _ h
  exact tells _ _ (mem_edgesFrom_iff.2 he)

/-- The jobs that edges lead to from `z` have been told of the edge to the last gate for `z`. -/
def Told (g : PlanGraph) (isJob : Resolvent → Bool) (a : Resolvent) (s : ArrowSearch)
    (z : Resolvent) : Prop :=
  ∀ y first b e, g.LastGate isJob a y z → g.edge? a y = some first → g.edge? z b = some e →
    isJob b = true → s.Tells b first

theorem Told.expand (h : Told g isJob a s c) : Told g isJob a (expand g isJob s z first) c :=
  fun y f b e hy hay he hb => expand_tells (h y f b e hy hay he hb)

theorem told_expand_self (hz : g.LastGate isJob a y z) (hy : g.edge? a y = some e) :
    Told g isJob a (expand g isJob s z (some e)) z := by
  intro y' first b f hy' hay hf hb
  obtain rfl := hy'.unique hz
  obtain rfl : e = first := Option.some.inj (hy.symm.trans hay)
  exact expand_tells_end hb hf

end Expand

def Falling (g : PlanGraph) (isJob : Resolvent → Bool) (a : Resolvent)
    (nodes : List (Resolvent × Option Edge)) : Prop :=
  nodes.Pairwise fun x x' => ∀ y y', g.LastGate isJob a y x.1 → g.LastGate isJob a y' x'.1 →
    (compare y' y).isLE = true

/-- Once it has left `a`, the search comes to each node through the last of the gates that lead to
it: the gates of the nodes on the stack fall, and what is behind the later gates is done. -/
structure Gated (g : PlanGraph) (isJob : Resolvent → Bool) (a : Resolvent) (s : ArrowSearch) :
    Prop where
  gates : ∀ y, g.Gate isJob a y → s.visited.contains y = true
  visited : ∀ z, s.visited.contains z = true → z = a ∨ ∃ y, g.LastGate isJob a y z
  stacked : ∀ x ∈ s.stack, ∃ y, g.LastGate isJob a y x.1 ∧ x.2 = g.edge? a y
  falling : Falling g isJob a s.stack
  counted : s.MergedFrom (g.CountsFor isJob a)
  own : ∀ b first, isJob b = true → g.edge? a b = some first → s.Tells b first
  told : ∀ z, s.visited.contains z = true → (∃ x ∈ s.stack, x.1 = z) ∨ Told g isJob a s z

namespace Gated

variable (h : Gated g isJob a s) (hs : s.stack = (z, first) :: stack)
  (hz : g.LastGate isJob a y z)

include h hs hz

theorem isLE_of_mem {x : Resolvent × Option Edge} (hx : x ∈ s.stack)
    (hy' : g.LastGate isJob a y' x.1) : (compare y' y).isLE = true := by
  have hfalling := List.pairwise_cons.1 (hs ▸ h.falling)
  obtain rfl | hx := List.mem_cons.1 (hs ▸ hx)
  · rw [hy'.unique hz]
    exact ReflCmp.isLE_rfl
  · exact hfalling.1 x hx y y' hz hy'

/-- All that a gate leads to has been visited, if the gate is later than that of the next node. -/
theorem contains_or_isLE (hc : Complete g isJob s) (hy' : g.Gate isJob a y')
    (hp : g.Past isJob a y' b) : s.visited.contains b = true ∨ (compare y' y).isLE = true := by
  -- Along the path: a node with a gate later than `y` has left the stack, so what it leads to has
  -- been visited.
  induction hp with
  | refl => exact .inl (h.gates y' hy')
  | @tail x b hx hb ih =>
    obtain hv | hle := ih
    · obtain ⟨hj, hgate, e, he⟩ := hb
      obtain rfl | ⟨y'', hy''⟩ := h.visited x hv
      · exact absurd ⟨hj, e, he⟩ hgate
      · obtain ⟨w, hw, rfl⟩ | hexp := hc x hv
        · exact .inr (TransCmp.isLE_trans (hy''.last y' hy' hx) (h.isLE_of_mem hs hz hw hy''))
        · have hcov := hexp.covered b e he
          rw [Covered, if_neg (Bool.eq_false_iff.1 hj)] at hcov
          exact .inl hcov
    · exact .inr hle

theorem falling_append {fresh : List (Resolvent × Option Edge)}
    (hfresh : ∀ x ∈ fresh, g.LastGate isJob a y x.1) : Falling g isJob a (fresh ++ stack) := by
  refine List.pairwise_append.2 ⟨?_, (List.pairwise_cons.1 (hs ▸ h.falling)).2, ?_⟩
  · refine List.pairwise_of_forall_mem_list fun x hx x' hx' y₁ y₂ h₁ h₂ => ?_
    rw [h₁.unique (hfresh x hx), h₂.unique (hfresh x' hx')]
    exact ReflCmp.isLE_rfl
  · intro x hx x' hx' y₁ y₂ h₁ h₂
    rw [h₁.unique (hfresh x hx)]
    exact h.isLE_of_mem hs hz (hs ▸ .tail _ hx') h₂

theorem lastGate_of_new (hc : Complete g isJob s) (he : g.edge? z b = some e)
    (hj : isJob b = false) (hv : s.visited.contains b = false) : g.LastGate isJob a y b where
  gate := hz.gate
  past := hz.past.tail ⟨hj, fun hb => Bool.eq_false_iff.1 hv (h.gates b hb), e, he⟩
  last _ hy' hp := (h.contains_or_isLE hs hz hc hy' hp).resolve_left (Bool.eq_false_iff.1 hv)

end Gated

theorem expand_gated (h : Gated g isJob a s) (hc : Complete g isJob s)
    (hs : s.stack = (z, first) :: stack) :
    Gated g isJob a (expand g isJob { s with stack } z first) := by
  obtain ⟨y, hz, hfirst⟩ := h.stacked (z, first) (hs ▸ .head _)
  obtain ⟨-, e, hy⟩ := hz.gate
  obtain rfl : first = some e := hfirst.trans hy
  set s' := expand g isJob { s with stack } z (some e)
  have hgrows : Grows { s with stack } s' := expand_grows
  obtain ⟨fresh, ho⟩ : ∃ fresh, Opens isJob (some e) (g.edgesFrom z) { s with stack } s' fresh :=
    expand_opens
  have hfresh : ∀ x ∈ fresh, g.LastGate isJob a y x.1 := by
    intro x hx
    obtain ⟨f, hf, -⟩ := ho.exists_edge hx
    exact h.lastGate_of_new hs hz hc hf (ho.jobless x hx) (ho.unvisited x hx)
  constructor
  · exact fun y' hy' => hgrows.visited y' (h.gates y' hy')
  · intro c hc
    obtain hc | ⟨x, hx, rfl⟩ := ho.visited c hc
    · exact h.visited c hc
    · exact .inr ⟨y, hfresh x hx⟩
  · intro x hx
    obtain hx | hx := List.mem_append.1 (ho.stack ▸ hx)
    · obtain ⟨_, -, hfirst⟩ := ho.exists_edge hx
      exact ⟨y, hfresh x hx, hfirst.trans hy.symm⟩
    · exact h.stacked x (hs ▸ .tail _ hx)
  · rw [ho.stack]
    exact h.falling_append hs hz hfresh
  · exact expand_mergedFrom h.counted fun b f hf => .inr ⟨y, z, hy, hz, f, hf⟩
  · exact fun b f hb hf => expand_tells (h.own b f hb hf)
  · intro c hc
    obtain hc | hc := hgrows.fresh c hc
    · obtain ⟨x, hx, rfl⟩ | hc := h.told c hc
      · obtain rfl | hx := List.mem_cons.1 (hs ▸ hx)
        · exact .inr (told_expand_self hz hy)
        · exact .inl ⟨x, hgrows.stack hx, rfl⟩
      · exact .inr (Told.expand hc)
    · exact .inl hc

theorem expand_origin_gated (ha : isJob a = true) :
    Gated g isJob a (expand g isJob { origin a with stack := [] } a none) := by
  set s := expand g isJob { origin a with stack := [] } a none
  obtain ⟨fresh, ho⟩ : ∃ fresh,
      Opens isJob none (g.edgesFrom a) { origin a with stack := [] } s fresh := expand_opens
  have hlast : ∀ x ∈ fresh, g.LastGate isJob a x.1 x.1 := by
    intro x hx
    obtain ⟨e, he, -⟩ := ho.exists_edge hx
    exact Gate.last ⟨ho.jobless x hx, e, he⟩
  have hvisited : ∀ c, s.visited.contains c = true → c = a ∨ ∃ x ∈ fresh, x.1 = c := fun c hc =>
    (ho.visited c hc).imp_left contains_visited_origin.1
  have hstack : s.stack = fresh := ho.stack.trans (List.append_nil _)
  constructor
  · rintro y ⟨hj, e, he⟩
    have hcov : Covered isJob s y := expand_expanded.covered y e he
    rwa [Covered, if_neg (Bool.eq_false_iff.1 hj)] at hcov
  · intro c hc
    obtain rfl | ⟨x, hx, rfl⟩ := hvisited c hc
    · exact .inl rfl
    · exact .inr ⟨x.1, hlast x hx⟩
  · intro x hx
    obtain ⟨e, he, hfirst⟩ := ho.exists_edge (hstack ▸ hx)
    exact ⟨x.1, hlast x (hstack ▸ hx), hfirst.trans he.symm⟩
  · rw [hstack]
    have hrising : fresh.reverse.Pairwise fun x x' => compare x.1 x'.1 = .lt :=
      (List.pairwise_map.2 (g.edges.getD a ∅).ascending).sublist ho.inTurn
    refine (List.pairwise_reverse.1 hrising).imp_of_mem fun hx hx' hlt y y' hy hy' => ?_
    rw [hy.unique (hlast _ hx), hy'.unique (hlast _ hx'), hlt]
    rfl
  · exact expand_mergedFrom (origin_mergedFrom (r := a)) fun b e he => .inl he
  · exact fun b e hb he => expand_tells_end hb he
  · intro c hc
    obtain rfl | hc := hvisited c hc
    · exact .inr fun _ _ _ _ hy _ _ _ => absurd ha (Bool.eq_false_iff.1 hy.jobless)
    · exact .inl (hstack ▸ hc)

theorem start_gated (ha : isJob a = true) : Gated g isJob a (start g isJob a) := by
  have hrun : start g isJob a =
      run g isJob g.nodes.size (expand g isJob { origin a with stack := [] } a none) := rfl
  have h : Gated g isJob a (start g isJob a) ∧ Complete g isJob (start g isJob a) := by
    rw [hrun]
    refine run_induction (P := fun s => Gated g isJob a s ∧ Complete g isJob s) ?_ ?_
    · exact ⟨expand_origin_gated ha, expand_complete rfl origin_complete⟩
    · exact fun s node first stack hs h => ⟨expand_gated h.1 h.2 hs, expand_complete hs h.2⟩
  exact h.1

theorem start_unites (hg : g.Wired) (ha : isJob a = true) (hb : isJob b = true)
    (he : (start g isJob a).arrows.get? b = some e) :
    (ofEdge e).Unites (g.CountsFor isJob a b) := by
  have hgated : Gated g isJob a (start g isJob a) := start_gated ha
  have tells : ∀ first, g.CountsFor isJob a b first → (start g isJob a).Tells b first := by
    rintro first (hf | ⟨y, z, hy, hz, f, hf⟩)
    · exact hgated.own b first hb hf
    · obtain ⟨x, hx, -⟩ | htold := hgated.told z ((contains_visited_iff hg).2 hz.through)
      · rw [start_stack hg] at hx
        cases hx
      · exact htold y first b f hz hy hf hb
  intro name
  constructor
  · exact exists_of_merged (fun f hf => hf.leadsBy.metIfAbsent hg) (hgated.counted b e he)
  · rintro ⟨first, hfirst, hname⟩
    obtain ⟨e', he', hsub⟩ := tells first hfirst
    obtain rfl := Option.some.inj (he.symm.trans he')
    exact hsub hname

end ArrowSearch

namespace Plan

open PlanGraph

variable {d : Decided} {policy : Policy} {i : Nat} {job required : Job} {req : JobRequirement}

/-- A requirement has the kinds of the first edges that count for the required job. -/
theorem kinds_unite (hi : (d.plan policy).execute[i]? = some job) (hreq : req ∈ job.requirements)
    (hj : (d.plan policy).execute[req.index]? = some required) :
    req.kinds.Unites
      (d.graph.CountsFor (d.plan policy).hasJob job.resolvent required.resolvent) := by
  obtain ⟨-, required', e, hj', he, hkinds⟩ := (mem_requirements_iff hi).1 hreq
  obtain rfl := Option.some.inj (hj.symm.trans hj')
  rw [hkinds]
  exact ArrowSearch.start_unites (wired_ofRegistry d.registry)
    (hasJob_iff.2 ⟨job, List.mem_of_getElem? hi, rfl⟩)
    (hasJob_iff.2 ⟨required, List.mem_of_getElem? hj, rfl⟩) he

end Plan

namespace Sample

def running (names : List PackageName) : DependencyTree :=
  .all (.labels [.run] :: names.map fun name => .package (.named name))

/-- `a` needs `f` when it is run and must not come together with an older `e`. Both `e` and `f` are
installed and need `g` when they are run, which is installed and needs `b`. -/
def joined : Database :=
  ((((Database.empty.insert (id "a" .source)
    (.all [excludes "e" (.olderThan (version 1)), running ["f"]])).insert
      (id "b" .source) .nothing).insert (id "e" (.installed .slash)) (running ["g"])).insert
        (id "f" (.installed .slash)) (running ["g"])).insert
          (id "g" (.installed .slash)) (running ["b"])

def joinedRequest : Request := { targets := [(.named "a", .target), (.named "b", .target)] }

structure Loses (decided : Decided) (a b : Job) (req : JobRequirement) (first : Edge) :
    Prop where
  requiring : (decided.plan preferences.policy).execute[1]? = some a
  requirement : req ∈ a.requirements
  required : (decided.plan preferences.policy).execute[req.index]? = some b
  weak : req.kinds.always = false
  leads : decided.graph.LeadsBy (decided.plan preferences.policy).hasJob a.resolvent b.resolvent
    first
  hard : first.IsHard

def loses (decided : Decided) : Bool :=
  let p := decided.plan preferences.policy
  let e : Resolvent := ⟨"e", some "0", .slash⟩
  let g : Resolvent := ⟨"g", some "0", .slash⟩
  match p.execute with
  | [b, a] => !p.hasJob e && !p.hasJob g &&
      (decided.graph.edge? e g).isSome && (decided.graph.edge? g b.resolvent).isSome &&
      (decided.graph.edge? a.resolvent e).any (fun f => (RequirementKinds.ofEdge f).always) &&
      a.requirements.any fun req => req.index == 0 && !req.kinds.always
  | _ => false

theorem exists_loses : ∃ decided a b req first,
    joinedRequest.decide joined preferences.policy {} 10 = .ok decided ∧
      Loses decided a b req first := by
  obtain ⟨decided, hd, h⟩ : ∃ decided,
      joinedRequest.decide joined preferences.policy {} 10 = .ok decided ∧
        loses decided = true := exists_eq_ok (by decide +kernel)
  unfold loses at h
  dsimp only at h
  split at h
  · next b a hjobs =>
    simp only [Bool.and_eq_true, Bool.not_eq_true', Option.isSome_iff_exists,
      Option.any_eq_true, List.any_eq_true, beq_iff_eq] at h
    obtain ⟨⟨⟨⟨⟨he, hg⟩, heg⟩, hgb⟩, first, hae, hfirst⟩, req, hreq, hi, hweak⟩ := h
    refine ⟨decided, a, b, req, first, hd, ?_, hreq, ?_, hweak, ?_, hfirst⟩
    · rw [hjobs]; rfl
    · rw [hjobs, hi]; rfl
    · exact .inr ⟨_, he, hae, _, .single ⟨hg, heg⟩, hgb⟩
  · cases h

end Sample

namespace Plan

theorem kinds_unite_joined : ∃ decided a b req first,
    Sample.joinedRequest.decide Sample.joined Sample.preferences.policy {} 10 = .ok decided ∧
      Sample.Loses decided a b req first ∧
        req.kinds.Unites (decided.graph.CountsFor
          (decided.plan Sample.preferences.policy).hasJob a.resolvent b.resolvent) := by
  obtain ⟨decided, a, b, req, first, hd, h⟩ := Sample.exists_loses
  exact ⟨decided, a, b, req, first, hd, h, kinds_unite h.requiring h.requirement h.required⟩

/-- A requirement need not have the kinds of all first edges of the paths to the required job. -/
theorem first_edge_lost : ¬ ∀ (q : Request) (db : Database) (policy : Policy) (seeds : Seeds)
    (maxRestarts : Nat) (decided : Decided), q.decide db policy seeds maxRestarts = .ok decided →
      ∀ (i : Nat) (job required : Job) (req : JobRequirement),
        (decided.plan policy).execute[i]? = some job → req ∈ job.requirements →
          (decided.plan policy).execute[req.index]? = some required →
            req.kinds.Unites (decided.graph.LeadsBy (decided.plan policy).hasJob job.resolvent
              required.resolvent) := by
  intro hall
  obtain ⟨decided, a, b, req, first, hd, h⟩ := Sample.exists_loses
  have hunites := hall _ _ _ _ _ _ hd _ _ _ _ h.requiring h.requirement h.required
  have halways : "require-always" ∈ req.kinds.names :=
    (hunites _).2 ⟨first, h.leads, RequirementKinds.mem_names_always_iff.2 h.hard⟩
  rw [RequirementKinds.mem_names_always_iff, h.weak] at halways
  cases halways

end Plan

end PackagePlan
