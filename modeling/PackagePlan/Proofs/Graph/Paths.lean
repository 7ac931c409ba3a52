import PackagePlan.Graph.Basic
import PackagePlan.Proofs.Graph.Components
import PackagePlan.Proofs.Ordered.Lookup
import PackagePlan.Proofs.Package.Identity

/-! # Paths in plan graphs

The paths of a part of the graph are those between its members along the edges
that are kept. If fewer edges are kept, every component comes apart into
components of the whole.
-/

namespace PackagePlan.PlanGraph

open Components Relation

def Arrow (g : PlanGraph) (members : List Resolvent) (keep : Edge → Bool) (a b : Resolvent) :
    Prop :=
  a ∈ members ∧ b ∈ members ∧ ∃ e, g.edge? a b = some e ∧ keep e = true

def Path (g : PlanGraph) (members : List Resolvent) (keep : Edge → Bool) :
    Resolvent → Resolvent → Prop :=
  ReflTransGen (g.Arrow members keep)

variable {g : PlanGraph} {members members' c : List Resolvent} {keep keep' : Edge → Bool}
  {cs : List (List Resolvent)} {a b : Resolvent}

theorem Path.mono (hm : members ⊆ members') (hk : ∀ e, keep e = true → keep' e = true)
    (h : g.Path members keep a b) : g.Path members' keep' a b :=
  ReflTransGen.mono
    (fun _ _ ⟨ha, hb, e, he, hke⟩ => ⟨hm ha, hm hb, e, he, hk e hke⟩) _ _ h

section Components

variable {s : OrderedSet Resolvent}

theorem mem_edgesFrom_iff {e : Edge} : (b, e) ∈ g.edgesFrom a ↔ g.edge? a b = some e := by
  rw [edgesFrom, OrderedMap.mem_entries_iff, edge?, OrderedMap.getD]
  cases g.edges.get? a with
  | none => simp [OrderedMap.get?_empty, EmptyCollection.emptyCollection]
  | some m => rfl

theorem mem_successors_iff :
    b ∈ g.successors s keep a ↔ b ∈ s.toList ∧ ∃ e, g.edge? a b = some e ∧ keep e = true := by
  simp only [successors, List.mem_reverse, List.mem_map, List.mem_filter, Bool.and_eq_true,
    Prod.exists, exists_and_right, exists_eq_right, mem_edgesFrom_iff, OrderedSet.mem_toList_iff]
  constructor
  · rintro ⟨e, he, hb, hk⟩
    exact ⟨hb, e, he, hk⟩
  · rintro ⟨hb, e, he, hk⟩
    exact ⟨e, he, hb, hk⟩

theorem reaches_successors_iff (ha : a ∈ s.toList) :
    Reaches (g.successors s keep) a b ↔ g.Path s.toList keep a b := by
  constructor
  · intro h
    induction h with
    | refl => exact .refl
    | @tail b c hab hbc ih =>
      have hb : b ∈ s.toList :=
        Reaches.mem_nodes (fun _ _ _ hs => (mem_successors_iff.1 hs).1) ha hab
      obtain ⟨hc, he⟩ := mem_successors_iff.1 hbc
      exact ih.tail ⟨hb, hc, he⟩
  · exact ReflTransGen.mono (fun _ _ ⟨_, hb, he⟩ => mem_successors_iff.2 ⟨hb, he⟩) _ _

theorem componentsOf_areComponents (g : PlanGraph) (s : OrderedSet Resolvent)
    (keep : Edge → Bool) :
    AreComponents (g.Path s.toList keep) s.toList (g.componentsOf s keep) := by
  have hnext : ∀ a ∈ s.toList, ∀ b ∈ g.successors s keep a, b ∈ s.toList :=
    fun _ _ _ hb => (mem_successors_iff.1 hb).1
  have h := components_areComponents hnext s.nodup_toList
  refine (h.congr fun a ha b _ => (reaches_successors_iff ha).symm).map_perm fun c hc => ?_
  exact OrderedSet.toList_ofList_perm (h.nodup_of_mem s.nodup_toList hc)

/-- The lists are the strong components of the part of the graph, each in order and after those
that it needs. -/
structure SplitsInto (g : PlanGraph) (members : List Resolvent) (keep : Edge → Bool)
    (cs : List (List Resolvent)) : Prop where
  ne_nil : ∀ c ∈ cs, c ≠ []
  ascending : ∀ c ∈ cs, c.Pairwise fun a b => compare a b = .lt
  disjoint : cs.Pairwise List.Disjoint
  mem_iff : ∀ a, a ∈ members ↔ ∃ c ∈ cs, a ∈ c
  together_iff : ∀ a ∈ members, ∀ b ∈ members,
    (∃ c ∈ cs, a ∈ c ∧ b ∈ c) ↔ g.Path members keep a b ∧ g.Path members keep b a
  needed_first : ∀ (i j : ℕ) (hi : i < cs.length) (hj : j < cs.length), i ≠ j →
    ∀ a ∈ cs[i], ∀ b ∈ cs[j], g.Arrow members keep a b → j < i

/-- However edges connect the members, and whichever of them are kept. -/
theorem componentsOf_splits (g : PlanGraph) (s : OrderedSet Resolvent) (keep : Edge → Bool) :
    g.SplitsInto s.toList keep (g.componentsOf s keep) := by
  have h := componentsOf_areComponents g s keep
  constructor
  case ne_nil => exact h.ne_nil
  case ascending =>
    simp only [componentsOf, List.forall_mem_map]
    intro c _
    exact (OrderedSet.ofList c).ascending_toList
  case disjoint => exact h.disjoint s.nodup_toList
  case mem_iff => exact fun a => h.mem_iff
  case together_iff => exact fun a ha b hb => h.together_iff ha hb
  case needed_first =>
    intro i j hi hj hij a ha b hb hab
    exact h.lt_of_leads hi hj hij ha hb (.single hab)

theorem componentsOf_ofList (g : PlanGraph) (hm : members.Nodup) (keep : Edge → Bool) :
    AreComponents (g.Path members keep) members (g.componentsOf (.ofList members) keep) := by
  have perm := OrderedSet.toList_ofList_perm hm
  have h := componentsOf_areComponents g (.ofList members) keep
  refine { h.congr fun a _ b _ => ?_ with perm := h.perm.trans perm }
  exact ⟨Path.mono perm.symm.subset fun _ he => he, Path.mono perm.subset fun _ he => he⟩

end Components

variable {p : Resolvent → Bool}

theorem Path.within (h : AreComponents (g.Path members keep) members cs)
    (hk : ∀ e, keep' e = true → keep e = true) (hc : c ∈ cs) (ha : a ∈ c)
    (hab : g.Path (members.filter p) keep' a b) (hb : b ∈ c) : g.Path (c.filter p) keep' a b := by
  induction hab with
  | refl => exact .refl
  | @tail z b haz hzb ih =>
    obtain ⟨hz, hb', e, he, hke⟩ := hzb
    have hz' : z ∈ members := (List.mem_filter.1 hz).1
    have haz' : g.Path members keep a z := Path.mono (List.filter_subset_self _) hk haz
    have hzb' : g.Path members keep z b := .single ⟨hz', h.mem_nodes hc hb, e, he, hk e hke⟩
    have hzc : z ∈ c := h.mem_of_mutual hc ha hz' haz' (hzb'.trans (h.connected c hc b hb a ha))
    exact (ih hzc).tail ⟨List.mem_filter.2 ⟨hzc, (List.mem_filter.1 hz).2⟩,
      List.mem_filter.2 ⟨hb, (List.mem_filter.1 hb').2⟩, e, he, hke⟩

theorem connected_within (h : AreComponents (g.Path members keep) members cs) (hc : c ∈ cs) :
    ∀ a ∈ c, ∀ b ∈ c, g.Path c keep a b := by
  intro a ha b hb
  have hab := h.connected c hc a ha b hb
  rw [← List.filter_true members] at hab
  simpa only [List.filter_true] using hab.within h (fun _ he => he) hc ha hb

/-- If each component, or the part of it in which `p` holds, splits into components along fewer
edges, then all of these together are the components of the part of the whole. -/
theorem areComponents_flatMap (h : AreComponents (g.Path members keep) members cs)
    (hk : ∀ e, keep' e = true → keep e = true) {split : List Resolvent → List (List Resolvent)}
    (hs : ∀ c ∈ cs, AreComponents (g.Path (c.filter p) keep') (c.filter p) (split c)) :
    AreComponents (g.Path (members.filter p) keep') (members.filter p) (cs.flatMap split) := by
  have mem_part : ∀ {c d a}, c ∈ cs → d ∈ split c → a ∈ d → a ∈ c ∧ a ∈ members.filter p := by
    intro c d a hc hd ha
    obtain ⟨hac, hpa⟩ := List.mem_filter.1 ((hs c hc).mem_nodes hd ha)
    exact ⟨hac, List.mem_filter.2 ⟨h.mem_nodes hc hac, hpa⟩⟩
  constructor
  · have parts : (cs.flatMap split).flatten = cs.flatMap fun c => (split c).flatten := by
      rw [List.flatMap_def, List.flatten_flatten, List.map_map, List.flatMap_def]
      rfl
    have whole : (cs.flatMap fun c => c.filter p) = cs.flatten.filter p := by
      rw [List.filter_flatten, List.flatMap_def]
    rw [parts]
    refine (List.Perm.flatMap_left cs fun c hc => (hs c hc).perm).trans ?_
    rw [whole]
    exact h.perm.filter p
  · simp only [List.mem_flatMap]
    rintro d ⟨c, hc, hd⟩
    exact (hs c hc).ne_nil d hd
  · simp only [List.mem_flatMap]
    rintro d ⟨c, hc, hd⟩ a ha b hb
    refine Path.mono (fun x hx => ?_) (fun _ he => he) ((hs c hc).connected d hd a ha b hb)
    obtain ⟨hx, hpx⟩ := List.mem_filter.1 hx
    exact List.mem_filter.2 ⟨h.mem_nodes hc hx, hpx⟩
  · refine List.pairwise_flatMap.2 ⟨fun c hc => ?_, ?_⟩
    · refine (hs c hc).ordered.imp_of_mem fun hd hd' hn a ha b hb hab => hn a ha b hb ?_
      exact hab.within h hk hc (mem_part hc hd ha).1 (mem_part hc hd' hb).1
    · refine h.ordered.imp_of_mem fun hc hc' hn d hd d' hd' a ha b hb hab => ?_
      exact hn a (mem_part hc hd ha).1 b (mem_part hc' hd' hb).1
        (Path.mono (List.filter_subset_self _) hk hab)

end PackagePlan.PlanGraph
