import PackagePlan.Graph.Basic
import PackagePlan.Proofs.Decision.Registry

/-! # Edges of plan graphs

The graph of a registry is built by adding edges and unmet needs to bare nodes.
Its edges join two different nodes and ask for an order, and what its nodes
need in vain is what the registry takes and cannot decide.
-/

namespace PackagePlan

namespace Edge

/-- Where no dependency of a class is behind the edge, none of that class is unmet. -/
structure MetIfAbsent (e : Edge) : Prop where
  build : e.build = false → e.buildAllMet = true
  run : e.run = false → e.runAllMet = true

variable {e f : Edge}

theorem metIfAbsent_ofDependency (labels : List Label) (alreadyMet : Bool) :
    (ofDependency labels alreadyMet).MetIfAbsent := by
  constructor
  · intro h
    have hb : (ofDependency labels alreadyMet).buildAllMet =
        (alreadyMet || !(ofDependency labels alreadyMet).build) := rfl
    rw [hb, h, Bool.not_false, Bool.or_true]
  · intro h
    have hr : (ofDependency labels alreadyMet).runAllMet =
        (alreadyMet || !(ofDependency labels alreadyMet).run) := rfl
    rw [hr, h, Bool.not_false, Bool.or_true]

theorem metIfAbsent_ofHazard (h : Hazard) : (ofHazard h).MetIfAbsent :=
  ⟨fun _ => rfl, fun _ => rfl⟩

theorem MetIfAbsent.merge (he : e.MetIfAbsent) (hf : f.MetIfAbsent) :
    (e.merge f).MetIfAbsent := by
  constructor
  · intro h
    obtain ⟨hb, hb'⟩ := Bool.or_eq_false_iff.1 h
    simp only [Edge.merge, he.build hb, hf.build hb', Bool.and_self, ite_self]
  · intro h
    obtain ⟨hr, hr'⟩ := Bool.or_eq_false_iff.1 h
    simp only [Edge.merge, he.run hr, hf.run hr', Bool.and_self, ite_self]

theorem isEmpty_union {hs ks : Hazards} : (hs.union ks).isEmpty = (hs.isEmpty && ks.isEmpty) := by
  obtain ⟨a, b, c, d⟩ := hs
  obtain ⟨a', b', c', d'⟩ := ks
  rw [Bool.eq_iff_iff, Bool.and_eq_true]
  simp only [Hazards.isEmpty, Hazards.union, beq_iff_eq, Hazards.mk.injEq, Bool.or_eq_false_iff]
  grind

theorem isRelevant_merge : (e.merge f).isRelevant = (e.isRelevant || f.isRelevant) := by
  simp only [isRelevant, Edge.merge, isEmpty_union]
  cases e.build <;> cases e.run <;> cases e.fetch <;> cases e.hazards.isEmpty <;> simp

end Edge

namespace PlanGraph

variable {g : PlanGraph} {a b a' b' r : Resolvent} {e : Edge}

theorem addEdge_nodes : (g.addEdge a b e).nodes = g.nodes := by
  rw [addEdge]
  split <;> rfl

theorem addUnable_nodes : (g.addUnable a b).nodes = g.nodes := by
  rw [addUnable]
  split <;> rfl

theorem foldl_keeps {α β : Type} (part : PlanGraph → β) {f : PlanGraph → α → PlanGraph}
    (hf : ∀ g x, part (f g x) = part g) (l : List α) : part (l.foldl f g) = part g := by
  induction l generalizing g with
  | nil => rfl
  | cons x l ih => exact ih.trans (hf g x)

theorem foldl_nodes {α : Type} {f : PlanGraph → α → PlanGraph} (hf : ∀ g a, (f g a).nodes = g.nodes)
    (l : List α) : (l.foldl f g).nodes = g.nodes :=
  foldl_keeps nodes hf l

theorem addResolution_nodes {res : Resolution} : (g.addResolution r res).nodes = g.nodes := by
  unfold addResolution
  split
  · rfl
  split
  · exact foldl_nodes (fun _ _ => addEdge_nodes) _
  split
  · exact foldl_nodes (fun _ _ => addUnable_nodes) _
  · rfl

theorem addReplacements_nodes {reg : Registry} : (g.addReplacements reg).nodes = g.nodes :=
  foldl_nodes (fun _ _ => foldl_nodes (fun _ _ => addEdge_nodes) _) _

theorem edge?_addEdge : (g.addEdge a b e).edge? a' b' =
    if (a ≠ b ∧ g.nodes.contains a ∧ g.nodes.contains b ∧ e.isRelevant) ∧ a' = a ∧ b' = b then
      some (((g.edge? a b).map (·.merge e)).getD e)
    else g.edge? a' b' := by
  rw [addEdge]
  split
  · next hadd =>
    simp only [edge?, OrderedMap.get?_alter]
    by_cases ha : a' = a
    · subst ha
      simp only [if_true, Option.bind_some, OrderedMap.get?_alter]
      cases hg : g.edges.get? a' with
      | none =>
        by_cases hb : b' = b <;>
          simp [hadd, hb, OrderedMap.get?_empty, EmptyCollection.emptyCollection]
      | some known => by_cases hb : b' = b <;> simp [hadd, hb]
    · simp [ha]
  · next hadd => simp [hadd]

theorem edge?_addUnable : (g.addUnable a r).edge? a' b' = g.edge? a' b' := by
  rw [addUnable]
  split <;> rfl

def needs (g : PlanGraph) (a : Resolvent) : OrderedSet Resolvent := (g.unable.get? a).getD ∅

section Registry

variable {reg : Registry} {P : PlanGraph → Prop}

theorem metIfAbsent_of_edgeFor? {c : Constraint} (h : edgeFor? c = some (a, e)) :
    e.MetIfAbsent := by
  unfold edgeFor? at h
  split at h
  · cases h
    exact Edge.metIfAbsent_ofDependency _ _
  · split at h
    · cases h
      exact Edge.metIfAbsent_ofHazard _
    · cases h
  · cases h
    exact Edge.metIfAbsent_ofHazard _
  · cases h
    exact Edge.metIfAbsent_ofHazard _
  all_goals cases h

/-- What holds of the bare nodes, and is kept by adding an edge and by adding a need in vain, holds
of the graph. -/
theorem ofRegistry_induction (nodes : ∀ rs, P (ofNodes rs))
    (edge : ∀ g a b e, e.MetIfAbsent → P g → P (g.addEdge a b e))
    (unable : ∀ g a r, P g → P (g.addUnable a r)) : P (ofRegistry reg) := by
  have resolution : ∀ g, P g → ∀ e ∈ reg.entries, P (g.addResolution e.1 e.2) := by
    intro g hg e _
    simp only [addResolution]
    cases e.2.decision with
    | none => exact hg
    | some d =>
      dsimp only
      split
      · refine List.foldlRecOn _ _ hg fun g hg arrow he => ?_
        obtain ⟨c, -, hc⟩ := List.mem_filterMap.1 he
        exact edge _ _ _ _ (metIfAbsent_of_edgeFor? hc) hg
      split
      · exact List.foldlRecOn _ _ hg fun g hg a _ => unable _ _ _ hg
      · exact hg
  refine List.foldlRecOn _ _ ?_ fun g hg old _ => ?_
  · exact List.foldlRecOn _ _ (nodes _) resolution
  · exact List.foldlRecOn _ _ hg fun g hg new _ => edge _ _ _ _ (Edge.metIfAbsent_ofHazard _) hg

/-- Every edge joins two different nodes and asks for an order. -/
structure Wired (g : PlanGraph) : Prop where
  ne : ∀ {a b e}, g.edge? a b = some e → a ≠ b
  source : ∀ {a b e}, g.edge? a b = some e → a ∈ g.nodes.toList
  target : ∀ {a b e}, g.edge? a b = some e → b ∈ g.nodes.toList
  relevant : ∀ {a b e}, g.edge? a b = some e → e.isRelevant = true
  metIfAbsent : ∀ {a b e}, g.edge? a b = some e → e.MetIfAbsent

theorem Wired.addEdge (h : g.Wired) (he : e.MetIfAbsent) : (g.addEdge a b e).Wired := by
  have known : ∀ {a' b' e'}, (g.addEdge a b e).edge? a' b' = some e' →
      a' ≠ b' ∧ a' ∈ g.nodes.toList ∧ b' ∈ g.nodes.toList ∧ e'.isRelevant = true ∧
        e'.MetIfAbsent := by
    intro a' b' e' he'
    rw [edge?_addEdge] at he'
    split at he'
    · next hadd =>
      obtain ⟨⟨hne, ha, hb, hrel⟩, rfl, rfl⟩ := hadd
      refine ⟨hne, OrderedSet.mem_toList_iff.2 ha, OrderedSet.mem_toList_iff.2 hb, ?_⟩
      obtain rfl := Option.some.inj he'
      cases hold : g.edge? a' b' with
      | none => exact ⟨hrel, he⟩
      | some old =>
        refine ⟨?_, (h.metIfAbsent hold).merge he⟩
        rw [Option.map_some, Option.getD_some, Edge.isRelevant_merge, hrel, Bool.or_true]
    · exact ⟨h.ne he', h.source he', h.target he', h.relevant he', h.metIfAbsent he'⟩
  constructor <;> intro a' b' e' he' <;> obtain ⟨hne, ha, hb, hrel, hmet⟩ := known he'
  · exact hne
  · rwa [addEdge_nodes]
  · rwa [addEdge_nodes]
  · exact hrel
  · exact hmet

theorem Wired.addUnable (h : g.Wired) : (g.addUnable a r).Wired := by
  constructor <;> intro a' b' e' he' <;> rw [edge?_addUnable] at he'
  · exact h.ne he'
  · rw [addUnable_nodes]
    exact h.source he'
  · rw [addUnable_nodes]
    exact h.target he'
  · exact h.relevant he'
  · exact h.metIfAbsent he'

theorem wired_ofRegistry (reg : Registry) : (ofRegistry reg).Wired := by
  refine ofRegistry_induction (fun rs => ?_) (fun g a b e he h => h.addEdge he)
    fun g a r h => h.addUnable
  constructor <;> intro a b e he <;> cases he

end Registry

end PlanGraph

end PackagePlan
