import PackagePlan.Plan.Schedule
import PackagePlan.Proofs.Graph.Paths

/-! # Untangled cycles

Relaxing a cycle comes to the same as taking its components along the edges
that no step ignores, however many steps lie in between. The components are
scheduled one after the other, and those of several changes are unresolved.
-/

namespace PackagePlan

open Components

namespace Edge

/-- Something fails if the edge is ignored, or it stands for an unmet dependency of a build. -/
def isFirm (e : Edge) : Bool := !e.hazards.isEmpty || e.build && !e.isAllMet

end Edge

namespace Relaxation

theorem keeps_noFetchOrRun (e : Edge) : noFetchOrRun.keeps e = e.isFirm := by
  simp only [keeps, Edge.isFirm, Edge.isRunOnly, Edge.isAllMet, Edge.isFetchOrRunOnly]
  cases e.hazards.isEmpty <;> cases e.build <;> simp

/-- Each step ignores what the steps before it ignore, and none ignores a firm edge. -/
theorem keeps_of_isFirm (step : Relaxation) {e : Edge} (h : e.isFirm = true) :
    step.keeps e = true := by
  rw [← keeps_noFetchOrRun] at h
  simp only [keeps, Bool.and_eq_true] at h
  cases step with
  | noRunOnly => exact h.1.1
  | noAlreadyMet => exact Bool.and_eq_true_iff.2 h.1
  | noFetchOrRun => exact Bool.and_eq_true_iff.2 ⟨Bool.and_eq_true_iff.2 h.1, h.2⟩

end Relaxation

theorem Hazards.isEmpty_iff {hs : Hazards} :
    hs.isEmpty = true ↔ ∀ h, hs.contains h = false := by
  obtain ⟨a, b, c, d⟩ := hs
  simp only [Hazards.isEmpty, beq_iff_eq, Hazards.mk.injEq]
  constructor
  · rintro ⟨rfl, rfl, rfl, rfl⟩ h
    cases h <;> rfl
  · exact fun h => ⟨h .mustNotCoexist, h .removeDependentsFirst, h .viaBinary,
      h .removeAfterReplacement⟩

theorem Edge.isFirm_iff {e : Edge} : e.isFirm = true ↔
    (∃ h, e.hazards.contains h = true) ∨ e.build = true ∧ e.isAllMet = false := by
  have hempty : e.hazards.isEmpty = false ↔ ∃ h, e.hazards.contains h = true := by
    rw [← Bool.not_eq_true, Hazards.isEmpty_iff, not_forall]
    simp only [Bool.not_eq_false]
  rw [Edge.isFirm, Bool.or_eq_true, Bool.and_eq_true, Bool.not_eq_true', Bool.not_eq_true', hempty]

theorem Edge.not_isFirm_iff {e : Edge} : e.isFirm = false ↔
    e.isRunOnly = true ∨ e.isAllMet = true ∨ e.isFetchOrRunOnly = true := by
  simp only [← Relaxation.keeps_noFetchOrRun, Relaxation.keeps, Bool.and_eq_false_iff,
    Bool.not_eq_false', or_assoc]

namespace Schedule

variable {g : PlanGraph} {urgency : Resolvent → Option Urgency} {s : Schedule}
  {cs : List (List Resolvent)} {l : List Schedule} {members : List Resolvent}
  {notes : Notes} {r : Resolvent}

section Concat

theorem concat_order : (concat l).order = l.flatMap (·.order) := by
  induction l with
  | nil => rfl
  | cons s l ih => exact congrArg (s.order ++ ·) ih

theorem concat_unresolvedCycles : (concat l).unresolvedCycles = l.flatMap (·.unresolvedCycles) := by
  induction l with
  | nil => rfl
  | cons s l ih => exact congrArg (s.unresolvedCycles ++ ·) ih

theorem concat_brokenCycles : (concat l).brokenCycles = l.flatMap (·.brokenCycles) := by
  induction l with
  | nil => rfl
  | cons s l ih => exact congrArg (s.brokenCycles ++ ·) ih

end Concat

/-- The schedule carries out the lists one after the other, and its unresolved cycles are those of
several members. -/
structure Follows (s : Schedule) (cs : List (List Resolvent)) : Prop where
  order : s.order.map (fun n => (n.resolvent, n.inUnresolvedCycle)) =
    cs.flatMap fun c => c.map fun r => (r, decide (1 < c.length))
  unresolvedCycles : s.unresolvedCycles = cs.filter fun c => decide (1 < c.length)

namespace Follows

theorem resolvents (h : s.Follows cs) : s.order.map (·.resolvent) = cs.flatten := by
  have := congrArg (List.map Prod.fst) h.order
  simpa only [List.map_map, List.map_flatMap, Function.comp_def, List.map_id', List.flatMap_id']
    using this

theorem single : (single notes r).Follows [[r]] := ⟨rfl, rfl⟩

theorem unresolved (hm : 1 < members.length) :
    (Schedule.unresolved notes members).Follows [members] where
  order := by simp [Schedule.unresolved, hm]
  unresolvedCycles := by simp [Schedule.unresolved, hm]

theorem concat {α : Type} {l : List α} {f : α → Schedule} {split : α → List (List Resolvent)}
    (h : ∀ a ∈ l, (f a).Follows (split a)) : (concat (l.map f)).Follows (l.flatMap split) where
  order := by
    rw [concat_order, List.flatMap_map, List.map_flatMap, List.flatMap_assoc]
    exact List.flatMap_congr fun a ha => (h a ha).order
  unresolvedCycles := by
    rw [concat_unresolvedCycles, List.flatMap_map, List.filter_flatMap]
    exact List.flatMap_congr fun a ha => (h a ha).unresolvedCycles

end Follows

/-- The schedule follows the components along the firm edges between the members. -/
def Untangles (s : Schedule) (g : PlanGraph) (members : List Resolvent) : Prop :=
  ∃ cs, s.Follows cs ∧ AreComponents (g.Path members Edge.isFirm) members cs

theorem Untangles.perm (h : s.Untangles g members) : (s.order.map (·.resolvent)).Perm members := by
  obtain ⟨cs, hs, hcs⟩ := h
  rw [hs.resolvents]
  exact hcs.perm

theorem untangles_single : (single notes r).Untangles g [r] := by
  refine ⟨[[r]], .single, .refl _, ?_, ?_, List.pairwise_singleton _ _⟩
  · exact List.forall_mem_singleton.2 (List.cons_ne_nil r [])
  · simp only [List.mem_singleton, forall_eq]
    exact .refl

section Parts

variable {keep : Edge → Bool} {parts : List (List Resolvent)} {p : Resolvent → Bool}
  {f : List Resolvent → Schedule}

theorem untangles_concat (h : AreComponents (g.Path members keep) members parts)
    (hk : ∀ e : Edge, e.isFirm = true → keep e = true)
    (hf : ∀ part ∈ parts, (f part).Untangles g (part.filter p)) :
    (concat (parts.map f)).Untangles g (members.filter p) := by
  choose! split hs hsplit using hf
  exact ⟨parts.flatMap split, .concat hs, PlanGraph.areComponents_flatMap h hk hsplit⟩

/-- Untangling all components is enough, whatever edges hold them together. -/
theorem untangles_components (hn : members.Nodup) (hk : ∀ e : Edge, e.isFirm = true → keep e = true)
    (hs : ∀ r, (f [r]).Untangles g [r])
    (hf : ∀ part, part.Nodup → 1 < part.length →
      (∀ a ∈ part, ∀ b ∈ part, g.Path part keep a b) → (f part).Untangles g part) :
    (concat ((g.componentsOf (.ofList members) keep).map f)).Untangles g members := by
  have h := g.componentsOf_ofList hn keep
  have hparts := untangles_concat (f := f) (p := fun _ => true) h hk fun part hpart => by
    rw [List.filter_true]
    match part with
    | [] => exact absurd rfl (h.ne_nil _ hpart)
    | [r] => exact hs r
    | r :: r' :: part =>
      exact hf _ (h.nodup_of_mem hn hpart) (by simp) (PlanGraph.connected_within h hpart)
  rwa [List.filter_true] at hparts

end Parts

section Relax

variable {step : Relaxation} {steps : List Relaxation}

theorem untangles_unresolved (hm : 1 < members.length)
    (hc : ∀ a ∈ members, ∀ b ∈ members, g.Path members Edge.isFirm a b) :
    (unresolved notes members).Untangles g members := by
  refine ⟨[members], .unresolved hm, ?_, ?_, ?_, List.pairwise_singleton _ _⟩
  · rw [List.flatten_singleton]
  · exact List.forall_mem_singleton.2 (List.length_pos_iff.1 (Nat.zero_lt_of_lt hm))
  · exact List.forall_mem_singleton.2 hc

theorem relax_cons_untangles
    (h : ∀ notes part, part.Nodup → 1 < part.length →
      (∀ a ∈ part, ∀ b ∈ part, g.Path part step.keeps a b) →
        (relax g steps notes part).Untangles g part)
    (hn : members.Nodup) : (relax g (step :: steps) notes members).Untangles g members :=
  untangles_components hn (fun _ => step.keeps_of_isFirm) (fun _ => untangles_single)
    fun part hp hm hc => by
      match part with
      | r :: r' :: part => exact h _ _ hp hm hc

theorem relax_untangles (hn : members.Nodup) :
    (relax g Relaxation.steps notes members).Untangles g members := by
  refine relax_cons_untangles (fun _ _ hn _ _ => ?_) hn
  refine relax_cons_untangles (fun _ _ hn _ _ => ?_) hn
  -- What the last step leaves connected is so along the edges it keeps, and these are firm.
  refine relax_cons_untangles (fun _ _ _ hm hc => ?_) hn
  refine untangles_unresolved hm fun a ha b hb => ?_
  refine PlanGraph.Path.mono (List.Subset.refl _) (fun e he => ?_) (hc a ha b hb)
  rwa [← Relaxation.keeps_noFetchOrRun]

theorem orderPart_untangles (hn : members.Nodup) :
    (orderPart g notes members).Untangles g members :=
  untangles_components hn (fun _ _ => rfl) (fun _ => untangles_single) fun part hp hm _ => by
    match part with
    | r :: r' :: part => exact relax_untangles hp

end Relax

section Split

def splitNote (cycle : List Resolvent) (r : Resolvent) : String :=
  "In dependency cycle split by early/late ordering with" ++ ": " ++
    Notes.renderNames (cycle.filter (· != r))

theorem breakCycle_eq (g : PlanGraph) (urgency : Resolvent → Option Urgency)
    (members : List Resolvent) :
    breakCycle g urgency members = relax g Relaxation.steps .none members ∨
    breakCycle g urgency members = concat (((splitByUrgency urgency members).filter
      (!·.isEmpty)).map (orderPart g fun r => [splitNote members r])) := by
  unfold breakCycle
  split
  · exact .inl rfl
  · exact .inl rfl
  · exact .inr rfl

theorem breakCycle_of_none (h : ∀ r ∈ members, urgency r = none) :
    breakCycle g urgency members = relax g Relaxation.steps .none members := by
  have early : members.filter (urgency · == some .early) = [] :=
    List.filter_eq_nil_iff.2 fun r hr => by simp [h r hr]
  have late : members.filter (urgency · == some .late) = [] :=
    List.filter_eq_nil_iff.2 fun r hr => by simp [h r hr]
  have parts : (splitByUrgency urgency members).filter (!·.isEmpty) =
      [members.filter (urgency · == none)].filter (!·.isEmpty) := by
    simp only [splitByUrgency, List.map_cons, List.map_nil, early, late]
    rfl
  rw [breakCycle, parts]
  cases members.filter (urgency · == none) <;> rfl

theorem splitByUrgency_perm : (splitByUrgency urgency members).flatten.Perm members := by
  induction members with
  | nil => rfl
  | cons r members ih =>
    simp only [splitByUrgency, List.map_cons, List.map_nil, List.flatten_cons, List.flatten_nil,
      List.append_nil] at ih ⊢
    rcases h : urgency r with _ | _ | _
    · simpa [h] using List.perm_middle.trans (ih.cons r)
    · simpa [h] using ih
    · simpa [h] using
        (List.Perm.append_left _ List.perm_middle).trans (List.perm_middle.trans (ih.cons r))

theorem splitByUrgency_untangles {part : List Resolvent} (hn : members.Nodup)
    (hpart : part ∈ (splitByUrgency urgency members).filter (!·.isEmpty)) :
    (orderPart g notes part).Untangles g part := by
  have hparts : (splitByUrgency urgency members).flatten.Nodup :=
    splitByUrgency_perm.nodup_iff.2 hn
  exact orderPart_untangles
    (hparts.sublist (List.sublist_flatten_of_mem (List.mem_filter.1 hpart).1))

theorem breakCycle_perm (g : PlanGraph) (urgency : Resolvent → Option Urgency)
    (hn : members.Nodup) :
    ((breakCycle g urgency members).order.map (·.resolvent)).Perm members := by
  obtain h | h := breakCycle_eq g urgency members
  · rw [h]
    exact (relax_untangles hn).perm
  · rw [h, concat_order, List.flatMap_map, List.map_flatMap]
    refine (List.Perm.flatMap_left _ fun part hpart =>
      (splitByUrgency_untangles hn hpart).perm).trans ?_
    rw [List.flatMap_id', List.flatten_filter_not_isEmpty]
    exact splitByUrgency_perm

end Split

section Graph

variable {isJob : Resolvent → Bool} {component : List Resolvent}

theorem orderComponent_eq (g : PlanGraph) (urgency : Resolvent → Option Urgency)
    (isJob : Resolvent → Bool) (component : List Resolvent) :
    (component.filter isJob = [] ∧ orderComponent g urgency isJob component = {}) ∨
    (∃ r notes, component.filter isJob = [r] ∧
      orderComponent g urgency isJob component = single notes r) ∨
    1 < (component.filter isJob).length ∧ orderComponent g urgency isJob component =
      { breakCycle g urgency (component.filter isJob) with
        brokenCycles := [component.filter isJob] } := by
  rcases hj : component.filter isJob with _ | ⟨r, _ | ⟨r', jobs⟩⟩
  · exact .inl ⟨rfl, by rw [orderComponent, hj]⟩
  · refine .inr (.inl ?_)
    rw [orderComponent, hj]
    cases component.filter (!isJob ·) with
    | nil => exact ⟨r, _, rfl, rfl⟩
    | cons other others => exact ⟨r, _, rfl, rfl⟩
  · refine .inr (.inr ⟨by simp, ?_⟩)
    rw [orderComponent, hj]

theorem orderComponent_perm (hn : component.Nodup) :
    ((orderComponent g urgency isJob component).order.map (·.resolvent)).Perm
      (component.filter isJob) := by
  obtain ⟨hj, h⟩ | ⟨r, notes, hj, h⟩ | ⟨-, h⟩ := orderComponent_eq g urgency isJob component
  · rw [hj, h]
    rfl
  · rw [hj, h]
    rfl
  · rw [h]
    exact breakCycle_perm g urgency (hn.filter _)

theorem mem_of_mem_orderComponent (hn : component.Nodup) {n : ScheduledNode}
    (h : n ∈ (orderComponent g urgency isJob component).order) :
    n.resolvent ∈ component.filter isJob :=
  (orderComponent_perm hn).mem_iff.1 (List.mem_map_of_mem h)

theorem components_areComponents (g : PlanGraph) :
    AreComponents (g.Path g.nodes.toList fun _ => true) g.nodes.toList g.components :=
  g.componentsOf_areComponents g.nodes fun _ => true

theorem ofGraph_order : (ofGraph g urgency isJob).order =
    g.components.flatMap fun c => (orderComponent g urgency isJob c).order := by
  rw [ofGraph]
  exact concat_order.trans (List.flatMap_map _ _ _)

theorem ofGraph_unresolvedCycles : (ofGraph g urgency isJob).unresolvedCycles =
    g.components.flatMap fun c => (orderComponent g urgency isJob c).unresolvedCycles := by
  rw [ofGraph]
  exact concat_unresolvedCycles.trans (List.flatMap_map _ _ _)

/-- Every node of the graph that a job carries out is ordered once, and nothing else is. -/
theorem ofGraph_perm : ((ofGraph g urgency isJob).order.map (·.resolvent)).Perm
    (g.nodes.toList.filter isJob) := by
  have h := components_areComponents g
  rw [ofGraph_order, List.map_flatMap]
  refine (List.Perm.flatMap_left _ (g := List.filter isJob) fun c hc => ?_).trans ?_
  · exact orderComponent_perm (h.nodup_of_mem g.nodes.nodup_toList hc)
  · rw [List.flatMap_def, ← List.filter_flatten]
    exact h.perm.filter _

end Graph

end Schedule

namespace Sample

def bar : Resolvent := ⟨"bar", some "0", .slash⟩

def foo : Resolvent := ⟨"foo", some "0", .slash⟩

def buildCycle : PlanGraph :=
  ((PlanGraph.ofNodes [bar, foo]).addEdge bar foo { build := true }).addEdge foo bar
    { build := true }

end Sample

end PackagePlan
