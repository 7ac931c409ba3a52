import Mathlib.Data.List.Sort
import PackagePlan.Proofs.Plan.Schedule

/-! # Unresolved cycles

Where no urgency splits the cycles, the unresolved ones are the strong
components of several members in the graph of the changes and the firm edges.
-/

namespace PackagePlan

open Components Std

namespace PlanGraph

/-- The set is a strong component of at least two members in a part of the graph. -/
def IsCycle (g : PlanGraph) (members : List Resolvent) (keep : Edge → Bool)
    (c : Set Resolvent) : Prop :=
  c.Nontrivial ∧ ∃ a ∈ members,
    c = {b | b ∈ members ∧ g.Path members keep a b ∧ g.Path members keep b a}

variable {g : PlanGraph} {members c : List Resolvent} {keep : Edge → Bool}
  {cs : List (List Resolvent)} {a : Resolvent}

theorem setOf_mutual (h : AreComponents (g.Path members keep) members cs) (hc : c ∈ cs)
    (ha : a ∈ c) : {b | b ∈ members ∧ g.Path members keep a b ∧ g.Path members keep b a} =
      {b | b ∈ c} := by
  refine Set.ext fun b => ⟨fun ⟨hb, hab, hba⟩ => h.mem_of_mutual hc ha hb hab hba, fun hb => ?_⟩
  exact ⟨h.mem_nodes hc hb, h.connected c hc a ha b hb, h.connected c hc b hb a ha⟩

theorem nontrivial_iff (hn : c.Nodup) : {r | r ∈ c}.Nontrivial ↔ 1 < c.length := by
  match c with
  | [] => simp [Set.Nontrivial]
  | [r] => simp [Set.Nontrivial]
  | r :: r' :: c =>
    have hne : r ≠ r' := fun he => (List.nodup_cons.1 hn).1 (he ▸ List.mem_cons_self)
    exact iff_of_true ⟨r, by simp, r', by simp, hne⟩ (by simp)

theorem isCycle_iff (h : AreComponents (g.Path members keep) members cs) (hn : members.Nodup)
    {S : Set Resolvent} : g.IsCycle members keep S ↔
      ∃ c ∈ cs.filter (fun c => decide (1 < c.length)), S = {r | r ∈ c} := by
  have hc : ∀ c ∈ cs, ({r | r ∈ c}.Nontrivial ↔ 1 < c.length) := fun c hc =>
    nontrivial_iff (h.nodup_of_mem hn hc)
  simp only [List.mem_filter, decide_eq_true_eq]
  constructor
  · rintro ⟨hS, a, ha, rfl⟩
    obtain ⟨c, hmem, hac⟩ := h.mem_iff.1 ha
    rw [setOf_mutual h hmem hac] at hS ⊢
    exact ⟨c, ⟨hmem, (hc c hmem).1 hS⟩, rfl⟩
  · rintro ⟨c, ⟨hmem, hlen⟩, rfl⟩
    obtain ⟨a, ha⟩ := List.exists_mem_of_length_pos (Nat.zero_lt_of_lt hlen)
    exact ⟨(hc c hmem).2 hlen, a, h.mem_nodes hmem ha, (setOf_mutual h hmem ha).symm⟩

end PlanGraph

namespace Schedule

variable {g : PlanGraph} {urgency : Resolvent → Option Urgency} {isJob : Resolvent → Bool}
  {s : Schedule} {cs : List (List Resolvent)} {members component : List Resolvent}

section Follows

theorem Follows.flagged (h : s.Follows cs) (hn : cs.flatten.Nodup) {n : ScheduledNode}
    (hmem : n ∈ s.order) :
    n.inUnresolvedCycle = true ↔ ∃ c ∈ s.unresolvedCycles, n.resolvent ∈ c := by
  have hflag := List.mem_map_of_mem (f := fun n => (n.resolvent, n.inUnresolvedCycle)) hmem
  rw [h.order] at hflag
  obtain ⟨c, hc, hflag⟩ := List.mem_flatMap.1 hflag
  obtain ⟨r, hr, heq⟩ := List.mem_map.1 hflag
  obtain ⟨rfl, hflag⟩ := Prod.mk.inj heq
  rw [← hflag, decide_eq_true_eq, h.unresolvedCycles]
  simp only [List.mem_filter, decide_eq_true_eq]
  constructor
  · exact fun hlen => ⟨c, ⟨hc, hlen⟩, hr⟩
  · rintro ⟨c', ⟨hc', hlen⟩, hr'⟩
    have : Std.Symm (List.Disjoint : List Resolvent → List Resolvent → Prop) :=
      ⟨fun _ _ hd => hd.symm⟩
    by_contra hne
    have hcc' : c ≠ c' := fun he => hne (he ▸ hlen)
    exact (List.nodup_flatten.1 hn).2.forall hc hc' hcc' hr hr'

theorem Follows.consecutive (h : s.Follows cs) {c : List Resolvent} (hc : c ∈ s.unresolvedCycles) :
    c <:+: s.order.map (·.resolvent) := by
  rw [h.resolvents]
  rw [h.unresolvedCycles] at hc
  exact List.infix_of_mem_flatten (List.mem_filter.1 hc).1

theorem Follows.disjoint (h : s.Follows cs) (hn : cs.flatten.Nodup) :
    s.unresolvedCycles.Pairwise List.Disjoint := by
  rw [h.unresolvedCycles]
  exact (List.nodup_flatten.1 hn).2.filter _

end Follows

section Ascending

def Ascending (l : List Resolvent) : Prop := l.Pairwise fun a b => compare a b = .lt

theorem Ascending.eq_of_perm {l l' : List Resolvent} (h : Ascending l) (h' : Ascending l')
    (hp : l.Perm l') : l = l' := by
  refine hp.eq_of_pairwise (fun a b _ _ hab hba => ?_) h h'
  exact absurd (hab.symm.trans (OrientedCmp.gt_of_lt hba)) (by decide)

theorem ascending_toList (s : OrderedSet Resolvent) : Ascending s.toList :=
  List.pairwise_map.2 s.members.ascending

theorem ascending_componentsOf {s : OrderedSet Resolvent} {keep : Edge → Bool}
    {c : List Resolvent} (hc : c ∈ g.componentsOf s keep) : Ascending c := by
  obtain ⟨c, -, rfl⟩ := List.mem_map.1 hc
  exact ascending_toList _

theorem ascending_concat {α : Type} {l : List α} {f : α → Schedule}
    (h : ∀ a ∈ l, ∀ c ∈ (f a).unresolvedCycles, Ascending c) :
    ∀ c ∈ (concat (l.map f)).unresolvedCycles, Ascending c := by
  intro c hc
  rw [concat_unresolvedCycles, List.flatMap_map] at hc
  obtain ⟨a, ha, hc⟩ := List.mem_flatMap.1 hc
  exact h a ha c hc

theorem ascending_relax (steps : List Relaxation) (notes : Notes) (hm : Ascending members) :
    ∀ c ∈ (relax g steps notes members).unresolvedCycles, Ascending c := by
  induction steps generalizing notes members with
  | nil => exact List.forall_mem_singleton.2 hm
  | cons step steps ih =>
    refine ascending_concat fun part hpart => ?_
    match part with
    | [] => exact ih _ .nil
    | [r] => exact List.forall_mem_nil _
    | r :: r' :: part => exact ih _ (ascending_componentsOf hpart)

end Ascending

section Graph

theorem orderComponent_untangles (hn : component.Nodup)
    (hu : ∀ r ∈ component.filter isJob, urgency r = none) :
    (orderComponent g urgency isJob component).Untangles g (component.filter isJob) := by
  obtain ⟨hj, h⟩ | ⟨r, notes, hj, h⟩ | ⟨-, h⟩ := orderComponent_eq g urgency isJob component
  · rw [hj, h]
    exact ⟨[], ⟨rfl, rfl⟩, .nil⟩
  · rw [hj, h]
    exact untangles_single
  · rw [h, breakCycle_of_none hu]
    have hrelax : (relax g Relaxation.steps .none (component.filter isJob)).Untangles g
        (component.filter isJob) := relax_untangles (hn.filter isJob)
    obtain ⟨cs, hs, hcs⟩ := hrelax
    exact ⟨cs, ⟨hs.order, hs.unresolvedCycles⟩, hcs⟩

theorem ofGraph_untangles (hu : ∀ r ∈ g.nodes.toList.filter isJob, urgency r = none) :
    (ofGraph g urgency isJob).Untangles g (g.nodes.toList.filter isJob) := by
  have h := components_areComponents g
  have hparts : ∀ c ∈ g.components,
      (orderComponent g urgency isJob c).Untangles g (c.filter isJob) := by
    intro c hc
    refine orderComponent_untangles (h.nodup_of_mem g.nodes.nodup_toList hc) fun r hr => ?_
    obtain ⟨hr, hjob⟩ := List.mem_filter.1 hr
    exact hu r (List.mem_filter.2 ⟨h.mem_nodes hc hr, hjob⟩)
  obtain ⟨cs, hs, hcs⟩ := untangles_concat h (fun _ _ => rfl) hparts
  exact ⟨cs, ⟨hs.order, hs.unresolvedCycles⟩, hcs⟩

theorem orderComponent_brokenCycles :
    (orderComponent g urgency isJob component).brokenCycles =
      [component.filter isJob].filter fun jobs => decide (1 < jobs.length) := by
  obtain ⟨hj, h⟩ | ⟨r, notes, hj, h⟩ | ⟨hlen, h⟩ := orderComponent_eq g urgency isJob component
  · rw [hj, h]
    rfl
  · rw [hj, h]
    rfl
  · rw [h]
    simp [hlen]

theorem ofGraph_brokenCycles : (ofGraph g urgency isJob).brokenCycles =
    ((g.components.map (·.filter isJob)).filter fun jobs => decide (1 < jobs.length)).filter
      (!(ofGraph g urgency isJob).unresolvedCycles.contains ·) := by
  have hbroken : (concat (g.components.map (orderComponent g urgency isJob))).brokenCycles =
      (g.components.map (·.filter isJob)).filter fun jobs => decide (1 < jobs.length) := by
    rw [concat_brokenCycles, List.flatMap_map, List.map_eq_flatMap, List.filter_flatMap]
    exact List.flatMap_congr fun c _ => orderComponent_brokenCycles
  rw [ofGraph, hbroken]

theorem ascending_unresolvedCycles (hu : ∀ r ∈ g.nodes.toList.filter isJob, urgency r = none) :
    ∀ c ∈ (ofGraph g urgency isJob).unresolvedCycles, Ascending c := by
  have h := components_areComponents g
  intro c hc
  rw [ofGraph_unresolvedCycles] at hc
  obtain ⟨component, hcomp, hc⟩ := List.mem_flatMap.1 hc
  obtain ⟨-, hs⟩ | ⟨r, notes, -, hs⟩ | ⟨-, hs⟩ := orderComponent_eq g urgency isJob component
  · rw [hs] at hc
    cases hc
  · rw [hs] at hc
    cases hc
  · rw [hs, breakCycle_of_none fun r hr => ?_] at hc
    · exact ascending_relax _ _ ((ascending_componentsOf hcomp).filter _) c hc
    · obtain ⟨hr, hjob⟩ := List.mem_filter.1 hr
      exact hu r (List.mem_filter.2 ⟨h.mem_nodes hcomp hr, hjob⟩)

end Graph

/-- The schedule reports as unresolved what really is, and as broken what had to be broken. -/
structure ReportsCycles (g : PlanGraph) (isJob : Resolvent → Bool) (s : Schedule) : Prop where
  unresolved : ∀ S : Set Resolvent, (∃ c ∈ s.unresolvedCycles, S = {r | r ∈ c}) ↔
    g.IsCycle (g.nodes.toList.filter isJob) Edge.isFirm S
  disjoint : s.unresolvedCycles.Pairwise List.Disjoint
  flagged : ∀ n ∈ s.order,
    n.inUnresolvedCycle = true ↔ ∃ c ∈ s.unresolvedCycles, n.resolvent ∈ c
  consecutive : ∀ c ∈ s.unresolvedCycles, c <:+: s.order.map (·.resolvent)
  broken : ∃ comps, AreComponents (g.Path g.nodes.toList fun _ => true) g.nodes.toList comps ∧
    s.brokenCycles = (comps.map (·.filter isJob)).filter fun jobs =>
      1 < jobs.length ∧ ¬ ∃ c ∈ s.unresolvedCycles, c.Perm jobs

/-- If nothing is wanted early or late, exactly the cycles of firm edges are unresolved. -/
theorem reportsCycles_of_none (hu : ∀ r ∈ g.nodes.toList.filter isJob, urgency r = none) :
    ReportsCycles g isJob (ofGraph g urgency isJob) := by
  obtain ⟨cs, hs, hcs⟩ := ofGraph_untangles hu
  have hnodup : (g.nodes.toList.filter isJob).Nodup := g.nodes.nodup_toList.filter _
  constructor
  · intro S
    rw [PlanGraph.isCycle_iff hcs hnodup, hs.unresolvedCycles]
  · exact hs.disjoint (hcs.nodup hnodup)
  · exact fun n hn => hs.flagged (hcs.nodup hnodup) hn
  · exact fun c hc => hs.consecutive hc
  · refine ⟨g.components, components_areComponents g, ?_⟩
    rw [ofGraph_brokenCycles, List.filter_filter]
    refine List.filter_congr fun jobs hjobs => ?_
    -- Cycles are compared as lists, which is right because all of them are ascending.
    have hjobs : Ascending jobs := by
      obtain ⟨c, hc, rfl⟩ := List.mem_map.1 hjobs
      exact (ascending_componentsOf hc).filter _
    have hperm : jobs ∈ (ofGraph g urgency isJob).unresolvedCycles ↔
        ∃ c ∈ (ofGraph g urgency isJob).unresolvedCycles, c.Perm jobs := by
      refine ⟨fun h => ⟨jobs, h, .refl _⟩, fun ⟨c, hc, hp⟩ => ?_⟩
      rwa [← (ascending_unresolvedCycles hu c hc).eq_of_perm hjobs hp]
    rw [Bool.eq_iff_iff, Bool.and_eq_true, Bool.not_eq_true', ← Bool.not_eq_true,
      List.contains_iff_mem, decide_eq_true_eq, decide_eq_true_eq, hperm, and_comm]

end Schedule

theorem reportsCycles_buildCycle : (∀ r ∈ Sample.buildCycle.nodes.toList.filter fun _ => true,
    (fun _ => none : Resolvent → Option Urgency) r = none) ∧
      Schedule.ReportsCycles Sample.buildCycle (fun _ => true)
        (.ofGraph Sample.buildCycle (fun _ => none) fun _ => true) :=
  ⟨fun _ _ => rfl, Schedule.reportsCycles_of_none fun _ _ => rfl⟩

end PackagePlan
