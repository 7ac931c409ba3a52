import PackagePlan.Proofs.Plan.Schedule

/-! # Orders and edges

No change comes before one that it needs, unless both are part of one component
of the graph and there is a reason: the edge can be ignored, the cycle is split
by urgency, or it is reported as unresolved.
-/

namespace PackagePlan.Schedule

open Components

variable {g : PlanGraph} {urgency : Resolvent → Option Urgency} {isJob : Resolvent → Bool}
  {s : Schedule} {n m : ScheduledNode} {e : Edge} {members : List Resolvent}

def Before (s : Schedule) (n m : ScheduledNode) : Prop := [n, m].Sublist s.order

def Unresolved (s : Schedule) (n m : ScheduledNode) : Prop :=
  ∃ c ∈ s.unresolvedCycles, n.resolvent ∈ c ∧ m.resolvent ∈ c

/-- The nodes are not equally urgent, and both carry the note that their cycle is split. -/
def SplitApart (urgency : Resolvent → Option Urgency) (n m : ScheduledNode) : Prop :=
  urgency n.resolvent ≠ urgency m.resolvent ∧
    ∃ cycle, n.resolvent ∈ cycle ∧ m.resolvent ∈ cycle ∧
      splitNote cycle n.resolvent ∈ n.notes ∧ splitNote cycle m.resolvent ∈ m.notes

section Notes

variable {notes : Notes}

def Carries (s : Schedule) (notes : Notes) : Prop :=
  ∀ n ∈ s.order, notes n.resolvent ⊆ n.notes

theorem Carries.mono {notes' : Notes} (h : s.Carries notes') (hn : ∀ r, notes r ⊆ notes' r) :
    s.Carries notes := fun n hmem =>
  List.Subset.trans (hn n.resolvent) (h n hmem)

theorem carries_single (r : Resolvent) : (single notes r).Carries notes := by
  intro n hn
  obtain rfl := List.mem_singleton.1 hn
  exact List.Subset.refl _

theorem carries_concat {α : Type} {l : List α} {f : α → Schedule}
    (h : ∀ a ∈ l, (f a).Carries notes) : (concat (l.map f)).Carries notes := by
  intro n hn
  rw [concat_order, List.flatMap_map] at hn
  obtain ⟨a, ha, hn⟩ := List.mem_flatMap.1 hn
  exact h a ha n hn

theorem relax_carries (steps : List Relaxation) (notes : Notes) (members : List Resolvent) :
    (relax g steps notes members).Carries notes := by
  induction steps generalizing notes members with
  | nil =>
    intro n hn
    obtain ⟨r, -, rfl⟩ := List.mem_map.1 hn
    exact List.Subset.refl _
  | cons step steps ih =>
    let told : Notes :=
      if (g.componentsOf (.ofList members) step.keeps).length > 1 then
        notes.tell step.note members
      else notes
    have htold : ∀ r, notes r ⊆ told r := by
      intro r
      simp only [told]
      split
      · exact List.subset_append_left _ _
      · exact List.Subset.refl _
    refine Carries.mono (carries_concat fun part _ => ?_) htold
    rcases part with _ | ⟨r, _ | ⟨r', part⟩⟩
    · exact ih _ _
    · exact carries_single r
    · exact ih _ _

theorem orderPart_carries : (orderPart g notes members).Carries notes :=
  carries_concat fun part _ => by
    match part with
    | [] => exact relax_carries _ _ _
    | [r] => exact carries_single r
    | r :: r' :: part => exact relax_carries _ _ _

end Notes

section Honoured

/-- A firm edge from `n` to `m` has an excuse, given what is reported as unresolved. -/
def Honours (g : PlanGraph) (urgency : Resolvent → Option Urgency) (s : Schedule)
    (n m : ScheduledNode) : Prop :=
  ∀ e, g.edge? n.resolvent m.resolvent = some e → e.isFirm = true →
    SplitApart urgency n m ∨ s.Unresolved n m

theorem Unresolved.mono {t : Schedule} (h : s.Unresolved n m)
    (hs : s.unresolvedCycles ⊆ t.unresolvedCycles) : t.Unresolved n m :=
  h.imp fun _ hc => hc.imp_left (@hs _)

theorem Untangles.honours (h : s.Untangles g members) (urgency : Resolvent → Option Urgency) :
    s.order.Pairwise (Honours g urgency s) := by
  obtain ⟨cs, hs, hcs⟩ := h
  have hsplit : (s.order.map (·.resolvent)).Pairwise fun a b =>
      ∀ e, g.edge? a b = some e → e.isFirm = true → ∃ c ∈ s.unresolvedCycles, a ∈ c ∧ b ∈ c := by
    rw [hs.resolvents, hs.unresolvedCycles, List.pairwise_flatten]
    refine ⟨fun c hc => ?_, hcs.ordered.imp_of_mem fun hc hc' hn a ha b hb e he hfirm => ?_⟩
    · match c with
      | [] => exact .nil
      | [r] => exact List.pairwise_singleton _ _
      | r :: r' :: c =>
        refine List.pairwise_of_forall_mem_list fun a ha b hb e he hfirm => ⟨_, ?_, ha, hb⟩
        exact List.mem_filter.2 ⟨hc, by simp⟩
    · exact absurd (.single ⟨hcs.mem_nodes hc ha, hcs.mem_nodes hc' hb, e, he, hfirm⟩)
        (hn a ha b hb)
  exact (List.pairwise_map.1 hsplit).imp fun h e he hfirm => .inr (h e he hfirm)

theorem splitByUrgency_pairwise : (splitByUrgency urgency members).Pairwise fun part part' =>
    ∀ a ∈ part, ∀ b ∈ part', urgency a ≠ urgency b := by
  refine List.pairwise_map.2 ?_
  have hne : [some Urgency.early, none, some Urgency.late].Pairwise (· ≠ ·) := by decide
  refine hne.imp fun hne a ha b hb hab => hne ?_
  rw [← eq_of_beq (List.mem_filter.1 ha).2, ← eq_of_beq (List.mem_filter.1 hb).2, hab]

theorem breakCycle_honours (g : PlanGraph) (urgency : Resolvent → Option Urgency)
    (hn : members.Nodup) : (breakCycle g urgency members).order.Pairwise
      (Honours g urgency (breakCycle g urgency members)) := by
  obtain h | h := breakCycle_eq g urgency members
  · rw [h]
    exact (relax_untangles hn).honours urgency
  rw [h]
  set parts := (splitByUrgency urgency members).filter (!·.isEmpty)
  set notes : Notes := fun r => [splitNote members r]
  have hmem : ∀ part ∈ parts, ∀ n ∈ (orderPart g notes part).order,
      n.resolvent ∈ part ∧ n.resolvent ∈ members ∧ splitNote members n.resolvent ∈ n.notes := by
    intro part hpart n hmem
    have hres : n.resolvent ∈ part :=
      (splitByUrgency_untangles hn hpart).perm.mem_iff.1 (List.mem_map_of_mem hmem)
    refine ⟨hres, ?_, orderPart_carries n hmem (List.mem_singleton.2 rfl)⟩
    exact splitByUrgency_perm.mem_iff.1
      (List.mem_flatten.2 ⟨part, (List.mem_filter.1 hpart).1, hres⟩)
  -- Within a part its own order honours the edge; between two parts their notes excuse it.
  rw [concat_order, List.flatMap_map, List.pairwise_flatMap]
  constructor
  · intro part hpart
    refine ((splitByUrgency_untangles hn hpart).honours urgency).imp fun hnm e he hfirm => ?_
    refine (hnm e he hfirm).imp_right fun hu => hu.mono ?_
    rw [concat_unresolvedCycles, List.flatMap_map]
    exact fun c hc => List.mem_flatMap.2 ⟨part, hpart, hc⟩
  · refine (splitByUrgency_pairwise.filter _).imp_of_mem fun hpart hpart' hne n hn m hm e _ _ => ?_
    obtain ⟨hnp, hnm, hnn⟩ := hmem _ hpart n hn
    obtain ⟨hmp, hmm, hmn⟩ := hmem _ hpart' m hm
    exact .inl ⟨hne _ hnp _ hmp, members, hnm, hmm, hnn, hmn⟩

theorem orderComponent_honours {component : List Resolvent} (hn : component.Nodup) :
    (orderComponent g urgency isJob component).order.Pairwise
      (Honours g urgency (orderComponent g urgency isJob component)) := by
  obtain ⟨-, h⟩ | ⟨r, notes, -, h⟩ | ⟨-, h⟩ := orderComponent_eq g urgency isJob component
  · rw [h]
    exact .nil
  · rw [h]
    exact List.pairwise_singleton _ _
  · rw [h]
    exact breakCycle_honours g urgency (hn.filter _)

end Honoured

/-- Why the first node may come before the second, although an edge leads to the second. -/
structure Excused (g : PlanGraph) (urgency : Resolvent → Option Urgency) (s : Schedule)
    (n m : ScheduledNode) (e : Edge) : Prop where
  together : g.Path g.nodes.toList (fun _ => true) n.resolvent m.resolvent ∧
    g.Path g.nodes.toList (fun _ => true) m.resolvent n.resolvent
  reason : e.isRunOnly = true ∨ e.isAllMet = true ∨ e.isFetchOrRunOnly = true ∨
    SplitApart urgency n m ∨ s.Unresolved n m
  firm : (∃ h, e.hazards.contains h = true) ∨ e.build = true ∧ e.isAllMet = false →
    SplitApart urgency n m ∨ s.Unresolved n m

theorem Honours.excused {t : Schedule} (h : Honours g urgency s n m)
    (ht : s.unresolvedCycles ⊆ t.unresolvedCycles)
    (together : g.Path g.nodes.toList (fun _ => true) n.resolvent m.resolvent ∧
      g.Path g.nodes.toList (fun _ => true) m.resolvent n.resolvent)
    (he : g.edge? n.resolvent m.resolvent = some e) : Excused g urgency t n m e where
  together := together
  reason := by
    cases hfirm : e.isFirm with
    | false =>
      obtain hr | hm | hf := Edge.not_isFirm_iff.1 hfirm
      · exact .inl hr
      · exact .inr (.inl hm)
      · exact .inr (.inr (.inl hf))
    | true => exact .inr (.inr (.inr ((h e he hfirm).imp_right (·.mono ht))))
  firm hfirm := (h e he (Edge.isFirm_iff.2 hfirm)).imp_right (·.mono ht)

/-- Every edge is honoured unless it is excused. -/
theorem before_excused (hnm : (ofGraph g urgency isJob).Before n m)
    (he : g.edge? n.resolvent m.resolvent = some e) :
    Excused g urgency (ofGraph g urgency isJob) n m e := by
  have h := components_areComponents g
  have hmem : ∀ c ∈ g.components, ∀ n ∈ (orderComponent g urgency isJob c).order,
      n.resolvent ∈ c := by
    intro c hc n hn
    have hn := mem_of_mem_orderComponent (h.nodup_of_mem g.nodes.nodup_toList hc) hn
    exact (List.mem_filter.1 hn).1
  have excused : (ofGraph g urgency isJob).order.Pairwise fun n m =>
      ∀ e, g.edge? n.resolvent m.resolvent = some e →
        Excused g urgency (ofGraph g urgency isJob) n m e := by
    rw [ofGraph_order, List.pairwise_flatMap]
    constructor
    · intro c hc
      refine (orderComponent_honours (h.nodup_of_mem g.nodes.nodup_toList hc)).imp_of_mem
        fun hn hm hnm e he => ?_
      refine hnm.excused ?_ ⟨?_, ?_⟩ he
      · rw [ofGraph_unresolvedCycles]
        exact fun c' hc' => List.mem_flatMap.2 ⟨c, hc, hc'⟩
      · exact h.connected c hc _ (hmem c hc _ hn) _ (hmem c hc _ hm)
      · exact h.connected c hc _ (hmem c hc _ hm) _ (hmem c hc _ hn)
    · refine h.ordered.imp_of_mem fun hc hc' hcc' n hn m hm e he => ?_
      have hn := hmem _ hc n hn
      have hm := hmem _ hc' m hm
      refine absurd (.single ?_) (hcc' _ hn _ hm)
      exact ⟨h.mem_nodes hc hn, h.mem_nodes hc' hm, e, he, rfl⟩
  exact List.pairwise_iff_forall_sublist.1 excused hnm e he

end PackagePlan.Schedule

namespace PackagePlan

open Schedule

def Sample.fooBeforeBar (r : Resolvent) : Option Urgency :=
  if r = Sample.foo then some .early else some .late

theorem before_excused_buildCycle : ∃ n m,
    (ofGraph Sample.buildCycle Sample.fooBeforeBar fun _ => true).Before n m ∧
      Sample.buildCycle.edge? n.resolvent m.resolvent = some { build := true } ∧
        Excused Sample.buildCycle Sample.fooBeforeBar
          (ofGraph Sample.buildCycle Sample.fooBeforeBar fun _ => true) n m { build := true } := by
  have horder : (ofGraph Sample.buildCycle Sample.fooBeforeBar fun _ => true).order.map
      (·.resolvent) = [Sample.foo, Sample.bar] := by decide +kernel
  obtain ⟨n, l, ho, hn, hl⟩ := List.map_eq_cons_iff.1 horder
  obtain ⟨m, l, rfl, hm, hl⟩ := List.map_eq_cons_iff.1 hl
  obtain rfl := List.map_eq_nil_iff.1 hl
  have hnm : (ofGraph Sample.buildCycle Sample.fooBeforeBar fun _ => true).Before n m := by
    rw [Before, ho]
  have he : Sample.buildCycle.edge? n.resolvent m.resolvent = some { build := true } := by
    rw [hn, hm]
    decide +kernel
  exact ⟨n, m, hnm, he, before_excused hnm he⟩

end PackagePlan
