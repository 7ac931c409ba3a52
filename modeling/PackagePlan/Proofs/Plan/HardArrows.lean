import PackagePlan.Proofs.Plan.Cycles
import PackagePlan.Proofs.Plan.JobRequirements
import PackagePlan.Proofs.Plan.Order

/-! # Hard requirements that are not heeded

A job can come before one that it always requires. Both are then members of a
cycle that is reported. Where the cycle is neither unresolved nor split by
urgency, what is required does not come from an edge between the two: a node
without a job lies in between, and cycles are taken apart without such nodes.
-/

namespace PackagePlan

open Relation

namespace Edge

variable {e f : Edge} {P : Edge → Prop}

/-- The edge gives rise to a requirement that counts whatever happens. -/
def IsHard (e : Edge) : Prop := (RequirementKinds.ofEdge e).always = true

theorem isHard_iff : e.IsHard ↔
    e.build = true ∧ e.buildAllMet = false ∨ e.hazards.isEmpty = false := by
  simp only [IsHard, RequirementKinds.ofEdge, Bool.or_eq_true, Bool.and_eq_true,
    Bool.not_eq_true']

theorem isFirm_of_isHard (h : e.IsHard) : e.isFirm = true := by
  obtain ⟨hb, hm⟩ | hh := isHard_iff.1 h
  · simp [isFirm, hb, isAllMet, hm]
  · simp [isFirm, hh]

namespace Merged

theorem exists_isHard (h : e.Merged P) (hP : ∀ f, P f → f.MetIfAbsent) (hh : e.IsHard) :
    ∃ f, P f ∧ f.IsHard := by
  obtain ⟨f, hf, hn⟩ :=
    RequirementKinds.exists_of_merged hP h (RequirementKinds.mem_names_always_iff.2 hh)
  exact ⟨f, hf, RequirementKinds.mem_names_always_iff.1 hn⟩

end Merged

end Edge

namespace PlanGraph

variable {g : PlanGraph} {isJob : Resolvent → Bool} {a b : Resolvent} {e : Edge}

theorem LeadsTo.path (hg : g.Wired) (h : g.LeadsTo isJob a b) :
    g.Path g.nodes.toList (fun _ => true) a b := by
  have arrow : ∀ {a b e}, g.edge? a b = some e → g.Arrow g.nodes.toList (fun _ => true) a b :=
    fun he => ⟨hg.source he, hg.target he, _, he, rfl⟩
  obtain ⟨z, hz, e, he⟩ := h
  have haz : g.Path g.nodes.toList (fun _ => true) a z :=
    ReflTransGen.mono (fun _ _ ⟨_, _, he⟩ => arrow he) _ _ hz
  exact haz.tail (arrow he)

end PlanGraph

namespace Schedule

variable {g : PlanGraph} {urgency : Resolvent → Option Urgency} {isJob : Resolvent → Bool}
  {n m : ScheduledNode}

theorem Before.resolvent_ne (h : (ofGraph g urgency isJob).Before n m) :
    n.resolvent ≠ m.resolvent := by
  have hnodup : ((ofGraph g urgency isJob).order.map (·.resolvent)).Nodup :=
    ofGraph_perm.nodup_iff.2 (g.nodes.nodup_toList.filter _)
  have hpair : [n.resolvent, m.resolvent].Nodup :=
    hnodup.sublist (List.Sublist.map ScheduledNode.resolvent h)
  exact fun he => (List.nodup_cons.1 hpair).1 (List.mem_singleton.2 he)

theorem exists_component (hnm : (ofGraph g urgency isJob).Before n m)
    (hpath : g.Path g.nodes.toList (fun _ => true) n.resolvent m.resolvent) :
    ∃ c ∈ g.components, n.resolvent ∈ c.filter isJob ∧ m.resolvent ∈ c.filter isJob := by
  have h := components_areComponents g
  have hnodup : ∀ c ∈ g.components, c.Nodup := fun c hc =>
    h.nodup_of_mem g.nodes.nodup_toList hc
  have together : (ofGraph g urgency isJob).order.Pairwise fun n m =>
      g.Path g.nodes.toList (fun _ => true) n.resolvent m.resolvent →
        ∃ c ∈ g.components, n.resolvent ∈ c.filter isJob ∧ m.resolvent ∈ c.filter isJob := by
    rw [ofGraph_order, List.pairwise_flatMap]
    constructor
    · intro c hc
      refine List.pairwise_of_forall_mem_list fun n hn m hm _ => ⟨c, hc, ?_, ?_⟩
      · exact mem_of_mem_orderComponent (hnodup c hc) hn
      · exact mem_of_mem_orderComponent (hnodup c hc) hm
    · refine h.ordered.imp_of_mem fun hc hc' hcc' n hn m hm hnm => ?_
      have hn := mem_of_mem_orderComponent (hnodup _ hc) hn
      have hm := mem_of_mem_orderComponent (hnodup _ hc') hm
      exact absurd hnm (hcc' _ (List.mem_filter.1 hn).1 _ (List.mem_filter.1 hm).1)
  exact List.pairwise_iff_forall_sublist.1 together hnm hpath

/-- What comes before a change that a path leads to is in a cycle with it, and this is reported. -/
theorem exists_reported (hnm : (ofGraph g urgency isJob).Before n m)
    (hpath : g.Path g.nodes.toList (fun _ => true) n.resolvent m.resolvent) :
    ∃ c ∈ (ofGraph g urgency isJob).brokenCycles ++ (ofGraph g urgency isJob).unresolvedCycles,
      n.resolvent ∈ c ∧ m.resolvent ∈ c := by
  obtain ⟨c, hc, hn, hm⟩ := exists_component hnm hpath
  refine ⟨c.filter isJob, List.mem_append.2 ?_, hn, hm⟩
  by_cases hu : c.filter isJob ∈ (ofGraph g urgency isJob).unresolvedCycles
  · exact .inr hu
  · have hnodup : c.Nodup := (components_areComponents g).nodup_of_mem g.nodes.nodup_toList hc
    have hlen : 1 < (c.filter isJob).length :=
      (PlanGraph.nontrivial_iff (hnodup.filter _)).1 ⟨_, hn, _, hm, hnm.resolvent_ne⟩
    refine .inl ?_
    rw [ofGraph_brokenCycles]
    simp only [List.mem_filter, List.mem_map, decide_eq_true_eq, Bool.not_eq_true',
      List.contains_eq_mem, decide_eq_false_iff_not]
    exact ⟨⟨⟨c, hc, rfl⟩, hlen⟩, hu⟩

end Schedule

namespace Plan

open PlanGraph

variable {d : Decided} {policy : Policy} {i j : Nat} {x y : Job} {e : Edge}

theorem exists_before (hx : (d.plan policy).execute[i]? = some x)
    (hy : (d.plan policy).execute[j]? = some y) (hij : i < j) : ∃ n m,
      (d.schedule policy).Before n m ∧ n.resolvent = x.resolvent ∧ m.resolvent = y.resolvent := by
  have scheduled : ∀ {i : Nat} {x : Job}, (d.plan policy).execute[i]? = some x →
      ∃ n, (d.schedule policy).order[i]? = some n ∧ n.resolvent = x.resolvent := by
    intro i x hx
    have hn : ((d.schedule policy).order.map (·.resolvent))[i]? = some x.resolvent := by
      rw [← resolvents_execute, List.getElem?_map, hx, Option.map_some]
    rw [List.getElem?_map] at hn
    exact Option.map_eq_some_iff.1 hn
  obtain ⟨n, hn, hnx⟩ := scheduled hx
  obtain ⟨m, hm, hmy⟩ := scheduled hy
  obtain ⟨hi, rfl⟩ := List.getElem?_eq_some_iff.1 hn
  obtain ⟨hj, rfl⟩ := List.getElem?_eq_some_iff.1 hm
  refine ⟨_, _, ?_, hnx, hmy⟩
  exact List.pairwise_iff_getElem.1 (List.pairwise_iff_forall_sublist.2 fun h => h) i j hi hj hij

/-- Why one change may come before another that it always requires. -/
structure Unheeded (p : Plan) (g : PlanGraph) (urgency : Resolvent → Option Urgency)
    (a b : Resolvent) : Prop where
  reported : ∃ c ∈ p.brokenCycles ++ p.unresolvedCycles, a ∈ c ∧ b ∈ c
  /-- The last reason is that a node without a job lies in between. -/
  reason : (∃ c ∈ p.unresolvedCycles, a ∈ c ∧ b ∈ c) ∨ urgency a ≠ urgency b ∨
    ∃ z first, p.hasJob z = false ∧ g.edge? a z = some first ∧ first.IsHard ∧
      g.LeadsTo p.hasJob z b

/-- A job comes before one that it always requires only in a cycle that is reported. -/
theorem unheeded_of_isHard (hx : (d.plan policy).execute[i]? = some x)
    (hy : (d.plan policy).execute[j]? = some y) (hij : i < j)
    (he : ((d.plan policy).search d.graph x).arrows.get? y.resolvent = some e) (hh : e.IsHard) :
    (d.plan policy).Unheeded d.graph policy.urgency x.resolvent y.resolvent := by
  have hg : d.graph.Wired := wired_ofRegistry d.registry
  have hmerged : Edge.Merged (d.graph.LeadsBy (d.plan policy).hasJob x.resolvent y.resolvent) e :=
    ArrowSearch.start_sound.arrows _ _ he
  obtain ⟨first, hfirst, hh⟩ := hmerged.exists_isHard (fun _ hf => hf.metIfAbsent hg) hh
  obtain ⟨n, m, hnm, hn, hm⟩ := exists_before hx hy hij
  rw [← hn, ← hm] at hfirst ⊢
  refine ⟨Schedule.exists_reported hnm (hfirst.leadsTo.path hg), ?_⟩
  obtain hedge | ⟨z, hz, hedge, hzy⟩ := hfirst
  · have hfirm := Edge.isFirm_iff.1 (Edge.isFirm_of_isHard hh)
    obtain ⟨hne, -⟩ | hu := (Schedule.before_excused hnm hedge).firm hfirm
    · exact .inr (.inl hne)
    · exact .inl hu
  · exact .inr (.inr ⟨z, first, hz, hedge, hh, hzy⟩)

end Plan

namespace Sample

def excludes (name : PackageName) (range : VersionRange) : DependencyTree :=
  .blocker ⟨{ Requirement.named name with version := range }, true⟩

/-- Strong blockers lead from `b` to `x`, which is installed, and from `x` to `y`, and `y` needs `b`
when it is run. -/
def detourDatabase : Database :=
  ((Database.empty.insert (id "b" .source) (excludes "x" (.olderThan (version 1)))).insert
    (id "x" (.installed .slash)) (excludes "y" (.newerThan (version 1)))).insert
      (id "y" .source) (.all [.labels [.run], .package (.named "b")])

def detourRequest : Request :=
  { targets := [(.named "b", .target), (.named "y", .target)] }

structure TakesDetour (decided : Decided) (b y : Job) (e : Edge) : Prop where
  first : (decided.plan preferences.policy).execute[0]? = some b
  second : (decided.plan preferences.policy).execute[1]? = some y
  arrow : ((decided.plan preferences.policy).search decided.graph b).arrows.get? y.resolvent =
    some e
  hard : e.IsHard
  resolved : (decided.plan preferences.policy).unresolvedCycles = []

def takesDetour (decided : Decided) : Bool :=
  let p := decided.plan preferences.policy
  match p.execute with
  | [b, y] => p.unresolvedCycles.isEmpty &&
      ((p.search decided.graph b).arrows.get? y.resolvent).any fun e =>
        (RequirementKinds.ofEdge e).always
  | _ => false

theorem exists_detour : ∃ decided b y e,
    detourRequest.decide detourDatabase preferences.policy {} 10 = .ok decided ∧
      TakesDetour decided b y e := by
  obtain ⟨decided, hd, h⟩ : ∃ decided,
      detourRequest.decide detourDatabase preferences.policy {} 10 = .ok decided ∧
        takesDetour decided = true := exists_eq_ok (by decide +kernel)
  unfold takesDetour at h
  dsimp only at h
  split at h
  · next b y hjobs =>
    obtain ⟨hu, harrow⟩ := Bool.and_eq_true_iff.1 h
    obtain ⟨e, he, hh⟩ := (Option.any_eq_true _ _).1 harrow
    exact ⟨decided, b, y, e, hd, by rw [hjobs]; rfl, by rw [hjobs]; rfl, he, hh,
      List.isEmpty_iff.1 hu⟩
  · cases h

end Sample

namespace Plan

theorem unheeded_of_isHard_detour : ∃ decided b y e,
    Sample.detourRequest.decide Sample.detourDatabase Sample.preferences.policy {} 10 =
        .ok decided ∧
      Sample.TakesDetour decided b y e ∧
        (decided.plan Sample.preferences.policy).Unheeded decided.graph
          Sample.preferences.policy.urgency b.resolvent y.resolvent := by
  obtain ⟨decided, b, y, e, hd, h⟩ := Sample.exists_detour
  exact ⟨decided, b, y, e, hd, h,
    unheeded_of_isHard h.first h.second Nat.zero_lt_one h.arrow h.hard⟩

/-- A hard requirement can go unheeded where no cycle is unresolved and none is split. -/
theorem hard_arrow_dropped : ¬ ∀ (q : Request) (db : Database) (policy : Policy) (seeds : Seeds)
    (maxRestarts : Nat) (decided : Decided), q.decide db policy seeds maxRestarts = .ok decided →
      ∀ (i j : Nat) (x y : Job) (e : Edge), (decided.plan policy).execute[i]? = some x →
        (decided.plan policy).execute[j]? = some y → i < j →
          ((decided.plan policy).search decided.graph x).arrows.get? y.resolvent = some e →
            e.IsHard →
              (∃ c ∈ (decided.plan policy).unresolvedCycles, x.resolvent ∈ c ∧ y.resolvent ∈ c) ∨
                policy.urgency x.resolvent ≠ policy.urgency y.resolvent := by
  intro hall
  obtain ⟨decided, b, y, e, hd, h⟩ := Sample.exists_detour
  obtain ⟨c, hc, -⟩ | hne := hall _ _ _ _ _ _ hd _ _ _ _ _ h.first h.second Nat.zero_lt_one
    h.arrow h.hard
  · rw [h.resolved] at hc
    cases hc
  · exact hne rfl

end Plan

end PackagePlan
