import Mathlib.Data.List.Induction
import PackagePlan.Plan.Schedule
import PackagePlan.Proofs.Graph.Edges

/-! # When an edge counts as met

An edge is added for one cause after the other, and counts as met if each of
them does. A dependency that is met already does, and so does one that is
needed for nothing but fetching, met or not; what goes wrong if an edge is
ignored never counts as met.
-/

namespace PackagePlan

namespace Label

variable {l : Label}

theorem isBuild_iff : (l.phase == .build && l != .fetch) = true ↔ l = .build ∨ l = .test := by
  cases l <;> decide

theorem isRun_iff : (l.phase == .run) = true ↔ l = .run := by
  cases l <;> decide

end Label

namespace Edge

variable {e f : Edge} {labels : List Label} {alreadyMet : Bool}

theorem build_ofDependency :
    (ofDependency labels alreadyMet).build = true ↔ ∃ l ∈ labels, l = .build ∨ l = .test := by
  simp only [ofDependency, List.any_eq_true, Label.isBuild_iff]

theorem run_ofDependency : (ofDependency labels alreadyMet).run = true ↔ .run ∈ labels := by
  simp only [ofDependency, List.any_eq_true, Label.isRun_iff, exists_eq_right]

theorem fetch_ofDependency : (ofDependency labels alreadyMet).fetch = true ↔ .fetch ∈ labels := by
  simp only [ofDependency, List.contains_iff_mem]

theorem isAllMet_ofDependency : (ofDependency labels alreadyMet).isAllMet = (alreadyMet ||
    !(ofDependency labels alreadyMet).build && !(ofDependency labels alreadyMet).run) := by
  cases alreadyMet with
  | true => rfl
  | false => exact Bool.and_true _

theorem isAllMet_merge (he : e.isRelevant = true) :
    (e.merge f).isAllMet = (e.isAllMet && f.isAllMet) := by
  simp only [isAllMet, Edge.merge, he, if_true, isEmpty_union]
  ac_rfl

end Edge

inductive Cause
  | dependency (labels : List Label) (alreadyMet : Bool)
  | hazard (h : Hazard)

namespace Cause

def edge : Cause → Edge
  | dependency labels alreadyMet => .ofDependency labels alreadyMet
  | hazard h => .ofHazard h

/-- A dependency is needed for one of these labels, or the cause is none. -/
def NeededFor (ls : List Label) : Cause → Prop
  | dependency labels _ => ∃ l ∈ labels, l ∈ ls
  | hazard _ => True

/-- The cause is a dependency that is met already if it is needed for one of these labels. -/
def MetFor (ls : List Label) : Cause → Prop
  | dependency labels alreadyMet => (∃ l ∈ labels, l ∈ ls) → alreadyMet = true
  | hazard _ => False

variable {c : Cause}

theorem isRelevant_edge : c.edge.isRelevant = true ↔ c.NeededFor [.build, .test, .fetch, .run] := by
  cases c with
  | hazard h => exact iff_of_true (by cases h <;> rfl) trivial
  | dependency labels alreadyMet =>
    have hhazards : (Edge.ofDependency labels alreadyMet).hazards.isEmpty = true := rfl
    simp only [edge, Edge.isRelevant, Bool.or_eq_true, Edge.build_ofDependency,
      Edge.run_ofDependency, Edge.fetch_ofDependency, hhazards, Bool.not_true, Bool.false_eq_true,
      or_false, NeededFor, List.mem_cons, List.not_mem_nil]
    grind

theorem isAllMet_edge : c.edge.isAllMet = true ↔ c.MetFor [.build, .test, .run] := by
  cases c with
  | hazard h => exact iff_of_false (by cases h <;> decide) id
  | dependency labels alreadyMet =>
    simp only [edge, Edge.isAllMet_ofDependency, Bool.or_eq_true, Bool.and_eq_true,
      Bool.not_eq_true', ← Bool.not_eq_true, Edge.build_ofDependency, Edge.run_ofDependency,
      MetFor, List.mem_cons, List.not_mem_nil]
    grind

theorem metFor_of_not_neededFor (h : ¬ c.NeededFor [.build, .test, .fetch, .run]) :
    c.MetFor [.build, .test, .run] := by
  cases c with
  | hazard h' => exact absurd trivial h
  | dependency labels alreadyMet =>
    rintro ⟨l, hl, hmem⟩
    refine absurd ⟨l, hl, ?_⟩ h
    simp only [List.mem_cons, List.not_mem_nil] at hmem ⊢
    tauto

end Cause

namespace PlanGraph

def addCauses (g : PlanGraph) (causes : List (Resolvent × Resolvent × Cause)) : PlanGraph :=
  causes.foldl (fun g (a, b, c) => g.addEdge a b c.edge) g

def Joinable (g : PlanGraph) (a b : Resolvent) : Prop :=
  a ≠ b ∧ g.nodes.contains a = true ∧ g.nodes.contains b = true

/-- The edge from `a` to `b` tells what it was added for. -/
structure Reflects (g : PlanGraph) (a b : Resolvent)
    (causes : List (Resolvent × Resolvent × Cause)) : Prop where
  isSome_iff : (g.edge? a b).isSome = true ↔
    g.Joinable a b ∧ ∃ c, (a, b, c) ∈ causes ∧ c.NeededFor [.build, .test, .fetch, .run]
  relevant : ∀ e, g.edge? a b = some e → e.isRelevant = true
  isAllMet_iff : ∀ e, g.edge? a b = some e →
    (e.isAllMet = true ↔ ∀ c, (a, b, c) ∈ causes → c.MetFor [.build, .test, .run])

variable {g g' : PlanGraph} {a b a' b' : Resolvent} {c : Cause} {e : Edge}
  {causes : List (Resolvent × Resolvent × Cause)}

theorem addCauses_concat :
    g.addCauses (causes ++ [(a, b, c)]) = (g.addCauses causes).addEdge a b c.edge := by
  simp only [addCauses, List.foldl_append, List.foldl_cons, List.foldl_nil]

theorem joinable_addEdge : (g.addEdge a b e).Joinable a' b' ↔ g.Joinable a' b' := by
  simp only [Joinable, addEdge_nodes]

theorem joinable_addCauses : (g.addCauses causes).Joinable a b ↔ g.Joinable a b := by
  simp only [Joinable, addCauses, foldl_nodes fun _ _ => addEdge_nodes]

theorem Reflects.addIdle (h : g.Reflects a b causes)
    (hidle : ¬(g.Joinable a b ∧ a' = a ∧ b' = b ∧ c.NeededFor [.build, .test, .fetch, .run])) :
    (g.addEdge a' b' c.edge).Reflects a b (causes ++ [(a', b', c)]) := by
  have hedge : (g.addEdge a' b' c.edge).edge? a b = g.edge? a b := by
    rw [edge?_addEdge, if_neg]
    rintro ⟨⟨hne, ha, hb, hrel⟩, rfl, rfl⟩
    exact hidle ⟨⟨hne, ha, hb⟩, rfl, rfl, Cause.isRelevant_edge.1 hrel⟩
  constructor
  · rw [hedge, h.isSome_iff, joinable_addEdge]
    refine and_congr_right fun hjoin => exists_congr fun c' => ?_
    rw [List.mem_append, List.mem_singleton, or_and_right]
    refine (or_iff_left ?_).symm
    rintro ⟨heq, hneeded⟩
    obtain ⟨rfl, rfl, rfl⟩ : a = a' ∧ b = b' ∧ c' = c := by simpa using heq
    exact hidle ⟨hjoin, rfl, rfl, hneeded⟩
  · rw [hedge]
    exact h.relevant
  · intro e he
    rw [hedge] at he
    have hjoin := (h.isSome_iff.1 (Option.isSome_of_eq_some he)).1
    rw [h.isAllMet_iff e he]
    refine forall_congr' fun c' => ?_
    rw [List.mem_append, List.mem_singleton, or_imp]
    refine (and_iff_left ?_).symm
    intro heq
    obtain ⟨rfl, rfl, rfl⟩ : a = a' ∧ b = b' ∧ c' = c := by simpa using heq
    exact Cause.metFor_of_not_neededFor fun hneeded => hidle ⟨hjoin, rfl, rfl, hneeded⟩

/-- What asks for an order has its part in whether the edge counts as met. -/
theorem Reflects.addNeeded (h : g.Reflects a b causes) (hjoin : g.Joinable a b)
    (hneeded : c.NeededFor [.build, .test, .fetch, .run]) :
    (g.addEdge a b c.edge).Reflects a b (causes ++ [(a, b, c)]) := by
  have hrel := Cause.isRelevant_edge.2 hneeded
  have hedge : (g.addEdge a b c.edge).edge? a b =
      some (((g.edge? a b).map (·.merge c.edge)).getD c.edge) := by
    rw [edge?_addEdge, if_pos ⟨⟨hjoin.1, hjoin.2.1, hjoin.2.2, hrel⟩, rfl, rfl⟩]
  have hmem : ∀ c', (a, b, c') ∈ causes ++ [(a, b, c)] ↔ (a, b, c') ∈ causes ∨ c' = c := by
    simp
  constructor
  · rw [hedge]
    exact iff_of_true rfl ⟨joinable_addEdge.2 hjoin, c, (hmem c).2 (.inr rfl), hneeded⟩
  · intro e he
    obtain rfl := Option.some.inj (hedge.symm.trans he)
    cases hold : g.edge? a b with
    | none => exact hrel
    | some old => exact Edge.isRelevant_merge.trans (by rw [hrel, Bool.or_true])
  · intro e he
    obtain rfl := Option.some.inj (hedge.symm.trans he)
    simp only [hmem, or_imp, forall_and, forall_eq]
    cases hold : g.edge? a b with
    | none =>
      have hnone : ∀ c', (a, b, c') ∈ causes → c'.MetFor [.build, .test, .run] := by
        refine fun c' hc' => Cause.metFor_of_not_neededFor fun hneeded => ?_
        have := h.isSome_iff.2 ⟨hjoin, c', hc', hneeded⟩
        rw [hold] at this
        cases this
      exact Cause.isAllMet_edge.trans (and_iff_right hnone).symm
    | some old =>
      rw [Option.map_some, Option.getD_some, Edge.isAllMet_merge (h.relevant old hold),
        Bool.and_eq_true, h.isAllMet_iff old hold, Cause.isAllMet_edge]

theorem reflects_addCauses (hg : g.edge? a b = none) :
    (g.addCauses causes).Reflects a b causes := by
  induction causes using List.reverseRecOn with
  | nil =>
    have hedge : (g.addCauses []).edge? a b = none := hg
    constructor <;> simp [hedge]
  | append_singleton causes x ih =>
    obtain ⟨a', b', c⟩ := x
    rw [addCauses_concat]
    by_cases hneeded : (g.addCauses causes).Joinable a b ∧ a' = a ∧ b' = b ∧
        c.NeededFor [.build, .test, .fetch, .run]
    · obtain ⟨hjoin, rfl, rfl, hneeded⟩ := hneeded
      exact ih.addNeeded hjoin hneeded
    · exact ih.addIdle hneeded

/-- The edge from `a` to `b` is there if a cause asks for it, and it counts as met if every
dependency that is needed for building, testing or running is met and nothing fails if it is
ignored. Of the edges that connect more than what is needed for running, these are the ones ignored
as met already. -/
theorem isAllMet_iff_causes (hg : g.edge? a b = none) :
    (((g.addCauses causes).edge? a b).isSome = true ↔ (a ≠ b ∧ g.nodes.contains a = true ∧
      g.nodes.contains b = true) ∧
        ∃ c, (a, b, c) ∈ causes ∧ c.NeededFor [.build, .test, .fetch, .run]) ∧
    ∀ e, (g.addCauses causes).edge? a b = some e →
      (e.isAllMet = true ↔ ∀ c, (a, b, c) ∈ causes → c.MetFor [.build, .test, .run]) ∧
      (Relaxation.noRunOnly.keeps e = true → (Relaxation.noAlreadyMet.keeps e = false ↔
        ∀ c, (a, b, c) ∈ causes → c.MetFor [.build, .test, .run])) := by
  have h : (g.addCauses causes).Reflects a b causes := reflects_addCauses hg
  refine ⟨h.isSome_iff.trans (and_congr_left' joinable_addCauses), fun e he => ?_⟩
  have hmet := h.isAllMet_iff e he
  refine ⟨hmet, fun hkept => ?_⟩
  have hstep : Relaxation.noAlreadyMet.keeps e =
      (Relaxation.noRunOnly.keeps e && !e.isAllMet) := rfl
  rw [hstep, hkept, Bool.true_and, Bool.not_eq_false', hmet]

end PlanGraph

namespace Sample

def fetching : Resolvent := ⟨"app/a", some "0", .slash⟩

def fetched : Resolvent := ⟨"app/b", some "0", .slash⟩

def bareNodes : PlanGraph := .ofNodes [fetching, fetched]

/-- One package fetches from another one, which is not there, and that one is built with the first
one, which is there. -/
def fetchCauses : List (Resolvent × Resolvent × Cause) :=
  [(fetching, fetched, .dependency [.fetch] false), (fetched, fetching, .dependency [.build] true),
    (fetching, fetched, .dependency [.post] false)]

theorem exists_fetch_edge : ∃ e, (bareNodes.addCauses fetchCauses).edge? fetching fetched = some e ∧
    Relaxation.noRunOnly.keeps e = true ∧ e.isAllMet = true := by
  refine ⟨(Cause.dependency [.fetch] false).edge, ?_, ?_, ?_⟩ <;> decide +kernel

end Sample

namespace PlanGraph

theorem isAllMet_iff_causes_fetching :
    Sample.bareNodes.edge? Sample.fetching Sample.fetched = none ∧
      ∃ e, (Sample.bareNodes.addCauses Sample.fetchCauses).edge? Sample.fetching Sample.fetched =
        some e ∧ Relaxation.noRunOnly.keeps e = true ∧ Relaxation.noAlreadyMet.keeps e = false := by
  have hnone : Sample.bareNodes.edge? Sample.fetching Sample.fetched = none := by decide +kernel
  obtain ⟨e, he, hkept, hmet⟩ := Sample.exists_fetch_edge
  obtain ⟨hiff, hdrop⟩ := (isAllMet_iff_causes hnone).2 e he
  exact ⟨hnone, e, he, hkept, (hdrop hkept).2 (hiff.1 hmet)⟩

/-- An edge can count as met although something that is not there has to be fetched. -/
theorem unmet_fetch_counts_as_met : ¬ ∀ (g : PlanGraph) (a b : Resolvent)
    (causes : List (Resolvent × Resolvent × Cause)) (e : Edge), g.edge? a b = none →
      (g.addCauses causes).edge? a b = some e →
        (e.isAllMet = true ↔
          ∀ c, (a, b, c) ∈ causes → c.MetFor [.build, .test, .fetch, .run]) := by
  intro hall
  obtain ⟨e, he, -, hmet⟩ := Sample.exists_fetch_edge
  have hfetch := (hall _ _ _ _ e (by decide +kernel) he).1 hmet
    (.dependency [.fetch] false) (.head _) ⟨.fetch, by decide, by decide⟩
  cases hfetch

end PlanGraph

end PackagePlan
