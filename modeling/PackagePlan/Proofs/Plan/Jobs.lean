import PackagePlan.Proofs.Graph.Edges
import PackagePlan.Proofs.Plan.Outcome
import PackagePlan.Proofs.Plan.Schedule

/-! # Jobs and decisions

A plan has one job for every change or removal that is taken, and none for
anything else. The graph has a node for each of them, ordering the graph loses
none, and a job keeps its decision when it gets its requirements.
-/

namespace PackagePlan

open Registry

section Decisions

variable {reg : Registry} {r : Resolvent} {p : Decision → Bool}

theorem Registry.nodup_decisions (reg : Registry) : ((decisions reg).map (·.1)).Nodup := by
  refine List.pairwise_map.2 (List.pairwise_filterMap.2 (reg.pairwise_keys_ne.imp ?_))
  rintro ⟨r, res⟩ ⟨r', res'⟩ hne e he e' he'
  obtain ⟨_, -, rfl⟩ := Option.map_eq_some_iff.1 he
  obtain ⟨_, -, rfl⟩ := Option.map_eq_some_iff.1 he'
  exact hne

theorem mem_deciding_iff : r ∈ (Plan.deciding reg p).map (·.1) ↔
    ∃ d, reg.decision? r = some d ∧ p d = true := by
  simp only [Plan.deciding, List.mem_map, List.mem_filter, Prod.exists, exists_and_right,
    exists_eq_right, mem_decisions_iff]

theorem nodup_deciding : ((Plan.deciding reg p).map (·.1)).Nodup :=
  reg.nodup_decisions.sublist (List.filter_sublist.map _)

theorem mem_jobNodes_iff : r ∈ reg.jobNodes ↔ ∃ d, reg.decision? r = some d ∧ d.isJob = true :=
  mem_deciding_iff

end Decisions

namespace PlanGraph

variable {g : PlanGraph} {reg : Registry}

theorem mem_nodes_ofRegistry {r : Resolvent} : r ∈ (ofRegistry reg).nodes.toList ↔
    ∃ d, reg.decision? r = some d ∧ d.isScheduled = true := by
  have hnodes : (ofRegistry reg).nodes =
      .ofList ((Plan.deciding reg Decision.isScheduled).map (·.1)) := by
    rw [ofRegistry, addReplacements_nodes, foldl_nodes fun _ _ => addResolution_nodes]
    rfl
  rw [hnodes, OrderedSet.mem_toList_iff, OrderedSet.contains_ofList, mem_deciding_iff]

end PlanGraph

/-- The first two lists are merged into the third, each in its own order. -/
inductive Interleaves {α : Type} : List α → List α → List α → Prop
  | nil : Interleaves [] [] []
  | left {a : α} {xs ys zs : List α} : Interleaves xs ys zs → Interleaves (a :: xs) ys (a :: zs)
  | right {a : α} {xs ys zs : List α} : Interleaves xs ys zs → Interleaves xs (a :: ys) (a :: zs)

theorem interleaves_filter {α β : Type} (f : α → β) (p : α → Bool) (l : List α) :
    Interleaves ((l.filter (!p ·)).map f) ((l.filter p).map f) (l.map f) := by
  induction l with
  | nil => exact .nil
  | cons a l ih =>
    cases h : p a with
    | false => simpa [h] using ih.left
    | true => simpa [h] using ih.right

namespace Plan

variable {g : PlanGraph} {reg : Registry} {s : Schedule} {r : Resolvent} {policy : Policy}

def task (j : Job) : Resolvent × JobKind × Decision := (j.resolvent, j.kind, j.decision)

def task? (reg : Registry) (r : Resolvent) : Option (Resolvent × JobKind × Decision) := do
  let d ← reg.decision? r
  let kind ← JobKind.ofDecision? r d
  some (r, kind, d)

theorem task?_eq_some_iff {r' : Resolvent} {kind : JobKind} {d : Decision} :
    task? reg r = some (r', kind, d) ↔
      r = r' ∧ reg.decision? r = some d ∧ JobKind.ofDecision? r d = some kind := by
  simp only [task?, bind, Option.bind_eq_some_iff, Option.some.injEq, Prod.mk.injEq]
  constructor
  · rintro ⟨d, hd, kind, hk, rfl, rfl, rfl⟩
    exact ⟨rfl, hd, hk⟩
  · rintro ⟨rfl, hd, hk⟩
    exact ⟨d, hd, kind, hk, rfl, rfl, rfl⟩

theorem task_ofNode? (n : ScheduledNode) :
    (Job.ofNode? reg s n).map task = task? reg n.resolvent := by
  rw [Job.ofNode?, task?]
  cases reg.decision? n.resolvent with
  | none => rfl
  | some d =>
    cases h : JobKind.ofDecision? n.resolvent d <;> simp [h, task]

theorem task_completeJob (jobs done : List Job) (j : Job) :
    (completeJob g jobs done j).map task = done.map task ++ [task j] :=
  List.map_append

theorem task_foldl_completeJob (jobs l done : List Job) :
    (l.foldl (completeJob g jobs) done).map task = done.map task ++ l.map task := by
  induction l generalizing done with
  | nil => simp
  | cons j l ih => rw [List.foldl_cons, ih, task_completeJob, List.append_assoc]; rfl

/-- There is a job for each node of the schedule whose decision calls for one. -/
theorem task_executeJobs :
    (executeJobs reg g s).map task = (s.order.map (·.resolvent)).filterMap (task? reg) := by
  rw [executeJobs, task_foldl_completeJob, List.map_filterMap, List.filterMap_map]
  exact List.filterMap_congr fun n _ => task_ofNode? n

theorem task?_isSome_iff : (task? reg r).isSome = true ↔
    ∃ d, reg.decision? r = some d ∧ d.isChange = true := by
  rw [task?]
  cases reg.decision? r with
  | none => simp
  | some d => cases d <;> simp [JobKind.ofDecision?, Decision.isChange]

theorem resolvents_executeJobs : (executeJobs reg g s).map (·.resolvent) =
    (s.order.map (·.resolvent)).filter fun r => (task? reg r).isSome := by
  have hmap : (executeJobs reg g s).map (·.resolvent) =
      ((executeJobs reg g s).map task).map (·.1) := by
    rw [List.map_map]
    rfl
  rw [hmap, task_executeJobs, List.map_filterMap, ← List.filterMap_eq_filter]
  refine List.filterMap_congr fun r _ => ?_
  cases h : task? reg r with
  | none => simp [Option.guard, h]
  | some t =>
    obtain ⟨r', kind, d⟩ := t
    obtain ⟨rfl, -⟩ := task?_eq_some_iff.1 h
    simp [Option.guard, h]

/-- What a plan does carries out what is decided in the registry, and every change that is decided
there is done. -/
structure Complete (p : Plan) (reg : Registry) : Prop where
  nodup : (p.execute.map (·.resolvent)).Nodup
  mem_iff : ∀ r, r ∈ p.execute.map (·.resolvent) ↔
    (∃ c, reg.decision? r = some (.change c) ∧ c.taken = true) ∨
      ∃ c, reg.decision? r = some (.remove c) ∧ c.taken = true
  decision : ∀ j ∈ p.execute, reg.decision? j.resolvent = some j.decision
  kind : ∀ j ∈ p.execute,
    (∃ c, j.decision = .change c ∧
      j.kind = if j.resolvent.destination = .binary then .createBinary else .install) ∨
        ∃ c, j.decision = .remove c ∧ j.kind = .uninstall
  untaken_nodup : (p.untaken.map (·.resolvent)).Nodup
  mem_untaken_iff : ∀ r, r ∈ p.untaken.map (·.resolvent) ↔
    ∃ c, reg.decision? r = some (.change c) ∧ c.taken = false
  untaken : ∀ j ∈ p.untaken, j.kind = .untakenInstall ∧
    reg.decision? j.resolvent = some j.decision
  interleaved : Interleaves p.readyIds p.failingIds (p.execute.map Job.id)
  unable : ∀ r rejections, reg.decision? r = some (.unable rejections true) → r ∈ p.takenUnable

theorem mem_order_iff (d : Decided) : r ∈ (d.schedule policy).order.map (·.resolvent) ↔
    ∃ x, d.registry.decision? r = some x ∧ x.isJob = true := by
  rw [Decided.schedule, Schedule.ofGraph_perm.mem_iff, List.mem_filter, List.contains_iff_mem,
    mem_jobNodes_iff, Decided.graph, PlanGraph.mem_nodes_ofRegistry]
  refine ⟨fun h => h.2, fun ⟨x, hx, hjob⟩ => ⟨⟨x, hx, ?_⟩, x, hx, hjob⟩⟩
  obtain ⟨ht, hc⟩ := Bool.and_eq_true_iff.1 hjob
  cases x <;> simp_all [Decision.isScheduled, Decision.isChange, Decision.isUnable]

theorem resolvents_execute (d : Decided) : (d.plan policy).execute.map (·.resolvent) =
    (d.schedule policy).order.map (·.resolvent) := by
  rw [Decided.plan, ofSchedule, resolvents_executeJobs]
  refine List.filter_eq_self.2 fun r hr => ?_
  obtain ⟨x, hx, hjob⟩ := (mem_order_iff d).1 hr
  exact task?_isSome_iff.2 ⟨x, hx, (Bool.and_eq_true_iff.1 hjob).2⟩

theorem task_of_mem_execute {d : Decided} {j : Job} (hj : j ∈ (d.plan policy).execute) :
    d.registry.decision? j.resolvent = some j.decision ∧
      JobKind.ofDecision? j.resolvent j.decision = some j.kind := by
  have hmem : task j ∈ (d.plan policy).execute.map task := List.mem_map_of_mem hj
  rw [Decided.plan, ofSchedule, task_executeJobs] at hmem
  obtain ⟨r, -, hr⟩ := List.mem_filterMap.1 hmem
  obtain ⟨rfl, h⟩ := task?_eq_some_iff.1 hr
  exact h

theorem untaken_map_resolvent (d : Decided) : (d.plan policy).untaken.map (·.resolvent) =
    (deciding d.registry isUntakenChange).map (·.1) := by
  rw [Decided.plan, ofSchedule, List.map_map]
  rfl

theorem complete_plan (d : Decided) : (d.plan policy).Complete d.registry where
  nodup := by
    rw [resolvents_execute]
    exact Schedule.ofGraph_perm.nodup_iff.2 (d.graph.nodes.nodup_toList.filter _)
  mem_iff r := by
    rw [resolvents_execute, mem_order_iff]
    constructor
    · rintro ⟨x, hx, hjob⟩
      obtain ⟨ht, hc⟩ := Bool.and_eq_true_iff.1 hjob
      cases x with
      | change c => exact .inl ⟨c, hx, ht⟩
      | remove c => exact .inr ⟨c, hx, ht⟩
      | _ => cases hc
    · rintro (⟨c, hc, ht⟩ | ⟨c, hc, ht⟩)
      · exact ⟨_, hc, Bool.and_eq_true_iff.2 ⟨ht, rfl⟩⟩
      · exact ⟨_, hc, Bool.and_eq_true_iff.2 ⟨ht, rfl⟩⟩
  decision j hj := (task_of_mem_execute hj).1
  kind j hj := by
    have hk := (task_of_mem_execute hj).2
    cases hd : j.decision with
    | change c =>
      rw [hd] at hk
      exact .inl ⟨c, rfl, (Option.some.inj hk).symm⟩
    | remove c =>
      rw [hd] at hk
      exact .inr ⟨c, rfl, (Option.some.inj hk).symm⟩
    | _ =>
      rw [hd] at hk
      cases hk
  untaken_nodup := by
    rw [untaken_map_resolvent]
    exact nodup_deciding
  mem_untaken_iff r := by
    rw [untaken_map_resolvent, mem_deciding_iff]
    constructor
    · rintro ⟨x, hx, hu⟩
      cases x with
      | change c => exact ⟨c, hx, by simpa [isUntakenChange] using hu⟩
      | _ => cases hu
    · rintro ⟨c, hc, ht⟩
      exact ⟨_, hc, by simp [isUntakenChange, ht]⟩
  untaken j hj := by
    obtain ⟨⟨r, x⟩, hx, rfl⟩ := List.mem_map.1 hj
    exact ⟨rfl, mem_decisions_iff.1 (List.mem_filter.1 hx).1⟩
  interleaved := interleaves_filter _ _ _
  unable r rejections hr := mem_takenUnable_iff.2 ⟨_, hr, rfl, rfl⟩

end Plan

/-- Every change that a request comes to is carried out by exactly one job, and ordering a graph
loses no node. -/
theorem plan_complete {q : Request} {db : Database} {policy : Policy} {seeds : Seeds}
    {maxRestarts : Nat} {p : Plan} (h : q.plan db policy seeds maxRestarts = .ok p) :
    (∃ decided, q.decide db policy seeds maxRestarts = .ok decided ∧
      p.registry = decided.registry ∧ p.Complete decided.registry) ∧
      ∀ (g : PlanGraph) (urgency : Resolvent → Option Urgency) (isJob : Resolvent → Bool),
        ((Schedule.ofGraph g urgency isJob).order.map (·.resolvent)).Perm
          (g.nodes.toList.filter isJob) := by
  obtain ⟨decided, hd, rfl⟩ := plan_eq_ok_iff.1 h
  exact ⟨⟨decided, hd, rfl, Plan.complete_plan decided⟩, fun _ _ _ => Schedule.ofGraph_perm⟩

theorem plan_complete_sample : ∃ decided p,
    Sample.request.decide Sample.database Sample.preferences.policy {} 10 = .ok decided ∧
      Sample.request.plan Sample.database Sample.preferences.policy {} 10 = .ok p ∧
        p.Complete decided.registry ∧
          ⟨"app", some "0", .slash⟩ ∈ p.execute.map (·.resolvent) := by
  obtain ⟨decided, res, c, _, _, hd, -, hr, hc, ht, -⟩ := Sample.exists_installed
  obtain ⟨⟨decided', hd', -, hcomplete⟩, -⟩ := plan_complete (plan_of_decide hd)
  obtain rfl : decided = decided' := Except.ok.inj (hd.symm.trans hd')
  exact ⟨decided, _, hd, plan_of_decide hd, hcomplete,
    (hcomplete.mem_iff _).2 (.inl ⟨c, decision?_eq_some_iff.2 ⟨res, hr, hc⟩, ht⟩)⟩

end PackagePlan
