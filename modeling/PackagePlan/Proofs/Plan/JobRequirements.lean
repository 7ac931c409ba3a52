import PackagePlan.Proofs.Ordered.Sorting
import PackagePlan.Proofs.Plan.Arrows
import PackagePlan.Proofs.Plan.Jobs

/-! # What jobs require

A job is completed with what the search from it finds: it requires the earlier
ones of the jobs that the graph leads to from it, each once and in order.
-/

namespace PackagePlan

namespace RequirementKinds

variable {e f : Edge} {k l : RequirementKinds} {name : String}

/-- The kinds are those of the edges for which `P` holds, taken together. -/
def Unites (k : RequirementKinds) (P : Edge → Prop) : Prop :=
  ∀ name, name ∈ k.names ↔ ∃ e, P e ∧ name ∈ (ofEdge e).names

theorem mem_names_iff : name ∈ k.names ↔
    (k.forSatisfied = true ∧ name = "require-for-satisfied") ∨
      (k.forIndependent = true ∧ name = "require-for-independent") ∨
        (k.always = true ∧ name = "require-always") ∨
          (k.fetching = true ∧ name = "fetching") := by
  obtain ⟨_ | _, _ | _, _ | _, _ | _⟩ := k <;> simp [names]

theorem mem_names_always_iff : "require-always" ∈ k.names ↔ k.always = true := by
  simp [mem_names_iff]

theorem names_subset (hs : k.forSatisfied = true → l.forSatisfied = true)
    (hi : k.forIndependent = true → l.forIndependent = true)
    (ha : k.always = true → l.always = true) (hf : k.fetching = true → l.fetching = true) :
    k.names ⊆ l.names := by
  intro name
  simp only [mem_names_iff]
  exact Or.imp (And.imp_left hs) (Or.imp (And.imp_left hi) (Or.imp (And.imp_left ha)
    (And.imp_left hf)))

theorem names_subset_merge : (ofEdge e).names ⊆ (ofEdge (e.merge f)).names ∧
    (ofEdge f).names ⊆ (ofEdge (e.merge f)).names := by
  constructor <;> refine names_subset ?_ (fun _ => rfl) ?_ ?_ <;>
    simp only [ofEdge, Edge.merge, Edge.isRelevant, Edge.isEmpty_union] <;> grind

theorem names_merge_subset (he : e.MetIfAbsent) (hf : f.MetIfAbsent)
    (h : name ∈ (ofEdge (e.merge f)).names) :
    name ∈ (ofEdge e).names ∨ name ∈ (ofEdge f).names := by
  have := he.build
  have := he.run
  have := hf.build
  have := hf.run
  simp only [mem_names_iff, ofEdge, Edge.merge, Edge.isRelevant, Edge.isEmpty_union] at h ⊢
  grind

theorem exists_of_merged {P : Edge → Prop} (hP : ∀ f, P f → f.MetIfAbsent) (h : e.Merged P)
    (hn : name ∈ (ofEdge e).names) : ∃ f, P f ∧ name ∈ (ofEdge f).names := by
  induction h with
  | single he => exact ⟨_, he, hn⟩
  | merge he hf ih =>
    obtain hn | hn := names_merge_subset (he.metIfAbsent hP) (hP _ hf) hn
    · exact ih hn
    · exact ⟨_, hf, hn⟩

end RequirementKinds

namespace Plan

open PlanGraph

variable {g : PlanGraph} {jobs done l : List Job} {arrows : OrderedMap Resolvent Edge}
  {r : Resolvent} {e : Edge} {i j : Nat} {job : Job} {req : JobRequirement}

def hasJob (p : Plan) (r : Resolvent) : Bool := p.execute.any (·.resolvent == r)

section Found

theorem findIdx?_resolvent_eq_some_iff (hn : (jobs.map (·.resolvent)).Nodup) :
    jobs.findIdx? (·.resolvent == r) = some j ↔
      ∃ required, jobs[j]? = some required ∧ required.resolvent = r := by
  rw [List.findIdx?_eq_some_iff_getElem]
  constructor
  · rintro ⟨hj, hr, -⟩
    exact ⟨jobs[j], List.getElem?_eq_getElem hj, eq_of_beq hr⟩
  · rintro ⟨required, hj, rfl⟩
    obtain ⟨hlt, rfl⟩ := List.getElem?_eq_some_iff.1 hj
    refine ⟨hlt, beq_self_eq_true _, fun k hk heq => ?_⟩
    have hmap : (jobs.map (·.resolvent))[k]? = (jobs.map (·.resolvent))[j]? := by
      rw [List.getElem?_map, List.getElem?_map, List.getElem?_eq_getElem (hk.trans hlt),
        List.getElem?_eq_getElem hlt, Option.map_some, Option.map_some, eq_of_beq heq]
    have hkj : k = j := (List.getElem?_inj (by rw [List.length_map]; omega) hn).1 hmap
    omega

def requirement? (jobs : List Job) (i : Nat) (arrow : Resolvent × Edge) : Option JobRequirement :=
  match jobs.findIdx? (·.resolvent == arrow.1) with
  | some j => if j < i then some ⟨j, RequirementKinds.ofEdge arrow.2⟩ else none
  | none => none

theorem requirementsAt_eq : requirementsAt jobs i arrows =
    sortBy (fun a b => compare a.index b.index) (arrows.entries.filterMap (requirement? jobs i)) :=
  rfl

theorem requirement?_eq_some_iff (hn : (jobs.map (·.resolvent)).Nodup) :
    requirement? jobs i (r, e) = some req ↔ req.index < i ∧
      (∃ required, jobs[req.index]? = some required ∧ required.resolvent = r) ∧
        req.kinds = RequirementKinds.ofEdge e := by
  obtain ⟨k, kinds⟩ := req
  constructor
  · intro h
    unfold requirement? at h
    split at h
    · next j hj =>
      split at h
      · next hlt =>
        obtain ⟨rfl, rfl⟩ := JobRequirement.mk.inj (Option.some.inj h)
        exact ⟨hlt, (findIdx?_resolvent_eq_some_iff hn).1 hj, rfl⟩
      · cases h
    · cases h
  · rintro ⟨hlt, hk, rfl⟩
    simp only [requirement?, (findIdx?_resolvent_eq_some_iff hn).2 hk]
    exact if_pos hlt

instance : Std.TransCmp fun a b : JobRequirement => compare a.index b.index :=
  inferInstanceAs (Std.TransCmp (compareOn JobRequirement.index))

theorem mem_requirementsAt_iff (hn : (jobs.map (·.resolvent)).Nodup) :
    req ∈ requirementsAt jobs i arrows ↔ req.index < i ∧ ∃ required e,
      jobs[req.index]? = some required ∧ arrows.get? required.resolvent = some e ∧
        req.kinds = RequirementKinds.ofEdge e := by
  rw [requirementsAt_eq, mem_sortBy]
  simp only [List.mem_filterMap, Prod.exists, OrderedMap.mem_entries_iff,
    requirement?_eq_some_iff hn]
  constructor
  · rintro ⟨_, e, he, hlt, ⟨required, hreq, rfl⟩, hk⟩
    exact ⟨hlt, required, e, hreq, he, hk⟩
  · rintro ⟨hlt, required, e, hreq, he, hk⟩
    exact ⟨_, e, he, hlt, ⟨required, hreq, rfl⟩, hk⟩

theorem pairwise_requirementsAt (hn : (jobs.map (·.resolvent)).Nodup) :
    (requirementsAt jobs i arrows).Pairwise (·.index < ·.index) := by
  have hne : (requirementsAt jobs i arrows).Pairwise (·.index ≠ ·.index) := by
    rw [requirementsAt_eq]
    refine (sortBy_perm _ _).symm.pairwise ?_ fun h => h.symm
    refine List.pairwise_filterMap.2 (arrows.pairwise_keys_ne.imp ?_)
    rintro ⟨r, e⟩ ⟨r', e'⟩ hrr' req hreq req' hreq' heq
    obtain ⟨-, ⟨required, hr, rfl⟩, -⟩ := (requirement?_eq_some_iff hn).1 hreq
    obtain ⟨-, ⟨required', hr', rfl⟩, -⟩ := (requirement?_eq_some_iff hn).1 hreq'
    rw [heq, hr'] at hr
    exact hrr' (congrArg Job.resolvent (Option.some.inj hr)).symm
  refine ((pairwise_sortBy _ _).and hne).imp fun ⟨hle, hne⟩ => ?_
  exact Nat.lt_of_le_of_ne (Nat.compare_ne_gt.1 hle) hne

end Found

section Completed

def completed (g : PlanGraph) (jobs before : List Job) (job : Job) : Job :=
  let found := ArrowSearch.start g (fun r => jobs.any (·.resolvent == r)) job.resolvent
  let requirements := requirementsAt jobs before.length found.arrows
  { job with requirements, errors := errorsOf before job requirements found.unable.toList }

theorem completeJob_eq : completeJob g jobs done job = done ++ [completed g jobs done job] := rfl

theorem prefix_foldl_completeJob : done <+: l.foldl (completeJob g jobs) done := by
  induction l generalizing done with
  | nil => exact List.prefix_rfl
  | cons job l ih =>
    rw [List.foldl_cons, completeJob_eq]
    exact (List.prefix_append _ _).trans ih

/-- What is added to the jobs that are done has been completed when those before it were done. -/
theorem exists_completed (h : (l.foldl (completeJob g jobs) done)[i]? = some job)
    (hi : done.length ≤ i) : ∃ bare,
      job = completed g jobs ((l.foldl (completeJob g jobs) done).take i) bare := by
  induction l generalizing done with
  | nil =>
    rw [List.foldl_nil, List.getElem?_eq_none hi] at h
    cases h
  | cons bare l ih =>
    rw [List.foldl_cons, completeJob_eq] at h ⊢
    have hprefix : done ++ [completed g jobs done bare] <+:
        l.foldl (completeJob g jobs) (done ++ [completed g jobs done bare]) :=
      prefix_foldl_completeJob
    obtain ⟨t, ht⟩ := hprefix
    obtain rfl | hlt := Nat.eq_or_lt_of_le hi
    · refine ⟨bare, ?_⟩
      rw [← ht] at h ⊢
      simpa [eq_comm] using h
    · exact ih h (by rwa [List.length_append, List.length_singleton])

theorem requirementsAt_congr {jobs' : List Job}
    (h : jobs.map (·.resolvent) = jobs'.map (·.resolvent)) :
    requirementsAt jobs i arrows = requirementsAt jobs' i arrows := by
  have hidx : ∀ r, jobs.findIdx? (·.resolvent == r) = jobs'.findIdx? (·.resolvent == r) :=
    fun r => by
      have hmap : ∀ l : List Job, l.findIdx? (·.resolvent == r) =
          (l.map (·.resolvent)).findIdx? (· == r) := fun l => by
        rw [List.findIdx?_map]
        rfl
      rw [hmap, hmap, h]
  simp only [requirementsAt, hidx]

end Completed

section Execute

variable {d : Decided} {policy : Policy} {p : Plan}

theorem hasJob_iff : p.hasJob r = true ↔ ∃ job ∈ p.execute, job.resolvent = r := by
  simp only [hasJob, List.any_eq_true, beq_iff_eq]

def search (p : Plan) (g : PlanGraph) (job : Job) : ArrowSearch :=
  ArrowSearch.start g p.hasJob job.resolvent

theorem nodup_execute : ((d.plan policy).execute.map (·.resolvent)).Nodup :=
  (complete_plan d).nodup

theorem completed_of_getElem? (h : (d.plan policy).execute[i]? = some job) :
    job.requirements = requirementsAt (d.plan policy).execute i
        ((d.plan policy).search d.graph job).arrows ∧
      job.errors = errorsOf ((d.plan policy).execute.take i) job job.requirements
        ((d.plan policy).search d.graph job).unable.toList := by
  have hlt : i < (d.plan policy).execute.length := (List.getElem?_eq_some_iff.1 h).1
  set jobs := (d.schedule policy).order.filterMap (Job.ofNode? d.registry (d.schedule policy))
    with hjobs
  have hexecute : (d.plan policy).execute = jobs.foldl (completeJob d.graph jobs) [] := rfl
  have hres : (d.plan policy).execute.map (·.resolvent) = jobs.map (·.resolvent) := by
    have htask : (d.plan policy).execute.map task = jobs.map task := by
      rw [hexecute, task_foldl_completeJob, List.map_nil, List.nil_append]
    simpa only [List.map_map, Function.comp_def, task] using congrArg (List.map (·.1)) htask
  have hhas : (fun r => jobs.any (·.resolvent == r)) = (d.plan policy).hasJob := by
    funext r
    have hmap : ∀ l : List Job, l.any (·.resolvent == r) = (l.map (·.resolvent)).any (· == r) :=
      fun l => by rw [List.any_map]; rfl
    rw [hasJob, hmap, hmap, hres]
  obtain ⟨bare, rfl⟩ := exists_completed (hexecute ▸ h) (Nat.zero_le i)
  rw [← hexecute, completed, hhas, List.length_take, Nat.min_eq_left hlt.le]
  exact ⟨(requirementsAt_congr hres).symm, rfl⟩

theorem mem_requirements_iff (h : (d.plan policy).execute[i]? = some job) :
    req ∈ job.requirements ↔ req.index < i ∧ ∃ required e,
      (d.plan policy).execute[req.index]? = some required ∧
        ((d.plan policy).search d.graph job).arrows.get? required.resolvent = some e ∧
          req.kinds = RequirementKinds.ofEdge e := by
  rw [(completed_of_getElem? h).1, mem_requirementsAt_iff nodup_execute]

theorem exists_requirement_iff (hi : (d.plan policy).execute[i]? = some job) :
    (∃ req ∈ job.requirements, req.index = j) ↔ j < i ∧ ∃ required,
      (d.plan policy).execute[j]? = some required ∧
        d.graph.LeadsTo (d.plan policy).hasJob job.resolvent required.resolvent := by
  have hg : d.graph.Wired := wired_ofRegistry d.registry
  simp only [mem_requirements_iff hi]
  constructor
  · rintro ⟨req, ⟨hlt, required, e, hj, he, -⟩, rfl⟩
    have hfound := (ArrowSearch.contains_arrows_iff hg).1 (Option.isSome_iff_exists.2 ⟨e, he⟩)
    exact ⟨hlt, required, hj, hfound.2⟩
  · rintro ⟨hlt, required, hj, hleads⟩
    have hjob : (d.plan policy).hasJob required.resolvent = true :=
      hasJob_iff.2 ⟨required, List.mem_of_getElem? hj, rfl⟩
    obtain ⟨e, he⟩ := Option.isSome_iff_exists.1
      ((ArrowSearch.contains_arrows_iff hg).2 ⟨hjob, hleads⟩)
    exact ⟨⟨j, .ofEdge e⟩, ⟨hlt, required, e, hj, he, rfl⟩, rfl⟩

theorem requirements_ascending (hjob : job ∈ (d.plan policy).execute) :
    job.requirements.Pairwise (·.index < ·.index) := by
  obtain ⟨i, hi⟩ := List.mem_iff_getElem?.1 hjob
  rw [(completed_of_getElem? hi).1]
  exact pairwise_requirementsAt nodup_execute

end Execute

structure Traces (p : Plan) (g : PlanGraph) : Prop where
  requires_iff : ∀ (i : Nat) (job : Job), p.execute[i]? = some job → ∀ j,
    (∃ req ∈ job.requirements, req.index = j) ↔ j < i ∧ ∃ required,
      p.execute[j]? = some required ∧ g.LeadsTo p.hasJob job.resolvent required.resolvent
  ascending : ∀ job ∈ p.execute, job.requirements.Pairwise (·.index < ·.index)
  requirements_iff : ∀ i j : Nat, (∃ kinds, (i, j, kinds) ∈ p.requirements) ↔
    j < i ∧ ∃ job required, p.execute[i]? = some job ∧ p.execute[j]? = some required ∧
      g.LeadsTo p.hasJob job.resolvent required.resolvent

/-- Whatever has been decided, each job requires exactly the earlier jobs that the graph leads to
from it, directly or through nodes that have no job. -/
theorem traces_graph (d : Decided) (policy : Policy) : (d.plan policy).Traces d.graph where
  requires_iff _ _ hi _ := exists_requirement_iff hi
  ascending _ hjob := requirements_ascending hjob
  requirements_iff i j := by
    simp only [requirements, List.mem_flatMap, List.mem_map, Prod.exists,
      List.mem_zipIdx_iff_getElem?, Prod.mk.injEq]
    constructor
    · rintro ⟨kinds, job, i, hi, req, hreq, rfl, rfl, rfl⟩
      obtain ⟨hlt, required, hj, hleads⟩ := (exists_requirement_iff hi).1 ⟨req, hreq, rfl⟩
      exact ⟨hlt, job, required, hi, hj, hleads⟩
    · rintro ⟨hlt, job, required, hi, hj, hleads⟩
      obtain ⟨req, hreq, rfl⟩ := (exists_requirement_iff hi).2 ⟨hlt, required, hj, hleads⟩
      exact ⟨req.kinds, job, i, hi, req, hreq, rfl, rfl, rfl⟩

end Plan

end PackagePlan
