import PackagePlan.Proofs.Plan.Jobs

/-! # Ids of jobs

The id of a job is a text made of its kind and its resolvent. Names and slots
may contain the colon that stands between them, so that two resolvents can be
written alike. Jobs that are not are told apart by their ids.
-/

namespace PackagePlan

theorem Text.eq_or_extends {p q s t : List Char} (h : p ++ ':' :: s = q ++ ':' :: t) :
    (p = q ∧ s = t) ∨ ∃ u, q = p ++ ':' :: u ∧ s = u ++ ':' :: t ∨
      p = q ++ ':' :: u ∧ t = u ++ ':' :: s := by
  rcases List.append_eq_append_iff.1 h with ⟨u, hq, hs⟩ | ⟨u, hp, ht⟩
  · cases u with
    | nil => exact .inl ⟨by simpa using hq.symm, (List.cons.inj hs).2⟩
    | cons c u =>
      obtain ⟨rfl, hs'⟩ := List.cons.inj hs
      exact .inr ⟨u, .inl ⟨hq, hs'⟩⟩
  · cases u with
    | nil => exact .inl ⟨by simpa using hp, (List.cons.inj ht).2.symm⟩
    | cons c u =>
      obtain ⟨rfl, ht'⟩ := List.cons.inj ht
      exact .inr ⟨u, .inr ⟨hp, ht'⟩⟩

namespace Resolvent

/-- The second resolvent is written like the first: its package takes in the slot of the first, or
a part of it. -/
inductive TakesIn : Resolvent → Resolvent → Prop
  | whole (name : PackageName) (slot : SlotName) (d : Destination) :
      TakesIn ⟨name, some slot, d⟩ ⟨name ++ ":" ++ slot, none, d⟩
  | part (name : PackageName) (first slot : SlotName) (d : Destination) :
      TakesIn ⟨name, some (first ++ ":" ++ slot), d⟩ ⟨name ++ ":" ++ first, some slot, d⟩

def Alike (a b : Resolvent) : Prop := a.TakesIn b ∨ b.TakesIn a

def label (r : Resolvent) : String := r.package ++ (r.slot.map (":" ++ ·)).getD ""

variable {a b : Resolvent}

theorem TakesIn.label_eq (h : a.TakesIn b) : a.label = b.label ∧ a.destination = b.destination := by
  cases h <;> simp [label, String.append_assoc]

/-- The labels of different resolvents are the same only if a colon within a name or a slot reads
like the one between them. -/
theorem label_eq_iff : a.label = b.label ∧ a.destination = b.destination ↔ a = b ∨ a.Alike b := by
  constructor
  · rintro ⟨h, hd⟩
    obtain ⟨p, s, d⟩ := a
    obtain ⟨q, t, d'⟩ := b
    obtain rfl : d = d' := hd
    cases s with
    | none =>
      cases t with
      | none => exact .inl (by simpa [label] using h)
      | some t =>
        obtain rfl : p = q ++ ":" ++ t := by simpa [label, String.append_assoc] using h
        exact .inr (.inr (.whole q t d))
    | some s =>
      cases t with
      | none =>
        obtain rfl : q = p ++ ":" ++ s := by simpa [label, String.append_assoc] using h.symm
        exact .inr (.inl (.whole p s d))
      | some t =>
        have h : p.toList ++ ':' :: s.toList = q.toList ++ ':' :: t.toList := by
          simpa [label] using congrArg String.toList h
        rcases Text.eq_or_extends h with ⟨hp, hs⟩ | ⟨u, ⟨hq, hs⟩ | ⟨hp, ht⟩⟩
        · exact .inl (by rw [String.toList_inj.1 hp, String.toList_inj.1 hs])
        · obtain rfl : q = p ++ ":" ++ String.ofList u := String.toList_inj.1 (by simp [hq])
          obtain rfl : s = String.ofList u ++ ":" ++ t := String.toList_inj.1 (by simp [hs])
          exact .inr (.inl (.part p _ t d))
        · obtain rfl : p = q ++ ":" ++ String.ofList u := String.toList_inj.1 (by simp [hp])
          obtain rfl : t = String.ofList u ++ ":" ++ s := String.toList_inj.1 (by simp [ht])
          exact .inr (.inr (.part q _ s d))
  · rintro (rfl | h | h)
    · exact ⟨rfl, rfl⟩
    · exact h.label_eq
    · exact ⟨h.label_eq.1.symm, h.label_eq.2.symm⟩

theorem eq_of_append_sign {x y : List Char} {d d' : Destination}
    (h : x ++ d.sign.toList = y ++ d'.sign.toList) : d = d' := by
  have hlast := congrArg List.getLast? h
  cases d <;> cases d' <;> first | rfl | simp [Destination.sign] at hlast

theorem render_eq_iff : a.render = b.render ↔ a = b ∨ a.Alike b := by
  rw [← label_eq_iff]
  constructor
  · intro h
    have hr : a.label ++ " -> " ++ a.destination.sign = b.label ++ " -> " ++ b.destination.sign := h
    have hd : a.destination = b.destination := by
      have hl := congrArg String.toList hr
      simp only [String.toList_append] at hl
      exact eq_of_append_sign hl
    rw [hd, String.append_left_inj, String.append_left_inj] at hr
    exact ⟨hr, hd⟩
  · rintro ⟨hl, hd⟩
    change a.label ++ " -> " ++ a.destination.sign = b.label ++ " -> " ++ b.destination.sign
    rw [hl, hd]

theorem not_alike_of_noColon (ha : ':' ∉ a.package.toList) (hb : ':' ∉ b.package.toList) :
    ¬ a.Alike b := by
  rintro (h | h)
  · cases h <;> simp at hb
  · cases h <;> simp at ha

end Resolvent

def Job.Alike (j j' : Job) : Prop := j.kind = j'.kind ∧ j.resolvent.Alike j'.resolvent

section

variable {j j' : Job}

theorem JobKind.colon_notMem_name (k : JobKind) : ':' ∉ k.name.toList := by
  cases k <;> simp [name]

theorem JobKind.eq_of_name_eq {k k' : JobKind} (h : k.name = k'.name) : k = k' := by
  cases k <;> cases k' <;> first | rfl | simp [name] at h

theorem Job.id_eq_iff :
    j.id = j'.id ↔ j.kind = j'.kind ∧ (j.resolvent = j'.resolvent ∨
      j.resolvent.Alike j'.resolvent) := by
  rw [← Resolvent.render_eq_iff]
  constructor
  · intro h
    have hl : j.kind.name.toList ++ ':' :: j.resolvent.render.toList =
        j'.kind.name.toList ++ ':' :: j'.resolvent.render.toList := by
      simpa [Job.id] using congrArg String.toList h
    -- The kinds have no colon, so that the first one ends them both.
    rcases Text.eq_or_extends hl with ⟨hk, hr⟩ | ⟨u, ⟨hk, -⟩ | ⟨hk, -⟩⟩
    · exact ⟨JobKind.eq_of_name_eq (String.toList_inj.1 hk), String.toList_inj.1 hr⟩
    · exact absurd (by simp [hk]) j'.kind.colon_notMem_name
    · exact absurd (by simp [hk]) j.kind.colon_notMem_name
  · rintro ⟨hk, hr⟩
    rw [Job.id, Job.id, hk, hr]

end

namespace Plan

variable {p : Plan} {reg : Registry} {before after : List Job} {j : Job}

theorem Complete.pairwise (h : p.Complete reg) :
    p.jobs.Pairwise fun j j' => j.kind ≠ j'.kind ∨ j.resolvent ≠ j'.resolvent := by
  refine List.pairwise_append.2 ⟨(List.pairwise_map.1 h.nodup).imp .inr,
    (List.pairwise_map.1 h.untaken_nodup).imp .inr, fun j hj j' hj' => .inl ?_⟩
  rw [(h.untaken j' hj').1]
  rcases h.kind j hj with ⟨c, -, hk⟩ | ⟨c, -, hk⟩
  · rw [hk]
    split <;> simp
  · simp [hk]

theorem Complete.pairwise_id (h : p.Complete reg) :
    p.jobs.Pairwise fun j j' => j.id = j'.id ↔ j.Alike j' := by
  refine h.pairwise.imp fun {j j'} hne => ?_
  rw [Job.id_eq_iff, Job.Alike]
  refine and_congr_right fun hk => or_iff_right fun hr => ?_
  rcases hne with hne | hne
  · exact hne hk
  · exact hne hr

theorem Complete.job?_id_iff (h : p.Complete reg) (hp : p.jobs = before ++ j :: after) :
    p.job? j.id = some j ↔ ∀ j' ∈ before, ¬ j'.Alike j := by
  have hid : ∀ j' ∈ before, (j'.id = j.id ↔ j'.Alike j) := fun j' hj' =>
    (List.pairwise_append.1 (hp ▸ h.pairwise_id)).2.2 j' hj' j (.head _)
  rw [job?, hp, List.find?_append]
  cases hf : before.find? (·.id == j.id) with
  | none =>
    have hne : ∀ j' ∈ before, ¬ j'.id = j.id := by simpa using hf
    simp only [Option.none_or, List.find?_cons, beq_self_eq_true, true_iff]
    exact fun j' hj' ha => hne j' hj' ((hid j' hj').2 ha)
  | some j' =>
    have hj' : j' ∈ before := List.mem_of_find?_eq_some hf
    have ha : j'.Alike j := (hid j' hj').1 (by simpa using List.find?_some hf)
    have hne : j' ≠ j := by
      rintro rfl
      rcases (List.pairwise_append.1 (hp ▸ h.pairwise)).2.2 j' hj' j' (.head _) with hk | hr
      · exact hk rfl
      · exact hr rfl
    simp only [Option.some_or, Option.some.injEq, hne, false_iff]
    exact fun hn => hn j' hj' ha

end Plan

/-- Jobs of a plan have the same id exactly if they are of one kind and their resolvents are written
alike, and an id leads to its job unless such a job comes before. Where no name has a colon, all ids
are different and each leads to its job. -/
theorem jobs_told_apart {q : Request} {db : Database} {policy : Policy} {seeds : Seeds}
    {maxRestarts : Nat} {p : Plan} (h : q.plan db policy seeds maxRestarts = .ok p) :
    p.jobs.Pairwise (fun j j' => j.id = j'.id ↔ j.Alike j') ∧
      (∀ before j after, p.jobs = before ++ j :: after →
        (p.job? j.id = some j ↔ ∀ j' ∈ before, ¬ j'.Alike j)) ∧
      ((∀ j ∈ p.jobs, ':' ∉ j.resolvent.package.toList) →
        p.jobs.Pairwise (fun j j' => j.id ≠ j'.id) ∧ ∀ j ∈ p.jobs, p.job? j.id = some j) := by
  obtain ⟨decided, -, rfl⟩ := plan_eq_ok_iff.1 h
  have hc : (decided.plan policy).Complete decided.registry := Plan.complete_plan decided
  refine ⟨hc.pairwise_id, fun _ _ _ hp => hc.job?_id_iff hp, fun hn => ?_⟩
  have hna : ∀ j ∈ (decided.plan policy).jobs, ∀ j' ∈ (decided.plan policy).jobs, ¬ j.Alike j' :=
    fun j hj j' hj' ha => Resolvent.not_alike_of_noColon (hn j hj) (hn j' hj') ha.2
  refine ⟨hc.pairwise_id.imp_of_mem fun hj hj' hid he => hna _ hj _ hj' (hid.1 he), fun j hj => ?_⟩
  obtain ⟨before, after, hp⟩ := List.append_of_mem hj
  refine (hc.job?_id_iff hp).2 fun j' hj' => hna j' ?_ j hj
  rw [hp]
  exact List.mem_append_left _ hj'

namespace Sample

/-- `a` has a slot `b:c`, and `a:b`, which needs something that does not exist, a slot `c`. -/
def ambiguous : Database :=
  (Database.empty.insert { id "a" .source with slot := some "b:c" } .nothing).insert
    { id "a:b" .source with slot := some "c" } (.package (.named "none"))

def bothOfThem : Request :=
  { targets := [(.named "a", .target),
      ({ Requirement.named "a:b" with slot := some "c" }, .target)] }

def mistakes (p : Plan) : Bool :=
  match p.jobs with
  | [j, j'] => j.id == j'.id && !j.isError && j'.isError
  | _ => false

theorem exists_mistaken : ∃ p j j', bothOfThem.plan ambiguous preferences.policy {} 10 = .ok p ∧
    p.jobs = [j, j'] ∧ j.id = j'.id ∧ j.isError = false ∧ j'.isError = true := by
  obtain ⟨p, hp, h⟩ := exists_eq_ok (x := bothOfThem.plan ambiguous preferences.policy {} 10)
    (f := mistakes) (by decide +kernel)
  unfold mistakes at h
  split at h
  · next j j' hj =>
    simp only [Bool.and_eq_true, beq_iff_eq, Bool.not_eq_true'] at h
    exact ⟨p, j, j', hp, hj, h.1.1, h.1.2, h.2⟩
  · cases h

end Sample

theorem jobs_told_apart_sample : ∃ p,
    Sample.request.plan Sample.database Sample.preferences.policy {} 10 = .ok p ∧
      (∀ j ∈ p.jobs, ':' ∉ j.resolvent.package.toList) ∧ p.jobs.length = 3 ∧
        ∀ j ∈ p.jobs, p.job? j.id = some j := by
  obtain ⟨p, hp, h⟩ := exists_eq_ok
    (x := Sample.request.plan Sample.database Sample.preferences.policy {} 10)
    (f := fun p => p.jobs.length == 3 && p.jobs.all (!·.resolvent.package.toList.contains ':'))
    (by decide +kernel)
  obtain ⟨hl, hn⟩ := Bool.and_eq_true_iff.1 h
  have hn : ∀ j ∈ p.jobs, ':' ∉ j.resolvent.package.toList := by simpa using hn
  exact ⟨p, hp, hn, by simpa using hl, ((jobs_told_apart hp).2.2 hn).2⟩

/-- The job for `a:b` fails, but its id is that of the job for `a`, which does not. -/
theorem job_ids_ambiguous :
    (¬ ∀ (q : Request) (db : Database) (policy : Policy) (seeds : Seeds) (maxRestarts : Nat)
      (p : Plan), q.plan db policy seeds maxRestarts = .ok p →
        p.jobs.Pairwise fun j j' => j.id ≠ j'.id) ∧
    ¬ ∀ (q : Request) (db : Database) (policy : Policy) (seeds : Seeds) (maxRestarts : Nat)
      (p : Plan), q.plan db policy seeds maxRestarts = .ok p → ∀ j ∈ p.jobs,
        p.job? j.id = some j := by
  obtain ⟨p, j, j', hp, hj, hid, he, he'⟩ := Sample.exists_mistaken
  constructor
  · intro h
    have hne := h _ _ _ _ _ p hp
    rw [hj] at hne
    exact List.rel_of_pairwise_cons hne (.head _) hid
  · intro h
    have hj' : j' ∈ p.jobs := by
      rw [hj]
      exact .tail _ (.head _)
    have hfound : p.job? j'.id = some j' := h _ _ _ _ _ p hp j' hj'
    rw [Plan.job?, hj, List.find?_cons, hid, beq_self_eq_true] at hfound
    obtain rfl := Option.some.inj hfound
    rw [he] at he'
    cases he'

end PackagePlan
