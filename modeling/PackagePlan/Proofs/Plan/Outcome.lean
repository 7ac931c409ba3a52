import PackagePlan.Policy.Preferences
import PackagePlan.Proofs.Deciding.Closure
import PackagePlan.Proofs.Deciding.Placement

/-! # What has been decided

What is decided for a request is what the last of several attempts came to,
with places and confirmations. Each attempt starts with the constraints of the
request and with those that the attempts before it have found necessary.
-/

namespace PackagePlan

open Setting Registry Request Constraints

inductive Reached (db : Database) (policy : Policy) (seeds : Seeds) : Seeds → Prop
  | start : Reached db policy seeds seeds
  | learn {seeds' : Seeds} {r : Resolvent} {c : Constraint} (h : Reached db policy seeds seeds')
      (hc : Raised ⟨db, policy, seeds'⟩ r c) :
      Reached db policy seeds (seeds'.learn r c.forRestart)

/-- The registry is what an attempt came to, with places and confirmations. -/
structure Outcome (q : Request) (σ : Setting) (s : DecidingState) (reg : Registry) : Prop where
  attempt : q.attempt σ = .ok s
  finish : finish σ s = .ok reg

/-- Everything could be decided, and nothing is broken. -/
def Registry.Intact (reg : Registry) : Prop :=
  ∀ r d, reg.decision? r = some d → d.isUnable = false ∧ ∀ b, d ≠ .broken b

def Registry.isIntact (reg : Registry) : Bool :=
  reg.decisions.all fun (_, d) =>
    match d with
    | .unable .. | .broken _ => false
    | _ => true

theorem intact_of_isIntact {reg : Registry} (h : reg.isIntact = true) : reg.Intact := by
  intro r d hd
  have hm := List.all_eq_true.1 h (r, d) (mem_decisions_iff.2 hd)
  cases d <;> simp_all [Decision.isUnable]

variable {q : Request} {db : Database} {policy : Policy} {seeds seeds' seeds'' : Seeds}
  {log : RestartLog} {restarts : List Restart} {R : Restart} {decided : Decided} {σ : Setting}
  {s : DecidingState} {reg : Registry} {r : Resolvent} {res : Resolution} {d : Decision}

theorem learntFor_learn {r' : Resolvent} {c : Constraint} :
    (seeds.learn r c).learntFor r' =
      if r' = r then seeds.learntFor r ++ [c] else seeds.learntFor r' := by
  simp only [Seeds.learn, Seeds.learntFor, OrderedMap.getD, OrderedMap.get?_alter]
  split <;> rfl

/-- Attempts that start from `seeds` suggest these restarts one after the other, which leads to
`seeds'`. -/
inductive Retries (q : Request) (db : Database) (policy : Policy) :
    Seeds → List Restart → Seeds → Prop
  | none {seeds : Seeds} : Retries q db policy seeds [] seeds
  | restart {seeds seeds' : Seeds} {R : Restart} {s : DecidingState} {restarts : List Restart}
      (ha : q.attempt ⟨db, policy, seeds⟩ = .error (.restart R s))
      (h : Retries q db policy (seeds.learn R.resolvent R.carried) restarts seeds') :
      Retries q db policy seeds (R :: restarts) seeds'

/-- What is decided is what the first attempt without a restart comes to, if there are not too many
restarts before it. -/
theorem decideFrom_eq_ok_iff (hl : log.restarts.length ≤ log.limit) :
    q.decideFrom db policy log = .ok decided ↔
      ∃ more seeds' s, Retries q db policy log.seeds more seeds' ∧
        decided.restarts = log.restarts ++ more ∧ decided.restarts.length ≤ log.limit ∧
          Outcome q ⟨db, policy, seeds'⟩ s decided.registry := by
  constructor
  · intro h
    fun_induction decideFrom q db policy log with
    | case1 log σ s ha =>
      obtain ⟨reg, hf, rfl⟩ := map_eq_ok_iff.1 h
      exact ⟨[], log.seeds, s, .none, (List.append_nil _).symm, hl, ha, hf⟩
    | case2 | case3 => cases h
    | case4 log σ R s ha log' hlog ih =>
      obtain ⟨hlt, rfl⟩ := RestartLog.record_eq_none_iff.1 hlog
      obtain ⟨more, seeds', s', hr, hd, hle, o⟩ := ih (RestartLog.length_add_le_iff.2 hlt) h
      exact ⟨R :: more, seeds', s', .restart ha hr, hd.trans (List.append_assoc ..), hle, o⟩
  · rintro ⟨more, seeds', s, hr, hd, hle, o⟩
    generalize hseeds : log.seeds = seeds at hr
    induction hr generalizing log with
    | none =>
      subst hseeds
      rw [List.append_nil] at hd
      rw [decideFrom_of_ok o.attempt, o.finish, ← hd]
      rfl
    | @restart _ _ R _ more ha _ ih =>
      subst hseeds
      have hlt : log.restarts.length < log.limit := by
        rw [hd, List.length_append, List.length_cons] at hle
        omega
      rw [decideFrom_of_lt hlt ha]
      exact ih (RestartLog.length_add_le_iff.2 hlt) (hd.trans (List.append_cons ..)) hle o rfl

theorem decide_eq_ok_iff {maxRestarts : Nat} :
    q.decide db policy seeds maxRestarts = .ok decided ↔
      ∃ seeds' s, Retries q db policy seeds decided.restarts seeds' ∧
        decided.restarts.length ≤ maxRestarts ∧
          Outcome q ⟨db, policy, seeds'⟩ s decided.registry := by
  rw [Request.decide, decideFrom_eq_ok_iff (Nat.zero_le _)]
  constructor
  · rintro ⟨more, seeds', s, hr, hd, hl, o⟩
    exact ⟨seeds', s, hd ▸ hr, hl, o⟩
  · rintro ⟨seeds', s, hr, hl, o⟩
    exact ⟨decided.restarts, seeds', s, hr, rfl, hl, o⟩

theorem plan_eq_ok_iff {maxRestarts : Nat} {p : Plan} :
    q.plan db policy seeds maxRestarts = .ok p ↔
      ∃ decided, q.decide db policy seeds maxRestarts = .ok decided ∧ decided.plan policy = p :=
  map_eq_ok_iff

theorem plan_of_decide {maxRestarts : Nat}
    (h : q.decide db policy seeds maxRestarts = .ok decided) :
    q.plan db policy seeds maxRestarts = .ok (decided.plan policy) :=
  plan_eq_ok_iff.2 ⟨decided, h, rfl⟩

theorem Retries.reached (h : Retries q db policy seeds' restarts seeds'')
    (hs : Reached db policy seeds seeds') : Reached db policy seeds seeds'' := by
  induction h with
  | none => exact hs
  | @restart seeds' _ R s _ ha _ ih =>
    obtain ⟨hR, hc⟩ : Setting.Raised ⟨db, policy, seeds'⟩ R.resolvent R.problem ∧
      R.carried = R.problem.forRestart := attempt_sound.of_error ha
    exact ih (hc ▸ hs.learn hR)

theorem decide_outcome {maxRestarts : Nat}
    (h : q.decide db policy seeds maxRestarts = .ok decided) :
    ∃ seeds' s, Reached db policy seeds seeds' ∧
      Outcome q ⟨db, policy, seeds'⟩ s decided.registry := by
  obtain ⟨seeds', s, hr, -, o⟩ := decide_eq_ok_iff.1 h
  exact ⟨seeds', s, hr.reached .start, o⟩

/-- What is true of every constraint when it comes up, and stays true over restarts. -/
structure Inherent (db : Database) (policy : Policy) (P : Resolvent → Constraint → Prop) :
    Prop where
  preset : ∀ r preset, P r (Seeds.ofPreset r preset)
  raised : ∀ {seeds r c}, Raised ⟨db, policy, seeds⟩ r c → P r c
  breakage : ∀ id reason, P (.ofId id .slash) (breakConstraint id reason)
  restart : ∀ {r c}, P r c → P r c.forRestart

namespace Inherent

variable {P : Resolvent → Constraint → Prop} {presets : List Requirement} {c : Constraint}
  (hP : Inherent db policy P)

include hP

theorem of_learnt (h : Reached db policy { presets } seeds) :
    ∀ r, ∀ c ∈ seeds.learntFor r, P r c := by
  induction h with
  | start => exact fun r c hc => by cases hc
  | learn _ hc ih =>
    intro r' c' hc'
    rw [learntFor_learn] at hc'
    split at hc'
    · next he =>
      subst he
      rcases List.mem_append.1 hc' with hc' | hc'
      · exact ih _ c' hc'
      · cases List.mem_singleton.1 hc'
        exact hP.restart (hP.raised hc)
    · exact ih r' c' hc'

theorem of_seed (h : Reached db policy { presets } seeds)
    (hc : c ∈ seeds.constraintsFor db r) : P r c := by
  rcases List.mem_append.1 hc with hc | hc
  · obtain ⟨preset, -, rfl⟩ := List.mem_map.1 hc
    exact hP.preset r preset
  · exact hP.of_learnt h r c hc

theorem of_arises (h : Reached db policy { presets } seeds)
    (ha : Arises ⟨db, policy, seeds⟩ r res) : ∀ c ∈ res.constraints, P r c := by
  induction ha with
  | seed => exact fun c hc => hP.of_seed h hc
  | step _ hs ih =>
    cases hs with
    | constrain hc =>
      exact List.forall_mem_append.2 ⟨ih, List.forall_mem_singleton.2 (hP.raised hc)⟩
    | decide => exact ih
    | breakage hr =>
      exact List.forall_mem_append.2 ⟨ih, List.forall_mem_singleton.2 (hr ▸ hP.breakage _ _)⟩

end Inherent

namespace Outcome

variable (o : Outcome q σ s reg)

include o

theorem resolution (hr : reg.get? r = some res) :
    ∃ d₀ d, s.registry.get? r = some { constraints := res.constraints, decision := some d₀ } ∧
      res.decision = some d ∧ σ.Completed r d₀ d := by
  obtain ⟨hg, hc⟩ := finish_get? (r := r) o.finish
  rw [hg] at hr
  obtain ⟨⟨cs, dec⟩, hr₀, rfl⟩ := Option.map_eq_some_iff.1 hr
  obtain ⟨d₀, hd₀⟩ := (attempt_settled o.attempt).decided hr₀
  obtain rfl : dec = some d₀ := hd₀
  obtain ⟨d, hd, hcd⟩ := hc _ hr₀ d₀ rfl
  exact ⟨d₀, d, hr₀, hd, hcd⟩

theorem arises (hr : reg.get? r = some res) :
    ∃ d₀ d, res.decision = some d ∧ σ.Completed r d₀ d ∧
      σ.Arises r { constraints := res.constraints, decision := some d₀ } := by
  obtain ⟨d₀, d, hr₀, hd, hc⟩ := o.resolution hr
  exact ⟨d₀, d, hd, hc, attempt_sound.of_ok o.attempt r _ hr₀⟩

theorem suits (hr : reg.get? r = some res) :
    ∃ d₀ d, res.decision = some d ∧ σ.Completed r d₀ d ∧ σ.Suits r res.constraints d₀ ∧
      d.taken = !allUntaken res.constraints := by
  obtain ⟨d₀, d, hd, hc, ha⟩ := o.arises hr
  obtain ⟨hs, ht⟩ := ha.suits rfl
  exact ⟨d₀, d, hd, hc, hs, (completed_taken hc).trans ht⟩

theorem suits_of_decision (hd : reg.decision? r = some d) :
    ∃ res d₀, reg.get? r = some res ∧ σ.Completed r d₀ d ∧ σ.Suits r res.constraints d₀ := by
  obtain ⟨res, hr, hres⟩ := decision?_eq_some_iff.1 hd
  obtain ⟨d₀, d', hd', hc, hs, -⟩ := o.suits hr
  obtain rfl := Option.some.inj (hd'.symm.trans hres)
  exact ⟨res, d₀, hr, hc, hs⟩

theorem records_iff {c : Constraint} : reg.Records r c ↔ s.registry.Records r c := by
  simp only [Records, (finish_get? o.finish).1, Option.map_eq_some_iff]
  constructor
  · rintro ⟨_, ⟨res, hres, rfl⟩, hc⟩
    exact ⟨res, hres, hc⟩
  · rintro ⟨res, hres, hc⟩
    exact ⟨_, ⟨res, hres, rfl⟩, hc⟩

theorem decision (hd : reg.decision? r = some d) :
    ∃ d₀, s.registry.decision? r = some d₀ ∧ σ.Completed r d₀ d := by
  obtain ⟨res, hr, hres⟩ := decision?_eq_some_iff.1 hd
  obtain ⟨d₀, d', hr₀, hd', hc⟩ := o.resolution hr
  obtain rfl := Option.some.inj (hd'.symm.trans hres)
  exact ⟨d₀, decision?_eq_some_iff.2 ⟨_, hr₀, rfl⟩, hc⟩

theorem completed {d₀ : Decision} (hd : s.registry.decision? r = some d₀) :
    ∃ d, reg.decision? r = some d ∧ σ.Completed r d₀ d := by
  obtain ⟨res, hr, hres⟩ := decision?_eq_some_iff.1 hd
  obtain ⟨hg, hc⟩ := finish_get? (r := r) o.finish
  obtain ⟨d, hd, hcd⟩ := hc res hr d₀ hres
  rw [hr, Option.map_some] at hg
  exact ⟨d, decision?_eq_some_iff.2 ⟨_, hg, hd⟩, hcd⟩

end Outcome

theorem mem_takenUnable_iff {decided : Decided} :
    r ∈ (decided.plan policy).takenUnable ↔
      ∃ d, decided.registry.decision? r = some d ∧ d.isUnable = true ∧ d.taken = true := by
  simp only [Decided.plan, Plan.ofSchedule, Plan.deciding, List.mem_map, List.mem_filter,
    Bool.and_eq_true]
  constructor
  · rintro ⟨⟨r, d⟩, ⟨hd, hu⟩, rfl⟩
    exact ⟨d, mem_decisions_iff.1 hd, hu⟩
  · rintro ⟨d, hd, hu⟩
    exact ⟨(r, d), ⟨mem_decisions_iff.2 hd, hu⟩, rfl⟩

namespace Sample

def version (n : Nat) : Version :=
  { text := toString n, components := [n], letter := none, suffixes := [], revision := 0 }

def id (name : PackageName) (origin : Origin) : PackageId :=
  { name, version := version 1, slot := some "0", repository := "main", origin
    masked := false, transient := false, choices := ∅ }

def preferences : Preferences :=
  { targetDestination := .slash, promoteBinaries := false, keep := {}, permits := {}, rules := {}
    repositories := OrderedMap.empty.insert .slash "installed", keepInstalled := []
    reinstall := [], presumed := [], hidden := [], notUsable := [], protectedIds := []
    removeIfDependent := [], noRestartsFor := [], early := [], late := [], viaBinary := [] }

/-- `app` needs `lib` and blocks `old`, which is installed. -/
def database : Database :=
  ((Database.empty.insert (id "app" .source)
    (.all [.package (.named "lib"), .blocker ⟨.named "old", false⟩])).insert
      (id "lib" .source) .nothing).insert (id "old" (.installed .slash)) .nothing

theorem database_built : database.Built := .insert (.insert (.insert .empty _ _) _ _) _ _

def request : Request := { targets := [(.named "app", .target)] }

example : ((request.decide database preferences.policy {} 10).toOption.map fun decided =>
    decided.registry.decisions.map fun (r, d) => (r.package, d.kind)) =
      some [("app", "change"), ("lib", "change"), ("old", "remove")] := by
  decide +kernel

def installsApp (decided : Decided) : Bool :=
  decided.registry.isIntact &&
    (decided.registry.get? ⟨"app", some "0", .slash⟩).any fun res =>
      match res.decision with
      | some (.change c) => c.taken &&
          match database.treeOf c.id with
          | .all [.package _, .blocker _] => true
          | _ => false
      | _ => false

theorem exists_installed : ∃ decided res c req b,
    request.decide database preferences.policy {} 10 = .ok decided ∧
      decided.registry.Intact ∧ decided.registry.get? ⟨"app", some "0", .slash⟩ = some res ∧
        res.decision = some (.change c) ∧ c.taken = true ∧
          database.treeOf c.id = .all [.package req, .blocker b] := by
  obtain ⟨decided, hd, h⟩ := exists_eq_ok (x := request.decide database preferences.policy {} 10)
    (f := installsApp) (by decide +kernel)
  obtain ⟨hok, h⟩ := Bool.and_eq_true_iff.1 h
  obtain ⟨res, hr, h⟩ := (Option.any_eq_true _ _).1 h
  split at h
  · next c hc =>
    obtain ⟨ht, h⟩ := Bool.and_eq_true_iff.1 h
    split at h
    · next req b htree =>
      exact ⟨decided, res, c, req, b, hd, intact_of_isIntact hok, hr, hc, ht, htree⟩
    · cases h
  · cases h

end Sample

end PackagePlan
