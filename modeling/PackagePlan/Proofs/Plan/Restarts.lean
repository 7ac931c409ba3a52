import PackagePlan.Proofs.Plan.Outcome

/-! # What is kept over restarts

Attempts are repeated with the constraints that their restarts carry over. So
what is decided in the end has all of these constraints, and the bound on
restarts has no part in it: it only says how many of them are too many.
-/

namespace PackagePlan

open Setting Registry Request

variable {q : Request} {db : Database} {policy : Policy} {seeds seeds' : Seeds} {log : RestartLog}
  {restarts : List Restart} {R : Restart} {σ : Setting} {s : DecidingState} {reg : Registry}
  {decided : Decided} {r : Resolvent} {res : Resolution} {c : Constraint}

section Bound

theorem finish_ne_limit {count : Nat} {cycle : List String} :
    finish σ s ≠ .error (.restartLimit count cycle) := by
  rw [finish]
  split <;> simp

/-- The limit is exceeded by the first restart that is one too many. -/
theorem decideFrom_eq_limit_iff {count : Nat} {cycle : List String}
    (hl : log.restarts.length ≤ log.limit) :
    q.decideFrom db policy log = .error (.restartLimit count cycle) ↔
      ∃ more seeds', Retries q db policy log.seeds more seeds' ∧
        (log.restarts ++ more).length = log.limit + 1 ∧
          Restarts.limitError (log.restarts ++ more) = .restartLimit count cycle := by
  constructor
  · intro h
    fun_induction decideFrom q db policy log with
    | case1 log σ s ha =>
      cases hf : finish σ s with
      | ok reg => rw [hf] at h; cases h
      | error e =>
        rw [hf] at h
        obtain rfl := Except.error.inj h
        exact absurd hf finish_ne_limit
    | case2 => cases h
    | case3 log σ R s ha log' e hlog =>
      obtain ⟨hge, -, rfl⟩ := RestartLog.record_eq_some_iff.1 hlog
      refine ⟨[R], _, .restart ha .none, ?_, Except.error.inj h⟩
      rw [List.length_append, Nat.le_antisymm hl hge]
      rfl
    | case4 log σ R s ha log' hlog ih =>
      obtain ⟨hlt, rfl⟩ := RestartLog.record_eq_none_iff.1 hlog
      obtain ⟨more, seeds', hr, hlen, he⟩ := ih (RestartLog.length_add_le_iff.2 hlt) h
      rw [RestartLog.add, List.append_assoc] at hlen he
      exact ⟨R :: more, seeds', .restart ha hr, hlen, he⟩
  · rintro ⟨more, seeds', hr, hlen, he⟩
    generalize hseeds : log.seeds = seeds at hr
    induction hr generalizing log with
    | none =>
      rw [List.append_nil] at hlen
      omega
    | @restart _ _ R _ more ha hr ih =>
      subst hseeds
      rcases Nat.lt_or_ge log.restarts.length log.limit with hlt | hge
      · rw [← List.singleton_append, ← List.append_assoc] at hlen he
        rw [decideFrom_of_lt hlt ha]
        exact ih (RestartLog.length_add_le_iff.2 hlt) hlen he rfl
      · obtain rfl : more = [] := by
          rw [List.length_append, List.length_cons] at hlen
          exact List.eq_nil_of_length_eq_zero (by omega)
        rw [decideFrom_of_ge hge ha]
        exact congrArg Except.error he

theorem decide_eq_limit_iff {maxRestarts count : Nat} {cycle : List String} :
    q.decide db policy seeds maxRestarts = .error (.restartLimit count cycle) ↔
      ∃ restarts seeds', Retries q db policy seeds restarts seeds' ∧
        restarts.length = maxRestarts + 1 ∧
          Restarts.limitError restarts = .restartLimit count cycle :=
  decideFrom_eq_limit_iff (Nat.zero_le _)

theorem Retries.take (h : Retries q db policy seeds restarts seeds') (n : Nat) :
    ∃ seeds'', Retries q db policy seeds (restarts.take n) seeds'' := by
  induction h generalizing n with
  | none => exact ⟨_, by simpa using .none⟩
  | restart ha _ ih =>
    cases n with
    | zero => exact ⟨_, .none⟩
    | succ n =>
      obtain ⟨seeds'', h⟩ := ih n
      exact ⟨seeds'', .restart ha h⟩

/-- Another bound either makes no difference or is exceeded. -/
theorem decide_of_ok {maxRestarts : Nat} (h : q.decide db policy seeds maxRestarts = .ok decided)
    (other : Nat) : q.decide db policy seeds other =
      if decided.restarts.length ≤ other then .ok decided
      else .error (Restarts.limitError (decided.restarts.take (other + 1))) := by
  obtain ⟨seeds', s, hr, -, o⟩ := decide_eq_ok_iff.1 h
  split
  · next hle => exact decide_eq_ok_iff.2 ⟨seeds', s, hr, hle, o⟩
  · next hlt =>
    obtain ⟨seeds'', hr⟩ := hr.take (other + 1)
    refine decide_eq_limit_iff.2 ⟨_, seeds'', hr, ?_, rfl⟩
    rw [List.length_take]
    omega

end Bound

section Lessons

/-- The constraint that was carried over is one of those of its resolvent, and what is chosen there
meets it. -/
def Registry.Heeds (reg : Registry) (R : Restart) : Prop :=
  ∀ res, reg.get? R.resolvent = some res → R.carried ∈ res.constraints ∧
    (∀ k, res.decision = some (.existing k) → R.carried.accepts k.id = true) ∧
      ∀ ch, res.decision = some (.change ch) → R.carried.accepts ch.id = true

theorem learntFor_of_learn {r' : Resolvent} {c' : Constraint} (h : c ∈ seeds.learntFor r) :
    c ∈ (seeds.learn r' c').learntFor r := by
  rw [learntFor_learn]
  split
  · next he => exact List.mem_append_left _ (he ▸ h)
  · exact h

theorem Retries.learntFor_mono (h : Retries q db policy seeds restarts seeds')
    (hc : c ∈ seeds.learntFor r) : c ∈ seeds'.learntFor r := by
  induction h with
  | none => exact hc
  | restart _ _ ih => exact ih (learntFor_of_learn hc)

theorem Retries.learnt (h : Retries q db policy seeds restarts seeds') :
    ∀ R ∈ restarts, R.carried ∈ seeds'.learntFor R.resolvent := by
  induction h with
  | none => exact List.forall_mem_nil _
  | restart _ h ih =>
    refine List.forall_mem_cons.2 ⟨h.learntFor_mono ?_, ih⟩
    rw [learntFor_learn, if_pos rfl]
    exact List.mem_append_right _ (List.mem_singleton_self _)

theorem Outcome.heeds (o : Outcome q σ s reg) (hc : R.carried ∈ σ.seeds.learntFor R.resolvent) :
    reg.Heeds R := by
  intro res hr
  obtain ⟨d₀, d, hd, hcd, ha⟩ := o.arises hr
  have hm : R.carried ∈ res.constraints := ha.seeded (List.mem_append_right _ hc)
  have hs : σ.Suits R.resolvent res.constraints d₀ := (ha.suits rfl).1
  refine ⟨hm, fun k hk => ?_, fun ch hch => ?_⟩
  · obtain rfl := Option.some.inj (hd.symm.trans hk)
    cases hcd
    exact hs.2 _ hm
  · obtain rfl := Option.some.inj (hd.symm.trans hch)
    cases hcd
    exact hs.2.2.1 _ hm

end Lessons

/-- What is decided heeds every restart, of which there are no more than the bound allows, and is
the same under every higher bound. Where the bound is exceeded it is by one. -/
theorem restarts_heeded (q : Request) (db : Database) (policy : Policy) (seeds : Seeds)
    (maxRestarts : Nat) :
    (∀ decided, q.decide db policy seeds maxRestarts = .ok decided →
      decided.restarts.length ≤ maxRestarts ∧
        (∀ R ∈ decided.restarts, decided.registry.Heeds R) ∧
          ∀ higher ≥ maxRestarts, q.decide db policy seeds higher = .ok decided) ∧
    ∀ count cycle, q.decide db policy seeds maxRestarts = .error (.restartLimit count cycle) →
      count = maxRestarts + 1 := by
  constructor
  · intro decided h
    obtain ⟨seeds', s, hr, hl, o⟩ := decide_eq_ok_iff.1 h
    refine ⟨hl, fun R hR => o.heeds (hr.learnt R hR), fun higher hle => ?_⟩
    rw [decide_of_ok h, if_pos (Nat.le_trans hl hle)]
  · intro count cycle h
    obtain ⟨restarts, seeds', -, hl, he⟩ := decide_eq_limit_iff.1 h
    obtain ⟨hcount, -⟩ := PlanError.restartLimit.inj he
    rw [← hcount, hl]

namespace Sample

/-- `top` needs `common`, which is installed, and `user`, which needs it from another repository. -/
def conflicting : Database :=
  (((Database.empty.insert (id "top" .source)
    (.all [.package (.named "common"), .package (.named "user")])).insert (id "user" .source)
      (.package { Requirement.named "common" with repository := some "extra" })).insert
        (id "common" (.installed .slash)) .nothing).insert
          { id "common" .source with repository := "extra" } .nothing

def requestTop : Request := { targets := [(.named "top", .target)] }

def changesAfterRestart (decided : Decided) : Bool :=
  match decided.restarts with
  | [R] =>
    match decided.registry.decision? R.resolvent with
    | some (.change _) => true
    | _ => false
  | _ => false

theorem exists_learnt : ∃ decided R res ch,
    requestTop.decide conflicting preferences.policy {} 1 = .ok decided ∧
      decided.restarts = [R] ∧ decided.registry.get? R.resolvent = some res ∧
        res.decision = some (.change ch) := by
  obtain ⟨decided, hd, h⟩ := exists_eq_ok
    (x := requestTop.decide conflicting preferences.policy {} 1) (f := changesAfterRestart)
    (by decide +kernel)
  unfold changesAfterRestart at h
  split at h
  · next R hR =>
    split at h
    · next ch hch =>
      obtain ⟨res, hr, hres⟩ := decision?_eq_some_iff.1 hch
      exact ⟨decided, R, res, ch, hd, hR, hr, hres⟩
    · cases h
  · cases h

end Sample

theorem restarts_heeded_repository : ∃ decided R res ch,
    Sample.requestTop.decide Sample.conflicting Sample.preferences.policy {} 1 = .ok decided ∧
      decided.restarts = [R] ∧ decided.registry.get? R.resolvent = some res ∧
        res.decision = some (.change ch) ∧ R.carried ∈ res.constraints ∧
          R.carried.accepts ch.id = true ∧
        Sample.requestTop.decide Sample.conflicting Sample.preferences.policy {} 9000 =
          .ok decided ∧
        ∃ count cycle, Sample.requestTop.decide Sample.conflicting Sample.preferences.policy {} 0 =
          .error (.restartLimit count cycle) ∧ count = 0 + 1 := by
  obtain ⟨decided, R, res, ch, hd, hR, hr, hch⟩ := Sample.exists_learnt
  obtain ⟨-, hheeds, hhigher⟩ := (restarts_heeded _ _ _ _ 1).1 decided hd
  obtain ⟨hm, -, ha⟩ := hheeds R (hR ▸ .head _) res hr
  have h₀ := decide_of_ok hd 0
  rw [hR, if_neg (by simp)] at h₀
  exact ⟨decided, R, res, ch, hd, hR, hr, hch, hm, ha ch hch, hhigher 9000 (by omega), _, _, h₀,
    (restarts_heeded _ _ _ _ 0).2 _ _ h₀⟩

end PackagePlan
