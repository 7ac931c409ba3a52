import PackagePlan.Proofs.Deciding.Termination
import PackagePlan.Proofs.Plan.Outcome

/-! # Planning comes to an end

Where the policy removes nothing only because it depends on something that is
removed, no attempt goes on for ever. So planning stops with a plan, or with a
reason that says what stands in its way.
-/

namespace PackagePlan

open Setting

variable {q : Request} {db : Database} {policy : Policy} {seeds : Seeds}

/-- Every attempt ends, with everything decided and nothing pending or with a restart. -/
theorem attempt_ends (hpolicy : ∀ id, policy.removesDependent id = false) :
    (∃ s, q.attempt ⟨db, policy, seeds⟩ = .ok s ∧ Settled s) ∨
      ∃ R s, q.attempt ⟨db, policy, seeds⟩ = .error (.restart R s) := by
  have hhalts : Ensures (q.attempt ⟨db, policy, seeds⟩) (fun _ => True) (· ≠ .endless) :=
    attempt_halts hpolicy
  cases h : q.attempt ⟨db, policy, seeds⟩ with
  | ok s => exact .inl ⟨s, rfl, attempt_settled h⟩
  | error e =>
    cases e with
    | restart R s => exact .inr ⟨R, s, rfl⟩
    | endless => exact absurd rfl (hhalts.of_error h)

theorem attempt_ends_sample :
    (∀ id, Sample.preferences.policy.removesDependent id = false) ∧
      ((∃ s, Sample.request.attempt ⟨Sample.database, Sample.preferences.policy, {}⟩ = .ok s ∧
          Settled s) ∨
        ∃ R s, Sample.request.attempt ⟨Sample.database, Sample.preferences.policy, {}⟩ =
          .error (.restart R s)) :=
  ⟨fun _ => rfl, attempt_ends fun _ => rfl⟩

inductive PlanError.Final : PlanError → Prop
  | noDestination (e : NoDestination) : Final (.noDestination e)
  | restartLimit (count : Nat) (cycle : List String) : Final (.restartLimit count cycle)

theorem finish_ends {σ : Setting} {s : DecidingState} :
    Ensures (Request.finish σ s) (fun _ => True) PlanError.Final := by
  rw [Request.finish]
  split
  · exact .noDestination _
  · exact trivial

theorem decideFrom_ends (hpolicy : ∀ id, policy.removesDependent id = false) {log : RestartLog} :
    Ensures (q.decideFrom db policy log) (fun _ => True) PlanError.Final := by
  fun_induction Request.decideFrom q db policy log with
  | case1 log σ s ha => exact finish_ends.map fun _ _ => trivial
  | case2 log σ ha =>
    have hhalts : Ensures (q.attempt σ) (fun _ => True) (· ≠ .endless) := attempt_halts hpolicy
    exact absurd rfl (hhalts.of_error ha)
  | case3 log σ R s ha log' e hlog =>
    obtain ⟨-, -, rfl⟩ := RestartLog.record_eq_some_iff.1 hlog
    exact .restartLimit _ _
  | case4 log σ R s ha log' hlog ih => exact ih

/-- Planning comes to a plan, or says which place is missing or which constraints conflict. -/
theorem plan_ends (hpolicy : ∀ id, policy.removesDependent id = false) {maxRestarts : Nat} :
    Ensures (q.plan db policy seeds maxRestarts) (fun _ => True) PlanError.Final :=
  (decideFrom_ends hpolicy).map fun _ _ => trivial

end PackagePlan
