import PackagePlan.Proofs.Deciding.Attempt

/-! # Sessions

A session adds targets and removals and decides everything, in any order and
as often as it likes, and may go on from where a restart is suggested. All that
it comes to has come about by the steps in the lives of resolutions, and so has
the state in which a restart is suggested.
-/

namespace PackagePlan

namespace Setting

inductive Step
  | target (r : Requirement) (reason : Reason)
  | removal (r : Requirement)
  | resolve

def perform (σ : Setting) (s : DecidingState) : Step → Attempt
  | .target r reason => σ.addTarget s r reason
  | .removal r => σ.addRemoval s r
  | .resolve => σ.resolve s

def run (σ : Setting) (steps : List Step) : Attempt := steps.foldlM σ.perform {}

/-- The states that a session can come to. -/
inductive Session (σ : Setting) : DecidingState → Prop
  | start : Session σ {}
  | step {s s' : DecidingState} (h : Session σ s) (step : Step)
      (hs : σ.perform s step = .ok s') : Session σ s'
  | restart {s s' : DecidingState} {R : Restart} (h : Session σ s) (step : Step)
      (hs : σ.perform s step = .error (.restart R s')) : Session σ s'

end Setting

def Request.steps (q : Request) : List Setting.Step :=
  q.targets.map (fun (r, reason) => .target r reason) ++ q.removals.map .removal ++ [.resolve]

namespace Setting

/-- The reasons for which a step of a session can stop. -/
def Halts (σ : Setting) (e : Stop) : Prop :=
  ∃ s step, σ.Session s ∧ σ.perform s step = .error e

variable {σ : Setting} {I : Registry → Prop} {s s' : DecidingState} {step : Step} {R : Restart}
  {q : Request}

theorem Stable.perform (hI : σ.Stable I) (hs : I s.registry) :
    Ensures (σ.perform s step) (fun s' => I s'.registry) (σ.Interrupted I) := by
  cases step with
  | target r reason => exact hI.calm.applyAll hs fun _ hc => .target hc
  | removal r => exact hI.calm.applyAll hs fun _ hc => .removal hc
  | resolve => exact hI.keeps.resolveFrom hs

theorem attempt_eq_run : q.attempt σ = σ.run q.steps := by
  simp only [run, Request.steps, List.foldlM_append, List.foldlM_map, List.foldlM_cons,
    List.foldlM_nil, bind_pure, bind_assoc]
  rfl

namespace Session

theorem sound (h : σ.Session s) : σ.Sound s.registry := by
  induction h with
  | start => exact fun _ _ h => by cases h
  | step _ step hs ih => exact (sound_stable.perform ih).of_ok hs
  | restart _ step hs ih =>
    obtain ⟨s₁, h₁, -, -, rfl⟩ := (sound_stable.perform ih).of_error hs
    exact h₁.ensure

theorem ensures (h : σ.Session s) (step : Step) :
    Ensures (σ.perform s step) σ.Session σ.Halts := by
  cases hs : σ.perform s step with
  | ok s' => exact h.step step hs
  | error e => exact ⟨s, step, h, hs⟩

theorem run (steps : List Step) : Ensures (σ.run steps) σ.Session σ.Halts :=
  Ensures.foldlM (fun step _ _ hs => hs.ensures step) .start

theorem attempt : Ensures (q.attempt σ) σ.Session σ.Halts :=
  attempt_eq_run ▸ run q.steps

end Session

theorem Halts.interrupted {e : Stop} (h : σ.Halts e) : σ.Interrupted σ.Sound e := by
  obtain ⟨s, step, hs, he⟩ := h
  exact (sound_stable.perform hs.sound).of_error he

end Setting

end PackagePlan
