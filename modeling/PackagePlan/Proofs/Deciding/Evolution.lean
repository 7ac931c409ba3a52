import PackagePlan.Deciding.Rounds
import PackagePlan.Proofs.Decision.Registry
import PackagePlan.Proofs.Deciding.Finder
import PackagePlan.Proofs.Sequence

/-! # How a resolution comes about

A resolution starts with the constraints of its seed and evolves: constraints
are added to it, it is decided, or its package is broken. Whatever is true of
the seed and kept by these steps is true of every resolution of an attempt.
-/

namespace PackagePlan.Setting

open Constraints Registry

/-- The constraints that an attempt can put on a resolvent. -/
inductive Raised (σ : Setting) : Resolvent → Constraint → Prop
  | target {req : Requirement} {reason : Reason} {r : Resolvent} {c : Constraint}
      (h : (r, c) ∈ σ.targetConstraints req reason) : Raised σ r c
  | removal {req : Requirement} {r : Resolvent} {c : Constraint}
      (h : (r, c) ∈ σ.removalConstraints req) : Raised σ r c
  | viaBinary {holder : Resolvent} {id : PackageId} {r : Resolvent} {c : Constraint}
      (h : (r, c) ∈ σ.viaBinaryConstraints holder id) : Raised σ r c
  | dependency {holder : Resolvent} {d : Decision} {id : PackageId} {dep : Dependency}
      {r : Resolvent} {c : Constraint}
      (h : (r, c) ∈ σ.dependencyConstraints holder d id dep) : Raised σ r c
  | dependent (id removing : PackageId) (holder : Resolvent) :
      Raised σ (.ofId id .slash) (removeConstraint id (.dependent removing holder))

/-- What becomes of the decision of a resolution when a constraint is added to it, and whether
the dependencies of its resolvent have to be added anew. -/
inductive Reacts (σ : Setting) (r : Resolvent) (res : Resolution) (c : Constraint) :
    Option Decision → Bool → Prop
  | keep (h : ∀ d, res.decision = some d → d.meets c = true) :
      Reacts σ r res c res.decision false
  | replace {taken : Bool} {d : Decision} (hn : res.decision = some (.nothing taken))
      (hc : (Decision.nothing taken).meets c = false)
      (hf : σ.findDecision r (res.constraints ++ [c]) = some d) :
      Reacts σ r res c (some d) true
  | giveUp {d : Decision} (hd : res.decision = some d) (hc : d.meets c = false)
      (hf : ∀ taken, d = .nothing taken → σ.findDecision r (res.constraints ++ [c]) = none) :
      Reacts σ r res c (some (σ.cannotDecide r (res.constraints ++ [c]))) false

/-- One step in the life of a resolution. -/
inductive Evolves (σ : Setting) (r : Resolvent) (res : Resolution) : Resolution → Prop
  | constrain {c : Constraint} {d : Option Decision} {queued : Bool} (hc : σ.Raised r c)
      (h : σ.Reacts r res c d queued) :
      Evolves σ r res { constraints := res.constraints ++ [c], decision := d }
  | decide (h : res.decision = none) :
      Evolves σ r res { res with decision := some (σ.decisionFor r res.constraints) }
  | breakage {id removing : PackageId} {holder : Resolvent} (hr : r = .ofId id .slash)
      (hi : id ∈ σ.db.installedIds .slash) :
      Evolves σ r res
        { constraints := res.constraints ++ [breakConstraint id (.dependent removing holder)]
          decision := some (.broken { id, taken := true }) }

/-- The resolutions that a resolvent can have in an attempt. -/
inductive Arises (σ : Setting) (r : Resolvent) : Resolution → Prop
  | seed : Arises σ r { constraints := σ.seeds.constraintsFor σ.db r }
  | step {res res' : Resolution} (h : Arises σ r res) (hs : σ.Evolves r res res') :
      Arises σ r res'

/-- The resolution of `r`, which is its seed as long as there is none. -/
def resolutionAt (σ : Setting) (reg : Registry) (r : Resolvent) : Resolution :=
  (reg.get? r).getD { constraints := σ.seeds.constraintsFor σ.db r }

def Writes (reg reg' : Registry) (r : Resolvent) (res : Resolution) : Prop :=
  ∀ r', reg'.get? r' = if r' = r then some res else reg.get? r'

variable {σ : Setting} {reg reg' : Registry} {s s' : DecidingState} {r : Resolvent}
  {c : Constraint}

theorem get?_ensure_registry (r' : Resolvent) :
    (σ.ensure s r).registry.get? r' =
      if r' = r then some (σ.resolutionAt s.registry r) else s.registry.get? r' :=
  get?_ensure

theorem decision?_ensure :
    (σ.ensure s r).registry.decision? r = (σ.resolutionAt s.registry r).decision := by
  rw [decision?, get?_ensure_registry, if_pos rfl, Option.bind_some]

theorem decision_resolutionAt : (σ.resolutionAt reg r).decision = reg.decision? r := by
  rw [resolutionAt, decision?]
  cases reg.get? r <;> rfl

theorem constraintsOf_ensure :
    constraintsOf (σ.ensure s r) r = (σ.resolutionAt s.registry r).constraints := by
  rw [constraintsOf, get?_ensure_registry, if_pos rfl]
  rfl

theorem writes_addConstraint_ensure :
    Writes s.registry (addConstraint (σ.ensure s r) r c).registry r
      ((σ.resolutionAt s.registry r).add c) := by
  intro r'
  rw [addConstraint, get?_addConstraint, get?_ensure_registry, get?_ensure_registry, if_pos rfl]
  split <;> rfl

theorem writes_setDecision_ensure {d : Decision} {p : OrderedSet Resolvent} :
    Writes s.registry
      (addConstraint { setDecision (σ.ensure s r) r d with pending := p } r c).registry r
      { constraints := (σ.resolutionAt s.registry r).constraints ++ [c], decision := some d } := by
  intro r'
  rw [addConstraint, setDecision, get?_addConstraint, get?_decide, get?_decide,
    get?_ensure_registry, get?_ensure_registry, if_pos rfl, if_pos rfl]
  split <;> rfl

theorem applyConstraint_writes (h : σ.applyConstraint s r c = .ok s') :
    ∃ d queued, σ.Reacts r (σ.resolutionAt s.registry r) c d queued ∧
      Writes s.registry s'.registry r
        { constraints := (σ.resolutionAt s.registry r).constraints ++ [c], decision := d } ∧
      s'.pending = if queued then s.pending.insert r else s.pending := by
  simp only [applyConstraint, decision?_ensure] at h
  split at h
  · next d hd =>
    split at h
    · next hm =>
      cases h
      refine ⟨_, _, .keep fun d' hd' => ?_, writes_addConstraint_ensure, rfl⟩
      rw [hd] at hd'
      exact Option.some.inj hd' ▸ hm
    · next hm =>
      have hm : d.meets c = false := Bool.eq_false_iff.2 hm
      obtain ⟨s₁, h, he⟩ := bind_eq_ok_iff.1 h
      simp only [reconsider, constraintsOf_ensure] at h
      split at h
      · next hf =>
        obtain rfl := Except.ok.inj h
        cases he
        exact ⟨_, _, .giveUp hd hm fun _ _ => hf, writes_setDecision_ensure, rfl⟩
      · next d' hf =>
        split at h
        · obtain rfl := Except.ok.inj h
          cases he
          exact ⟨_, _, .replace hd hm hf, writes_setDecision_ensure, rfl⟩
        · next hn =>
          split at h
          · cases h
          · obtain rfl := Except.ok.inj h
            cases he
            exact ⟨_, _, .giveUp hd hm fun taken he => absurd he (hn taken),
              writes_setDecision_ensure, rfl⟩
  · next hd =>
    cases h
    refine ⟨_, _, .keep fun d' hd' => ?_, writes_addConstraint_ensure, rfl⟩
    rw [hd] at hd'
    cases hd'

/-- The restart is what comes of its problem in the state `s`. -/
structure Suggests (σ : Setting) (s : DecidingState) (R : Restart) : Prop where
  decided : s.registry.decision? R.resolvent = some R.previous
  something : ∀ taken, R.previous ≠ .nothing taken
  failed : R.previous.meets R.problem = false
  found : σ.findDecision R.resolvent
    ((σ.resolutionAt s.registry R.resolvent).constraints ++ [R.problem]) = some R.proposed
  allowed : σ.policy.mayRestart R.resolvent = true
  carried : R.carried = R.problem.forRestart

theorem applyConstraint_stops {e : Stop} (h : σ.applyConstraint s r c = .error e) :
    ∃ R, e = .restart R (σ.ensure s r) ∧ R.resolvent = r ∧ R.problem = c ∧ σ.Suggests s R := by
  simp only [applyConstraint, decision?_ensure] at h
  split at h
  · next d hd =>
    rw [decision_resolutionAt] at hd
    split at h
    · cases h
    · next hm =>
      simp only [reconsider, constraintsOf_ensure] at h
      split at h
      · cases h
      · next d' hf =>
        split at h
        · cases h
        · next hn =>
          split at h
          · next ha =>
            obtain rfl := Except.error.inj h
            exact ⟨_, rfl, rfl, rfl, hd, hn, Bool.eq_false_iff.2 hm, hf, ha, rfl⟩
          · cases h
  · cases h

theorem writes_setDecision {res : Resolution} {d : Decision}
    (h : s.registry.get? r = some res) :
    Writes s.registry (setDecision s r d).registry r { res with decision := some d } := by
  intro r'
  rw [setDecision, get?_decide, h]
  rfl

theorem writes_breakId {id : PackageId} {reason : Reason} :
    Writes s.registry (σ.breakId s r id reason).registry r
      { constraints := (σ.resolutionAt s.registry r).constraints ++ [breakConstraint id reason]
        decision := some (.broken { id, taken := true }) } := by
  intro r'
  rw [breakId, setDecision, get?_decide, addConstraint, get?_addConstraint, get?_addConstraint,
    get?_ensure_registry, get?_ensure_registry, if_pos rfl, if_pos rfl]
  split <;> rfl

/-- Every resolution has come about by the steps of an attempt. -/
def Sound (σ : Setting) (reg : Registry) : Prop :=
  ∀ r res, reg.get? r = some res → σ.Arises r res

theorem Sound.resolutionAt (h : σ.Sound reg) (r : Resolvent) :
    σ.Arises r (σ.resolutionAt reg r) := by
  rw [Setting.resolutionAt]
  cases hr : reg.get? r with
  | none => exact .seed
  | some res => exact h r res hr

theorem Sound.ensure (h : σ.Sound s.registry) : σ.Sound (σ.ensure s r).registry := by
  intro r' res hr'
  rw [get?_ensure_registry] at hr'
  split at hr'
  · next hr =>
    cases hr'
    exact hr ▸ h.resolutionAt r
  · exact h r' res hr'

def Explained (σ : Setting) : Stop → Prop
  | .restart R _ => σ.Raised R.resolvent R.problem ∧ R.carried = R.problem.forRestart
  | .endless => True

/-- Starting over is suggested while `I` is true, by a constraint of the attempt. -/
def Interrupted (σ : Setting) (I : Registry → Prop) : Stop → Prop
  | .restart R s' => ∃ s, I s.registry ∧ σ.Raised R.resolvent R.problem ∧ σ.Suggests s R ∧
      s' = σ.ensure s R.resolvent
  | .endless => True

theorem Interrupted.explained {I : Registry → Prop} {e : Stop} (h : σ.Interrupted I e) :
    σ.Explained e := by
  cases e with
  | restart R s' =>
    obtain ⟨s, -, hR, hs, -⟩ := h
    exact ⟨hR, hs.carried⟩
  | endless => trivial

/-- What every step in the life of a resolution preserves. -/
def Stable (σ : Setting) (I : Registry → Prop) : Prop :=
  ∀ reg reg' r res, I reg → Writes reg reg' r res → σ.Evolves r (σ.resolutionAt reg r) res → I reg'

/-- What every step preserves that breaks nothing. -/
def Calm (σ : Setting) (I : Registry → Prop) : Prop :=
  ∀ reg reg' r res, I reg → Writes reg reg' r res → σ.Evolves r (σ.resolutionAt reg r) res →
    (∀ b, res.decision = some (.broken b) → reg.decision? r = some (.broken b)) → I reg'

theorem Stable.calm {I : Registry → Prop} (h : σ.Stable I) : σ.Calm I :=
  fun _ _ _ _ hI hw he _ => h _ _ _ _ hI hw he

theorem decisionFor_ne_broken {cs : List Constraint} (b : Breakage) :
    σ.decisionFor r cs ≠ .broken b := by
  intro h
  rw [decisionFor] at h
  cases hf : σ.findDecision r cs with
  | none =>
    rw [hf] at h
    cases h
  | some d =>
    rw [hf] at h
    obtain rfl : d = .broken b := h
    cases findDecision_finds hf

theorem Reacts.broken {res : Resolution} {d : Option Decision} {queued : Bool} {b : Breakage}
    (h : σ.Reacts r res c d queued) (hd : d = some (.broken b)) :
    res.decision = some (.broken b) := by
  cases h with
  | keep => exact hd
  | replace _ _ hf =>
    cases hd
    cases findDecision_finds hf
  | giveUp => cases hd

theorem sound_stable : σ.Stable σ.Sound := by
  intro reg reg' r res h hw he r' res' hr'
  rw [hw r'] at hr'
  split at hr'
  · next hr =>
    cases hr'
    exact hr ▸ (h.resolutionAt r).step he
  · exact h r' res' hr'

end PackagePlan.Setting
