import PackagePlan.Proofs.Deciding.Session
import PackagePlan.Proofs.Plan.Agreement

/-! # What restarts achieve

The constraint that a restart carries over asks for no choices, but is as
strict as its problem otherwise. So the decision that turned out wrong fails
it as well, unless it was only the choices that were wrong, and what has been
found with such a constraint in view is not found wrong again.
-/

namespace PackagePlan

open Setting Registry Constraints

variable {σ σ' : Setting} {s s' : DecidingState} {step : Step} {R : Restart} {r : Resolvent}
  {res : Resolution} {c : Constraint} {d : Decision}

section Carried

variable {id : PackageId} {req : Requirement}

theorem accepts_withoutChoices (h : req.accepts id = true) :
    req.withoutChoices.accepts id = true := by
  simp only [Requirement.accepts, Requirement.withoutChoices, Bool.and_eq_true] at h ⊢
  exact ⟨h.1, rfl⟩

/-- The decision fails the constraint for the choices that it asks for, and for nothing else. -/
structure Decision.FailsChoices (d : Decision) (c : Constraint) : Prop where
  rejected : ∃ req id, c.demand = .package req ∧ d.chosen? = some id ∧ req.accepts id = false ∧
    req.withoutChoices.accepts id = true
  kept : ∀ k, d = .existing k → c.keep.permits k.isSame k.isSameVersion k.isTransient = true
  taken : (c.untaken || d.taken) = true

theorem accepts_of_forRestart (h : c.forRestart.accepts id = true) :
    c.accepts id = true ∨ ∃ req, c.demand = .package req ∧ req.accepts id = false ∧
      req.withoutChoices.accepts id = true := by
  rw [Constraint.accepts, Constraint.forRestart] at h
  rw [Constraint.accepts]
  cases hd : c.demand with
  | package req =>
    rw [hd] at h
    cases ha : req.accepts id with
    | true => exact .inl ha
    | false => exact .inr ⟨req, rfl, ha, h⟩
  | blocker b =>
    rw [hd] at h
    left
    cases ha : b.blocked.accepts id with
    | true => simp [Demand.withoutChoices, Demand.accepts, accepts_withoutChoices ha] at h
    | false => simp [Demand.accepts, ha]

theorem meets_of_chosen (h : d.chosen? = some id) :
    d.meets c = true ↔ c.accepts id = true ∧
      (∀ k, d = .existing k → c.keep.permits k.isSame k.isSameVersion k.isTransient = true) ∧
        (c.untaken || d.taken) = true := by
  cases d with
  | existing k => cases h; simp [Decision.meets_existing, Decision.taken]
  | change ch => cases h; simp [Decision.meets_change, Decision.taken]
  | broken b => cases h; simp [Decision.meets, Decision.chosen?, Decision.taken]
  | nothing | remove | unable => cases h

theorem meets_forRestart_of_none (h : d.chosen? = none) : d.meets c.forRestart = d.meets c := by
  cases d with
  | remove rem => simp only [Decision.meets, isBlocker_forRestart]; rfl
  | nothing | unable => rfl
  | existing | change | broken => cases h

theorem meets_forRestart_iff (h : d.meets c = false) :
    d.meets c.forRestart = true ↔ d.FailsChoices c := by
  cases hi : d.chosen? with
  | none =>
    rw [meets_forRestart_of_none hi, h]
    constructor
    · intro hf
      cases hf
    · intro hf
      obtain ⟨req, id, -, hi', -⟩ := hf.rejected
      rw [hi] at hi'
      cases hi'
  | some id =>
    rw [meets_of_chosen hi]
    constructor
    · rintro ⟨ha, hk, ht⟩
      rcases accepts_of_forRestart ha with ha | ⟨req, hd, ha, hw⟩
      · rw [(meets_of_chosen hi).2 ⟨ha, hk, ht⟩] at h
        cases h
      · exact ⟨⟨req, id, hd, hi, ha, hw⟩, hk, ht⟩
    · rintro ⟨⟨req, id', hd, hi', -, hw⟩, hk, ht⟩
      obtain rfl := Option.some.inj (hi.symm.trans hi')
      exact ⟨by rw [Constraint.accepts, Constraint.forRestart, hd]; exact hw, hk, ht⟩

end Carried

section Learnt

/-- Nothing was found that meets the constraints, or they were not asked. -/
def Decision.isLastResort : Decision → Bool
  | .unable .. | .broken _ => true
  | _ => false

theorem Decision.Overlooks.mono {before after : List Constraint} (h : d.Overlooks before c) :
    d.Overlooks (before ++ after) c := by
  cases d with
  | existing k =>
    obtain ⟨hr, hp⟩ := h
    exact ⟨Nat.lt_of_lt_of_le hr rank_strictest_le_append, hp⟩
  | remove rem => exact h
  | nothing | change | unable | broken => cases h

theorem Setting.Sound.meets_learnt (h : σ.Sound s.registry) (hc : c ∈ σ.seeds.learntFor r)
    (hr : s.registry.get? r = some res) (hd : res.decision = some d) :
    d.meets c = true ∨ d.isLastResort = true ∨ d.Overlooks res.constraints c := by
  have ha : σ.Arises r res := h r res hr
  have hm : c ∈ res.constraints := ha.seeded (List.mem_append_right _ hc)
  cases ha.made hd with
  | @found before after _ hcs hf hafter =>
    rw [hcs] at hm ⊢
    rcases List.mem_append.1 hm with hm | hm
    · by_cases ho : d.Overlooks before c
      · exact .inr (.inr ho.mono)
      · exact .inl ((hf.meets_iff hm).2 ho)
    · exact .inl (hafter c hm)
  | unable => exact .inr (.inl rfl)
  | broken => exact .inr (.inl rfl)

end Learnt

/-- The previous decision may stand again, among constraints that include the one carried over. -/
def Restart.Recurs (R : Restart) (cs : List Constraint) : Prop :=
  R.previous.FailsChoices R.problem ∨ R.previous.isLastResort = true ∨
    R.previous.Overlooks cs R.carried

theorem recurs_of_learnt (hs : σ'.Sound s.registry) (hR : R.carried = R.problem.forRestart)
    (hf : R.previous.meets R.problem = false) (hc : R.carried ∈ σ'.seeds.learntFor R.resolvent)
    (hr : s.registry.get? R.resolvent = some res) (hd : res.decision = some R.previous) :
    R.Recurs res.constraints := by
  rcases hs.meets_learnt hc hr hd with hm | hrest
  · rw [hR] at hm
    exact .inl ((meets_forRestart_iff hf).1 hm)
  · exact .inr hrest

namespace Sample

def suggested? : Attempt → Option Restart
  | .error (.restart R _) => some R
  | _ => none

def after (σ : Setting) (R : Restart) : Setting :=
  { σ with seeds := σ.seeds.learn R.resolvent R.carried }

/-- The steps lead to the restart, and to the same restart again in the next attempt. -/
structure Repeats (σ : Setting) (steps : List Step) (R : Restart) : Prop where
  first : suggested? (σ.run steps) = some R
  again : suggested? ((after σ R).run steps) = some R

theorem halts_of_suggested? {steps : List Step} (h : suggested? (σ.run steps) = some R) :
    ∃ s, σ.Halts (.restart R s) := by
  cases hrun : σ.run steps with
  | ok s => rw [hrun] at h; cases h
  | error e =>
    rw [hrun] at h
    cases e with
    | restart R' s =>
      obtain rfl := Option.some.inj h
      exact ⟨s, (Session.run steps).of_error hrun⟩
    | endless => cases h

theorem Repeats.halts {steps : List Step} (h : Repeats σ steps R) :
    (∃ s, σ.Halts (.restart R s)) ∧ ∃ s, (after σ R).Halts (.restart R s) :=
  ⟨halts_of_suggested? h.first, halts_of_suggested? h.again⟩

theorem Repeats.ruledOut {steps : List Step} {lastResort : Bool} (h : Repeats σ steps R)
    (hm : R.previous.meets R.carried = false) (hl : R.previous.isLastResort = lastResort) :
    ∃ R s s', σ.Halts (.restart R s) ∧ R.previous.meets R.carried = false ∧
      R.previous.isLastResort = lastResort ∧ (after σ R).Halts (.restart R s') := by
  obtain ⟨⟨s, hs⟩, s', hs'⟩ := h.halts
  exact ⟨R, s, s', hs, hm, hl, hs'⟩

def restart (name : PackageName) (previous proposed : Decision) (problem : Constraint) : Restart :=
  { resolvent := ⟨name, some "0", .slash⟩, previous, problem, proposed
    carried := problem.forRestart }

def asked (req : Requirement) : Constraint where
  demand := req
  reason := .target
  keep := .onlyIfTransient
  destination := .slash

def dependencyOn (holder : PackageName) (req : Requirement) (labels : List Label)
    (alreadyMet : Bool) : Constraint where
  demand := req
  reason := .dependency ⟨⟨holder, some "0", .slash⟩, id holder .source, req, labels, alreadyMet⟩
  destination := .slash

def ssl : Choices := OrderedMap.empty.insert "ssl" true

/-- Of two versions of `a` only the older has the choice that is asked for in the end. -/
def choosy : Setting where
  db := (Database.empty.insert { id "a" .source with version := version 2 } .nothing).insert
    { id "a" .source with choices := ssl } .nothing
  policy := preferences.policy
  seeds := {}

def chooseLate : List Step :=
  [.target (.named "a") .target, .resolve,
    .target { Requirement.named "a" with choices := ssl } .target]

def forChoices : Restart :=
  restart "a"
    (.change { id := { id "a" .source with version := version 2 }, isBest := true, taken := true })
    (.change { id := { id "a" .source with choices := ssl }, isBest := false, taken := true })
    (asked { Requirement.named "a" with choices := ssl })

theorem choosy_repeats : Repeats choosy chooseLate forChoices :=
  ⟨by with_unfolding_all rfl, by with_unfolding_all rfl⟩

/-- `a` is installed, loses its dependency `b`, and is wanted from elsewhere in the end. -/
def breaking : Setting where
  db := ((Database.empty.insert (id "a" (.installed .slash)) (.package (.named "b"))).insert
    (id "b" (.installed .slash)) .nothing).insert { id "a" .source with repository := "e" } .nothing
  policy := preferences.policy
  seeds := {}

def wantLate : List Step :=
  [.removal (.named "b"), .resolve,
    .target { Requirement.named "a" with repository := some "e" } .target]

def fromBroken : Restart :=
  restart "a" (.broken { id := id "a" (.installed .slash), taken := true })
    (.change { id := { id "a" .source with repository := "e" }, isBest := true, taken := true })
    (asked { Requirement.named "a" with repository := some "e" })

theorem breaking_repeats : Repeats breaking wantLate fromBroken :=
  ⟨by with_unfolding_all rfl, by with_unfolding_all rfl⟩

/-- `a` is installed and must stay, is blocked by `b`, and is suggested by `c` in the end. -/
def refusing : Setting where
  db := ((Database.empty.insert (id "a" (.installed .slash)) .nothing).insert
    (id "b" .source) (.blocker ⟨.named "a", false⟩)).insert (id "c" .source) (.package (.named "a"))
  policy := { preferences.policy with mayRemove := fun _ _ => false, interest := fun _ => .untaken }
  seeds := {}

def suggestLate : List Step :=
  [.target (.named "b") .target, .resolve, .removal (.named "a"),
    .target (.named "c") .target, .resolve]

def blockedByB : Constraint where
  demand := Blocker.mk (.named "a") false
  reason := .blocker
    ⟨⟨"b", some "0", .slash⟩, id "b" .source, ⟨.named "a", false⟩, [.build, .run], false⟩
  destination := .slash

def fromUnable : Restart :=
  restart "a" (.unable [⟨id "a" (.installed .slash), [blockedByB]⟩] true)
    (.remove { ids := [id "a" (.installed .slash)], taken := true })
    { dependencyOn "c" (.named "a") [.build, .run] true with untaken := true }

theorem refusing_repeats : Repeats refusing suggestLate fromUnable :=
  ⟨by with_unfolding_all rfl, by with_unfolding_all rfl⟩

/-- `app` is kept as it is for the set, which its dependent does not ask for. -/
def reinstalling : Setting where
  db := reinstallable.db.insert (id "user" .source) (.package (.named "app"))
  policy := { preferences with keep := { dependencies := .onlyIfTransient } : Preferences }.policy
  seeds := {}

def useBoth : List Step :=
  [.target (.named "user") .target, .target (.named "app") (.set "world" .target), .resolve]

def keptApp : Decision :=
  .existing { id := id "app" (.installed .slash), isSame := true, isSameVersion := true
              isTransient := false, taken := true }

def fromKept : Restart :=
  restart "app" keptApp keptApp
    { dependencyOn "user" (.named "app") [.build, .run] true with keep := .onlyIfTransient }

theorem reinstalling_repeats : Repeats reinstalling useBoth fromKept :=
  ⟨by with_unfolding_all rfl, by with_unfolding_all rfl⟩

/-- `app` is removed, and a version of it that does not exist is suggested in the end. -/
def dropping : Setting where
  db := (Database.empty.insert (id "app" (.installed .slash)) .nothing).insert (id "user" .source)
    (.all [.labels [.suggested],
      .package { Requirement.named "app" with version := .atLeast (version 5) }])
  policy := preferences.policy
  seeds := {}

def useLate : List Step :=
  [.removal (.named "app"), .resolve, .target (.named "user") .target, .resolve]

def removedApp : Decision := .remove { ids := [id "app" (.installed .slash)], taken := true }

def fromRemoved : Restart :=
  restart "app" removedApp removedApp
    { dependencyOn "user" { Requirement.named "app" with version := .atLeast (version 5) }
        [.suggested] false with untaken := true }

theorem dropping_repeats : Repeats dropping useLate fromRemoved :=
  ⟨by with_unfolding_all rfl, by with_unfolding_all rfl⟩

def wantOlder : List Step :=
  [.target (.named "a") .target, .resolve,
    .target { Requirement.named "a" with version := .olderThan (version 2) } .target]

theorem exists_older : ∃ R s, choosy.Halts (.restart R s) ∧
    R.previous.meets R.carried = false ∧ ∃ c, R.previous = .change c := by
  have h : (suggested? (choosy.run wantOlder)).any (fun R =>
      !R.previous.meets R.carried && R.previous.kind == "change") = true := by decide +kernel
  obtain ⟨R, hR, h⟩ := Option.any_eq_true _ _ |>.1 h
  obtain ⟨hm, hk⟩ := Bool.and_eq_true_iff.1 h
  obtain ⟨s, hs⟩ := halts_of_suggested? hR
  refine ⟨R, s, hs, by simpa using hm, ?_⟩
  cases hp : R.previous with
  | change c => exact ⟨c, rfl⟩
  | nothing | existing | remove | unable | broken => rw [hp] at hk; cases hk

end Sample

/-- The constraint that a restart carries over rules out the decision that was wrong, unless only
choices were wrong. In a session that knows the constraint from the beginning the decision does not
come up again, so that it cannot be found wrong again. Excepted are decisions that are made without
regard to the constraints, and those that are found although they overlook it. -/
theorem restart_progress (hs : σ.Session s) (hR : σ.perform s step = .error (.restart R s')) :
    (R.previous.meets R.carried = true ↔ R.previous.FailsChoices R.problem) ∧
      ∀ σ' : Setting, R.carried ∈ σ'.seeds.learntFor R.resolvent →
        (∀ t res, σ'.Session t → t.registry.get? R.resolvent = some res →
          res.decision = some R.previous → R.Recurs res.constraints) ∧
        ∀ t step' R' t', σ'.Session t → σ'.perform t step' = .error (.restart R' t') →
          R'.resolvent = R.resolvent → R'.previous = R.previous →
            ∃ res, t'.registry.get? R.resolvent = some res ∧ R.Recurs res.constraints := by
  obtain ⟨s₁, -, -, hsug, -⟩ : σ.Interrupted σ.Sound (.restart R s') :=
    Halts.interrupted ⟨s, step, hs, hR⟩
  have hcarried : R.carried = R.problem.forRestart := hsug.carried
  refine ⟨hcarried ▸ meets_forRestart_iff hsug.failed, fun σ' hc => ⟨fun t res ht hr hd => ?_, ?_⟩⟩
  · exact recurs_of_learnt ht.sound hcarried hsug.failed hc hr hd
  · intro t step' R' t' ht hR' hr hp
    obtain ⟨s₂, hsound, -, hsug', rfl⟩ : σ'.Interrupted σ'.Sound (.restart R' t') :=
      Halts.interrupted ⟨t, step', ht, hR'⟩
    have hd : (σ'.ensure s₂ R'.resolvent).registry.decision? R.resolvent = some R.previous := by
      rw [← hr, decision?_ensure, decision_resolutionAt, hsug'.decided, hp]
    obtain ⟨res, hres, hd⟩ := decision?_eq_some_iff.1 hd
    exact ⟨res, hres, recurs_of_learnt hsound.ensure hcarried hsug.failed hc hres hd⟩

theorem restart_progress_older : ∃ s step R s', Sample.choosy.Session s ∧
    Sample.choosy.perform s step = .error (.restart R s') ∧
      ¬ R.previous.FailsChoices R.problem ∧
        ∀ t step' R' t', (Sample.after Sample.choosy R).Session t →
          (Sample.after Sample.choosy R).perform t step' = .error (.restart R' t') →
            R'.resolvent = R.resolvent → R'.previous ≠ R.previous := by
  obtain ⟨R, s', ⟨s, step, hs, hR⟩, hm, c, hc⟩ := Sample.exists_older
  obtain ⟨hiff, hnext⟩ := restart_progress hs hR
  have hn : ¬ R.previous.FailsChoices R.problem := by rw [← hiff, hm]; exact Bool.false_ne_true
  refine ⟨s, step, R, s', hs, hR, hn, fun t step' R' t' ht hR' hr hp => ?_⟩
  have hlearnt : R.carried ∈ (Sample.after Sample.choosy R).seeds.learntFor R.resolvent := by
    rw [Sample.after, learntFor_learn, if_pos rfl]
    simp
  obtain ⟨res, -, hrec⟩ := (hnext _ hlearnt).2 t step' R' t' ht hR' hr hp
  rcases hrec with hf | hl | ho
  · exact hn hf
  · rw [hc] at hl
    cases hl
  · rw [hc] at ho
    cases ho

/-- A restart for choices alone comes up in every attempt. So may one that carries over what rules
its previous decision out: where the decision breaks a package or says that nothing was found, and
where it is found although it overlooks the constraint. -/
theorem restarts_repeat :
    (¬ ∀ (σ : Setting) (s s' : DecidingState) (step : Step) (R : Restart), σ.Session s →
      σ.perform s step = .error (.restart R s') → R.previous.meets R.carried = false) ∧
    (∃ R s s', Sample.choosy.Halts (.restart R s) ∧
      (Sample.after Sample.choosy R).Halts (.restart R s')) ∧
    (∀ σ ∈ [Sample.breaking, Sample.refusing], ∃ R s s', σ.Halts (.restart R s) ∧
      R.previous.meets R.carried = false ∧ R.previous.isLastResort = true ∧
        (Sample.after σ R).Halts (.restart R s')) ∧
    ∀ σ ∈ [Sample.reinstalling, Sample.dropping], ∃ R s s', σ.Halts (.restart R s) ∧
      R.previous.meets R.carried = false ∧ R.previous.isLastResort = false ∧
        (Sample.after σ R).Halts (.restart R s') := by
  obtain ⟨⟨s, hs⟩, s', hs'⟩ := Sample.choosy_repeats.halts
  refine ⟨fun h => ?_, ⟨_, s, s', hs, hs'⟩, ?_, ?_⟩
  · obtain ⟨t, step, ht, hstep⟩ := hs
    have hm : Sample.forChoices.previous.meets Sample.forChoices.carried = true := by
      decide +kernel
    rw [h _ _ _ _ _ ht hstep] at hm
    cases hm
  · exact List.forall_mem_cons.2 ⟨Sample.breaking_repeats.ruledOut (by decide +kernel) rfl,
      List.forall_mem_singleton.2 (Sample.refusing_repeats.ruledOut rfl rfl)⟩
  · exact List.forall_mem_cons.2 ⟨Sample.reinstalling_repeats.ruledOut (by decide +kernel) rfl,
      List.forall_mem_singleton.2 (Sample.dropping_repeats.ruledOut rfl rfl)⟩

end PackagePlan
