import PackagePlan.Proofs.Deciding.Rounds

/-! # What an attempt comes to

All that an attempt writes are steps in the life of some resolution. So an
attempt that comes to its end leaves every resolution decided, and each has
come about by such steps.
-/

namespace PackagePlan.Setting

open Constraints Registry

variable {σ : Setting} {I : Registry → Prop} {s : DecidingState} {r : Resolvent}

theorem raised_of_mem_flatMap {d : Decision} {id : PackageId} {deps : List Dependency}
    {p : Resolvent × Constraint} (h : p ∈ deps.flatMap (σ.dependencyConstraints r d id)) :
    σ.Raised p.1 p.2 := by
  obtain ⟨dep, -, hp⟩ := List.mem_flatMap.1 h
  exact .dependency hp

theorem writes_decide {pass : Pass} (hd : isDue pass s r = true) :
    ∃ res,
      Writes s.registry (setDecision s r (σ.decisionFor r (constraintsOf s r))).registry r res ∧
        σ.Evolves r (σ.resolutionAt s.registry r) res ∧
          ∀ b, res.decision ≠ some (.broken b) := by
  obtain ⟨res, hr, hn⟩ := undecided_of_isDue hd
  refine ⟨_, writes_setDecision hr, ?_, fun b hb => decisionFor_ne_broken b (Option.some.inj hb)⟩
  have hc : constraintsOf s r = res.constraints := by rw [constraintsOf, hr]; rfl
  have hat : σ.resolutionAt s.registry r = res := by rw [resolutionAt, hr]; rfl
  rw [hat, hc]
  exact .decide hn

namespace Calm

variable (hI : σ.Calm I)

include hI

theorem applyConstraint {c : Constraint} (hs : I s.registry) (hc : σ.Raised r c) :
    Ensures (σ.applyConstraint s r c) (fun s' => I s'.registry) (σ.Interrupted I) := by
  cases h : σ.applyConstraint s r c with
  | ok s' =>
    obtain ⟨d, queued, hr, hw, -⟩ := applyConstraint_writes h
    exact hI _ _ _ _ hs hw (.constrain hc hr) fun b hb => decision_resolutionAt ▸ hr.broken hb
  | error e =>
    obtain ⟨R, rfl, rfl, rfl, hR⟩ := applyConstraint_stops h
    exact ⟨s, hs, hc, hR, rfl⟩

theorem applyAll {cs : List (Resolvent × Constraint)} (hs : I s.registry)
    (hcs : ∀ p ∈ cs, σ.Raised p.1 p.2) :
    Ensures (σ.applyAll s cs) (fun s' => I s'.registry) (σ.Interrupted I) :=
  Ensures.foldlM (fun p hp _ hs' => hI.applyConstraint hs' (hcs p hp)) hs

theorem addDependencies (hs : I s.registry) :
    Ensures (σ.addDependencies s r) (fun s' => I s'.registry) (σ.Interrupted I) := by
  rw [Setting.addDependencies]
  split
  · exact hs
  · next d hd =>
    split
    · exact hs
    · refine (hI.applyAll hs fun p hp => ?_).bind fun s₁ h₁ =>
        hI.applyAll h₁ fun p hp => raised_of_mem_flatMap hp
      split at hp
      · exact .viaBinary hp
      · cases hp

theorem decideOne {pass : Pass} (hs : I s.registry) (hd : isDue pass s r = true) :
    Ensures (σ.decideOne s r) (fun s' => I s'.registry) (σ.Interrupted I) := by
  obtain ⟨res, hw, he, hn⟩ := writes_decide hd
  exact hI.addDependencies (hI _ _ _ _ hs hw he fun b hb => absurd hb (hn b))

theorem exists_resolve {q : Request} (h₀ : I ∅) (h : q.attempt σ = .ok s) :
    ∃ s₀, I s₀.registry ∧ σ.resolve s₀ = .ok s := by
  obtain ⟨s₁, h₁, h⟩ := bind_eq_ok_iff.1 h
  obtain ⟨s₂, h₂, h⟩ := bind_eq_ok_iff.1 h
  have hI₁ : I s₁.registry := Ensures.of_ok (P := fun s => I s.registry)
    (Ensures.foldlM (fun p _ s hs => hI.applyAll hs fun _ hc => .target hc) h₀) h₁
  have hI₂ : I s₂.registry := Ensures.of_ok (P := fun s => I s.registry)
    (Ensures.foldlM (fun req _ s hs => hI.applyAll hs fun _ hc => .removal hc) hI₁) h₂
  exact ⟨s₂, hI₂, h⟩

theorem settles : σ.Settles (fun s => I s.registry) (σ.Interrupted I) where
  pending hs := hI.addDependencies hs
  decide hs hd := hI.decideOne hs hd
  endless := trivial

end Calm

namespace Stable

variable (hI : σ.Stable I)

include hI

theorem followRemoval {removed : List (Resolvent × PackageId)}
    {installed arriving : List PackageId} {id : PackageId} (hs : I s.registry)
    (hi : id ∈ σ.db.installedIds .slash) :
    Ensures (σ.followRemoval removed installed arriving s id) (fun x => I x.1.registry)
      (σ.Interrupted I) := by
  simp only [Setting.followRemoval]
  split
  · exact hs
  · split
    · exact hs
    · next holder removing _ =>
      split
      · exact (hI.calm.applyConstraint hs (.dependent id removing holder)).map fun s' hs' => hs'
      · exact hI _ _ _ _ hs writes_breakId (.breakage rfl hi)

theorem keeps : σ.Keeps (fun s => I s.registry) (σ.Interrupted I) where
  toSettles := hI.calm.settles
  removal hs hi := hI.followRemoval hs hi

theorem attempt {q : Request} (h₀ : I ∅) :
    Ensures (q.attempt σ) (fun s => I s.registry) (σ.Interrupted I) := by
  refine Ensures.bind (P := fun s => I s.registry) ?_ fun s₁ h₁ => Ensures.bind
    (P := fun s => I s.registry) ?_ fun s₂ h₂ => hI.keeps.resolveFrom h₂
  · exact Ensures.foldlM (fun p _ s hs => hI.calm.applyAll hs fun _ hc => .target hc) h₀
  · exact Ensures.foldlM (fun req _ s hs => hI.calm.applyAll hs fun _ hc => .removal hc) h₁

end Stable

theorem attempt_sound {q : Request} : Ensures (q.attempt σ) (σ.Sound ·.registry) σ.Explained :=
  (sound_stable.attempt fun _ _ h => by cases h).imp_of_error fun _ he => he.explained

/-- When an attempt has come to its end there is nothing left to do. -/
theorem attempt_settled {q : Request} (h : q.attempt σ = .ok s) : Settled s := by
  obtain ⟨s₁, -, h⟩ := bind_eq_ok_iff.1 h
  obtain ⟨s₂, -, h⟩ := bind_eq_ok_iff.1 h
  exact (resolveFrom_settled h).1

theorem attempt_spared {q : Request} (h : q.attempt σ = .ok s) {id : PackageId}
    (hid : id ∈ σ.db.installedIds .slash) :
    σ.Spared (removedIds s.registry) (IdSelection.sortIds (σ.db.installedIds .slash))
      (arrivingIds s.registry) s id := by
  obtain ⟨s₁, -, h⟩ := bind_eq_ok_iff.1 h
  obtain ⟨s₂, -, h⟩ := bind_eq_ok_iff.1 h
  have hid : id ∈ IdSelection.sortIds (σ.db.installedIds .slash) :=
    (IdSelection.mem_sortIds_iff Database.distinct_installedIds).2 hid
  exact (followRemovals_unchanged (resolveFrom_settled h).2).2 id hid

variable {res : Resolution} {d : Decision}

/-- What is true of every decision when it is made, and stays true as long as only constraints are
added that it meets, is true of the decisions of all resolutions. -/
theorem Arises.of_decision {P : List Constraint → Decision → Prop}
    (found : ∀ {cs d}, σ.findDecision r cs = some d → P cs d)
    (unable : ∀ {cs}, P cs (σ.cannotDecide r cs))
    (broken : ∀ {cs id reason},
      P (cs ++ [breakConstraint id reason]) (.broken { id, taken := true }))
    (append : ∀ {cs c d}, P cs d → d.meets c = true → P (cs ++ [c]) d)
    (h : σ.Arises r res) (hd : res.decision = some d) : P res.constraints d := by
  induction h generalizing d with
  | seed => cases hd
  | @step before _ _ hs ih =>
    cases hs with
    | constrain _ hr =>
      cases hr with
      | keep hm => exact append (ih hd) (hm d hd)
      | replace _ _ hf =>
        cases hd
        exact found hf
      | giveUp =>
        cases hd
        exact unable
    | decide =>
      cases hd
      rw [decisionFor]
      cases hf : σ.findDecision r before.constraints with
      | none => exact unable
      | some d => exact found hf
    | breakage =>
      cases hd
      exact broken

theorem Arises.suits (h : σ.Arises r res) (hd : res.decision = some d) :
    σ.Suits r res.constraints d ∧ d.taken = !allUntaken res.constraints := by
  refine h.of_decision findDecision_suits cannotDecide_suits ?_ ?_ hd
  · intro cs id reason
    refine ⟨trivial, ?_⟩
    rw [allUntaken_append, breakConstraint]
    simp [Decision.taken]
  · rintro cs c d ⟨hs, ht⟩ hm
    exact ⟨hs.append hm, taken_append ht hm⟩

/-- How a decision has been made: it was found and has met every constraint since, or it says that
none was found or that a package is broken. -/
inductive Made (σ : Setting) (r : Resolvent) (cs : List Constraint) : Decision → Prop
  | found {before after : List Constraint} {d : Decision} (hcs : cs = before ++ after)
      (hf : σ.Finds r before d) (hm : ∀ c ∈ after, d.meets c = true) : Made σ r cs d
  | unable (rejections : List Rejection) (taken : Bool) : Made σ r cs (.unable rejections taken)
  | broken (id : PackageId) : Made σ r cs (.broken { id, taken := true })

theorem Made.append {cs : List Constraint} {c : Constraint} (h : σ.Made r cs d)
    (hm : d.meets c = true) : σ.Made r (cs ++ [c]) d := by
  cases h with
  | @found before after _ hcs hf ha =>
    have hcs : cs ++ [c] = before ++ (after ++ [c]) := by rw [hcs, List.append_assoc]
    exact .found hcs hf (List.forall_mem_append.2 ⟨ha, List.forall_mem_singleton.2 hm⟩)
  | unable rejections taken => exact .unable rejections taken
  | broken id => exact .broken id

theorem Arises.made (h : σ.Arises r res) (hd : res.decision = some d) :
    σ.Made r res.constraints d := by
  refine h.of_decision (fun hf => ?_) (.unable _ _) (.broken _) Made.append hd
  exact .found (List.append_nil _).symm (findDecision_finds hf) (by simp)

theorem Arises.seeded (h : σ.Arises r res) {c : Constraint}
    (hc : c ∈ σ.seeds.constraintsFor σ.db r) : c ∈ res.constraints := by
  induction h with
  | seed => exact hc
  | step _ hs ih =>
    cases hs with
    | constrain => exact List.mem_append_left _ ih
    | decide => exact ih
    | breakage => exact List.mem_append_left _ ih

end PackagePlan.Setting
