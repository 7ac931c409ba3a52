import PackagePlan.Plan.Request
import PackagePlan.Proofs.Decision.Registry

/-! # What placement and confirmation leave alone

Giving the decisions their places and confirmations changes no constraint. A
decision keeps all that was decided, and a change comes to know what it
replaces.
-/

namespace PackagePlan.Setting

open Registry Request

/-- The second decision is the first with a place and confirmations. -/
inductive Completed (σ : Setting) (r : Resolvent) : Decision → Decision → Prop
  | nothing (taken : Bool) : Completed σ r (.nothing taken) (.nothing taken)
  | existing (k : Kept) : Completed σ r (.existing k) (.existing k)
  | change {c : Change} {p : Placement}
      (hp : c.placement = none →
        ∃ repository, p = ⟨repository, σ.replacedBy r c.id repository⟩)
      (cs : List Confirmation) :
      Completed σ r (.change c) (.change { c with placement := some p, confirmations := cs })
  | remove (rem : Removal) (cs : List Confirmation) :
      Completed σ r (.remove rem) (.remove { rem with confirmations := cs })
  | unable (rejections : List Rejection) (taken : Bool) :
      Completed σ r (.unable rejections taken) (.unable rejections taken)
  | broken (b : Breakage) (cs : List Confirmation) :
      Completed σ r (.broken b) (.broken { b with confirmations := cs })

variable {σ : Setting} {s s' : DecidingState} {r : Resolvent} {d d' : Decision}

theorem followed?_completed (h : σ.Completed r d d') : followed? d' = followed? d := by
  cases h <;> rfl

theorem completed_taken (h : σ.Completed r d d') : d'.taken = d.taken := by
  cases h <;> rfl

theorem completed_of_place {cs : List Constraint} (h : σ.place r d = .ok d') :
    σ.Completed r d (σ.confirm r cs d') := by
  rw [confirm]
  generalize (σ.neededConfirmations cs d').filter (!σ.policy.confirms r ·) = unconfirmed
  cases d with
  | nothing | existing | unable =>
    cases h
    cases unconfirmed <;> constructor
  | remove rem =>
    cases h
    cases unconfirmed with
    | nil => exact .remove rem rem.confirmations
    | cons c cs => exact .remove rem (c :: cs)
  | broken b =>
    cases h
    cases unconfirmed with
    | nil => exact .broken b b.confirmations
    | cons c cs => exact .broken b (c :: cs)
  | change c =>
    obtain ⟨p, hp, rfl⟩ : ∃ p, (c.placement = none →
        ∃ repository, p = ⟨repository, σ.replacedBy r c.id repository⟩) ∧
        d' = .change { c with placement := some p } := by
      rw [place] at h
      split at h
      · next p hp =>
        cases h
        exact ⟨p, fun hn => absurd (hp.symm.trans hn) (by simp), by rw [← hp]⟩
      · split at h
        · cases h
        · next repository _ =>
          cases h
          exact ⟨_, fun _ => ⟨repository, rfl⟩, rfl⟩
    cases unconfirmed with
    | nil => exact .change hp c.confirmations
    | cons c' cs => exact .change hp (c' :: cs)

def placed (σ : Setting) (r : Resolvent) (d : Decision) : Decision :=
  match σ.place r d with
  | .ok d' => d'
  | .error _ => d

section Fold

variable {g : Resolvent → List Constraint → Decision → Decision} {l : List (Resolvent × Decision)}

theorem get?_setDecision_constraintsOf (r' : Resolvent) :
    (setDecision s r' (g r' (constraintsOf s r') d)).registry.get? r =
      if r = r' then
        (s.registry.get? r).map fun res => { res with decision := some (g r res.constraints d) }
      else s.registry.get? r := by
  rw [setDecision, get?_decide, constraintsOf]
  split
  · next h =>
    subst h
    cases s.registry.get? r <;> rfl
  · rfl

theorem get?_foldl_setDecision (dec : Resolvent → Option Decision)
    (hl : ∀ p ∈ l, dec p.1 = some p.2) :
    (l.foldl (fun s (r, d) => setDecision s r (g r (constraintsOf s r) d)) s).registry.get? r =
      if r ∈ l.map (·.1) then
        (s.registry.get? r).map fun res =>
          { res with decision := (dec r).map (g r res.constraints) }
      else s.registry.get? r := by
  induction l generalizing s with
  | nil => simp
  | cons p l ih =>
    obtain ⟨r', d⟩ := p
    rw [List.foldl_cons, ih fun p hp => hl p (.tail _ hp), get?_setDecision_constraintsOf]
    have hd : dec r' = some d := hl _ (.head _)
    by_cases hr : r = r'
    · subst hr
      rw [if_pos rfl, if_pos (List.mem_map.2 ⟨_, .head _, rfl⟩), hd]
      cases s.registry.get? r <;> simp
    · rw [if_neg hr]
      simp only [List.map_cons, List.mem_cons, hr, false_or]

theorem get?_foldl_decisions :
    (s.registry.decisions.foldl
      (fun s (r, d) => setDecision s r (g r (constraintsOf s r) d)) s).registry.get? r =
      (s.registry.get? r).map fun res =>
        { res with decision := res.decision.map (g r res.constraints) } := by
  rw [get?_foldl_setDecision s.registry.decision? fun p hp => mem_decisions_iff.1 hp]
  cases h : s.registry.get? r with
  | none => simp
  | some res =>
    have hdec : s.registry.decision? r = res.decision := by rw [decision?, h]; rfl
    split
    · simp [hdec]
    · next hm =>
      obtain ⟨cs, _ | d⟩ := res
      · rfl
      · exact absurd (List.mem_map.2 ⟨(r, d), mem_decisions_iff.2 hdec, rfl⟩) hm

/-- The fold of `placeAll`, which stops at the first change that has nowhere to go. -/
theorem foldl_place {failure : Option NoDestination}
    (h : l.foldl (fun (s, failure) (r, d) =>
      match failure with
      | some _ => (s, failure)
      | none =>
        match σ.place r d with
        | .ok d => (setDecision s r d, none)
        | .error e => (s, some e)) (s, failure) = (s', none)) :
    failure = none ∧ (∀ p ∈ l, σ.place p.1 p.2 = .ok (σ.placed p.1 p.2)) ∧
      s' = l.foldl (fun s (r, d) => setDecision s r (σ.placed r d)) s := by
  induction l generalizing s failure with
  | nil => cases h; simp
  | cons p l ih =>
    rw [List.foldl_cons] at h
    cases failure with
    | some e => cases (ih h).1
    | none =>
      cases hp : σ.place p.1 p.2 with
      | error e =>
        simp only [hp] at h
        cases (ih h).1
      | ok d =>
        simp only [hp] at h
        obtain ⟨-, hl, rfl⟩ := ih h
        have hd : σ.placed p.1 p.2 = d := by rw [placed, hp]
        refine ⟨rfl, List.forall_mem_cons.2 ⟨hd ▸ hp, hl⟩, ?_⟩
        simp only [List.foldl_cons, hd]

end Fold

def finished (σ : Setting) (r : Resolvent) (res : Resolution) : Resolution :=
  { res with decision := res.decision.map fun d => σ.confirm r res.constraints (σ.placed r d) }

theorem finish_get? {reg : Registry} (h : finish σ s = .ok reg) :
    reg.get? r = (s.registry.get? r).map (σ.finished r) ∧
      ∀ res, s.registry.get? r = some res → ∀ d, res.decision = some d →
        ∃ d', (σ.finished r res).decision = some d' ∧ σ.Completed r d d' := by
  rw [finish] at h
  split at h
  · cases h
  · next s₁ hs =>
    cases h
    obtain ⟨-, hp, rfl⟩ := foldl_place hs
    constructor
    · rw [confirmAll, get?_foldl_decisions (g := σ.confirm),
        get?_foldl_decisions (g := fun r _ d => σ.placed r d), Option.map_map]
      congr 1
      funext res
      simp only [finished, Function.comp_def, Option.map_map]
    · intro res hres d hd
      refine ⟨_, by rw [finished, hd]; rfl, completed_of_place (hp (r, d) ?_)⟩
      exact mem_decisions_iff.2 (decision?_eq_some_iff.2 ⟨res, hres, hd⟩)

end PackagePlan.Setting
