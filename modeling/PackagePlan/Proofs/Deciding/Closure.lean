import PackagePlan.Proofs.Deciding.Attempt
import PackagePlan.Proofs.Dependency.Firm

/-! # Closure under dependencies

Whenever a decision brings in dependencies, its resolvent is pending or all
firm dependencies have been recorded. Recording constraints never loses one,
and replaces a decision by one that brings in dependencies only where it makes
the resolvent pending. At the end of an attempt nothing is pending.
-/

namespace PackagePlan

def Registry.Records (reg : Registry) (r : Resolvent) (c : Constraint) : Prop :=
  ∃ res, reg.get? r = some res ∧ c ∈ res.constraints

namespace Setting

open Registry DependencyTree

structure Extends (s s' : DecidingState) : Prop where
  records : ∀ {r c}, s.registry.Records r c → s'.registry.Records r c
  pending : ∀ {r}, s.pending.contains r = true → s'.pending.contains r = true
  decision : ∀ {r d id}, s'.registry.decision? r = some d → followed? d = some id →
    s.registry.decision? r = some d ∨ s'.pending.contains r = true

/-- All firm dependencies of the id, which `d` chooses for `r`, are recorded. -/
def Expanded (σ : Setting) (reg : Registry) (r : Resolvent) (d : Decision) (id : PackageId) :
    Prop :=
  ∀ dep, Firm id.choices Label.initial [σ.db.treeOf id] dep →
    ∀ p ∈ σ.dependencyConstraints r d id dep, reg.Records p.1 p.2

/-- What is decided for `r` is pending, or its firm dependencies are recorded. -/
def ClosedAt (σ : Setting) (s : DecidingState) (r : Resolvent) : Prop :=
  ∀ d id, s.registry.decision? r = some d → followed? d = some id →
    s.pending.contains r = true ∨ σ.Expanded s.registry r d id

def Closed (σ : Setting) (s : DecidingState) : Prop := ∀ r, σ.ClosedAt s r

variable {σ : Setting} {s s' s'' : DecidingState} {r r' : Resolvent} {c : Constraint}
  {d : Decision} {id : PackageId} {reg reg' : Registry} {res : Resolution}

namespace Extends

theorem refl : Extends s s := ⟨id, id, fun hd _ => .inl hd⟩

theorem trans (h : Extends s s') (h' : Extends s' s'') : Extends s s'' where
  records hr := h'.records (h.records hr)
  pending hp := h'.pending (h.pending hp)
  decision hd hf := by
    rcases h'.decision hd hf with hd | hp
    · exact (h.decision hd hf).imp_right h'.pending
    · exact .inr hp

theorem expanded (h : Extends s s') (he : σ.Expanded s.registry r d id) :
    σ.Expanded s'.registry r d id :=
  fun dep hdep p hp => h.records (he dep hdep p hp)

theorem closedAt (h : Extends s s') (hc : σ.ClosedAt s r) : σ.ClosedAt s' r := by
  intro d id hd hf
  rcases h.decision hd hf with hd | hp
  · exact (hc d id hd hf).imp h.pending h.expanded
  · exact .inl hp

end Extends

theorem Writes.records (h : Writes reg reg' r res)
    (hc : ∀ c ∈ (σ.resolutionAt reg r).constraints, c ∈ res.constraints)
    (hr : reg.Records r' c) : reg'.Records r' c := by
  obtain ⟨res', hres', hm⟩ := hr
  by_cases he : r' = r
  · subst he
    have hat : σ.resolutionAt reg r' = res' := by rw [resolutionAt, hres']; rfl
    exact ⟨res, by rw [h r', if_pos rfl], hc c (hat.symm ▸ hm)⟩
  · exact ⟨res', by rw [h r', if_neg he]; exact hres', hm⟩

theorem Writes.decision? (h : Writes reg reg' r res) :
    reg'.decision? r' = if r' = r then res.decision else reg.decision? r' := by
  rw [Registry.decision?, h r']
  split <;> rfl

theorem applyConstraint_extends (h : σ.applyConstraint s r c = .ok s') :
    Extends s s' ∧ s'.registry.Records r c := by
  obtain ⟨d, queued, hr, hw, hp⟩ := applyConstraint_writes h
  refine ⟨⟨fun hrec => hw.records (fun _ hm => List.mem_append_left _ hm) hrec, fun hpr => ?_,
    fun {r' d' id'} hd hf => ?_⟩, _, by rw [hw r, if_pos rfl], by simp⟩
  · rw [hp]
    cases queued with
    | false => exact hpr
    | true => exact OrderedSet.contains_insert.2 (.inr hpr)
  · rw [hw.decision?] at hd
    by_cases he : r' = r
    · subst he
      rw [if_pos rfl] at hd
      cases hr with
      | keep => exact .inl (decision_resolutionAt ▸ hd)
      | replace => exact .inr (hp ▸ OrderedSet.contains_insert.2 (.inl rfl))
      | giveUp => cases hd; cases hf
    · rw [if_neg he] at hd
      exact .inl hd

theorem applyAll_extends {cs : List (Resolvent × Constraint)} (h : σ.applyAll s cs = .ok s') :
    Extends s s' ∧ ∀ p ∈ cs, s'.registry.Records p.1 p.2 := by
  induction cs generalizing s with
  | nil => cases h; exact ⟨.refl, by simp⟩
  | cons p cs ih =>
    obtain ⟨s₁, h₁, h⟩ := foldlM_cons_eq_ok_iff.1 h
    obtain ⟨he₁, hr₁⟩ := applyConstraint_extends h₁
    obtain ⟨he, hr⟩ := ih h
    exact ⟨he₁.trans he, List.forall_mem_cons.2 ⟨he.records hr₁, hr⟩⟩

theorem addDependencies_extends (h : σ.addDependencies s r = .ok s') :
    Extends s s' ∧ ∀ d id, s.registry.decision? r = some d → followed? d = some id →
      σ.Expanded s'.registry r d id := by
  rw [addDependencies] at h
  split at h
  · next hn =>
    cases h
    exact ⟨.refl, fun d id hd => by rw [hn] at hd; cases hd⟩
  · next d hd =>
    split at h
    · next hn =>
      cases h
      refine ⟨.refl, fun d' id hd' hf => ?_⟩
      obtain rfl := Option.some.inj (hd.symm.trans hd')
      rw [hn] at hf
      cases hf
    · next id hf =>
      obtain ⟨s₁, h₁, h⟩ := bind_eq_ok_iff.1 h
      obtain ⟨he, hr⟩ := applyAll_extends h
      refine ⟨(applyAll_extends h₁).1.trans he, fun d' id' hd' hf' dep hdep p hp => ?_⟩
      obtain rfl := Option.some.inj (hd.symm.trans hd')
      obtain rfl := Option.some.inj (hf.symm.trans hf')
      exact hr p (List.mem_flatMap.2 ⟨dep, mem_dependencies_of_firm hdep, hp⟩)

theorem closed_of_addDependencies (hs : ∀ r', r' ≠ r → σ.ClosedAt s r')
    (h : σ.addDependencies s r = .ok s') : σ.Closed s' := by
  obtain ⟨he, hr⟩ := addDependencies_extends h
  intro r'
  by_cases hrr : r' = r
  · subst hrr
    intro d id hd hf
    exact (he.decision hd hf).elim (fun hd => .inr (hr d id hd hf)) .inl
  · exact he.closedAt (hs r' hrr)

theorem closedAt_erase (h : σ.ClosedAt s r') (hr : r' ≠ r) :
    σ.ClosedAt { s with pending := s.pending.erase r } r' :=
  fun d id hd hf =>
    (h d id hd hf).imp_left fun hp => OrderedSet.contains_erase.2 ⟨hr, hp⟩

theorem closedAt_setDecision (h : σ.ClosedAt s r') (hr : r' ≠ r) :
    σ.ClosedAt (setDecision s r d) r' := by
  have hget : (setDecision s r d).registry.decision? r' = s.registry.decision? r' := by
    rw [setDecision, Registry.decision?, get?_decide, if_neg hr, Registry.decision?]
  have hrec : ∀ {r'' c}, s.registry.Records r'' c → (setDecision s r d).registry.Records r'' c := by
    rintro r'' c ⟨res, hres, hc⟩
    rw [Records, setDecision, get?_decide]
    split
    · next he => subst he; exact ⟨{ res with decision := some d }, by rw [hres]; rfl, hc⟩
    · exact ⟨res, hres, hc⟩
  intro d' id hd hf
  exact (h d' id (hget ▸ hd) hf).imp_right fun he dep hdep p hp => hrec (he dep hdep p hp)

theorem breakId_extends {reason : Reason} : Extends s (σ.breakId s r id reason) where
  records hr := writes_breakId.records (fun _ hm => List.mem_append_left _ hm) hr
  pending hp := hp
  decision {r' d' id'} hd hf := by
    rw [writes_breakId.decision?] at hd
    split at hd
    · cases hd; cases hf
    · exact .inl hd

theorem followRemoval_extends {removed : List (Resolvent × PackageId)}
    {installed arriving : List PackageId} {b : Bool}
    (h : σ.followRemoval removed installed arriving s id = .ok (s', b)) : Extends s s' := by
  cases followRemoval_followed h with
  | spared => exact .refl
  | removal _ happly => exact (applyConstraint_extends happly).1
  | breakage => exact breakId_extends

theorem closed_keeps : σ.Keeps σ.Closed fun _ => True where
  pending hs := ensures_of_ok fun _ h =>
    closed_of_addDependencies (fun r' hr => closedAt_erase (hs r') hr) h
  decide hs _ := ensures_of_ok fun _ h =>
    closed_of_addDependencies (fun r' hr => closedAt_erase (closedAt_setDecision (hs r') hr) hr) h
  removal hs _ := ensures_of_ok fun _ h r => (followRemoval_extends h).closedAt (hs r)
  endless := trivial

theorem attempt_closed {q : Request} : Ensures (q.attempt σ) σ.Closed fun _ => True := by
  refine Ensures.bind (P := σ.Closed) ?_ fun s₁ h₁ => Ensures.bind (P := σ.Closed) ?_
    fun s₂ h₂ => closed_keeps.resolveFrom h₂
  · refine Ensures.foldlM (fun p _ s hs => ensures_of_ok fun s' h r =>
      (applyAll_extends h).1.closedAt (hs r)) fun r d id hd => ?_
    cases hd
  · exact Ensures.foldlM (fun p _ s hs => ensures_of_ok fun s' h r =>
      (applyAll_extends h).1.closedAt (hs r)) h₁

/-- At the end of an attempt all firm dependencies of what was decided are recorded. -/
theorem attempt_expanded {q : Request} (h : q.attempt σ = .ok s)
    (hd : s.registry.decision? r = some d) (hf : followed? d = some id) :
    σ.Expanded s.registry r d id := by
  refine (attempt_closed.of_ok h r d id hd hf).resolve_left fun hp => ?_
  have hm := OrderedSet.mem_toList_iff.2 hp
  rw [(attempt_settled h).pending] at hm
  cases hm

end Setting

end PackagePlan
