import PackagePlan.Proofs.Plan.Outcome

/-! # What becomes of requirements

A requirement that is recorded, needed and not met by choosing nothing is
answered: its resolvent gets an id that it accepts, or is reported. The one
exception is an installed package that is broken because of a removal, which
puts aside whatever was decided for it.
-/

namespace PackagePlan

open Setting Registry Constraints

variable {q : Request} {db : Database} {policy : Policy} {seeds : Seeds} {maxRestarts : Nat}
  {σ : Setting} {s : DecidingState} {reg : Registry} {r : Resolvent} {res : Resolution}
  {c : Constraint}

structure Constraint.Required (c : Constraint) : Prop where
  package : c.isBlocker = false
  taken : c.untaken = false
  something : c.nothingIsFine = false

theorem Constraint.Required.not_allowsRemoval (hc : c.Required) : c.allowsRemoval = false := by
  rw [allowsRemoval, hc.package, hc.something, hc.taken]
  rfl

theorem Outcome.answers (o : Outcome q σ s reg) (hr : reg.get? r = some res)
    (hm : c ∈ res.constraints) (hc : c.Required) :
    ∃ d, res.decision = some d ∧ d.taken = true ∧
      ((∃ id, d.chosen? = some id ∧ c.accepts id = true) ∨ d.isUnable = true ∨
        ∃ b, d = .broken b ∧ c.accepts b.id = false) := by
  obtain ⟨d₀, d, hd, hcd, hs, ht⟩ := o.suits hr
  refine ⟨d, hd, by rw [ht, allUntaken_eq_false hm hc.taken]; rfl, ?_⟩
  cases hcd with
  | nothing =>
    have hn := hs.2 c hm
    rw [hc.something] at hn
    cases hn
  | existing k => exact .inl ⟨k.id, rfl, hs.2 c hm⟩
  | @change c' => exact .inl ⟨c'.id, rfl, hs.2.2.1 c hm⟩
  | remove =>
    have hn := hs.2 c hm
    rw [hc.not_allowsRemoval] at hn
    cases hn
  | unable => exact .inr (.inl rfl)
  | broken b =>
    cases hb : c.accepts b.id with
    | true => exact .inl ⟨b.id, rfl, hb⟩
    | false => exact .inr (.inr ⟨_, rfl, hb⟩)

namespace Sample

def dependentDatabase : Database :=
  (Database.empty.insert (id "app" (.installed .slash)) (.all [.package (.named "lib")])).insert
    (id "lib" (.installed .slash)) .nothing

/-- A version of `app` that does not exist is asked for, and `lib` is to go. -/
def upgradeAndRemove : Request :=
  { targets := [({ Requirement.named "app" with version := .atLeast (version 5) }, .target)]
    removals := [.named "lib"] }

def dropsRequirement (reg : Registry) (r : Resolvent) : Bool :=
  (reg.get? r).any fun res =>
    match res.decision with
    | some (.broken b) => res.constraints.any fun c =>
        !c.isBlocker && !c.untaken && !c.nothingIsFine && !c.accepts b.id
    | _ => false

theorem exists_dropped : ∃ p res c b,
    upgradeAndRemove.plan dependentDatabase preferences.policy {} 10 = .ok p ∧
      p.registry.get? ⟨"app", some "0", .slash⟩ = some res ∧ c ∈ res.constraints ∧ c.Required ∧
        res.decision = some (.broken b) ∧ c.accepts b.id = false ∧
          ⟨"app", some "0", .slash⟩ ∉ p.takenUnable := by
  obtain ⟨decided, hd, h⟩ := exists_eq_ok
    (x := upgradeAndRemove.decide dependentDatabase preferences.policy {} 10)
    (f := fun decided => dropsRequirement decided.registry ⟨"app", some "0", .slash⟩) (by decide +kernel)
  obtain ⟨res, hr, h⟩ := Option.any_eq_true _ _ |>.1 h
  split at h
  · next b hb =>
    obtain ⟨c, hm, h⟩ := List.any_eq_true.1 h
    simp only [Bool.and_eq_true, Bool.not_eq_true'] at h
    obtain ⟨⟨⟨hp, hu⟩, hn⟩, ha⟩ := h
    refine ⟨decided.plan _, res, c, b, plan_of_decide hd, hr, hm, ⟨hp, hu, hn⟩, hb, ha,
      fun h => ?_⟩
    obtain ⟨d, hdec, hun, -⟩ := mem_takenUnable_iff.1 h
    obtain rfl := Option.some.inj ((decision?_eq_some_iff.2 ⟨res, hr, hb⟩).symm.trans hdec)
    cases hun
  · cases h

end Sample

/-- In every plan a required package is chosen or reported, unless its resolvent is broken with an
id that the requirement does not accept. -/
theorem plan_answers_iff {p : Plan} (h : q.plan db policy seeds maxRestarts = .ok p)
    (hr : p.registry.get? r = some res) (hm : c ∈ res.constraints) (hc : c.Required) :
    ((∃ d id, res.decision = some d ∧ d.chosen? = some id ∧ c.accepts id = true) ∨
        r ∈ p.takenUnable) ↔
      ¬ ∃ b, res.decision = some (.broken b) ∧ c.accepts b.id = false := by
  obtain ⟨decided, hd, rfl⟩ := plan_eq_ok_iff.1 h
  obtain ⟨seeds', s, -, o⟩ := decide_outcome hd
  have hr : decided.registry.get? r = some res := hr
  obtain ⟨d, hd, ht, ha⟩ := o.answers hr hm hc
  have hdec : decided.registry.decision? r = some d := decision?_eq_some_iff.2 ⟨res, hr, hd⟩
  simp only [mem_takenUnable_iff, hdec, hd, Option.some.injEq]
  constructor
  · rintro (⟨d', id, rfl, hi, hacc⟩ | ⟨d', rfl, hu, -⟩) ⟨b, rfl, hb⟩
    · obtain rfl := Option.some.inj hi
      rw [hb] at hacc
      cases hacc
    · cases hu
  · intro hn
    rcases ha with ⟨id, hi, hacc⟩ | hu | ⟨b, rfl, hb⟩
    · exact .inl ⟨d, id, rfl, hi, hacc⟩
    · exact .inr ⟨d, rfl, hu, ht⟩
    · exact absurd ⟨b, rfl, hb⟩ hn

theorem plan_answers_iff_upgradeAndRemove : ∃ p res c,
    Sample.upgradeAndRemove.plan Sample.dependentDatabase Sample.preferences.policy {} 10 =
        .ok p ∧
      p.registry.get? ⟨"app", some "0", .slash⟩ = some res ∧ c ∈ res.constraints ∧ c.Required ∧
        (((∃ d id, res.decision = some d ∧ d.chosen? = some id ∧ c.accepts id = true) ∨
            ⟨"app", some "0", .slash⟩ ∈ p.takenUnable) ↔
          ¬ ∃ b, res.decision = some (.broken b) ∧ c.accepts b.id = false) := by
  obtain ⟨p, res, c, b, hp, hr, hm, hc, -⟩ := Sample.exists_dropped
  exact ⟨p, res, c, hp, hr, hm, hc, plan_answers_iff hp hr hm hc⟩

/-- Breaking a package drops what was required of it. -/
theorem requirement_dropped_by_breakage :
    ¬ ∀ (q : Request) (db : Database) (policy : Policy) (seeds : Seeds) (maxRestarts : Nat)
      (p : Plan) (r : Resolvent) (res : Resolution) (c : Constraint),
      q.plan db policy seeds maxRestarts = .ok p → p.registry.get? r = some res →
        c ∈ res.constraints → c.Required →
          (∃ d id, res.decision = some d ∧ d.chosen? = some id ∧ c.accepts id = true) ∨
            r ∈ p.takenUnable := by
  intro h
  obtain ⟨p, res, c, b, hp, hr, hm, hc, hb, ha, hu⟩ := Sample.exists_dropped
  rcases h _ _ _ _ _ p _ res c hp hr hm hc with ⟨d, id, hd, hi, hacc⟩ | hu'
  · obtain rfl := Option.some.inj (hb.symm.trans hd)
    obtain rfl := Option.some.inj hi
    rw [ha] at hacc
    cases hacc
  · exact hu hu'

end PackagePlan
