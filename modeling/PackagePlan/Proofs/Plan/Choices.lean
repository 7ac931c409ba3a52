import PackagePlan.Proofs.Plan.Outcome

/-! # What is chosen

An id is chosen with good reason: it may be installed, or is there already, it
is accepted by every constraint, and nothing better would be. Constraints that
were added after the choice count like the others.
-/

namespace PackagePlan

open Constraints

/-- A decision for `r` is right in the face of the constraints `cs`. -/
def Justified (db : Database) (policy : Policy) (r : Resolvent) (cs : List Constraint) :
    Decision → Prop
  | .change c => Legal db policy r c.id ∧ Accept cs c.id ∧
      ∀ id, Legal db policy r id → Accept cs id →
        PackageId.compareCandidates policy.promoteBinaries id c.id ≠ .gt
  | .existing k => Present db r k.id ∧ Accept cs k.id
  | _ => True

variable {q : Request} {db : Database} {policy : Policy} {seeds : Seeds} {maxRestarts : Nat}
  {decided : Decided} {r : Resolvent} {res : Resolution} {d : Decision}

/-- Every id that is chosen is legal, accepted by all constraints and the best of this kind; every
id that is kept is present and accepted by all constraints. -/
theorem decide_justified (hdb : db.Built)
    (h : q.decide db policy seeds maxRestarts = .ok decided)
    (hr : decided.registry.get? r = some res) (hd : res.decision = some d) :
    Justified db policy r res.constraints d := by
  obtain ⟨seeds', s, -, o⟩ := decide_outcome h
  obtain ⟨d₀, d', hd', hc, hs, -⟩ := o.suits hr
  obtain rfl := Option.some.inj (hd'.symm.trans hd)
  cases hc with
  | existing k =>
    obtain ⟨hk, ha⟩ := hs
    exact ⟨(Setting.mem_present_iff hdb.coherent).1 hk, ha⟩
  | change =>
    obtain ⟨-, hm, ha, hb⟩ := hs
    exact ⟨(Setting.mem_candidates_iff hdb.coherent).1 hm, ha,
      fun id hl => hb id ((Setting.mem_candidates_iff hdb.coherent).2 hl)⟩
  | nothing | remove | unable | broken => trivial

theorem decide_justified_sample : Sample.database.Built ∧ ∃ decided res c,
    Sample.request.decide Sample.database Sample.preferences.policy {} 10 = .ok decided ∧
      decided.registry.get? ⟨"app", some "0", .slash⟩ = some res ∧
        res.decision = some (.change c) ∧
          Justified Sample.database Sample.preferences.policy ⟨"app", some "0", .slash⟩
            res.constraints (.change c) := by
  obtain ⟨decided, res, c, _, _, hd, -, hr, hc, -⟩ := Sample.exists_installed
  exact ⟨Sample.database_built, decided, res, c, hd, hr, hc,
    decide_justified Sample.database_built hd hr hc⟩

end PackagePlan
