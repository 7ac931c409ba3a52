import PackagePlan.Proofs.Deciding.Dependencies
import PackagePlan.Proofs.Plan.Requirements

/-! # Dependencies of what is decided

Unless something could not be decided or had to be broken, what is decided is
closed under dependencies: every firm dependency that is taken of every id that
is installed or kept has been answered at `/`.
-/

namespace PackagePlan

open Setting DependencyTree

variable {q : Request} {db : Database} {p : Preferences} {seeds : Seeds} {maxRestarts : Nat}
  {decided : Decided} {r : Resolvent} {d : Decision} {id : PackageId} {req : Requirement}
  {ls : List Label}

/-- The registry records the requirement as a dependency of the resolvent `r` and answers it at
`/` with an id that it accepts. -/
def Registry.Provides (reg : Registry) (r : Resolvent) (req : Requirement) : Prop :=
  ∃ r' res c link d id, r'.destination = .slash ∧ reg.get? r' = some res ∧
    c ∈ res.constraints ∧ c.demand = .package req ∧ c.reason = .dependency link ∧
      link.holder = r ∧ res.decision = some d ∧ d.taken = true ∧ d.chosen? = some id ∧
        req.accepts id = true

/-- If everything is decided and nothing broken, what is decided is closed under dependencies. -/
theorem decided_provides (h : q.decide db p.policy seeds maxRestarts = .ok decided)
    (hok : decided.registry.Intact) (hd : decided.registry.decision? r = some d)
    (hf : followed? d = some id)
    (hleaf : Firm id.choices Label.initial [db.treeOf id] ⟨.package req, ls⟩)
    (hi : p.policy.interest (queryFor db r d id ⟨.package req, ls⟩) = .take)
    (hp : p.policy.presumes req = false) : decided.registry.Provides r req := by
  obtain ⟨seeds', s, -, o⟩ := decide_outcome h
  obtain ⟨d₀, hd₀, hc⟩ := o.decision hd
  have hf₀ : followed? d₀ = some id := followed?_completed hc ▸ hf
  have hi₀ : p.policy.interest (queryFor db r d₀ id ⟨.package req, ls⟩) = .take :=
    interest_completed hc ▸ hi
  obtain ⟨r', c, link, hm, hs, hdem, hu, hn, hr, hl⟩ :=
    exists_mem_dependencyConstraints (σ := ⟨db, p.policy, seeds'⟩) hi₀ hp
  obtain ⟨res, hres, hcm⟩ := o.records_iff.2 (attempt_expanded o.attempt hd₀ hf₀ _ hleaf _ hm)
  have hreq : c.Required := ⟨by rw [Constraint.isBlocker, hdem]; rfl, hu, hn⟩
  obtain ⟨d', hd', ht, ha⟩ := o.answers hres hcm hreq
  obtain ⟨hun, hbr⟩ := hok r' d' (Registry.decision?_eq_some_iff.2 ⟨res, hres, hd'⟩)
  rcases ha with ⟨id', hid', hacc⟩ | hu' | ⟨b, rfl, -⟩
  · rw [Constraint.accepts, hdem] at hacc
    exact ⟨r', res, c, link, d', id', hs, hres, hcm, hdem, hr, hl, hd', ht, hid', hacc⟩
  · rw [hun] at hu'
    cases hu'
  · exact absurd rfl (hbr b)

theorem decided_provides_sample : ∃ decided req,
    Sample.request.decide Sample.database Sample.preferences.policy {} 10 = .ok decided ∧
      decided.registry.Intact ∧
        decided.registry.Provides ⟨"app", some "0", .slash⟩ req := by
  obtain ⟨decided, res, c, req, b, hd, hok, hr, hc, ht, htree⟩ := Sample.exists_installed
  have hdec : decided.registry.decision? ⟨"app", some "0", .slash⟩ = some (.change c) :=
    Registry.decision?_eq_some_iff.2 ⟨res, hr, hc⟩
  have hf : followed? (.change c) = some c.id := by rw [followed?, if_pos ht]
  have hleaf : Firm c.id.choices Label.initial [Sample.database.treeOf c.id]
      ⟨.package req, Label.initial⟩ := htree ▸ .all .package
  exact ⟨decided, req, hd, hok, decided_provides hd hok hdec hf hleaf rfl rfl⟩

end PackagePlan
