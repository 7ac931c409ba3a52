import PackagePlan.Policy.Preferences
import PackagePlan.Proofs.Deciding.Candidates
import PackagePlan.Proofs.Deciding.Placement

/-! # The constraints of a dependency

A dependency on a package leads to a constraint at `/`, whether or not there
is an id that meets it. A blocker leads to one at every resolvent at `/` that
could have an id that it blocks.
-/

namespace PackagePlan

namespace Setting

variable {σ : Setting} {r : Resolvent} {d : Decision} {id : PackageId} {req : Requirement}
  {b : Blocker} {ls : List Label}

def queryFor (db : Database) (r : Resolvent) (d : Decision) (id : PackageId) (dep : Dependency) :
    InterestQuery :=
  { resolvent := r, decision := d, id, dependency := dep
    alreadyInstalled :=
      match dep.demand with
      | .package req => db.hasInstalled req
      | .blocker _ => false }

theorem slash_mem_destinationsFor (link : Link Requirement) :
    .slash ∈ σ.destinationsFor (.dependency link) := by
  rw [destinationsFor]
  split <;> exact .head _

theorem exists_slash_mem_resolventsFor (req : Requirement) (link : Link Requirement) :
    ∃ r' ∈ σ.resolventsFor req (.dependency link), r'.destination = .slash := by
  have hs := slash_mem_destinationsFor (σ := σ) link
  rw [resolventsFor]
  split
  · exact ⟨_, List.mem_map_of_mem hs, rfl⟩
  · next hne =>
    obtain ⟨id, hid⟩ : ∃ id, id ∈ (σ.bestFor? req).toList ++ σ.installedFor req := by
      refine List.exists_mem_of_ne_nil _ fun hn => hne ?_
      rw [resolventsMeeting, hn]
      rfl
    exact ⟨.ofId id .slash, List.mem_eraseDups.2
      (List.mem_flatMap.2 ⟨id, hid, List.mem_map_of_mem hs⟩), rfl⟩

theorem exists_mem_dependencyConstraints
    (hi : σ.policy.interest (queryFor σ.db r d id ⟨.package req, ls⟩) = .take)
    (hp : σ.policy.presumes req = false) :
    ∃ r' c link, (r', c) ∈ σ.dependencyConstraints r d id ⟨.package req, ls⟩ ∧
      r'.destination = .slash ∧ c.demand = .package req ∧ c.untaken = false ∧
        c.nothingIsFine = false ∧ c.reason = .dependency link ∧ link.holder = r := by
  let link : Link Requirement :=
    { holder := r, holderId := id, demand := req, labels := ls
      alreadyMet := σ.alreadyMet (.package req) }
  obtain ⟨r', hr', hs⟩ := exists_slash_mem_resolventsFor (σ := σ) req link
  have hi : σ.policy.interest
      { resolvent := r, decision := d, id, dependency := ⟨.package req, ls⟩
        alreadyInstalled := σ.db.hasInstalled req } = .take := hi
  let c : Constraint :=
    { demand := .package req, reason := .dependency link
      keep := σ.policy.keep r' req (.dependency link), destination := r'.destination }
  refine ⟨r', c, link, ?_, hs, rfl, rfl, rfl, rfl, rfl⟩
  simp only [dependencyConstraints, hi, hp]
  exact List.mem_map.2 ⟨r', hr', by simp [c, link]⟩

theorem interest_completed {d' : Decision} {p : Preferences} {dep : Dependency}
    (h : σ.Completed r d d') :
    p.policy.interest (queryFor σ.db r d' id dep) =
      p.policy.interest (queryFor σ.db r d id dep) := by
  cases h <;> rfl

end Setting

end PackagePlan
