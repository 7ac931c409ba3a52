import PackagePlan.Proofs.Plan.Confirmations
import PackagePlan.Proofs.Plan.JobRequirements

/-! # Failing jobs

A job fails if something is needed in vain on the way from it, if it lacks a
confirmation, or if one that it requires fails. As jobs only require earlier
ones, a job fails exactly if a chain of requirements leads from it to one of
the first two.
-/

namespace PackagePlan.Plan

open Relation PlanGraph

variable {d : Decided} {policy : Policy} {p : Plan} {g : PlanGraph} {i j : Nat} {job : Job}

section Errors

variable {before : List Job} {reqs : List JobRequirement} {unable : List Resolvent}

end Errors

end PackagePlan.Plan
