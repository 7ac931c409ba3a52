import PackagePlan.Dependency.Flatten
import PackagePlan.Dependency.Parser
import PackagePlan.Package.Database
import PackagePlan.Decision.Registry
import PackagePlan.Policy.Preferences
import PackagePlan.Policy.Seeds
import PackagePlan.Deciding.Candidates
import PackagePlan.Deciding.Finder
import PackagePlan.Deciding.Score
import PackagePlan.Deciding.State
import PackagePlan.Deciding.Placement
import PackagePlan.Graph.Basic
import PackagePlan.Plan.Report
import PackagePlan.Plan.Request
import PackagePlan.Data.Toml.Scalar
import PackagePlan.Data.Toml.Reader
import PackagePlan.Data.Toml.Writer
import PackagePlan.Universe.Load
import PackagePlan.Policy.Config
import PackagePlan.Main
import PackagePlan.Proofs.Plan.Requirements
import PackagePlan.Proofs.Plan.Choices
import PackagePlan.Proofs.Plan.Dependencies
import PackagePlan.Proofs.Plan.Blockers
import PackagePlan.Proofs.Plan.Cycles
import PackagePlan.Proofs.Plan.Jobs
import PackagePlan.Proofs.Plan.Order
import PackagePlan.Proofs.Plan.Termination
import PackagePlan.Proofs.Deciding.Session
import PackagePlan.Proofs.Plan.Agreement
import PackagePlan.Proofs.Plan.Progress
import PackagePlan.Proofs.Plan.Dependents
import PackagePlan.Proofs.Plan.Confirmations
import PackagePlan.Proofs.Plan.FirstEdges
import PackagePlan.Proofs.Plan.Failures
import PackagePlan.Proofs.Universe.Rearranged
import PackagePlan.Proofs.Dependency.Meaning
import PackagePlan.Proofs.Plan.Suggestions
import PackagePlan.Proofs.Plan.Restarts
import PackagePlan.Proofs.Plan.JobIds
import PackagePlan.Proofs.Plan.Undecidable
import PackagePlan.Proofs.Plan.Absence
import PackagePlan.Proofs.Plan.Breakages
import PackagePlan.Proofs.Version.Order
import PackagePlan.Proofs.Graph.Met
import PackagePlan.Proofs.Requirement.RoundTrip
import PackagePlan.Proofs.Dependency.RoundTrip
import PackagePlan.Proofs.Version.Grammar
import PackagePlan.Proofs.Version.Intervals
import PackagePlan.Proofs.Universe.RoundTrip
import PackagePlan.Proofs.Graph.Rearranged
import PackagePlan.Proofs.Package.Indexes
