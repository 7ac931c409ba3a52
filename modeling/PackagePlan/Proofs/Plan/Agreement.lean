import PackagePlan.Proofs.Plan.Outcome

/-! # Where finding and testing disagree

A decision is found for all constraints together and tested against one
constraint at a time. The two agree except in two cases: an id is kept in the
strictest mode that is asked for, although a less strict one would not let it
be kept, and a removal passes over requirements that are only suggestions.
-/

namespace PackagePlan

open Setting Constraints

variable {σ : Setting} {r : Resolvent} {cs : List Constraint} {c : Constraint} {d : Decision}

/-- The decision does not meet the constraint, although it has been found for `cs`. -/
def Decision.Overlooks (cs : List Constraint) (c : Constraint) : Decision → Prop
  | .existing k => c.keep.rank < (strictest cs).rank ∧
      c.keep.permits k.isSame k.isSameVersion k.isTransient = false
  | .remove _ => c.untaken = true ∧ c.isBlocker = false ∧ c.nothingIsFine = false
  | _ => False

theorem untaken_or_taken (hc : c ∈ cs) : (c.untaken || !allUntaken cs) = true := by
  cases hu : c.untaken with
  | true => rfl
  | false => rw [allUntaken_eq_false hc hu]; rfl

theorem rank_lt_strictest {same sameVersion transient : Bool} (hc : c ∈ cs)
    (hs : (strictest cs).permits same sameVersion transient = true)
    (hn : c.keep.permits same sameVersion transient = false) :
    c.keep.rank < (strictest cs).rank := by
  have hle : c.keep.rank ≤ (strictest cs).rank := rank_le_strictest hc
  rcases Nat.lt_or_eq_of_le hle with hlt | he
  · exact hlt
  · rw [KeepMode.eq_of_rank_eq he, hs] at hn
    cases hn

theorem Setting.Finds.meets_iff (h : σ.Finds r cs d) (hc : c ∈ cs) :
    d.meets c = true ↔ ¬ d.Overlooks cs c := by
  have hu : (c.untaken || !allUntaken cs) = true := untaken_or_taken hc
  cases h with
  | @keep k hk hm ht =>
    rw [Decision.meets_existing, ht]
    constructor
    · rintro ⟨-, hp, -⟩ ⟨-, hn⟩
      rw [hp] at hn
      cases hn
    · intro ho
      refine ⟨hk.2 c hc, ?_, hu⟩
      cases hp : c.keep.permits k.isSame k.isSameVersion k.isTransient with
      | true => rfl
      | false => exact absurd ⟨rank_lt_strictest hc hm hp, hp⟩ ho
  | change hi => simp [Decision.meets_change, (mem_of_pick hi).2 c hc, hu, Decision.Overlooks]
  | remove hr =>
    have hr : (c.isBlocker || c.nothingIsFine || c.untaken) = true := hr c hc
    simp only [Decision.meets_remove, hu, and_true, Decision.Overlooks]
    revert hr
    cases c.isBlocker <;> cases c.nothingIsFine <;> cases c.untaken <;> simp
  | nothing hp hn => simp [Decision.meets_nothing, hn c hc, hu, Decision.Overlooks]

namespace Sample

def reinstallable : Setting :=
  { db := (Database.empty.insert (id "app" (.installed .slash)) .nothing).insert
      (id "app" .source) .nothing
    policy := preferences.policy
    seeds := {} }

def fromSet : Constraint :=
  { demand := Requirement.named "app", reason := .set "world" .target, keep := .ifSame
    destination := .slash }

/-- A dependency on any `app`, with the mode that the user has set for dependencies. -/
def dependency : Constraint :=
  { demand := Requirement.named "app"
    reason := .dependency ⟨⟨"user", some "0", .slash⟩, id "user" .source, .named "app", [], true⟩
    keep := .onlyIfTransient
    destination := .slash }

def unwanted : Constraint :=
  { demand := Blocker.mk (.named "app") true, reason := .target, destination := .slash
    nothingIsFine := true }

def suggestion : Constraint :=
  { dependency with
    demand := ({ Requirement.named "app" with version := .atLeast (version 5) } : Requirement)
    keep := .ifPossible
    untaken := true }

theorem exists_kept : ∃ k,
    reinstallable.findDecision ⟨"app", some "0", .slash⟩ [fromSet, dependency] =
        some (.existing k) ∧
      (Decision.existing k).meets dependency = false := by
  have h : (reinstallable.findDecision ⟨"app", some "0", .slash⟩ [fromSet, dependency]).any
      (fun d => d.kind == "existing" && !d.meets dependency) = true := by decide +kernel
  obtain ⟨d, hd, h⟩ := Option.any_eq_true _ _ |>.1 h
  obtain ⟨hk, hm⟩ := Bool.and_eq_true_iff.1 h
  cases d with
  | existing k => exact ⟨k, hd, by simpa using hm⟩
  | nothing | change | remove | unable | broken => cases hk

theorem exists_removed : ∃ rem,
    reinstallable.findDecision ⟨"app", some "0", .slash⟩ [unwanted, suggestion] =
        some (.remove rem) ∧
      (Decision.remove rem).meets suggestion = false := by
  have h : (reinstallable.findDecision ⟨"app", some "0", .slash⟩ [unwanted, suggestion]).any
      (fun d => d.kind == "remove" && !d.meets suggestion) = true := by decide +kernel
  obtain ⟨d, hd, h⟩ := Option.any_eq_true _ _ |>.1 h
  obtain ⟨hk, hm⟩ := Bool.and_eq_true_iff.1 h
  cases d with
  | remove rem => exact ⟨rem, hd, by simpa using hm⟩
  | nothing | change | existing | unable | broken => cases hk

end Sample

/-- A decision that is found for some constraints meets each of them that it does not overlook. -/
theorem findDecision_meets_iff (h : σ.findDecision r cs = some d) (hc : c ∈ cs) :
    d.meets c = true ↔ ¬ d.Overlooks cs c :=
  (findDecision_finds h).meets_iff hc

theorem findDecision_meets_iff_reinstallable : ∃ k,
    Sample.reinstallable.findDecision ⟨"app", some "0", .slash⟩
        [Sample.fromSet, Sample.dependency] = some (.existing k) ∧
      ((Decision.existing k).meets Sample.fromSet = true ↔
        ¬ (Decision.existing k).Overlooks [Sample.fromSet, Sample.dependency] Sample.fromSet) := by
  obtain ⟨k, hk, -⟩ := Sample.exists_kept
  exact ⟨k, hk, findDecision_meets_iff hk (.head _)⟩

theorem found_not_met :
    (¬ ∀ (σ : Setting) (r : Resolvent) (cs : List Constraint) (k : Kept) (c : Constraint),
      σ.findDecision r cs = some (.existing k) → c ∈ cs → (Decision.existing k).meets c = true) ∧
    ¬ ∀ (σ : Setting) (r : Resolvent) (cs : List Constraint) (rem : Removal) (c : Constraint),
      σ.findDecision r cs = some (.remove rem) → c ∈ cs → (Decision.remove rem).meets c = true := by
  constructor
  · intro h
    obtain ⟨k, hk, hm⟩ := Sample.exists_kept
    rw [h _ _ _ _ _ hk (.tail _ (.head _))] at hm
    cases hm
  · intro h
    obtain ⟨rem, hr, hm⟩ := Sample.exists_removed
    rw [h _ _ _ _ _ hr (.tail _ (.head _))] at hm
    cases hm

end PackagePlan
