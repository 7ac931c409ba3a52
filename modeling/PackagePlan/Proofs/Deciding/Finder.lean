import PackagePlan.Proofs.Deciding.Candidates

/-! # What a decision promises

A decision that was found for a list of constraints suits them: what it keeps
or installs is accepted by all of them, and no other candidate is better. It
goes on to suit them as long as only constraints that it meets are added.
-/

namespace PackagePlan

namespace KeepMode

variable {a b : KeepMode}

theorem rank_stricter : (a.stricter b).rank = max a.rank b.rank := by
  rw [stricter]
  split <;> omega

theorem eq_of_rank_eq (h : a.rank = b.rank) : a = b := by
  cases a <;> cases b <;> first | rfl | cases h

end KeepMode

namespace Constraints

variable {cs : List Constraint} {c : Constraint}

theorem nothingIsFine_iff : nothingIsFine cs = true ↔ ∀ c ∈ cs, c.nothingIsFine = true := by
  simp [nothingIsFine]

theorem allUntaken_append : allUntaken (cs ++ [c]) = (allUntaken cs && c.untaken) := by
  simp [allUntaken]

theorem rank_le_foldl_stricter (mode : KeepMode) :
    mode.rank ≤ (cs.foldl (fun mode c => mode.stricter c.keep) mode).rank ∧
      ∀ c ∈ cs, c.keep.rank ≤ (cs.foldl (fun mode c => mode.stricter c.keep) mode).rank := by
  induction cs generalizing mode with
  | nil => simp
  | cons c cs ih =>
    obtain ⟨hm, hcs⟩ := ih (mode.stricter c.keep)
    rw [KeepMode.rank_stricter] at hm
    rw [List.foldl_cons]
    exact ⟨by omega, List.forall_mem_cons.2 ⟨by omega, hcs⟩⟩

theorem rank_le_strictest (hc : c ∈ cs) : c.keep.rank ≤ (strictest cs).rank :=
  (rank_le_foldl_stricter .ifPossible).2 c hc

theorem rank_strictest_le_append {after : List Constraint} :
    (strictest cs).rank ≤ (strictest (cs ++ after)).rank := by
  rw [strictest, strictest, List.foldl_append]
  exact (rank_le_foldl_stricter _).1

theorem allUntaken_eq_false_iff : allUntaken cs = false ↔ ∃ c ∈ cs, c.untaken = false := by
  simp [allUntaken]

theorem allUntaken_eq_false (hc : c ∈ cs) (h : c.untaken = false) : allUntaken cs = false :=
  allUntaken_eq_false_iff.2 ⟨c, hc, h⟩

end Constraints

def Constraint.allowsRemoval (c : Constraint) : Bool :=
  c.isBlocker || c.nothingIsFine || c.untaken

theorem isBlocker_forRestart {c : Constraint} : c.forRestart.isBlocker = c.isBlocker := by
  rw [Constraint.isBlocker, Constraint.isBlocker, Constraint.forRestart]
  cases c.demand <;> rfl

namespace Decision

variable {d : Decision} {c : Constraint}

theorem meets_nothing {taken : Bool} :
    (nothing taken).meets c = true ↔
      c.nothingIsFine = true ∧ (c.untaken || taken) = true := by
  simp [meets, chosen?, Decision.taken]

theorem meets_existing {k : Kept} :
    (existing k).meets c = true ↔ c.accepts k.id = true ∧
      c.keep.permits k.isSame k.isSameVersion k.isTransient = true ∧
        (c.untaken || k.taken) = true := by
  simp [meets, chosen?, Decision.taken, and_assoc]

theorem meets_change {ch : Change} :
    (change ch).meets c = true ↔ c.accepts ch.id = true ∧ (c.untaken || ch.taken) = true := by
  simp [meets, chosen?, Decision.taken]

theorem meets_remove {rem : Removal} :
    (remove rem).meets c = true ↔
      (c.isBlocker || c.nothingIsFine) = true ∧ (c.untaken || rem.taken) = true := by
  simp [meets, Decision.taken]

theorem taken_of_meets (h : d.meets c = true) : (c.untaken || d.taken) = true := by
  simp only [meets, Bool.and_eq_true] at h
  exact h.2

end Decision

namespace Setting

open Constraints

/-- What a decision for `r` promises about the constraints `cs`. Of a broken package and where
nothing could be decided it promises nothing. -/
def Suits (σ : Setting) (r : Resolvent) (cs : List Constraint) : Decision → Prop
  | .nothing _ => σ.present r = [] ∧ ∀ c ∈ cs, c.nothingIsFine = true
  | .existing k => k.id ∈ σ.present r ∧ Accept cs k.id
  | .change c => c.placement = none ∧ c.id ∈ σ.candidates r ∧ Accept cs c.id ∧
      ∀ id ∈ σ.candidates r, Accept cs id →
        PackageId.compareCandidates σ.policy.promoteBinaries id c.id ≠ .gt
  | .remove rem => rem.ids = σ.present r ∧ ∀ c ∈ cs, c.allowsRemoval = true
  | .unable .. | .broken _ => True

/-- The decisions that can be found for the constraints. -/
inductive Finds (σ : Setting) (r : Resolvent) (cs : List Constraint) : Decision → Prop
  | keep {k : Kept} (hk : k.id ∈ σ.present r ∧ Accept cs k.id)
      (hm : (strictest cs).permits k.isSame k.isSameVersion k.isTransient = true)
      (ht : k.taken = !allUntaken cs) : Finds σ r cs (.existing k)
  | change {id : PackageId} {isBest : Bool} (h : (pick cs (σ.candidates r)).1 = some id) :
      Finds σ r cs (.change { id, isBest, taken := !allUntaken cs })
  | remove (h : ∀ c ∈ cs, c.allowsRemoval = true) :
      Finds σ r cs (.remove { ids := σ.present r, taken := !allUntaken cs })
  | nothing (hp : σ.present r = []) (hn : ∀ c ∈ cs, c.nothingIsFine = true) :
      Finds σ r cs (.nothing !allUntaken cs)

variable {σ : Setting} {r : Resolvent} {cs : List Constraint} {d : Decision}

theorem keepOrReplace_finds {existing : PackageId} {isBest : Bool}
    (he : (pick cs (σ.present r)).1 = some existing)
    (h : keepOrReplace cs existing (pick cs (σ.candidates r)).1 isBest = some d) :
    σ.Finds r cs d := by
  have hk : existing ∈ σ.present r ∧ Accept cs existing := mem_of_pick he
  simp only [keepOrReplace] at h
  split at h
  · split at h
    · next hm =>
      cases h
      refine .keep hk ?_ rfl
      cases ht : existing.transient
      · rw [ht] at hm
        revert hm
        cases strictest cs <;> simp [KeepMode.permits]
      · rwa [ht] at hm
    · cases h
  · next id hi =>
    split at h
    · next hm => cases h; exact .keep hk hm rfl
    · cases h; exact .change hi

theorem tryRemoval_finds (h : σ.tryRemoval r cs (σ.present r) = some d) : σ.Finds r cs d := by
  rw [tryRemoval] at h
  split at h
  · next hc =>
    cases h
    exact .remove (List.all_eq_true.1 (Bool.and_eq_true_iff.1 hc).1)
  · cases h

theorem findDecision_finds (h : σ.findDecision r cs = some d) : σ.Finds r cs d := by
  simp only [findDecision] at h
  split at h
  · next existing he => exact keepOrReplace_finds he h
  · split at h
    · exact tryRemoval_finds h
    · next hp =>
      split at h
      · next hn =>
        cases h
        exact .nothing (by simpa [hn] using hp) (nothingIsFine_iff.1 hn)
      · obtain ⟨id, hi, rfl⟩ := Option.map_eq_some_iff.1 h
        exact .change hi

theorem suits_change {id : PackageId} {isBest taken : Bool}
    (h : (pick cs (σ.candidates r)).1 = some id) :
    σ.Suits r cs (.change { id, isBest, taken }) := by
  obtain ⟨hm, ha⟩ := mem_of_pick h
  refine ⟨rfl, hm, ha, fun id' hm' ha' => ?_⟩
  rcases pick_last pairwise_candidates h hm' ha' with rfl | hR
  · have he : PackageId.compareCandidates σ.policy.promoteBinaries id' id' = .eq :=
      Std.ReflCmp.compare_self
    simp [he]
  · exact hR

theorem findDecision_suits (h : σ.findDecision r cs = some d) :
    σ.Suits r cs d ∧ d.taken = !allUntaken cs := by
  cases findDecision_finds h with
  | keep hk hm ht => exact ⟨hk, ht⟩
  | change hi => exact ⟨suits_change hi, rfl⟩
  | remove hr => exact ⟨⟨rfl, hr⟩, rfl⟩
  | nothing hp hn => exact ⟨⟨hp, hn⟩, rfl⟩

theorem cannotDecide_suits :
    σ.Suits r cs (σ.cannotDecide r cs) ∧ (σ.cannotDecide r cs).taken = !allUntaken cs :=
  ⟨trivial, rfl⟩

theorem Suits.append {c : Constraint} (h : σ.Suits r cs d) (hm : d.meets c = true) :
    σ.Suits r (cs ++ [c]) d := by
  cases d with
  | nothing taken =>
    have hc : c.nothingIsFine = true := (Decision.meets_nothing.1 hm).1
    refine ⟨h.1, fun c' hc' => ?_⟩
    rcases List.mem_append.1 hc' with hc' | hc'
    · exact h.2 c' hc'
    · rw [List.mem_singleton.1 hc', hc]
  | existing k => exact ⟨h.1, accept_append.2 ⟨h.2, (Decision.meets_existing.1 hm).1⟩⟩
  | change c' =>
    obtain ⟨hp, hi, ha, hb⟩ := h
    exact ⟨hp, hi, accept_append.2 ⟨ha, (Decision.meets_change.1 hm).1⟩,
      fun id hid hac => hb id hid (accept_append.1 hac).1⟩
  | remove rem =>
    have hc : (c.isBlocker || c.nothingIsFine) = true := (Decision.meets_remove.1 hm).1
    refine ⟨h.1, fun c' hc' => ?_⟩
    rcases List.mem_append.1 hc' with hc' | hc'
    · exact h.2 c' hc'
    · rw [List.mem_singleton.1 hc', Constraint.allowsRemoval, hc, Bool.true_or]
  | unable => trivial
  | broken => trivial

theorem taken_append {c : Constraint} (h : d.taken = !allUntaken cs) (hm : d.meets c = true) :
    d.taken = !allUntaken (cs ++ [c]) := by
  have hu : (c.untaken || d.taken) = true := Decision.taken_of_meets hm
  rw [allUntaken_append]
  revert hu
  rw [h]
  cases allUntaken cs <;> cases c.untaken <;> simp

end Setting

end PackagePlan
