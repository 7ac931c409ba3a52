import PackagePlan.Proofs.Plan.Agreement

/-! # When no decision is found

No decision is found where something that is wanted has no candidate, where what
is there is rejected and has to stay, or where it may not be kept and nothing
can replace it. Suggestions count for this as much as requirements do: one that
rejects an id, wants something, or does not let an id be kept can leave a
package undecided that would be decided without it.
-/

namespace PackagePlan

namespace Constraints

def required (cs : List Constraint) : List Constraint := cs.filter (!·.untaken)

def Choosable (cs : List Constraint) (ids : List PackageId) : Prop := ∃ id ∈ ids, Accept cs id

variable {cs cs' : List Constraint} {c : Constraint} {ids : List PackageId} {id : PackageId}

theorem mem_required_iff : c ∈ required cs ↔ c ∈ cs ∧ c.untaken = false := by
  simp [required]

theorem forall_required_iff {P : Constraint → Prop} :
    (∀ c ∈ cs, P c) ↔ (∀ c ∈ required cs, P c) ∧ ∀ c ∈ cs, c.untaken = true → P c := by
  constructor
  · exact fun h => ⟨fun c hc => h c (mem_required_iff.1 hc).1, fun c hc _ => h c hc⟩
  · rintro ⟨hr, hs⟩ c hc
    cases hu : c.untaken with
    | true => exact hs c hc hu
    | false => exact hr c (mem_required_iff.2 ⟨hc, hu⟩)

theorem Choosable.imp (h : Choosable cs ids) (hcs : ∀ id ∈ ids, Accept cs id → Accept cs' id) :
    Choosable cs' ids := by
  obtain ⟨id, hid, ha⟩ := h
  exact ⟨id, hid, hcs id hid ha⟩

theorem strictest_rank_le_iff {n : Nat} : (strictest cs).rank ≤ n ↔ ∀ c ∈ cs, c.keep.rank ≤ n := by
  have foldl : ∀ mode : KeepMode, (cs.foldl (fun mode c => mode.stricter c.keep) mode).rank ≤ n ↔
      mode.rank ≤ n ∧ ∀ c ∈ cs, c.keep.rank ≤ n := by
    induction cs with
    | nil => simp
    | cons c cs ih =>
      intro mode
      rw [List.foldl_cons, ih, KeepMode.rank_stricter, Nat.max_le, List.forall_mem_cons, and_assoc]
  exact (foldl .ifPossible).trans (and_iff_right (Nat.zero_le n))

theorem pickFrom_congr (h : ∀ id ∈ ids, Accept cs id ↔ Accept cs' id) (b b' : Bool) :
    (pickFrom cs ids b).1 = (pickFrom cs' ids b').1 := by
  induction ids generalizing b b' with
  | nil => rfl
  | cons id ids ih =>
    obtain ⟨hid, h⟩ := List.forall_mem_cons.1 h
    rw [pickFrom, pickFrom]
    split
    · next ha =>
      rw [unmetBy_eq_nil_iff.2 (hid.1 (unmetBy_eq_nil_iff.1 ha))]
    · next hn =>
      split
      · next ha => exact absurd (unmetBy_eq_nil_iff.2 (hid.2 (unmetBy_eq_nil_iff.1 ha))) hn
      · exact ih h _ _

theorem pick_congr (h : ∀ id ∈ ids, Accept cs id ↔ Accept cs' id) :
    (pick cs ids).1 = (pick cs' ids).1 :=
  pickFrom_congr (fun id hid => h id (List.mem_reverse.1 hid)) _ _

theorem pickFrom_eq_none_iff {b : Bool} :
    (pickFrom cs ids b).1 = none ↔ ∀ id ∈ ids, ¬ Accept cs id := by
  induction ids generalizing b with
  | nil => simp [pickFrom]
  | cons id ids ih =>
    rw [pickFrom, List.forall_mem_cons]
    split
    · next ha => simp [unmetBy_eq_nil_iff.1 ha]
    · next hn => rw [ih, and_iff_right fun ha => hn (unmetBy_eq_nil_iff.2 ha)]

theorem pick_eq_none_iff : (pick cs ids).1 = none ↔ ¬ Choosable cs ids := by
  simp [pick, pickFrom_eq_none_iff, Choosable]

end Constraints

namespace Setting

open Constraints

def Removable (σ : Setting) (r : Resolvent) (cs : List Constraint) : Prop :=
  (∀ c ∈ cs, c.allowsRemoval = true) ∧
    (requestRemoval cs = true ∨ σ.policy.mayRemove r (σ.present r) = true)

/-- Why no decision can be found for the constraints. -/
inductive Undecidable (σ : Setting) (r : Resolvent) (cs : List Constraint) : Prop
  | missing (hp : σ.present r = []) (hn : nothingIsFine cs = false)
      (hc : ¬ Choosable cs (σ.candidates r))
  | stuck (hp : σ.present r ≠ []) (ha : ¬ Choosable cs (σ.present r)) (hr : ¬ σ.Removable r cs)
      (hc : nothingIsFine cs = true ∨ ¬ Choosable cs (σ.candidates r))
  | irreplaceable {id : PackageId} (hp : (pick cs (σ.present r)).1 = some id)
      (hk : (strictest cs).permits id.transient id.transient id.transient = false)
      (hc : ¬ Choosable cs (σ.candidates r))

/-- What the constraint does not allow, although `cs` do. -/
inductive Costs (σ : Setting) (r : Resolvent) (cs : List Constraint) (c : Constraint) : Prop
  | id {id : PackageId} (hid : id ∈ σ.present r ++ σ.candidates r) (ha : Accept cs id)
      (hc : c.accepts id = false)
  | nothing (hn : nothingIsFine cs = true) (hc : c.nothingIsFine = false)
  | keeping (hc : (strictest cs).rank < c.keep.rank)

variable {σ : Setting} {r : Resolvent} {cs : List Constraint} {c : Constraint} {d : Decision}

theorem tryRemoval_eq_none_iff : σ.tryRemoval r cs (σ.present r) = none ↔ ¬ σ.Removable r cs := by
  rw [Removable, tryRemoval, ← List.all_eq_true]
  simp only [ite_eq_right_iff, reduceCtorEq, imp_false, Bool.and_eq_true, Bool.or_eq_true]
  exact Iff.rfl

theorem keepOrReplace_eq_none_iff {id : PackageId} {installable : Option PackageId}
    {isBest : Bool} : keepOrReplace cs id installable isBest = none ↔
      installable = none ∧
        (strictest cs).permits id.transient id.transient id.transient = false := by
  cases installable with
  | none => simp [keepOrReplace]
  | some other =>
    simp only [keepOrReplace, reduceCtorEq, false_and, iff_false]
    split <;> simp

theorem findDecision_eq_none_iff : σ.findDecision r cs = none ↔ σ.Undecidable r cs := by
  have hc : (pick cs (σ.candidates r)).1 = none ↔ ¬ Choosable cs (σ.candidates r) :=
    pick_eq_none_iff
  simp only [findDecision]
  cases hp : (pick cs (σ.present r)).1 with
  | some id =>
    dsimp only
    rw [keepOrReplace_eq_none_iff, hc]
    constructor
    · rintro ⟨hn, hk⟩
      exact .irreplaceable hp hk hn
    · rintro (⟨he, -, -⟩ | ⟨-, ha, -, -⟩ | ⟨hp', hk, hn⟩)
      · rw [he] at hp
        cases hp
      · rw [pick_eq_none_iff.2 ha] at hp
        cases hp
      · obtain rfl := Option.some.inj (hp.symm.trans hp')
        exact ⟨hn, hk⟩
  | none =>
    have ha : ¬ Choosable cs (σ.present r) := pick_eq_none_iff.1 hp
    have hne : σ.present r ≠ [] ↔ (!(σ.present r).isEmpty) = true := by simp
    dsimp only
    constructor
    · intro h
      split at h
      · next hb =>
        obtain ⟨he, hb⟩ := Bool.and_eq_true_iff.1 hb
        refine .stuck (hne.2 he) ha (tryRemoval_eq_none_iff.1 h) ?_
        simpa [hc] using hb
      · next hb =>
        split at h
        · cases h
        · next hn =>
          have hn : nothingIsFine cs = false := Bool.eq_false_iff.2 hn
          have hi : (pick cs (σ.candidates r)).1 = none := Option.map_eq_none_iff.1 h
          refine .missing ?_ hn (hc.1 hi)
          simpa [hi] using hb
    · rintro (⟨he, hn, hi⟩ | ⟨he, -, hr, hi⟩ | ⟨hp', -, -⟩)
      · simp [he, hn, hc.2 hi]
      · rw [if_pos (by simpa [he, hc] using hi)]
        exact tryRemoval_eq_none_iff.2 hr
      · rw [hp] at hp'
        cases hp'

theorem Removable.of_required (h : σ.Removable r (required cs)) : σ.Removable r cs := by
  refine ⟨forall_required_iff.2 ⟨h.1, fun c _ hu => by simp [Constraint.allowsRemoval, hu]⟩, ?_⟩
  refine h.2.imp_left fun hr => ?_
  obtain ⟨c, hc, hr⟩ := List.any_eq_true.1 hr
  exact List.any_eq_true.2 ⟨c, (mem_required_iff.1 hc).1, hr⟩

section Free

variable (hfree : ∀ c ∈ cs, c.untaken = true → ¬ σ.Costs r (required cs) c)

include hfree

theorem accept_iff_required {id : PackageId} (hid : id ∈ σ.present r ++ σ.candidates r) :
    Accept cs id ↔ Accept (required cs) id := by
  refine forall_required_iff.trans (and_iff_left_of_imp fun ha c hc hu => ?_)
  by_contra hn
  exact hfree c hc hu (.id hid ha (Bool.eq_false_iff.2 hn))

theorem nothingIsFine_iff_required : nothingIsFine cs = nothingIsFine (required cs) := by
  rw [Bool.eq_iff_iff, nothingIsFine_iff, forall_required_iff, ← nothingIsFine_iff]
  refine and_iff_left_of_imp fun hn c hc hu => ?_
  by_contra hc'
  exact hfree c hc hu (.nothing hn (Bool.eq_false_iff.2 hc'))

theorem strictest_eq_required : strictest cs = strictest (required cs) := by
  refine KeepMode.eq_of_rank_eq (Nat.le_antisymm ?_ ?_)
  · refine strictest_rank_le_iff.2 (forall_required_iff.2 ⟨fun c hc => rank_le_strictest hc, ?_⟩)
    exact fun c hc hu => Nat.le_of_not_lt fun hlt => hfree c hc hu (.keeping hlt)
  · exact strictest_rank_le_iff.2 fun c hc => rank_le_strictest (mem_required_iff.1 hc).1

theorem Undecidable.of_free (h : σ.Undecidable r cs) : σ.Undecidable r (required cs) := by
  have candidates : ¬ Choosable cs (σ.candidates r) → ¬ Choosable (required cs) (σ.candidates r) :=
    fun hn hc => hn (hc.imp fun id hid =>
      (accept_iff_required hfree (List.mem_append_right _ hid)).2)
  have present : ∀ id ∈ σ.present r, Accept cs id ↔ Accept (required cs) id := fun id hid =>
    accept_iff_required hfree (List.mem_append_left _ hid)
  cases h with
  | missing hp hn hc =>
    exact .missing hp (nothingIsFine_iff_required hfree ▸ hn) (candidates hc)
  | stuck hp ha hr hc =>
    refine .stuck hp (fun h => ha (h.imp fun id hid => (present id hid).2)) ?_ ?_
    · exact fun h => hr h.of_required
    · exact hc.imp (fun hn => nothingIsFine_iff_required hfree ▸ hn) candidates
  | irreplaceable hp hk hc =>
    rw [pick_congr present] at hp
    rw [strictest_eq_required hfree] at hk
    exact .irreplaceable hp hk (candidates hc)

end Free

end Setting

open Setting Constraints

variable {σ : Setting} {r : Resolvent} {cs : List Constraint}

/-- Where a decision can be found for what is required, one can be found together with the
suggestions unless they leave no way to decide, and this they do only if one of them takes away
something that would have been allowed without it. -/
theorem decidable_with_suggestions (h : (σ.findDecision r (required cs)).isSome = true) :
    ((σ.findDecision r cs).isSome = true ↔ ¬ σ.Undecidable r cs) ∧
      (σ.Undecidable r cs → ∃ c ∈ cs, c.untaken = true ∧ σ.Costs r (required cs) c) := by
  constructor
  · rw [Option.isSome_iff_ne_none, ne_eq, findDecision_eq_none_iff]
  · intro hu
    by_contra hfree
    have hfree : ∀ c ∈ cs, c.untaken = true → ¬ σ.Costs r (required cs) c :=
      fun c hc hs hcost => hfree ⟨c, hc, hs, hcost⟩
    rw [findDecision_eq_none_iff.2 (hu.of_free hfree)] at h
    cases h

theorem decidable_with_suggestions_reinstallable :
    (Sample.reinstallable.findDecision ⟨"app", some "0", .slash⟩
        (required [Sample.dependency, Sample.suggestion])).isSome = true ∧
      ∃ c ∈ [Sample.dependency, Sample.suggestion], c.untaken = true ∧
        Sample.reinstallable.Costs ⟨"app", some "0", .slash⟩
          (required [Sample.dependency, Sample.suggestion]) c := by
  have h : (Sample.reinstallable.findDecision ⟨"app", some "0", .slash⟩
      (required [Sample.dependency, Sample.suggestion])).isSome = true := by decide +kernel
  have hn : (Sample.reinstallable.findDecision ⟨"app", some "0", .slash⟩
      [Sample.dependency, Sample.suggestion]).isSome = false := by decide +kernel
  refine ⟨h, (decidable_with_suggestions h).2 (findDecision_eq_none_iff.1 ?_)⟩
  exact Option.isNone_iff_eq_none.1 (Option.isSome_eq_false_iff.1 hn)

/-- A suggestion can leave a required package without a decision. -/
theorem suggestion_prevents_decision : ¬ ∀ (σ : Setting) (r : Resolvent) (cs : List Constraint),
    (∃ c ∈ cs, c.untaken = false) → (σ.findDecision r (required cs)).isSome = true →
      (σ.findDecision r cs).isSome = true := by
  intro hall
  have h := hall Sample.reinstallable ⟨"app", some "0", .slash⟩
    [Sample.dependency, Sample.suggestion] ⟨_, .head _, rfl⟩ (by decide +kernel)
  have hn : (Sample.reinstallable.findDecision ⟨"app", some "0", .slash⟩
      [Sample.dependency, Sample.suggestion]).isSome = false := by decide +kernel
  rw [hn] at h
  cases h

end PackagePlan
