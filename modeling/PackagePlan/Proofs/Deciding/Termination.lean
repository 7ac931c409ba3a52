import PackagePlan.Proofs.Deciding.Potential
import PackagePlan.Proofs.Deciding.Reach

/-! # Attempts come to an end

Adding dependencies always leaves less to do, and following removals breaks
what was not broken before. As only finitely many resolvents can come up, the
rounds end before the bounds on their number are reached.
-/

namespace PackagePlan.Setting

open Constraints Registry

variable {σ : Setting} {s s' s₀ : DecidingState} {r r' : Resolvent} {c : Constraint}
  {U : Set Resolvent}

/-- The resolutions have come about by the steps of an attempt, at resolvents in `U` only. -/
structure Within (σ : Setting) (U : Set Resolvent) (s : DecidingState) : Prop where
  sound : σ.Sound s.registry
  keys : ∀ r ∈ s.registry.keys, r ∈ U
  pending : ∀ r, s.pending.contains r = true → r ∈ s.registry.keys

section Constraints

theorem Writes.mem_keys_iff {reg reg' : Registry} {res : Resolution} (h : Writes reg reg' r res) :
    r' ∈ reg'.keys ↔ r' = r ∨ r' ∈ reg.keys := by
  rw [OrderedMap.mem_keys_iff, OrderedMap.mem_keys_iff, h r']
  by_cases he : r' = r <;> simp [he]

theorem Within.write {res : Resolution} (hs : σ.Within U s)
    (hw : Writes s.registry s'.registry r res)
    (he : σ.Evolves r (σ.resolutionAt s.registry r) res) (hr : r ∈ U)
    (hp : ∀ r', s'.pending.contains r' = true → r' = r ∨ s.pending.contains r' = true) :
    σ.Within U s' where
  sound := sound_stable _ _ _ _ hs.sound hw he
  keys r' hr' := by
    obtain rfl | hr' := hw.mem_keys_iff.1 hr'
    · exact hr
    · exact hs.keys r' hr'
  pending r' hr' := hw.mem_keys_iff.2 ((hp r' hr').imp_right (hs.pending r'))

theorem Within.erase (hs : σ.Within U s) (r : Resolvent) :
    σ.Within U { s with pending := s.pending.erase r } where
  sound := hs.sound
  keys := hs.keys
  pending r' hr' := hs.pending r' (OrderedSet.contains_erase.1 hr').2

theorem applyConstraint_within (hs : σ.Within U s) (hc : σ.Raised r c) (hr : r ∈ U) :
    Ensures (σ.applyConstraint s r c) (σ.Within U) (· ≠ .endless) := by
  cases h : σ.applyConstraint s r c with
  | ok s' =>
    obtain ⟨d, queued, hreact, hw, hp⟩ := applyConstraint_writes h
    refine hs.write hw (.constrain hc hreact) hr fun r' hr' => ?_
    rw [hp] at hr'
    split at hr'
    · exact OrderedSet.contains_insert.1 hr'
    · exact .inr hr'
  | error e =>
    obtain ⟨R, rfl, -⟩ := applyConstraint_stops h
    exact fun he => by cases he

theorem applyAll_within {cs : List (Resolvent × Constraint)} (hs : σ.Within U s)
    (hcs : ∀ p ∈ cs, σ.Raised p.1 p.2) (hU : ∀ p ∈ cs, p.1 ∈ U) :
    Ensures (σ.applyAll s cs) (σ.Within U) (· ≠ .endless) :=
  Ensures.foldlM (fun p hp _ hs' => applyConstraint_within hs' (hcs p hp) (hU p hp)) hs

theorem addDependencies_within (hs : σ.Within {r | r ∈ σ.places s₀} s) :
    Ensures (σ.addDependencies s r) (σ.Within {r | r ∈ σ.places s₀}) (· ≠ .endless) := by
  rw [addDependencies]
  split
  · exact hs
  · next d hd =>
    split
    · exact hs
    · next id hf =>
      obtain ⟨res, hres, hd⟩ := decision?_eq_some_iff.1 hd
      have hid : id ∈ knownIds σ.db := ((hs.sound r res hres).suits hd).1.mem_knownIds hf
      refine Ensures.bind (P := σ.Within {r | r ∈ σ.places s₀}) ?_ fun s₁ hs₁ => ?_
      · cases d with
        | change c =>
          exact applyAll_within hs (fun p hp => .viaBinary hp)
            fun p hp => mem_places_of_viaBinary hid hp
        | _ => exact hs
      · refine applyAll_within hs₁ (fun p hp => raised_of_mem_flatMap hp) fun p hp => ?_
        obtain ⟨dep, hdep, hp⟩ := List.mem_flatMap.1 hp
        exact mem_places_of_dependency (mem_knownRequirements_of_mem_dependenciesOf hdep) hp

end Constraints

section Settling

/-- What is left to do altogether, for the resolvents that can come up from `s₀` on. -/
def potential (σ : Setting) (s₀ s : DecidingState) : Nat := total (σ.places s₀) (remaining s)

theorem potential_le (h : Lowers s s') : σ.potential s₀ s' ≤ σ.potential s₀ s := total_le h

theorem potential_lt (h : Lowers s s') (hr : r ∈ σ.places s₀)
    (hlt : remaining s' r < remaining s r) : σ.potential s₀ s' < σ.potential s₀ s :=
  total_lt h hr hlt

theorem potential_pos (hs : σ.Within {r | r ∈ σ.places s₀} s)
    (hr : s.pending.contains r = true) : 0 < σ.potential s₀ s := by
  have hpos : 0 < remaining s r := by
    rw [remaining, hr]
    exact Nat.succ_pos _
  exact (Nat.zero_le _).trans_lt
    (total_lt (fun _ => Nat.zero_le _) (hs.keys r (hs.pending r hr)) hpos)

/-- What a state comes to, and whether anything was done: if so, less is left to do. -/
def Progress (σ : Setting) (s₀ s : DecidingState) (x : DecidingState × Bool) : Prop :=
  σ.Within {r | r ∈ σ.places s₀} x.1 ∧
    (x = (s, false) ∨ x.2 = true ∧ σ.potential s₀ x.1 < σ.potential s₀ s)

theorem Progress.within {x : DecidingState × Bool} (h : σ.Progress s₀ s x) :
    σ.Within {r | r ∈ σ.places s₀} x.1 := h.1

theorem Progress.refl (hs : σ.Within {r | r ∈ σ.places s₀} s) : σ.Progress s₀ s (s, false) :=
  ⟨hs, .inl rfl⟩

theorem Progress.le {x : DecidingState × Bool} (h : σ.Progress s₀ s x) :
    σ.potential s₀ x.1 ≤ σ.potential s₀ s := by
  obtain ⟨-, rfl | ⟨-, hlt⟩⟩ := h
  · exact le_rfl
  · exact hlt.le

theorem Progress.trans {x y : DecidingState × Bool} (hx : σ.Progress s₀ s x)
    (hy : σ.Progress s₀ x.1 y) : σ.Progress s₀ s (y.1, x.2 || y.2) := by
  refine ⟨hy.within, ?_⟩
  obtain ⟨-, rfl | ⟨hb, hlt⟩⟩ := hy
  · obtain ⟨-, rfl | ⟨hb, hlt⟩⟩ := hx
    · exact .inl rfl
    · exact .inr ⟨by rw [hb]; rfl, hlt⟩
  · exact .inr ⟨by rw [hb, Bool.or_true], hlt.trans_le hx.le⟩

theorem pending_progress (hs : σ.Within {r | r ∈ σ.places s₀} s)
    (hr : s.pending.contains r = true) :
    Ensures (σ.addDependencies { s with pending := s.pending.erase r } r)
      (fun s' => σ.Progress s₀ s (s', true)) (· ≠ .endless) :=
  (addDependencies_within (hs.erase r)).imp_of_ok fun s' h hs' => by
    obtain ⟨hl, hlt⟩ := addPending_lowers hr h
    exact ⟨hs', .inr ⟨rfl, potential_lt hl (hs.keys r (hs.pending r hr)) hlt⟩⟩

theorem decideOne_progress {pass : Pass} (hs : σ.Within {r | r ∈ σ.places s₀} s)
    (hd : isDue pass s r = true) :
    Ensures (σ.decideOne s r) (fun s' => σ.Progress s₀ s (s', true)) (· ≠ .endless) := by
  obtain ⟨res, hw, he, -⟩ := writes_decide (σ := σ) hd
  obtain ⟨res', hr, -⟩ := undecided_of_isDue hd
  have hr : r ∈ σ.places s₀ := hs.keys r (OrderedMap.mem_keys_iff.2 ⟨res', hr⟩)
  have hset := hs.write hw he hr fun _ hr' => .inr hr'
  refine (addDependencies_within (hset.erase r)).imp_of_ok fun s' h hs' => ?_
  obtain ⟨hl, hlt⟩ := decideOne_lowers hd h
  exact ⟨hs', .inr ⟨rfl, potential_lt hl hr hlt⟩⟩

theorem addPending_progress {fuel : Nat} (hs : σ.Within {r | r ∈ σ.places s₀} s)
    (hfuel : σ.potential s₀ s ≤ fuel) :
    Ensures (σ.addPending fuel s) (σ.Progress s₀ s) (· ≠ .endless) := by
  induction fuel generalizing s with
  | zero =>
    rw [addPending]
    split
    · exact .refl hs
    · next he =>
      obtain ⟨r, hr⟩ := List.exists_mem_of_ne_nil _ (mt OrderedSet.isEmpty_iff.2 he)
      have hr : s.pending.contains r = true := OrderedSet.mem_toList_iff.1 hr
      exact absurd hfuel (Nat.not_le.2 (potential_pos hs hr))
  | succ fuel ih =>
    rw [addPending]
    split
    · exact .refl hs
    · next r l hr =>
      have hr : s.pending.contains r = true := OrderedSet.mem_toList_iff.1 (hr ▸ .head _)
      refine (pending_progress hs hr).bind fun s₁ h₁ => ?_
      have hle : σ.potential s₀ s₁ ≤ fuel := by
        obtain ⟨-, h | ⟨-, hlt⟩⟩ := h₁
        · cases h
        · exact Nat.le_of_lt_succ (hlt.trans_le hfuel)
      exact (ih h₁.within hle).bind fun x hx => h₁.trans hx

theorem decideDue_progress {pass : Pass} {rs : List Resolvent}
    (hs : σ.Within {r | r ∈ σ.places s₀} s) :
    Ensures (σ.decideDue pass s rs) (σ.Progress s₀ s) (· ≠ .endless) := by
  refine Ensures.foldlM (fun r _ x hx => ?_) (.refl hs)
  obtain ⟨s₁, changed⟩ := x
  dsimp only
  split
  · next hdue =>
    refine (decideOne_progress hx.within hdue).map fun s₂ h₂ => ?_
    have h := hx.trans h₂
    rwa [Bool.or_true] at h
  · exact hx

theorem round_progress {fuel : Nat} {pass : Pass} (hs : σ.Within {r | r ∈ σ.places s₀} s)
    (hfuel : σ.potential s₀ s ≤ fuel) :
    Ensures (σ.round fuel pass s) (σ.Progress s₀ s) (· ≠ .endless) :=
  (addPending_progress hs hfuel).bind fun _ hx =>
    (decideDue_progress hx.within).bind fun _ hy => hx.trans hy

/-- The rounds that find nothing to do before everything is settled. -/
def idleRounds : Pass → Nat
  | .required => 2
  | .suggested => 1

theorem settleFrom_ends {fuel rounds : Nat} {pass : Pass}
    (hs : σ.Within {r | r ∈ σ.places s₀} s) (hfuel : σ.potential s₀ s ≤ fuel)
    (hrounds : σ.potential s₀ s + idleRounds pass ≤ rounds) :
    Ensures (σ.settleFrom fuel rounds pass s)
      (fun s' => σ.Within {r | r ∈ σ.places s₀} s' ∧
        (s' = s ∨ σ.potential s₀ s' < σ.potential s₀ s)) (· ≠ .endless) := by
  -- A round that does something pays for itself; an idle one ends its pass.
  induction rounds generalizing s pass with
  | zero => cases pass <;> simp [idleRounds] at hrounds
  | succ rounds ih =>
    rw [settleFrom]
    refine (round_progress hs hfuel).bind fun x hx => ?_
    obtain ⟨hx', rfl | ⟨hb, hlt⟩⟩ := hx
    · cases pass with
      | required => exact ih hs hfuel (Nat.le_of_succ_le_succ hrounds)
      | suggested => exact ⟨hs, .inl rfl⟩
    · obtain ⟨s₁, changed⟩ := x
      obtain rfl : changed = true := hb
      refine (ih hx' (hlt.le.trans hfuel) (by omega)).imp_of_ok fun s' _ hs' => ?_
      obtain ⟨hs', rfl | hlt'⟩ := hs'
      · exact ⟨hs', .inr hlt⟩
      · exact ⟨hs', .inr (hlt'.trans hlt)⟩

end Settling

section Following

def breakable (σ : Setting) (s₀ s : DecidingState) : Nat := total (σ.places s₀) (unbroken s)

/-- Following removals either does nothing or breaks some package. -/
def Breaks (σ : Setting) (s₀ s : DecidingState) (x : DecidingState × Bool) : Prop :=
  σ.Within {r | r ∈ σ.places s₀} x.1 ∧ (x = (s, false) ∨
    x.2 = true ∧ σ.potential s₀ x.1 ≤ σ.potential s₀ s ∧ σ.breakable s₀ x.1 < σ.breakable s₀ s)

theorem Breaks.trans {x y : DecidingState × Bool} (hx : σ.Breaks s₀ s x)
    (hy : σ.Breaks s₀ x.1 y) : σ.Breaks s₀ s (y.1, x.2 || y.2) := by
  refine ⟨hy.1, ?_⟩
  obtain ⟨-, rfl | ⟨hb, hle, hlt⟩⟩ := hy
  · obtain ⟨-, rfl | ⟨hb, hle, hlt⟩⟩ := hx
    · exact .inl rfl
    · exact .inr ⟨by rw [hb]; rfl, hle, hlt⟩
  · obtain ⟨-, rfl | ⟨-, hle', hlt'⟩⟩ := hx
    · exact .inr ⟨by rw [hb, Bool.or_true], hle, hlt⟩
    · exact .inr ⟨by rw [hb, Bool.or_true], hle.trans hle', hlt.trans hlt'⟩

def roundsLeft (σ : Setting) (s₀ s : DecidingState) : Nat :=
  σ.potential s₀ s * ((σ.places s₀).length + 1) + σ.breakable s₀ s

theorem breakable_le : σ.breakable s₀ s ≤ (σ.places s₀).length := by
  have h : σ.breakable s₀ s ≤ (σ.places s₀).length * 1 := total_le_mul (unbroken_le s)
  omega

theorem roundsLeft_lt_of_potential (h : σ.potential s₀ s' < σ.potential s₀ s) :
    σ.roundsLeft s₀ s' < σ.roundsLeft s₀ s := by
  -- Packages can become unbroken again, but one unit of potential counts for more than all of them.
  have hb : σ.breakable s₀ s' ≤ (σ.places s₀).length := breakable_le
  have hm := Nat.mul_le_mul_right ((σ.places s₀).length + 1) (Nat.succ_le_of_lt h)
  rw [Nat.succ_mul] at hm
  rw [roundsLeft, roundsLeft]
  omega

theorem roundsLeft_lt_of_breakable (h : σ.potential s₀ s' ≤ σ.potential s₀ s)
    (hb : σ.breakable s₀ s' < σ.breakable s₀ s) : σ.roundsLeft s₀ s' < σ.roundsLeft s₀ s :=
  Nat.add_lt_add_of_le_of_lt (Nat.mul_le_mul_right _ h) hb

variable (hpolicy : ∀ id, σ.policy.removesDependent id = false)

include hpolicy

theorem followRemoval_breaks {removed : List (Resolvent × PackageId)}
    {installed arriving : List PackageId} {id : PackageId}
    (hs : σ.Within {r | r ∈ σ.places s₀} s) (hid : id ∈ σ.db.installedIds .slash) :
    Ensures (σ.followRemoval removed installed arriving s id) (σ.Breaks s₀ s) (· ≠ .endless) := by
  simp only [followRemoval]
  split
  · exact ⟨hs, .inl rfl⟩
  · next hsettled =>
    split
    · exact ⟨hs, .inl rfl⟩
    · next holder removing _ =>
      rw [if_neg (by simp [hpolicy])]
      have hr : Resolvent.ofId id .slash ∈ σ.places s₀ :=
        ofId_mem_places (List.mem_append_right _ (List.mem_filter.1 hid).1)
      have hsettled : isSettledAt s.registry (.ofId id .slash) = false :=
        Bool.eq_false_iff.2 fun h => hsettled (by rw [h, Bool.or_true])
      obtain ⟨hle, hlt⟩ := breakId_unbroken σ id (.dependent removing holder) hsettled
      exact ⟨hs.write writes_breakId (.breakage rfl hid) hr fun _ hr' => .inr hr',
        .inr ⟨rfl, potential_le breakId_lowers, total_lt hle hr hlt⟩⟩

theorem followRemovals_breaks (hs : σ.Within {r | r ∈ σ.places s₀} s) :
    Ensures (σ.followRemovals s) (σ.Breaks s₀ s) (· ≠ .endless) := by
  simp only [followRemovals]
  split
  · exact ⟨hs, .inl rfl⟩
  · refine Ensures.foldlM (fun id hid x hx => ?_) ⟨hs, .inl rfl⟩
    exact (followRemoval_breaks hpolicy hx.1 (IdSelection.mem_of_mem_sortIds hid)).bind
      fun y hy => hx.trans hy

/-- Every round of resolving leaves less to do, or as much and fewer packages to break. -/
theorem resolveFrom_ends {fuel rounds : Nat} (hs : σ.Within {r | r ∈ σ.places s₀} s)
    (hfuel : σ.potential s₀ s ≤ fuel) (hrounds : σ.roundsLeft s₀ s < rounds) :
    Ensures (σ.resolveFrom fuel rounds s) (fun _ => True) (· ≠ .endless) := by
  induction rounds generalizing s with
  | zero => exact absurd hrounds (Nat.not_lt_zero _)
  | succ rounds ih =>
    rw [resolveFrom, settle]
    refine (settleFrom_ends hs hfuel (Nat.add_le_add_right hfuel 2)).bind fun s₁ h₁ => ?_
    obtain ⟨hs₁, h₁⟩ := h₁
    have hle : σ.potential s₀ s₁ ≤ σ.potential s₀ s ∧ σ.roundsLeft s₀ s₁ ≤ σ.roundsLeft s₀ s := by
      obtain rfl | hlt := h₁
      · exact ⟨le_rfl, le_rfl⟩
      · exact ⟨hlt.le, (roundsLeft_lt_of_potential hlt).le⟩
    refine (followRemovals_breaks hpolicy hs₁).bind fun x hx => ?_
    obtain ⟨hx', rfl | ⟨hb, hle', hlt⟩⟩ := hx
    · exact trivial
    · obtain ⟨s₂, changed⟩ := x
      obtain rfl : changed = true := hb
      have hrounds' : σ.roundsLeft s₀ s₂ < σ.roundsLeft s₀ s₁ :=
        roundsLeft_lt_of_breakable hle' hlt
      exact ih hx' (hle'.trans (hle.1.trans hfuel)) (by omega)

/-- The bounds on the rounds are never reached. -/
theorem resolve_ends (hs : σ.Within Set.univ s) :
    Ensures (σ.resolve s) (fun _ => True) (· ≠ .endless) := by
  have hwithin : σ.Within {r | r ∈ σ.places s} s :=
    ⟨hs.sound, fun _ hr => mem_places_of_mem_keys hr, hs.pending⟩
  have hp : σ.potential s s ≤ σ.resolventBound s * 7 := by
    rw [← length_places]
    exact total_le_mul (remaining_le s)
  have hb : σ.breakable s s ≤ σ.resolventBound s := length_places ▸ breakable_le
  refine resolveFrom_ends hpolicy hwithin (by rw [budget]; omega) ?_
  rw [roundsLeft, length_places, budget]
  have hm := Nat.mul_le_mul_right (σ.resolventBound s + 1) hp
  calc
    _ < (σ.resolventBound s * 7 + 1) * (σ.resolventBound s + 1) := by
      rw [Nat.add_mul]
      omega
    _ ≤ _ := Nat.mul_le_mul (by omega) (by omega)

theorem attempt_halts {q : Request} :
    Ensures (q.attempt σ) (fun _ => True) (· ≠ .endless) := by
  have hempty : σ.Within Set.univ {} := by
    constructor
    · exact fun _ _ h => by cases h
    · exact fun _ _ => Set.mem_univ _
    · exact fun _ h => by cases h
  refine Ensures.bind (P := σ.Within Set.univ) ?_ fun s₁ h₁ => Ensures.bind
    (P := σ.Within Set.univ) ?_ fun s₂ h₂ => resolve_ends hpolicy h₂
  · exact Ensures.foldlM (fun p _ s hs => applyAll_within hs (fun _ hc => .target hc)
      fun _ _ => Set.mem_univ _) hempty
  · exact Ensures.foldlM (fun req _ s hs => applyAll_within hs (fun _ hc => .removal hc)
      fun _ _ => Set.mem_univ _) h₁

end Following

end PackagePlan.Setting
