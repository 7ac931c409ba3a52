import PackagePlan.Proofs.Plan.Blockers

/-! # What removals break

An installed package that loses a dependency is removed as well or broken. It
is left alone, however, where a change is suggested for it that is not carried
out, and a dependency counts as met by an installed package that the plan
replaces or breaks.
-/

namespace PackagePlan

open Setting Registry DependencyTree

namespace Registry

variable (reg : Registry) (id : PackageId)

def Removes : Prop :=
  ∃ r rem, reg.decision? r = some (.remove rem) ∧ rem.taken = true ∧ id ∈ rem.ids

def Replaces : Prop :=
  ∃ r c p, reg.decision? r = some (.change c) ∧ c.taken = true ∧ r.destination = .slash ∧
    c.placement = some p ∧ id ∈ p.replacing

def Installs : Prop :=
  ∃ r c, reg.decision? r = some (.change c) ∧ c.taken = true ∧ r.destination = .slash ∧ c.id = id

end Registry

/-- The id is installed at `/` and stays there as it is. -/
structure LeftInPlace (db : Database) (reg : Registry) (id : PackageId) : Prop where
  installed : id ∈ db.installedIds .slash
  notRemoved : ¬ reg.Removes id
  notReplaced : ¬ reg.Replaces id
  notBroken : ∀ b, reg.decision? (.ofId id .slash) ≠ some (.broken b)

variable {q : Request} {db : Database} {policy : Policy} {seeds : Seeds} {maxRestarts : Nat}
  {decided : Decided} {σ : Setting} {s : DecidingState} {reg : Registry} {r : Resolvent}
  {d : Decision} {x y : PackageId} {req : Requirement} {ls : List Label}

theorem mem_removedIds_iff : (r, x) ∈ removedIds reg ↔
    ∃ rem, reg.decision? r = some (.remove rem) ∧ rem.taken = true ∧ x ∈ rem.ids := by
  rw [removedIds, List.mem_flatMap]
  constructor
  · rintro ⟨⟨r', d⟩, hd, hm⟩
    cases d with
    | remove rem =>
      simp only at hm
      split at hm
      · next ht =>
        obtain ⟨x', hx, he⟩ := List.mem_map.1 hm
        cases he
        exact ⟨rem, mem_decisions_iff.1 hd, ht, hx⟩
      · cases hm
    | nothing | existing | change | unable | broken => cases hm
  · rintro ⟨rem, hd, ht, hx⟩
    refine ⟨(r, .remove rem), mem_decisions_iff.2 hd, ?_⟩
    simp only [ht, if_true]
    exact List.mem_map.2 ⟨x, hx, rfl⟩

theorem removes_iff : reg.Removes x ↔ ∃ r, (r, x) ∈ removedIds reg := by
  simp only [mem_removedIds_iff]
  rfl

theorem mem_arrivingIds_iff : x ∈ arrivingIds reg ↔ reg.Installs x := by
  rw [arrivingIds, List.mem_filterMap]
  constructor
  · rintro ⟨⟨r, d⟩, hd, hm⟩
    cases d with
    | change c =>
      simp only [Option.ite_none_right_eq_some, Bool.and_eq_true, beq_iff_eq] at hm
      obtain ⟨⟨ht, hs⟩, he⟩ := hm
      exact ⟨r, c, mem_decisions_iff.1 hd, ht, hs, Option.some.inj he⟩
    | nothing | existing | remove | unable | broken => cases hm
  · rintro ⟨r, c, hd, ht, hs, rfl⟩
    exact ⟨(r, .change c), mem_decisions_iff.2 hd, by simp [ht, hs]⟩

theorem staysInstalled_iff {removed : List (Resolvent × PackageId)} :
    staysInstalled removed x = true ↔ ∀ p ∈ removed, (p.2 == x) = false := by
  simp [staysInstalled]

theorem met_of_not_lost {removed : List (Resolvent × PackageId)}
    {installed arriving : List PackageId}
    (h : lostDependency? removed installed arriving ⟨.package req, ls⟩ = none)
    (hs : ls.any Label.isSuggestion = false) (hy : (r, y) ∈ removed) (ha : req.accepts y = true) :
    (∃ z ∈ installed, staysInstalled removed z = true ∧ req.accepts z = true) ∨
      ∃ z ∈ arriving, req.accepts z = true := by
  simp only [lostDependency?, Dependency.isSuggestion, hs, Bool.false_eq_true, if_false] at h
  split at h
  · next hn =>
    have hno : ¬ req.accepts y = true := List.find?_eq_none.1 hn (r, y) hy
    exact absurd ha hno
  · split at h
    · next hmet =>
      simpa [List.any_eq_true, and_assoc] using hmet
    · cases h

namespace Outcome

variable (o : Outcome q σ s reg)

include o

theorem removes_iff : reg.Removes x ↔ s.registry.Removes x := by
  constructor
  · rintro ⟨r, rem, hd, ht, hx⟩
    obtain ⟨d₀, hd₀, hc⟩ := o.decision hd
    cases hc with
    | remove rem₀ => exact ⟨r, rem₀, hd₀, ht, hx⟩
  · rintro ⟨r, rem₀, hd₀, ht, hx⟩
    obtain ⟨d, hd, hc⟩ := o.completed hd₀
    cases hc with
    | remove => exact ⟨r, _, hd, ht, hx⟩

theorem installs_of_attempt (h : s.registry.Installs x) : reg.Installs x := by
  obtain ⟨r, c₀, hd₀, ht, hs, rfl⟩ := h
  obtain ⟨d, hd, hc⟩ := o.completed hd₀
  cases hc with
  | change => exact ⟨r, _, hd, ht, hs, rfl⟩

theorem removed_mem_allIds (hdb : σ.db.Coherent) (h : reg.Removes x) : x ∈ σ.db.allIds := by
  obtain ⟨r, rem, hd, -, hx⟩ := h
  obtain ⟨res, d₀, -, hc, hs⟩ := o.suits_of_decision hd
  cases hc with
  | remove rem₀ =>
    have hx : x ∈ σ.present r := hs.1 ▸ hx
    exact ((mem_present_iff hdb).1 hx).known

theorem staysInstalled_iff_not_removes (hdb : σ.db.Coherent) (hx : x ∈ σ.db.allIds) :
    staysInstalled (removedIds s.registry) x = true ↔ ¬ reg.Removes x := by
  rw [staysInstalled_iff, o.removes_iff, PackagePlan.removes_iff]
  constructor
  · rintro h ⟨r, hm⟩
    have hne : (x == x) = false := h (r, x) hm
    rw [BEq.rfl] at hne
    cases hne
  · rintro h ⟨r, y⟩ hm
    refine Bool.eq_false_iff.2 fun he => h ⟨r, ?_⟩
    have hy : reg.Removes y := o.removes_iff.2 (PackagePlan.removes_iff.2 ⟨r, hm⟩)
    exact Database.eq_of_mem_allIds (o.removed_mem_allIds hdb hy) hx he ▸ hm

theorem untaken_of_leftInPlace (hdb : σ.db.Coherent) (hx : LeftInPlace σ.db reg x)
    (hd : reg.decision? (.ofId x .slash) = some d) (hch : d.isChange = true) :
    d.taken = false := by
  refine Bool.eq_false_iff.2 fun ht => ?_
  have hp : Present σ.db (.ofId x .slash) x := (present_slash_iff rfl).2 ⟨hx.installed, rfl⟩
  rcases o.drops hdb rfl hp hd hch ht with ⟨rem, hrem, htaken, hid⟩ | ⟨c, p, hc, htaken, hpl, hid⟩
  · exact hx.notRemoved ⟨_, rem, hrem, htaken, hid⟩
  · exact hx.notReplaced ⟨_, c, p, hc, htaken, rfl, hpl, hid⟩

theorem isChange_of_isSettledAt (hx : LeftInPlace σ.db reg x)
    (hset : isSettledAt s.registry (.ofId x .slash) = true) :
    ∃ d, reg.decision? (.ofId x .slash) = some d ∧ d.isChange = true := by
  cases hd₀ : s.registry.decision? (.ofId x .slash) with
  | none =>
    rw [isSettledAt, hd₀] at hset
    cases hset
  | some d₀ =>
    rw [isSettledAt, hd₀] at hset
    obtain ⟨d, hd, hc⟩ := o.completed hd₀
    cases hc with
    | change | remove => exact ⟨_, hd, rfl⟩
    | broken b => exact absurd hd (hx.notBroken _)
    | nothing | existing | unable => cases hset

/-- Where no change or removal is decided for it, an id that is left in place has lost nothing. -/
theorem met_of_leftInPlace (hdb : σ.db.Coherent) (hx : LeftInPlace σ.db reg x)
    (hn : ∀ d, reg.decision? (.ofId x .slash) = some d → d.isChange = false)
    (hdep : Firm x.choices Label.initial [σ.db.treeOf x] ⟨.package req, ls⟩)
    (hs : ls.any Label.isSuggestion = false) (hy : reg.Removes y) (ha : req.accepts y = true) :
    (∃ z ∈ σ.db.installedIds .slash, ¬ reg.Removes z ∧ req.accepts z = true) ∨
      ∃ z, reg.Installs z ∧ req.accepts z = true := by
  obtain ⟨r, hy⟩ := PackagePlan.removes_iff.1 (o.removes_iff.1 hy)
  have hxk : x ∈ σ.db.allIds := (Database.mem_installedIds_iff.1 hx.installed).1
  rcases attempt_spared o.attempt hx.installed with hrem | hset | hmet
  · have hstays := (o.staysInstalled_iff_not_removes hdb hxk).2 hx.notRemoved
    rw [hrem] at hstays
    cases hstays
  · obtain ⟨d, hd, hch⟩ := o.isChange_of_isSettledAt hx hset
    rw [hn d hd] at hch
    cases hch
  · have hlost := hmet _ (mem_dependencies_of_firm hdep)
    rcases met_of_not_lost hlost hs hy ha with ⟨z, hz, hstays, hacc⟩ | ⟨z, hz, hacc⟩
    · have hz : z ∈ σ.db.installedIds .slash := IdSelection.mem_of_mem_sortIds hz
      have hzk : z ∈ σ.db.allIds := (Database.mem_installedIds_iff.1 hz).1
      exact .inl ⟨z, hz, (o.staysInstalled_iff_not_removes hdb hzk).1 hstays, hacc⟩
    · exact .inr ⟨z, o.installs_of_attempt (mem_arrivingIds_iff.1 hz), hacc⟩

end Outcome

/-- Nothing that is left in place is broken: what meets a firm dependency, and is removed, is made
up for by something that is left in place or comes in. -/
def Unbroken (db : Database) (reg : Registry) : Prop :=
  ∀ x y req ls, LeftInPlace db reg x →
    Firm x.choices Label.initial [db.treeOf x] ⟨.package req, ls⟩ →
      ls.any Label.isSuggestion = false → reg.Removes y → req.accepts y = true →
        (∃ z, LeftInPlace db reg z ∧ req.accepts z = true) ∨
          ∃ z, reg.Installs z ∧ req.accepts z = true

theorem not_unbroken (hx : LeftInPlace db reg x)
    (hdep : Firm x.choices Label.initial [db.treeOf x] ⟨.package req, ls⟩)
    (hs : ls.any Label.isSuggestion = false) (hy : reg.Removes y) (ha : req.accepts y = true)
    (hgone : ∀ z ∈ db.installedIds .slash, req.accepts z = true → reg.Removes z ∨ reg.Replaces z)
    (hnew : ∀ z ∈ arrivingIds reg, req.accepts z = false) : ¬ Unbroken db reg := by
  intro h
  rcases h x y req ls hx hdep hs hy ha with ⟨z, hz, hacc⟩ | ⟨z, hz, hacc⟩
  · rcases hgone z hz.installed hacc with hr | hr
    · exact hz.notRemoved hr
    · exact hz.notReplaced hr
  · rw [hnew z (mem_arrivingIds_iff.2 hz)] at hacc
    cases hacc

def Decision.touches (name : PackageName) : Decision → Bool
  | .change c => c.taken && (c.placement.any fun p => p.replacing.any (·.name == name))
  | .remove rem => rem.ids.any (·.name == name)
  | .broken _ => true
  | .nothing _ | .existing _ | .unable .. => false

theorem leftInPlace_of_untouched (hx : x ∈ db.installedIds .slash)
    (h : reg.decisions.all (fun p => !p.2.touches x.name) = true) : LeftInPlace db reg x := by
  have hno : ∀ r d, reg.decision? r = some d → d.touches x.name = false := fun r d hd => by
    simpa using List.all_eq_true.1 h (r, d) (mem_decisions_iff.2 hd)
  constructor
  · exact hx
  · rintro ⟨r, rem, hd, -, hm⟩
    have hn := hno r _ hd
    simp only [Decision.touches, List.any_eq_false] at hn
    exact hn x hm BEq.rfl
  · rintro ⟨r, c, p, hd, ht, -, hp, hm⟩
    have hn := hno r _ hd
    simp only [Decision.touches, ht, hp, Option.any_some, Bool.true_and, List.any_eq_false] at hn
    exact hn x hm BEq.rfl
  · intro b hb
    have hn := hno _ _ hb
    cases hn

namespace Sample

def placedChange (id : PackageId) (replacing : List PackageId) (taken : Bool) : Decision :=
  .change { id, isBest := true, taken, placement := some ⟨"installed", replacing⟩ }

def oldX : PackageId := id "x" (.installed .slash)

def newX : PackageId := { id "x" .source with version := version 2 }

def oldY : PackageId := id "y" (.installed .slash)

/-- `x` is installed and needs `y`; a newer version of `x` is suggested by `a`. -/
def suggestingDatabase : Database :=
  (((Database.empty.insert oldX (.package (.named "y"))).insert oldY .nothing).insert
    (id "a" .source) (.all [.labels [.suggested],
      .package { Requirement.named "x" with version := .atLeast (version 2) }])).insert
        newX .nothing

def installAndRemove : Request :=
  { targets := [(.named "a", .target)], removals := [.named "y"] }

def staleDecisions : List (Resolvent × Decision) :=
  [(⟨"a", some "0", .slash⟩, placedChange (id "a" .source) [] true),
    (⟨"x", some "0", .slash⟩, placedChange newX [oldX] false),
    (⟨"y", some "0", .slash⟩, .remove { ids := [oldY], taken := true })]

theorem exists_stale : ∃ decided,
    installAndRemove.decide suggestingDatabase preferences.policy {} 10 = .ok decided ∧
      decided.registry.decisions = staleDecisions :=
  exists_ok_of_map (by with_unfolding_all rfl)

def middleY : PackageId := { oldY with version := version 2, slot := some "1" }

def newY : PackageId := { id "y" .source with version := version 3, slot := some "1" }

/-- `x` can do with either of two slots of `y`, of which one is removed and one replaced. -/
def slottedDatabase : Database :=
  (((Database.empty.insert oldX
    (.package { Requirement.named "y" with version := .olderThan (version 3) })).insert
      oldY .nothing).insert middleY .nothing).insert newY .nothing

def replaceAndRemove : Request :=
  { targets := [({ Requirement.named "y" with slot := some "1" }, .target)]
    removals := [{ Requirement.named "y" with slot := some "0" }] }

def replacedDecisions : List (Resolvent × Decision) :=
  [(⟨"y", some "0", .slash⟩, .remove { ids := [oldY], taken := true }),
    (⟨"y", some "1", .slash⟩, placedChange newY [middleY] true)]

theorem exists_replaced : ∃ decided,
    replaceAndRemove.decide slottedDatabase preferences.policy {} 10 = .ok decided ∧
      decided.registry.decisions = replacedDecisions :=
  exists_ok_of_map (by with_unfolding_all rfl)

theorem stale_not_unbroken (h : reg.decisions = staleDecisions) :
    ¬ Unbroken suggestingDatabase reg := by
  have hremove : reg.decision? ⟨"y", some "0", .slash⟩ =
      some (.remove { ids := [oldY], taken := true }) :=
    mem_decisions_iff.1 (by rw [h]; exact .tail _ (.tail _ (.head _)))
  have hy : reg.Removes oldY := ⟨_, _, hremove, rfl, .head _⟩
  have hx : LeftInPlace suggestingDatabase reg oldX :=
    leftInPlace_of_untouched (.head _) (by rw [h]; rfl)
  have hdep : Firm oldX.choices Label.initial [suggestingDatabase.treeOf oldX]
      ⟨.package (.named "y"), Label.initial⟩ := .package
  refine not_unbroken hx hdep rfl hy rfl ?_ ?_
  · have hin : suggestingDatabase.installedIds .slash = [oldX, oldY] := rfl
    rw [hin]
    exact List.forall_mem_cons.2
      ⟨fun ha => (by cases ha), List.forall_mem_singleton.2 fun _ => .inl hy⟩
  · have hnew : arrivingIds reg = [id "a" .source] := by rw [arrivingIds, h]; rfl
    rw [hnew]
    exact List.forall_mem_singleton.2 rfl

theorem replaced_leaves (h : reg.decisions = replacedDecisions) :
    LeftInPlace slottedDatabase reg oldX ∧ reg.Removes oldY ∧ reg.Replaces middleY := by
  have hremove : reg.decision? ⟨"y", some "0", .slash⟩ =
      some (.remove { ids := [oldY], taken := true }) :=
    mem_decisions_iff.1 (by rw [h]; exact .head _)
  have hchange : reg.decision? ⟨"y", some "1", .slash⟩ =
      some (placedChange newY [middleY] true) :=
    mem_decisions_iff.1 (by rw [h]; exact .tail _ (.head _))
  exact ⟨leftInPlace_of_untouched (.head _) (by rw [h]; rfl), ⟨_, _, hremove, rfl, .head _⟩,
    ⟨_, _, _, hchange, rfl, rfl, rfl, .head _⟩⟩

theorem replaced_not_unbroken (h : reg.decisions = replacedDecisions) :
    ¬ Unbroken slottedDatabase reg := by
  obtain ⟨hx, hy, hz⟩ := replaced_leaves h
  have hdep : Firm oldX.choices Label.initial [slottedDatabase.treeOf oldX]
      ⟨.package { Requirement.named "y" with version := .olderThan (version 3) },
        Label.initial⟩ := .package
  refine not_unbroken hx hdep rfl hy rfl ?_ ?_
  · have hin : slottedDatabase.installedIds .slash = [oldX, oldY, middleY] := rfl
    rw [hin]
    exact List.forall_mem_cons.2 ⟨fun ha => (by cases ha), List.forall_mem_cons.2
      ⟨fun _ => .inl hy, List.forall_mem_singleton.2 fun _ => .inr hz⟩⟩
  · have hnew : arrivingIds reg = [newY] := by rw [arrivingIds, h]; rfl
    rw [hnew]
    exact List.forall_mem_singleton.2 rfl

theorem suggestingDatabase_built : suggestingDatabase.Built :=
  .insert (.insert (.insert (.insert .empty _ _) _ _) _ _) _ _

theorem slottedDatabase_built : slottedDatabase.Built :=
  .insert (.insert (.insert (.insert .empty _ _) _ _) _ _) _ _

end Sample

/-- Of what an id that is left in place depends on nothing is lost: what is removed is made up for
by something that is installed and not removed, or by something that comes in. The one exception is
an id for which a change or removal has been decided that is not carried out. -/
theorem dependents_met (hdb : db.Built) (h : q.decide db policy seeds maxRestarts = .ok decided)
    (hx : LeftInPlace db decided.registry x)
    (hdep : Firm x.choices Label.initial [db.treeOf x] ⟨.package req, ls⟩)
    (hs : ls.any Label.isSuggestion = false) (hy : decided.registry.Removes y)
    (ha : req.accepts y = true) :
    (∃ z ∈ db.installedIds .slash, ¬ decided.registry.Removes z ∧ req.accepts z = true) ∨
      (∃ z, decided.registry.Installs z ∧ req.accepts z = true) ∨
        ∃ d, decided.registry.decision? (.ofId x .slash) = some d ∧ d.isChange = true ∧
          d.taken = false := by
  obtain ⟨seeds', s, -, o⟩ := decide_outcome h
  by_cases hch : ∃ d, decided.registry.decision? (.ofId x .slash) = some d ∧ d.isChange = true
  · obtain ⟨d, hd, hch⟩ := hch
    exact .inr (.inr ⟨d, hd, hch, o.untaken_of_leftInPlace hdb.coherent hx hd hch⟩)
  · have hn : ∀ d, decided.registry.decision? (.ofId x .slash) = some d → d.isChange = false :=
      fun d hd => Bool.eq_false_iff.2 fun ht => hch ⟨d, hd, ht⟩
    exact (o.met_of_leftInPlace hdb.coherent hx hn hdep hs hy ha).imp_right .inl

theorem dependents_met_slots : ∃ decided,
    Sample.replaceAndRemove.decide Sample.slottedDatabase Sample.preferences.policy {} 10 =
        .ok decided ∧
      LeftInPlace Sample.slottedDatabase decided.registry Sample.oldX ∧
        decided.registry.Removes Sample.oldY ∧
          ((∃ z ∈ Sample.slottedDatabase.installedIds .slash, ¬ decided.registry.Removes z ∧
              Requirement.accepts
                { Requirement.named "y" with version := .olderThan (Sample.version 3) } z = true) ∨
            (∃ z, decided.registry.Installs z ∧ Requirement.accepts
              { Requirement.named "y" with version := .olderThan (Sample.version 3) } z = true) ∨
              ∃ d, decided.registry.decision? (.ofId Sample.oldX .slash) = some d ∧
                d.isChange = true ∧ d.taken = false) := by
  obtain ⟨decided, hd, h⟩ := Sample.exists_replaced
  obtain ⟨hx, hy, -⟩ := Sample.replaced_leaves h
  exact ⟨decided, hd, hx, hy,
    dependents_met Sample.slottedDatabase_built hd hx .package rfl hy rfl⟩

/-- A package can be broken unnoticed, also where everything that is decided is carried out. -/
theorem broken_unnoticed :
    (¬ ∀ (q : Request) (db : Database) (policy : Policy) (seeds : Seeds) (maxRestarts : Nat)
      (decided : Decided), db.Built → q.decide db policy seeds maxRestarts = .ok decided →
        Unbroken db decided.registry) ∧
    ¬ ∀ (q : Request) (db : Database) (policy : Policy) (seeds : Seeds) (maxRestarts : Nat)
      (decided : Decided), db.Built → q.decide db policy seeds maxRestarts = .ok decided →
        (∀ r d, decided.registry.decision? r = some d → d.taken = true) →
          Unbroken db decided.registry := by
  constructor
  · intro h
    obtain ⟨decided, hd, hdec⟩ := Sample.exists_stale
    exact Sample.stale_not_unbroken hdec (h _ _ _ _ _ _ Sample.suggestingDatabase_built hd)
  · intro h
    obtain ⟨decided, hd, hdec⟩ := Sample.exists_replaced
    refine Sample.replaced_not_unbroken hdec
      (h _ _ _ _ _ _ Sample.slottedDatabase_built hd fun r d hr => ?_)
    have hm : (r, d) ∈ Sample.replacedDecisions := hdec ▸ mem_decisions_iff.2 hr
    rcases List.mem_cons.1 hm with he | hm
    · cases he; rfl
    · cases List.mem_singleton.1 hm; rfl

end PackagePlan
