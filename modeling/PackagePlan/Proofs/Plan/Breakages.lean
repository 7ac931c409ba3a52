import PackagePlan.Proofs.Dependency.Meaning
import PackagePlan.Proofs.Plan.Losses

/-! # Which packages are broken

A package that is broken has lost a dependency in the end as well, unless
removals have been followed by further removals. The dependency may stand in a
choice, however: the alternative that suits what was installed best is the
only one that is looked at, and another one may still be met.
-/

namespace PackagePlan

open Setting Registry DependencyTree

/-- What is met once everything has been carried out. Blockers and suggestions count as met. -/
def Registry.Met (db : Database) (reg : Registry) (dep : Dependency) : Prop :=
  match dep.demand with
  | .blocker _ => True
  | .package req => dep.isSuggestion = true ∨
      (∃ z ∈ db.installedIds .slash, ¬ reg.Removes z ∧ req.accepts z = true) ∨
        ∃ z, reg.Installs z ∧ req.accepts z = true

variable {q : Request} {db : Database} {policy : Policy} {seeds : Seeds} {maxRestarts : Nat}
  {decided : Decided} {σ : Setting} {s : DecidingState} {reg : Registry} {r : Resolvent}
  {x y : PackageId} {req : Requirement} {b : Breakage}

namespace Outcome

variable (o : Outcome q σ s reg)

include o

theorem installs_iff : reg.Installs x ↔ s.registry.Installs x := by
  refine ⟨?_, o.installs_of_attempt⟩
  rintro ⟨r, c, hd, ht, hs, rfl⟩
  obtain ⟨d₀, hd₀, hc⟩ := o.decision hd
  cases hc with
  | change => exact ⟨r, _, hd₀, ht, hs, rfl⟩

theorem letsGo (h : s.registry.LetsGo db y) : reg.LetsGo db y := by
  obtain ⟨r, d₀, hp, hd₀, hy⟩ := h
  obtain ⟨d, hd, hc⟩ := o.completed hd₀
  refine ⟨r, d, hp, hd, ?_⟩
  cases hy with
  | remove ht hm =>
    cases hc
    exact .remove ht hm
  | unable =>
    cases hc
    exact .unable _ _
  | broken =>
    cases hc
    exact .broken _

theorem loses (h : s.registry.Loses db req) : reg.Loses db req := by
  obtain ⟨y, ha, hy⟩ := h.removed
  exact ⟨⟨y, ha, o.letsGo hy⟩, fun z hz haz => o.letsGo (h.installed z hz haz)⟩

theorem lacks (h : s.registry.Lacks db req) : reg.Lacks db req := by
  obtain ⟨y, ha, hy⟩ := h.removed
  constructor
  · exact ⟨y, ha, o.removes_iff.2 hy⟩
  · exact fun z hz haz => o.removes_iff.2 (h.installed z hz haz)
  · exact fun z hz => h.arriving z (o.installs_iff.1 hz)

theorem cascades_iff : reg.Cascades db policy ↔ s.registry.Cascades db policy := by
  simp only [Registry.Cascades, o.records_iff]

end Outcome

theorem Registry.Lacks.not_holdsUnder {ls : List Label} {choices : Choices}
    {ts : List DependencyTree} (h : reg.Lacks db req) (hs : ls.any Label.isSuggestion = false)
    (hf : Firm choices Label.initial ts ⟨.package req, ls⟩) :
    ¬ HoldsUnder choices (reg.Met db) Label.initial ts := by
  intro hholds
  rcases hholds.of_firm hf with hsuggestion | ⟨z, hz, hstays, ha⟩ | ⟨z, hz, ha⟩
  · rw [Dependency.isSuggestion, hs] at hsuggestion
    cases hsuggestion
  · exact hstays (h.installed z hz ha)
  · rw [h.arriving z hz] at ha
    cases ha

namespace Sample

def removable (name : PackageName) : PackageId := id name (.installed .slash)

/-- `x` needs `c` and one of `a` and `b`. All of them are installed. -/
def choosing : Database :=
  (((Database.empty.insert (removable "x")
    (.all [.any [.package (.named "a"), .package (.named "b")], .package (.named "c")])).insert
      (removable "a") .nothing).insert (removable "b") .nothing).insert (removable "c") .nothing

theorem choosing_built : choosing.Built :=
  .insert (.insert (.insert (.insert .empty _ _) _ _) _ _) _ _

def breaksX (name : PackageName) : List (Resolvent × Decision) :=
  [(⟨name, some "0", .slash⟩, .remove { ids := [removable name], taken := true }),
    (⟨"x", some "0", .slash⟩,
      .broken { id := removable "x", taken := true, confirmations := [.breakage] })]

def Breaks (name : PackageName) : Prop :=
  ∃ decided, Request.decide { removals := [.named name] } choosing preferences.policy {} 10 =
      .ok decided ∧ decided.registry.decisions = breaksX name

theorem breaks_a : Breaks "a" := exists_ok_of_map (by with_unfolding_all rfl)

theorem breaks_c : Breaks "c" := exists_ok_of_map (by with_unfolding_all rfl)

theorem decision?_breaksX {name : PackageName} (h : reg.decisions = breaksX name) :
    reg.decision? ⟨"x", some "0", .slash⟩ =
      some (.broken { id := removable "x", taken := true, confirmations := [.breakage] }) :=
  mem_decisions_iff.1 (by rw [h]; exact .tail _ (.head _))

theorem eq_of_removes {name : PackageName} (h : reg.decisions = breaksX name)
    (hy : reg.Removes y) : y = removable name := by
  obtain ⟨r, rem, hd, -, hm⟩ := hy
  have hmem : (r, .remove rem) ∈ breaksX name := h ▸ mem_decisions_iff.2 hd
  rcases List.mem_cons.1 hmem with he | hmem
  · cases he
    exact List.mem_singleton.1 hm
  · cases List.mem_singleton.1 hmem

theorem met_of_ne {name other : PackageName} (h : reg.decisions = breaksX name)
    (hi : removable other ∈ choosing.installedIds .slash) (hne : other ≠ name)
    (ha : (Requirement.named other).accepts (removable other) = true) :
    reg.Met choosing ⟨.package (.named other), Label.initial⟩ :=
  .inr (.inl ⟨removable other, hi, fun hr => hne (congrArg PackageId.name (eq_of_removes h hr)),
    ha⟩)

theorem choosing_holds (h : reg.decisions = breaksX "a") :
    HoldsUnder (removable "x").choices (reg.Met choosing) Label.initial
      [choosing.treeOf (removable "x")] := by
  have hin : choosing.installedIds .slash =
      [removable "a", removable "b", removable "c", removable "x"] := rfl
  have hb : reg.Met choosing ⟨.package (.named "b"), Label.initial⟩ :=
    met_of_ne h (hin ▸ .tail _ (.head _)) (by decide) rfl
  have hc : reg.Met choosing ⟨.package (.named "c"), Label.initial⟩ :=
    met_of_ne h (hin ▸ .tail _ (.tail _ (.head _))) (by decide) rfl
  refine .all (.any (.any (.tail _ (.head _)) ?_ (.package hb)) (.package hc .nil)) .nil
  exact isAlternative_iff.1 rfl

end Sample

/-- A package that is broken had a dependency of which all that met it has been let go. Where no
removal is followed by a removal, all that met it is removed and nothing that comes in meets it, so
that the package holds together only if the dependency stands in a choice. -/
theorem broken_loses (hdb : db.Built) (h : q.decide db policy seeds maxRestarts = .ok decided)
    (hb : decided.registry.decision? r = some (.broken b)) :
    r = .ofId b.id .slash ∧ b.id ∈ db.installedIds .slash ∧
      Depends db policy b.id (fun req _ => decided.registry.Loses db req) ∧
        (¬ decided.registry.Cascades db policy → Depends db policy b.id fun req ls =>
          decided.registry.Lacks db req ∧
            (HoldsUnder b.id.choices (decided.registry.Met db) Label.initial [db.treeOf b.id] →
              ¬ Firm b.id.choices Label.initial [db.treeOf b.id] ⟨.package req, ls⟩)) := by
  obtain ⟨seeds', s, -, o⟩ := decide_outcome h
  obtain ⟨d₀, hd₀, hc⟩ := o.decision hb
  obtain ⟨b₀, rfl, hid⟩ : ∃ b₀, d₀ = .broken b₀ ∧ b₀.id = b.id := by
    cases hc
    exact ⟨_, rfl, rfl⟩
  obtain ⟨hr, hi, hloses⟩ := attempt_brokenBereft hdb.coherent o.attempt r b₀ hd₀
  rw [hid] at hr hi hloses
  refine ⟨hr, hi, hloses.imp fun req _ _ hl => o.loses hl, fun hcascades => ?_⟩
  have hlack := (attempt_brokenLack hdb.coherent o.attempt).resolve_left
    (fun hc => hcascades (o.cascades_iff.2 hc)) r b₀ hd₀
  rw [hid] at hlack
  refine hlack.imp fun req ls hs hl => ⟨o.lacks hl, fun hholds hf => ?_⟩
  exact (o.lacks hl).not_holdsUnder hs hf hholds

theorem broken_loses_choosing : ∃ decided b,
    Request.decide { removals := [.named "c"] } Sample.choosing Sample.preferences.policy {} 10 =
        .ok decided ∧
      decided.registry.decision? ⟨"x", some "0", .slash⟩ = some (.broken b) ∧
        ¬ decided.registry.Cascades Sample.choosing Sample.preferences.policy ∧
          Depends Sample.choosing Sample.preferences.policy b.id fun req ls =>
            decided.registry.Lacks Sample.choosing req ∧
              (HoldsUnder b.id.choices (decided.registry.Met Sample.choosing) Label.initial
                  [Sample.choosing.treeOf b.id] →
                ¬ Firm b.id.choices Label.initial [Sample.choosing.treeOf b.id]
                  ⟨.package req, ls⟩) := by
  obtain ⟨decided, hd, hx⟩ := Sample.breaks_c
  have hb := Sample.decision?_breaksX hx
  have hcascades : ¬ decided.registry.Cascades Sample.choosing Sample.preferences.policy := by
    rintro ⟨id, -, hp, -⟩
    cases hp
  exact ⟨decided, _, hd, hb, hcascades,
    (broken_loses Sample.choosing_built hd hb).2.2.2 hcascades⟩

/-- A package can be broken although its dependencies hold as they are read. -/
theorem broken_although_met : ¬ ∀ (q : Request) (db : Database) (policy : Policy) (seeds : Seeds)
    (maxRestarts : Nat) (decided : Decided) (r : Resolvent) (b : Breakage), db.Built →
      q.decide db policy seeds maxRestarts = .ok decided →
        decided.registry.decision? r = some (.broken b) →
          ¬ HoldsUnder b.id.choices (decided.registry.Met db) Label.initial [db.treeOf b.id] := by
  intro h
  obtain ⟨decided, hd, hx⟩ := Sample.breaks_a
  exact h _ _ _ _ _ _ _ _ Sample.choosing_built hd (Sample.decision?_breaksX hx)
    (Sample.choosing_holds hx)

end PackagePlan
