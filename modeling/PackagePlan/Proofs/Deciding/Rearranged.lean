import PackagePlan.Plan.Request
import PackagePlan.Proofs.Deciding.Candidates
import PackagePlan.Proofs.Package.Rearranged

/-! # Decisions on rearranged databases

Decisions see the ids of a database only through sorts that tell them apart
and through questions whose answer does not depend on an order. So they are
the same on databases that list the same ids in different orders.
-/

namespace PackagePlan

open Std

theorem Origin.eq_of_preference {o o' : Origin} {promoteBinaries : Bool}
    (h : o.preference promoteBinaries = o'.preference promoteBinaries)
    (hr : o.installedRoot? = o'.installedRoot?) : o = o' := by
  cases o with
  | source =>
    cases o' with
    | source => rfl
    | binary => cases promoteBinaries <;> cases h
    | installed _ => cases hr
  | binary =>
    cases o' with
    | source => cases promoteBinaries <;> cases h
    | binary => rfl
    | installed _ => cases hr
  | installed _ =>
    cases o' with
    | source => cases hr
    | binary => cases hr
    | installed _ => exact congrArg Origin.installed (Option.some.inj hr)

/-- Candidates may be equally liked only if both are installed, but not at the same root. -/
theorem PackageId.comparePreference_of_compareCandidates {a b : PackageId} {promoteBinaries : Bool}
    (h : compareCandidates promoteBinaries a b = .eq) (hr : a.installedRoot? = b.installedRoot?) :
    a.comparePreference b = .eq := by
  simp only [compareCandidates, Ordering.then_eq_eq, LawfulEqCmp.compare_eq_iff_eq] at h
  obtain ⟨hv, hp, hrepo⟩ := h
  exact comparePreference_eq_iff.2 ⟨hv, Origin.eq_of_preference hp hr, hrepo.symm⟩

namespace Setting

/-- The settings differ at most in the order in which their databases list ids. -/
structure Rearranged (σ σ' : Setting) : Prop where
  db : σ.db.Rearranged σ'.db
  policy : σ.policy = σ'.policy
  seeds : σ.seeds = σ'.seeds

namespace Rearranged

variable {σ σ' : Setting} (h : σ.Rearranged σ')

include h

section Candidates

theorem sortCandidates (n : PackageName) (root : Option InstallRoot) {ids ids' : List PackageId}
    (hp : ids.Perm ids') (hn : ∀ a ∈ ids, a ∈ σ.db.idsOf n ∧ a.installedRoot? = root) :
    σ.sortCandidates ids = σ'.sortCandidates ids' := by
  rw [Setting.sortCandidates, Setting.sortCandidates, ← h.policy]
  refine sortBy_eq_of_perm hp fun a ha b hb he => ?_
  obtain ⟨ha, har⟩ := hn a ha
  obtain ⟨hb, hbr⟩ := hn b hb
  exact h.db.eq_of_idsOf ha hb
    (PackageId.comparePreference_of_compareCandidates he (har.trans hbr.symm))

theorem present : σ.present = σ'.present := by
  funext r
  have hroot : ∃ root, ∀ id, r.destination.presence.keeps id = true →
      id.installedRoot? = root := by
    cases r.destination with
    | slash => exact ⟨some .slash, fun id hk => Destination.keeps_presence_iff.1 hk⟩
    | chroot => exact ⟨some .chroot, fun id hk => Destination.keeps_presence_iff.1 hk⟩
    | binary =>
      refine ⟨none, fun id hk => ?_⟩
      have ho : id.origin = .binary := Destination.keeps_presence_iff.1 hk
      rw [PackageId.installedRoot?, ho]
      rfl
  obtain ⟨root, hroot⟩ := hroot
  refine h.sortCandidates r.package root (h.db.find_perm _ _) fun a ha => ?_
  obtain ⟨ha, hk⟩ := Database.mem_find_package.1 ha
  exact ⟨ha, hroot a (Bool.and_eq_true_iff.1 hk).1⟩

theorem isUsable : σ.isUsable = σ'.isUsable := by
  funext r id
  rw [Setting.isUsable, Setting.isUsable, h.policy]

omit h in
theorem installable {r : Resolvent} {a : PackageId}
    (ha : a ∈ σ.db.find (.package r.package) (installableFilter r)) :
    a ∈ σ.db.idsOf r.package ∧ a.installedRoot? = none := by
  obtain ⟨ha, hk⟩ := Database.mem_find_package.1 ha
  exact ⟨ha, Option.isNone_iff_eq_none.1
    (Option.isSome_eq_false_iff.1 (keeps_installableFilter_iff.1 hk).1)⟩

theorem offered : σ.offered = σ'.offered := by
  funext r
  exact congrArg dropRepeats (h.sortCandidates r.package none (h.db.find_perm _ _)
    fun a ha => installable ha)

theorem candidates : σ.candidates = σ'.candidates := by
  funext r
  rw [Setting.candidates, Setting.candidates, ← h.isUsable]
  refine congrArg dropRepeats
    (h.sortCandidates r.package none ((h.db.find_perm _ _).filter _) fun a ha => ?_)
  exact installable (List.mem_filter.1 ha).1

theorem destinationsFor : σ.destinationsFor = σ'.destinationsFor := by
  funext reason
  induction reason with
  | set name inner ih => exact ih
  | _ => simp only [Setting.destinationsFor, h.policy]

theorem bestFor? : σ.bestFor? = σ'.bestFor? := by
  funext r
  exact h.db.bestOf_find _ _

theorem installedFor : σ.installedFor = σ'.installedFor := by
  funext r
  rw [Setting.installedFor, Setting.installedFor, ← h.policy]
  exact h.db.bestPerSlot_find _ _

theorem resolventsMeeting : σ.resolventsMeeting = σ'.resolventsMeeting := by
  funext r reason
  simp only [Setting.resolventsMeeting, h.bestFor?, h.installedFor, h.destinationsFor]

theorem resolventsMissing : σ.resolventsMissing = σ'.resolventsMissing := by
  funext r reason
  simp only [Setting.resolventsMissing, h.db.bestOf_find, h.destinationsFor]

theorem resolventsFor : σ.resolventsFor = σ'.resolventsFor := by
  funext r reason
  simp only [Setting.resolventsFor, h.resolventsMeeting, h.resolventsMissing]

theorem resolventsBlocked : σ.resolventsBlocked = σ'.resolventsBlocked := by
  funext b
  simp only [Setting.resolventsBlocked, h.db.bestPerSlot_find]

end Candidates

section Finder

theorem tryRemoval : σ.tryRemoval = σ'.tryRemoval := by
  funext r cs ids
  simp only [Setting.tryRemoval, h.policy]

theorem findDecision : σ.findDecision = σ'.findDecision := by
  funext r cs
  simp only [Setting.findDecision, h.candidates, h.present, h.tryRemoval]

theorem cannotDecide : σ.cannotDecide = σ'.cannotDecide := by
  funext r cs
  simp only [Setting.cannotDecide, h.present, h.offered]

theorem decisionFor : σ.decisionFor = σ'.decisionFor := by
  funext r cs
  simp only [Setting.decisionFor, h.findDecision, h.cannotDecide]

end Finder

section Score

theorem constraintsFor : σ.seeds.constraintsFor σ.db = σ'.seeds.constraintsFor σ'.db := by
  have happlies : Seeds.presetApplies σ.db = Seeds.presetApplies σ'.db := by
    funext r preset
    simp only [Seeds.presetApplies, h.db.bestPerSlot_find]
  funext r
  simp only [Seeds.constraintsFor, h.seeds, happlies]

theorem couldInstall : σ.couldInstall = σ'.couldInstall := by
  funext r reason place
  simp only [Setting.couldInstall, h.findDecision, h.constraintsFor, h.policy]

theorem scoreMissing : σ.scoreMissing = σ'.scoreMissing := by
  funext reg holder holderId r labels
  simp only [Setting.scoreMissing, h.resolventsMeeting, h.couldInstall, h.db.isEmpty_find]

theorem score : σ.score = σ'.score := by
  funext reg holder d
  simp only [Setting.score, h.db.hasInstalled, h.scoreMissing]

theorem dependenciesOf : σ.dependenciesOf = σ'.dependenciesOf := by
  funext reg holder id
  simp only [Setting.dependenciesOf, h.db.treeOf, h.score]

theorem alreadyMet : σ.alreadyMet = σ'.alreadyMet := by
  funext d
  simp only [Setting.alreadyMet, h.db.hasInstalled]

end Score

section State

theorem ensure : σ.ensure = σ'.ensure := by
  funext s r
  rw [Setting.ensure, Setting.ensure, h.constraintsFor]

theorem reconsider : σ.reconsider = σ'.reconsider := by
  funext s r c previous
  simp only [Setting.reconsider, h.findDecision, h.cannotDecide, h.policy]

theorem applyConstraint : σ.applyConstraint = σ'.applyConstraint := by
  funext s r c
  simp only [Setting.applyConstraint, h.ensure, h.reconsider]

theorem applyAll : σ.applyAll = σ'.applyAll := by
  funext s cs
  simp only [Setting.applyAll, h.applyConstraint]

theorem addTarget : σ.addTarget = σ'.addTarget := by
  funext s r reason
  simp only [Setting.addTarget, Setting.targetConstraints, h.applyAll, h.resolventsFor, h.policy]

theorem addRemoval : σ.addRemoval = σ'.addRemoval := by
  funext s r
  simp only [Setting.addRemoval, Setting.removalConstraints, h.applyAll, h.db.bestPerSlot_find]

theorem viaBinaryConstraints : σ.viaBinaryConstraints = σ'.viaBinaryConstraints := by
  funext r id
  simp only [Setting.viaBinaryConstraints, h.policy]

theorem dependencyConstraints : σ.dependencyConstraints = σ'.dependencyConstraints := by
  funext holder d id dep
  simp only [Setting.dependencyConstraints, h.db.hasInstalled, h.alreadyMet, h.resolventsFor,
    h.resolventsBlocked, h.policy]

theorem addDependencies : σ.addDependencies = σ'.addDependencies := by
  funext s r
  simp only [Setting.addDependencies, h.applyAll, h.viaBinaryConstraints, h.dependenciesOf,
    h.dependencyConstraints]

end State

section Rounds

theorem budget : σ.budget = σ'.budget := by
  funext s
  have hids : (knownIds σ.db).length = (knownIds σ'.db).length := by
    rw [knownIds, knownIds, List.length_append, List.length_append,
      h.db.coherent.values_flatten_perm.length_eq, h.db.coherent'.values_flatten_perm.length_eq,
      h.db.allIds, h.db.trees]
  have hreqs : knownRequirements σ.db = knownRequirements σ'.db := by
    rw [knownRequirements, knownRequirements, h.db.trees]
  simp only [Setting.budget, resolventBound, reachableNames, reachableSlots, List.length_append,
    List.length_cons, List.length_map, hids, hreqs]

theorem addPending : σ.addPending = σ'.addPending := by
  funext fuel
  induction fuel with
  | zero => rfl
  | succ fuel ih =>
    funext s
    simp only [Setting.addPending, h.addDependencies, ih]

theorem decideDue : σ.decideDue = σ'.decideDue := by
  funext pass s rs
  simp only [Setting.decideDue, decideOne, h.decisionFor, h.addDependencies]

theorem settle : σ.settle = σ'.settle := by
  have hround : σ.round = σ'.round := by
    funext fuel pass s
    simp only [round, h.addPending, h.decideDue]
  have hfrom : ∀ fuel rounds, σ.settleFrom fuel rounds = σ'.settleFrom fuel rounds := by
    intro fuel rounds
    induction rounds with
    | zero => rfl
    | succ rounds ih =>
      funext pass s
      simp only [settleFrom, hround, ih]
  funext fuel s
  rw [Setting.settle, Setting.settle, hfrom]

theorem followRemoval : σ.followRemoval = σ'.followRemoval := by
  funext removed installed arriving s id
  simp only [Setting.followRemoval, breakId, h.dependenciesOf, h.applyConstraint, h.ensure,
    h.policy]

theorem followRemovals : σ.followRemovals = σ'.followRemovals := by
  funext s
  simp only [Setting.followRemovals, h.followRemoval, h.db.installedIds]

theorem resolve : σ.resolve = σ'.resolve := by
  have hfrom : ∀ fuel rounds, σ.resolveFrom fuel rounds = σ'.resolveFrom fuel rounds := by
    intro fuel rounds
    induction rounds with
    | zero => rfl
    | succ rounds ih =>
      funext s
      simp only [resolveFrom, h.settle, h.followRemovals, ih]
  funext s
  simp only [Setting.resolve, h.budget, hfrom]

end Rounds

section Placement

theorem place : σ.place = σ'.place := by
  have hreplaced : σ.replacedBy = σ'.replacedBy := by
    funext r id repository
    simp only [replacedBy, h.db.sortIds_find]
  funext r d
  cases d with
  | change c => simp only [Setting.place, hreplaced, h.policy]
  | _ => rfl

theorem placeAll : σ.placeAll = σ'.placeAll := by
  funext s
  simp only [Setting.placeAll, h.place]

theorem confirmAll : σ.confirmAll = σ'.confirmAll := by
  have hneeded : σ.neededConfirmations = σ'.neededConfirmations := by
    funext cs d
    cases d <;> simp only [neededConfirmations, h.policy]
  funext s
  simp only [Setting.confirmAll, confirm, hneeded, h.policy]

end Placement

end Rearranged

end Setting

namespace Request

open Setting

theorem attempt_rearranged (q : Request) {σ σ' : Setting} (h : σ.Rearranged σ') :
    q.attempt σ = q.attempt σ' := by
  simp only [attempt, h.addTarget, h.addRemoval, h.resolve]

theorem finish_rearranged {σ σ' : Setting} (h : σ.Rearranged σ') (s : DecidingState) :
    finish σ s = finish σ' s := by
  simp only [finish, h.placeAll, h.confirmAll]

variable {db db' : Database} (h : db.Rearranged db') (q : Request) (policy : Policy)
  (seeds : Seeds) (maxRestarts : Nat)

include h

theorem decide_rearranged : q.decide db policy seeds maxRestarts =
    q.decide db' policy seeds maxRestarts := by
  have hσ : ∀ seeds, Setting.Rearranged ⟨db, policy, seeds⟩ ⟨db', policy, seeds⟩ :=
    fun _ => ⟨h, rfl, rfl⟩
  have hfrom : ∀ log, q.decideFrom db policy log = q.decideFrom db' policy log := by
    intro log
    fun_induction decideFrom q db policy log with
    | case1 log σ s ha =>
      have ha' : q.attempt ⟨db', policy, log.seeds⟩ = .ok s := q.attempt_rearranged (hσ _) ▸ ha
      rw [decideFrom_of_ok ha', finish_rearranged (hσ _)]
    | case2 log σ ha =>
      have ha' : q.attempt ⟨db', policy, log.seeds⟩ = .error .endless :=
        q.attempt_rearranged (hσ _) ▸ ha
      rw [decideFrom_of_endless ha']
    | case3 log σ R s ha log' e hlog =>
      have ha' : q.attempt ⟨db', policy, log.seeds⟩ = .error (.restart R s) :=
        q.attempt_rearranged (hσ _) ▸ ha
      obtain ⟨hge, -, rfl⟩ := RestartLog.record_eq_some_iff.1 hlog
      rw [decideFrom_of_ge hge ha']
    | case4 log σ R s ha log' hlog ih =>
      have ha' : q.attempt ⟨db', policy, log.seeds⟩ = .error (.restart R s) :=
        q.attempt_rearranged (hσ _) ▸ ha
      obtain ⟨hlt, rfl⟩ := RestartLog.record_eq_none_iff.1 hlog
      rw [decideFrom_of_lt hlt ha', ih]
  exact hfrom { limit := maxRestarts, seeds }

theorem plan_rearranged : q.plan db policy seeds maxRestarts =
    q.plan db' policy seeds maxRestarts := by
  rw [Request.plan, Request.plan, q.decide_rearranged h]

omit policy seeds maxRestarts in
theorem addSet_rearranged (name : SetName) : q.addSet db name = q.addSet db' name := by
  simp only [addSet, Database.set?, h.sets]

end Request

end PackagePlan
