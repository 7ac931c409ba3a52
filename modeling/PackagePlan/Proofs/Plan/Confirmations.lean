import PackagePlan.Proofs.Plan.Blockers
import PackagePlan.Proofs.Plan.Jobs

/-! # What has to be confirmed

A plan that can be carried out does nothing risky that the policy has not
confirmed: it replaces nothing by an older version, removes nothing that is
protected or that nobody asked to be removed, and breaks nothing.
-/

namespace PackagePlan

open Setting Registry Constraints

variable {q : Request} {db : Database} {policy : Policy} {seeds : Seeds} {maxRestarts : Nat}
  {decided : Decided} {σ : Setting} {s : DecidingState} {reg : Registry} {r : Resolvent}
  {res : Resolution} {cs : List Constraint} {d : Decision} {risk : Confirmation}

theorem needed_withConfirmations {given : List Confirmation} :
    σ.neededConfirmations cs (d.withConfirmations given) = σ.neededConfirmations cs d := by
  cases d <;> rfl

theorem needed_confirm :
    σ.neededConfirmations cs (σ.confirm r cs d) = σ.neededConfirmations cs d := by
  rw [confirm]
  split
  · rfl
  · exact needed_withConfirmations

theorem confirms_of_needed (h : (σ.confirm r cs d).confirmations = [])
    (hn : risk ∈ σ.neededConfirmations cs d) : σ.policy.confirms r risk = true := by
  rw [confirm] at h
  split at h
  · next hnil => simpa using List.filter_eq_nil_iff.1 hnil risk hn
  · next hne =>
    cases d with
    | change | remove | broken => exact absurd h hne
    | nothing | existing | unable => cases hn

namespace Outcome

variable (o : Outcome q σ s reg)

include o

theorem confirms (hr : reg.get? r = some res) (hd : res.decision = some d)
    (h : d.confirmations = []) (hn : risk ∈ σ.neededConfirmations res.constraints d) :
    σ.policy.confirms r risk = true := by
  rw [(finish_get? o.finish).1] at hr
  obtain ⟨res₀, hr₀, rfl⟩ := Option.map_eq_some_iff.1 hr
  obtain ⟨d₀, -, rfl⟩ := Option.map_eq_some_iff.1 hd
  have hn : risk ∈ σ.neededConfirmations res₀.constraints
      (σ.confirm r res₀.constraints (σ.placed r d₀)) := hn
  rw [needed_confirm] at hn
  exact confirms_of_needed h hn

theorem placement {c : Change} (hd : reg.decision? r = some (.change c)) :
    ∃ repository, c.placement = some ⟨repository, σ.replacedBy r c.id repository⟩ := by
  obtain ⟨res, d₀, -, hcd, hs⟩ := o.suits_of_decision hd
  cases hcd with
  | @change c₀ p hp =>
    obtain ⟨repository, rfl⟩ := hp hs.1
    exact ⟨repository, rfl⟩

theorem taken_of_broken {b : Breakage} (hd : reg.decision? r = some (.broken b)) :
    b.taken = true := by
  obtain ⟨res, hr, hres⟩ := decision?_eq_some_iff.1 hd
  obtain ⟨d₀, d, hd, hcd, ha⟩ := o.arises hr
  obtain rfl := Option.some.inj (hd.symm.trans hres)
  cases hcd with
  | broken b₀ =>
    cases ha.made rfl with
    | found hcs hf hm => cases hf
    | broken id => rfl

end Outcome

/-- The job carries out a change, and where it replaces a newer version this has been confirmed. -/
def InstallApproved (db : Database) (policy : Policy) (j : Job) : Prop :=
  ∃ root c, j.resolvent.destination.installRoot? = some root ∧ j.decision = .change c ∧
    ∀ old ∈ db.installedIds root, old.name = c.id.name →
      (old.version == c.id.version || old.slot == c.id.slot) = true →
        compare old.version c.id.version = .gt → policy.confirms j.resolvent .downgrade = true

/-- The job carries out a removal. Where it removes something protected, or nobody has asked for the
removal, this has been confirmed. -/
def UninstallApproved (policy : Policy) (reg : Registry) (j : Job) : Prop :=
  ∃ rem res, j.decision = .remove rem ∧ reg.get? j.resolvent = some res ∧
    ((∃ id ∈ rem.ids, policy.protects id = true) →
      policy.confirms j.resolvent .removeProtected = true) ∧
    ((∀ c ∈ res.constraints, c.requestsRemoval = false) →
      policy.confirms j.resolvent .uninstall = true)

structure Approved (db : Database) (policy : Policy) (reg : Registry) (p : Plan) : Prop where
  install : ∀ j ∈ p.execute, j.kind = .install → InstallApproved db policy j
  uninstall : ∀ j ∈ p.execute, j.kind = .uninstall → UninstallApproved policy reg j
  breakage : ∀ r b, reg.decision? r = some (.broken b) → policy.confirms r .breakage = true

theorem exists_root_of_install {kind : JobKind} (hk : JobKind.ofDecision? r d = some kind)
    (hi : kind = .install) : ∃ root c, r.destination.installRoot? = some root ∧ d = .change c := by
  subst hi
  cases d with
  | change c =>
    obtain ⟨package, slot, destination⟩ := r
    cases destination with
    | slash => exact ⟨.slash, c, rfl, rfl⟩
    | chroot => exact ⟨.chroot, c, rfl, rfl⟩
    | binary => cases hk
  | remove | nothing | existing | unable | broken => cases hk

theorem exists_removal_of_uninstall {kind : JobKind} (hk : JobKind.ofDecision? r d = some kind)
    (hu : kind = .uninstall) : ∃ rem, d = .remove rem := by
  subst hu
  cases d with
  | remove rem => exact ⟨rem, rfl⟩
  | change c =>
    rw [JobKind.ofDecision?] at hk
    split at hk <;> cases hk
  | nothing | existing | unable | broken => cases hk

theorem taken_of_mem_execute {j : Job} (hj : j ∈ (decided.plan policy).execute) :
    j.decision.taken = true := by
  have hm : j.resolvent ∈ (decided.schedule policy).order.map (·.resolvent) := by
    rw [← Plan.resolvents_execute]
    exact List.mem_map_of_mem hj
  obtain ⟨x, hx, hjob⟩ := (Plan.mem_order_iff decided).1 hm
  obtain rfl := Option.some.inj (hx.symm.trans (Plan.task_of_mem_execute hj).1)
  exact (Bool.and_eq_true_iff.1 hjob).1

theorem checkExecutable_eq_ok_iff {p : Plan} :
    p.checkExecutable = .ok () ↔ p.takenUnable = [] ∧ p.unconfirmed = [] := by
  simp only [← List.isEmpty_iff]
  unfold Plan.checkExecutable
  cases p.takenUnable.isEmpty <;> cases p.unconfirmed.isEmpty <;> simp

section Executable

variable (h : (decided.plan policy).checkExecutable = .ok ())

include h

theorem confirmations_of_executable (hd : decided.registry.decision? r = some d)
    (ht : d.taken = true) : d.confirmations = [] := by
  obtain ⟨-, hnil⟩ := checkExecutable_eq_ok_iff.1 h
  by_contra hne
  have hm : r ∈ (decided.plan policy).unconfirmed := by
    refine mem_deciding_iff.2 ⟨d, hd, ?_⟩
    rw [ht, Bool.true_and, Bool.not_eq_true', List.isEmpty_eq_false_iff]
    exact hne
  rw [hnil] at hm
  cases hm

variable (o : Outcome q σ s decided.registry)

include o

theorem confirms_of_executable (hd : decided.registry.decision? r = some d)
    (ht : d.taken = true) : ∃ res, decided.registry.get? r = some res ∧
      ∀ risk ∈ σ.neededConfirmations res.constraints d, σ.policy.confirms r risk = true := by
  obtain ⟨res, hr, hres⟩ := decision?_eq_some_iff.1 hd
  exact ⟨res, hr, fun risk hn => o.confirms hr hres (confirmations_of_executable h hd ht) hn⟩

theorem install_approved (hdb : σ.db.Coherent) {j : Job}
    (hj : j ∈ (decided.plan policy).execute) (hk : j.kind = .install) :
    InstallApproved σ.db σ.policy j := by
  obtain ⟨hd, hkind⟩ := Plan.task_of_mem_execute hj
  obtain ⟨res, -, hconf⟩ := confirms_of_executable h o hd (taken_of_mem_execute hj)
  obtain ⟨root, c, hroot, hc⟩ := exists_root_of_install hkind hk
  refine ⟨root, c, hroot, hc, fun old hold hname hslot hgt => hconf _ ?_⟩
  rw [hc] at hd ⊢
  obtain ⟨repository, hp⟩ := o.placement hd
  have hold : old ∈ σ.replacedBy j.resolvent c.id repository :=
    (mem_replacedBy_iff hdb hroot).2 ⟨hold, hname, hslot⟩
  have hany : ((σ.replacedBy j.resolvent c.id repository).any
      fun id => compare id.version c.id.version == .gt) = true :=
    List.any_eq_true.2 ⟨old, hold, by rw [hgt]; rfl⟩
  simp [neededConfirmations, hp, hany]

theorem uninstall_approved {j : Job} (hj : j ∈ (decided.plan policy).execute)
    (hk : j.kind = .uninstall) : UninstallApproved σ.policy decided.registry j := by
  obtain ⟨hd, hkind⟩ := Plan.task_of_mem_execute hj
  obtain ⟨res, hr, hconf⟩ := confirms_of_executable h o hd (taken_of_mem_execute hj)
  obtain ⟨rem, hrem⟩ := exists_removal_of_uninstall hkind hk
  rw [hrem] at hconf
  refine ⟨rem, res, hrem, hr, fun ⟨id, hid, hprot⟩ => hconf _ ?_, fun hno => hconf _ ?_⟩
  · have hany : rem.ids.any σ.policy.protects = true := List.any_eq_true.2 ⟨id, hid, hprot⟩
    simp [neededConfirmations, hany]
  · have hreq : requestRemoval res.constraints = false := List.any_eq_false.2 fun c hc => by
      rw [hno c hc]
      exact Bool.false_ne_true
    simp [neededConfirmations, hreq]

theorem breakage_approved {b : Breakage}
    (hd : decided.registry.decision? r = some (.broken b)) :
    σ.policy.confirms r .breakage = true := by
  obtain ⟨res, -, hconf⟩ := confirms_of_executable h o hd (o.taken_of_broken hd)
  exact hconf _ (.head _)

end Executable

namespace Sample

def bold : Preferences :=
  { preferences with permits := { downgrade := true, breakage := true } }

/-- Of `x` an older version is offered than is installed, and `z` needs `y`. -/
def riskyDatabase : Database :=
  (((Database.empty.insert { id "x" (.installed .slash) with version := version 2 }
    .nothing).insert (id "x" .source) .nothing).insert (id "y" (.installed .slash)) .nothing).insert
      (id "z" (.installed .slash)) (.package (.named "y"))

theorem riskyDatabase_built : riskyDatabase.Built :=
  .insert (.insert (.insert (.insert .empty _ _) _ _) _ _) _ _

def riskyRequest : Request :=
  { targets := [(.named "x", .target)], removals := [.named "y"] }

def riskyDecisions : List (Resolvent × Decision) :=
  [(⟨"x", some "0", .slash⟩,
      .change { id := id "x" .source, isBest := true, taken := true
                placement := some
                  ⟨"installed", [{ id "x" (.installed .slash) with version := version 2 }]⟩ }),
    (⟨"y", some "0", .slash⟩, .remove { ids := [id "y" (.installed .slash)], taken := true }),
    (⟨"z", some "0", .slash⟩, .broken { id := id "z" (.installed .slash), taken := true })]

theorem exists_risky : ∃ decided,
    riskyRequest.decide riskyDatabase bold.policy {} 10 = .ok decided ∧
      decided.registry.decisions = riskyDecisions ∧
        (decided.plan bold.policy).checkExecutable = .ok () := by
  obtain ⟨decided, hd, h⟩ : ∃ decided,
      riskyRequest.decide riskyDatabase bold.policy {} 10 = .ok decided ∧
        decided.registry.decisions = riskyDecisions := exists_ok_of_map (by with_unfolding_all rfl)
  refine ⟨decided, hd, h, checkExecutable_eq_ok_iff.2 ?_⟩
  simp only [Decided.plan, Plan.ofSchedule, Plan.deciding, h]
  exact ⟨rfl, rfl⟩

end Sample

/-- Whatever is risky in a plan that can be carried out has been confirmed by the policy. -/
theorem executable_approved {p : Plan} (hdb : db.Built)
    (hp : q.plan db policy seeds maxRestarts = .ok p) (h : p.checkExecutable = .ok ()) :
    ∃ decided, q.decide db policy seeds maxRestarts = .ok decided ∧
      p.registry = decided.registry ∧ Approved db policy decided.registry p := by
  obtain ⟨decided, hd, rfl⟩ := plan_eq_ok_iff.1 hp
  obtain ⟨seeds', s, -, o⟩ := decide_outcome hd
  exact ⟨decided, hd, rfl, fun j => install_approved h o hdb.coherent,
    fun j => uninstall_approved h o, fun r b => breakage_approved h o⟩

theorem executable_approved_risky : Sample.riskyDatabase.Built ∧ ∃ decided p,
    Sample.riskyRequest.decide Sample.riskyDatabase Sample.bold.policy {} 10 = .ok decided ∧
      decided.registry.decisions = Sample.riskyDecisions ∧
        Sample.riskyRequest.plan Sample.riskyDatabase Sample.bold.policy {} 10 = .ok p ∧
          p.checkExecutable = .ok () ∧
            Approved Sample.riskyDatabase Sample.bold.policy decided.registry p := by
  obtain ⟨decided, hd, hrisky, h⟩ := Sample.exists_risky
  obtain ⟨decided', hd', -, happroved⟩ :=
    executable_approved Sample.riskyDatabase_built (plan_of_decide hd) h
  obtain rfl : decided = decided' := Except.ok.inj (hd.symm.trans hd')
  exact ⟨Sample.riskyDatabase_built, decided, _, hd, hrisky, plan_of_decide hd, h, happroved⟩

end PackagePlan
