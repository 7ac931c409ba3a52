import PackagePlan.Proofs.Deciding.Dependencies
import PackagePlan.Proofs.Plan.Outcome

/-! # What becomes of blockers

Blockers are never suggestions, so what they lead to is carried out. Unless
something could not be decided or had to be broken, no id that is blocked is
chosen, and every installed id that is blocked is removed or replaced.
-/

namespace PackagePlan

open Setting DependencyTree Registry Constraints

/-- If the constraint is a blocker, it is not just a suggestion. -/
def Constraint.Binding (c : Constraint) : Prop := c.isBlocker = true → c.untaken = false

section Binding

/-- Where a blocker comes from, and whether it is met by absence. -/
inductive Setting.RaisedBlocker (σ : Setting) (r : Resolvent) (c : Constraint) : Prop
  | request (hr : c.reason = .target) (hn : c.nothingIsFine = true)
  | dependency {link : Link Blocker} (hr : c.reason = .blocker link)
      (hm : r ∈ σ.resolventsBlocked link.demand)
      (hn : c.nothingIsFine = !σ.db.hasInstalled link.demand.blocked)
  | dependent {removing : PackageId} {holder : Resolvent}
      (hr : c.reason = .dependent removing holder) (hn : c.nothingIsFine = true)

variable {σ : Setting} {db : Database} {policy : Policy} {r : Resolvent} {c : Constraint}

theorem raised_blocker (h : σ.Raised r c) (hb : c.isBlocker = true) :
    c.untaken = false ∧ σ.RaisedBlocker r c := by
  cases h with
  | target h =>
    obtain ⟨_, -, he⟩ := List.mem_map.1 h
    cases he
    cases hb
  | removal h =>
    obtain ⟨_, -, he⟩ := List.mem_map.1 h
    cases he
    exact ⟨rfl, .request rfl rfl⟩
  | viaBinary h =>
    rw [viaBinaryConstraints] at h
    split at h
    · cases List.mem_singleton.1 h
      cases hb
    · cases h
  | @dependency _ _ _ dep _ _ h =>
    obtain ⟨demand, ls⟩ := dep
    cases demand <;> simp only [dependencyConstraints] at h <;> split at h
    case package.isFalse =>
      obtain ⟨_, -, he⟩ := List.mem_map.1 h
      cases he
      cases hb
    case blocker.isFalse =>
      obtain ⟨_, hm, he⟩ := List.mem_map.1 h
      cases he
      exact ⟨rfl, .dependency rfl hm rfl⟩
    all_goals cases h
  | dependent => exact ⟨rfl, .dependent rfl rfl⟩

theorem binding_inherent : Inherent db policy fun _ c => c.Binding where
  preset _ _ hb := by cases hb
  raised h hb := (raised_blocker h hb).1
  breakage _ _ hb := by cases hb
  restart h hb := h (isBlocker_forRestart ▸ hb)

end Binding

def Registry.Drops (reg : Registry) (r : Resolvent) (id : PackageId) : Prop :=
  (∃ rem, reg.decision? r = some (.remove rem) ∧ rem.taken = true ∧ id ∈ rem.ids) ∨
    ∃ c p, reg.decision? r = some (.change c) ∧ c.taken = true ∧ c.placement = some p ∧
      id ∈ p.replacing

variable {q : Request} {db : Database} {p : Preferences} {presets : List Requirement}
  {maxRestarts : Nat} {decided : Decided} {σ : Setting} {s : DecidingState} {reg : Registry}
  {r : Resolvent} {res : Resolution} {d : Decision} {c : Constraint} {b : Blocker}
  {id : PackageId}

theorem present_slash_iff (hs : r.destination = .slash) :
    Present db r id ↔ id ∈ db.installedIds .slash ∧ Resolvent.ofId id .slash = r := by
  obtain ⟨package, slot, destination⟩ := r
  obtain rfl : destination = .slash := hs
  rw [Database.mem_installedIds_iff, Resolvent.ofId, Resolvent.mk.injEq]
  constructor
  · rintro ⟨hk, hp, hs, hh⟩
    exact ⟨⟨hk, hh⟩, hp, hs, rfl⟩
  · rintro ⟨⟨hk, hh⟩, hp, hs, -⟩
    exact ⟨hk, hp, hs, hh⟩

section Replacement

variable (hdb : σ.db.Coherent)

include hdb

theorem mem_replacedBy_iff {root : InstallRoot} {new : PackageId} {repository : RepositoryName}
    (hroot : r.destination.installRoot? = some root) :
    id ∈ σ.replacedBy r new repository ↔ id ∈ σ.db.installedIds root ∧ id.name = new.name ∧
      (id.version == new.version || id.slot == new.slot) = true := by
  have hd : (σ.db.find (.package new.name) r.destination.presence).Pairwise
      fun a b => (a == b) = false := (hdb.distinct _).filter _
  rw [replacedBy, List.mem_filter, IdSelection.mem_sortIds_iff hd, Database.mem_find_package,
    hdb.mem_idsOf_iff, Database.mem_installedIds_iff, Destination.keeps_presence_iff]
  simp only [Destination.Has, hroot, Option.isSome_some, Bool.true_or, Bool.true_and]
  constructor
  · rintro ⟨⟨⟨hk, hn⟩, hi⟩, hv⟩
    exact ⟨⟨hk, hi⟩, hn, hv⟩
  · rintro ⟨⟨hk, hi⟩, hn, hv⟩
    exact ⟨⟨⟨hk, hn⟩, hi⟩, hv⟩

theorem mem_replacedBy {new : PackageId} {repository : RepositoryName}
    (hs : r.destination = .slash) (hid : Present σ.db r id) (hn : Legal σ.db σ.policy r new) :
    id ∈ σ.replacedBy r new repository := by
  have hroot : r.destination.installRoot? = some .slash := by rw [hs]; rfl
  have hslot : id.slot = new.slot := hid.slot.trans hn.slot.symm
  refine (mem_replacedBy_iff hdb hroot).2 ⟨((present_slash_iff hs).1 hid).1, ?_, ?_⟩
  · exact hid.package.trans hn.package.symm
  · rw [hslot, BEq.rfl, Bool.or_true]

end Replacement

namespace Outcome

variable (o : Outcome q σ s reg)

include o

theorem binding (hseeds : Reached σ.db σ.policy { presets } σ.seeds) (hr : reg.get? r = some res)
    (hm : c ∈ res.constraints) : c.Binding := by
  obtain ⟨d₀, d, -, -, ha⟩ := o.arises hr
  exact binding_inherent.of_arises hseeds ha c hm

variable (hdb : σ.db.Coherent) (hok : reg.Intact)

include hdb

/-- A change or removal that is carried out leaves nothing of what is installed in the slot. -/
theorem drops (hs : r.destination = .slash) (hid : Present σ.db r id)
    (hd : reg.decision? r = some d) (hch : d.isChange = true) (ht : d.taken = true) :
    reg.Drops r id := by
  obtain ⟨res, d₀, -, hcd, hsu⟩ := o.suits_of_decision hd
  cases hcd with
  | @change c pl hpl cs =>
    obtain ⟨hnone, hl, -⟩ := hsu
    obtain ⟨repository, rfl⟩ := hpl hnone
    exact .inr ⟨_, _, hd, ht, rfl, mem_replacedBy hdb hs hid ((mem_candidates_iff hdb).1 hl)⟩
  | remove rem =>
    have hpr : id ∈ σ.present r := (mem_present_iff hdb).2 hid
    exact .inl ⟨_, hd, ht, hsu.1 ▸ hpr⟩
  | nothing | existing | unable | broken => cases hch

include hok

end Outcome

end PackagePlan
