import Mathlib.Data.List.Forall2
import PackagePlan.Proofs.Decision.Equality
import PackagePlan.Proofs.Graph.Edges

/-! # Rearranged constraints

Adding an edge and adding a need in vain are steps that can be taken in any
order and more than once. Registries that agree on their resolvents and
decisions, and on the constraints up to their order and repetition, therefore
have the same graph.
-/

namespace PackagePlan

open Std

universe u v

section Steps

variable {α : Type u} {β : Type v} {P : β → Prop} {f : β → α → β} {l l' : List α} {b : β} {x : α}

/-- Steps that keep `P` and, where it holds, can be taken in any order and more than once. -/
structure Collects (P : β → Prop) (f : β → α → β) : Prop where
  keeps : ∀ b x, P b → P (f b x)
  comm : ∀ b x y, P b → f (f b x) y = f (f b y) x
  again : ∀ b x, P b → f (f b x) x = f b x

namespace Collects

variable (h : Collects P f) (hb : P b)

include h hb

theorem foldl_keeps : P (l.foldl f b) :=
  List.foldlRecOn l f hb fun b hb x _ => h.keeps b x hb

theorem foldl_first : l.foldl f (f b x) = f (l.foldl f b) x := by
  induction l generalizing b with
  | nil => rfl
  | cons y l ih =>
    rw [List.foldl_cons, List.foldl_cons, h.comm b x y hb]
    exact ih (h.keeps b y hb)

theorem foldl_of_mem (hx : x ∈ l) : l.foldl f (f b x) = l.foldl f b := by
  induction l generalizing b with
  | nil => cases hx
  | cons y l ih =>
    rw [List.foldl_cons, List.foldl_cons]
    rcases List.mem_cons.1 hx with rfl | hx
    · rw [h.again b x hb]
    · rw [h.comm b x y hb]
      exact ih (h.keeps b y hb) hx

theorem foldl_before (hl : l ⊆ l') : l'.foldl f (l.foldl f b) = l'.foldl f b := by
  induction l generalizing b with
  | nil => rfl
  | cons x l ih =>
    obtain ⟨hx, hl⟩ := List.cons_subset.1 hl
    rw [List.foldl_cons, ih (h.keeps b x hb) hl, h.foldl_of_mem hb hx]

theorem foldl_after (hl : l ⊆ l') : l.foldl f (l'.foldl f b) = l'.foldl f b := by
  induction l with
  | nil => rfl
  | cons x l ih =>
    obtain ⟨hx, hl⟩ := List.cons_subset.1 hl
    rw [List.foldl_cons, ← h.foldl_first hb, h.foldl_of_mem hb hx, ih hl]

/-- Where the steps lead depends only on which steps there are. -/
theorem foldl_eq (hl : ∀ x, x ∈ l ↔ x ∈ l') : l.foldl f b = l'.foldl f b := by
  have before : l'.foldl f (l.foldl f b) = l'.foldl f b := h.foldl_before hb fun x => (hl x).1
  have after : l'.foldl f (l.foldl f b) = l.foldl f b := h.foldl_after hb fun x => (hl x).2
  exact after.symm.trans before

end Collects

end Steps

namespace Hazards

variable {hs ks ls : Hazards}

theorem union_comm : hs.union ks = ks.union hs := by
  simp only [union, Bool.or_comm]

theorem union_right_comm : (hs.union ks).union ls = (hs.union ls).union ks := by
  simp only [union, Bool.or_right_comm]

theorem union_self : hs.union hs = hs := by
  simp only [union, Bool.or_self]

theorem union_union_self : (hs.union ks).union ks = hs.union ks := by
  simp only [union, Bool.or_assoc, Bool.or_self]

end Hazards

namespace Edge

variable {d e f : Edge} {known : Option Edge}

theorem merge_of_isRelevant (he : e.isRelevant = true) : e.merge f =
    { build := e.build || f.build, buildAllMet := e.buildAllMet && f.buildAllMet,
      run := e.run || f.run, runAllMet := e.runAllMet && f.runAllMet,
      fetch := e.fetch || f.fetch, hazards := e.hazards.union f.hazards } := by
  rw [Edge.merge, if_pos he, if_pos he]

theorem merge_comm (he : e.isRelevant = true) (hf : f.isRelevant = true) :
    e.merge f = f.merge e := by
  simp only [merge_of_isRelevant, he, hf, Bool.or_comm, Bool.and_comm, Hazards.union_comm]

theorem merge_right_comm (hd : d.isRelevant = true) :
    (d.merge e).merge f = (d.merge f).merge e := by
  have relevant : ∀ e, (d.merge e).isRelevant = true := fun e => by
    rw [isRelevant_merge, hd, Bool.true_or]
  rw [merge_of_isRelevant (relevant e), merge_of_isRelevant (relevant f), merge_of_isRelevant hd,
    merge_of_isRelevant hd]
  simp only [Bool.or_right_comm, Bool.and_right_comm, Hazards.union_right_comm]

theorem merge_self : e.merge e = e := by
  simp only [Edge.merge, Bool.or_self, Bool.and_self, ite_self, Hazards.union_self]

theorem merge_merge_self (hd : d.isRelevant = true) : (d.merge e).merge e = d.merge e := by
  have relevant : (d.merge e).isRelevant = true := by rw [isRelevant_merge, hd, Bool.true_or]
  rw [merge_of_isRelevant relevant, merge_of_isRelevant hd]
  simp only [Bool.or_assoc, Bool.or_self, Bool.and_assoc, Bool.and_self,
    Hazards.union_union_self]

def joinTo (e : Edge) (known : Option Edge) : Edge := (known.map (·.merge e)).getD e

theorem joinTo_comm (hk : ∀ d ∈ known, d.isRelevant = true) (he : e.isRelevant = true)
    (hf : f.isRelevant = true) :
    f.joinTo (some (e.joinTo known)) = e.joinTo (some (f.joinTo known)) := by
  cases known with
  | none => exact merge_comm he hf
  | some d => exact merge_right_comm (hk d rfl)

theorem joinTo_again (hk : ∀ d ∈ known, d.isRelevant = true) :
    e.joinTo (some (e.joinTo known)) = e.joinTo known := by
  cases known with
  | none => exact merge_self
  | some d => exact merge_merge_self (hk d rfl)

end Edge

namespace PlanGraph

variable {g : PlanGraph} {a b a' b' r : Resolvent} {e e' : Edge}

def Relevant (g : PlanGraph) : Prop := ∀ a b e, g.edge? a b = some e → e.isRelevant = true

def Adds (g : PlanGraph) (a b : Resolvent) (e : Edge) : Prop :=
  a ≠ b ∧ g.nodes.contains a ∧ g.nodes.contains b ∧ e.isRelevant

def joinEdge (g : PlanGraph) (a b : Resolvent) (e : Edge) : PlanGraph :=
  { g with edges := g.edges.alter a fun known => (known.getD ∅).alter b e.joinTo }

theorem addEdge_of_adds (h : g.Adds a b e) : g.addEdge a b e = g.joinEdge a b e := if_pos h

theorem addEdge_of_not_adds (h : ¬ g.Adds a b e) : g.addEdge a b e = g := if_neg h

theorem adds_addEdge : (g.addEdge a b e).Adds a' b' e' ↔ g.Adds a' b' e' := by
  simp only [Adds, addEdge_nodes]

theorem get?_getD_edges : ((g.edges.get? a).getD ∅).get? b = g.edge? a b := by
  rw [edge?]
  cases g.edges.get? a <;> rfl

theorem joinEdge_comm (hg : g.Relevant) (he : e.isRelevant = true) (he' : e'.isRelevant = true) :
    (g.joinEdge a b e).joinEdge a' b' e' = (g.joinEdge a' b' e').joinEdge a b e := by
  simp only [joinEdge]
  congr 1
  by_cases ha : a = a'
  · subst ha
    rw [OrderedMap.alter_alter, OrderedMap.alter_alter]
    apply OrderedMap.alter_congr
    simp only [Option.getD_some]
    by_cases hb : b = b'
    · subst hb
      rw [OrderedMap.alter_alter, OrderedMap.alter_alter]
      apply OrderedMap.alter_congr
      rw [get?_getD_edges]
      exact Edge.joinTo_comm (fun d hd => hg a b d hd) he he'
    · exact OrderedMap.alter_comm hb
  · exact OrderedMap.alter_comm ha

theorem joinEdge_again (hg : g.Relevant) :
    (g.joinEdge a b e).joinEdge a b e = g.joinEdge a b e := by
  simp only [joinEdge]
  congr 1
  rw [OrderedMap.alter_alter]
  apply OrderedMap.alter_congr
  simp only [Option.getD_some]
  rw [OrderedMap.alter_alter]
  apply OrderedMap.alter_congr
  rw [get?_getD_edges]
  exact Edge.joinTo_again fun d hd => hg a b d hd

theorem addEdge_comm (hg : g.Relevant) :
    (g.addEdge a b e).addEdge a' b' e' = (g.addEdge a' b' e').addEdge a b e := by
  by_cases h : g.Adds a b e
  · by_cases h' : g.Adds a' b' e'
    · rw [addEdge_of_adds (adds_addEdge.2 h'), addEdge_of_adds (adds_addEdge.2 h),
        addEdge_of_adds h, addEdge_of_adds h']
      exact joinEdge_comm hg h.2.2.2 h'.2.2.2
    · rw [addEdge_of_not_adds h', addEdge_of_not_adds (mt adds_addEdge.1 h')]
  · rw [addEdge_of_not_adds h, addEdge_of_not_adds (mt adds_addEdge.1 h)]

theorem addEdge_again (hg : g.Relevant) : (g.addEdge a b e).addEdge a b e = g.addEdge a b e := by
  by_cases h : g.Adds a b e
  · rw [addEdge_of_adds (adds_addEdge.2 h), addEdge_of_adds h]
    exact joinEdge_again hg
  · rw [addEdge_of_not_adds h, addEdge_of_not_adds h]

theorem Relevant.addEdge (hg : g.Relevant) : (g.addEdge a b e).Relevant := by
  intro a' b' e' he'
  rw [edge?_addEdge] at he'
  split at he'
  · next hadd =>
    obtain rfl := Option.some.inj he'
    cases g.edge? a b with
    | none => exact hadd.1.2.2.2
    | some d =>
      rw [Option.map_some, Option.getD_some, Edge.isRelevant_merge, hadd.1.2.2.2, Bool.or_true]
  · exact hg a' b' e' he'

theorem collects_addEdge (r : Resolvent) :
    Collects Relevant fun g (x : Resolvent × Edge) => g.addEdge x.1 r x.2 where
  keeps _ _ hg := hg.addEdge
  comm _ _ _ hg := addEdge_comm hg
  again _ _ hg := addEdge_again hg

theorem addUnable_comm :
    (g.addUnable a r).addUnable a' r = (g.addUnable a' r).addUnable a r := by
  by_cases h : a = a'
  · subst h
    rfl
  · cases ha : g.nodes.contains a <;> cases ha' : g.nodes.contains a' <;>
      simp [addUnable, ha, ha', OrderedMap.alter_comm h]

theorem addUnable_again : (g.addUnable a r).addUnable a r = g.addUnable a r := by
  cases ha : g.nodes.contains a <;>
    simp [addUnable, ha, OrderedMap.alter_alter, OrderedSet.insert_insert]

theorem Relevant.addUnable (hg : g.Relevant) : (g.addUnable a r).Relevant := by
  intro a' b' e he
  rw [edge?_addUnable] at he
  exact hg a' b' e he

theorem collects_addUnable (r : Resolvent) :
    Collects Relevant fun g (a : Resolvent) => g.addUnable a r where
  keeps _ _ hg := hg.addUnable
  comm _ _ _ _ := addUnable_comm
  again _ _ _ := addUnable_again

theorem edgeFor?_eq_of_beq {c c' : Constraint} (h : (c == c') = true) :
    edgeFor? c = edgeFor? c' := by
  obtain ⟨hreason, -⟩ := Constraint.eq_fields_of_beq h
  unfold edgeFor?
  generalize c.reason = a at hreason
  generalize c'.reason = b at hreason
  cases a with
  | dependency l =>
    cases b with
    | dependency l' =>
      obtain ⟨hholder, -, hlabels, hmet⟩ := Link.eq_fields_of_beq hreason
      simp only [hholder, hlabels, hmet]
    | _ => cases hreason
  | blocker l =>
    cases b with
    | blocker l' =>
      obtain ⟨hholder, hdemand, -, -⟩ := Link.eq_fields_of_beq hreason
      simp only [instBEqBlocker.beq_spec, Bool.and_eq_true, beq_iff_eq] at hdemand
      simp only [hholder, hdemand.2]
    | _ => cases hreason
  | dependent removing holder =>
    cases b with
    | dependent removing' holder' =>
      have hholder : holder = holder' := eq_of_beq (Bool.and_eq_true_iff.1 hreason).2
      rw [hholder]
    | _ => cases hreason
  | viaBinary other =>
    cases b with
    | viaBinary other' =>
      have hother : other = other' := eq_of_beq hreason
      rw [hother]
    | _ => cases hreason
  | target | set | preset | presetFor | presumed => cases b <;> first | rfl | cases hreason

theorem mem_filterMap_iff_of_contains {γ : Type} {read? : Constraint → Option γ}
    {cs cs' : List Constraint} (hread : ∀ c c', (c == c') = true → read? c = read? c')
    (hcs : ∀ c, cs.contains c = cs'.contains c) (x : γ) :
    x ∈ cs.filterMap read? ↔ x ∈ cs'.filterMap read? := by
  have one_way : ∀ {cs cs' : List Constraint}, (∀ c, cs.contains c = cs'.contains c) →
      x ∈ cs.filterMap read? → x ∈ cs'.filterMap read? := by
    intro cs cs' hcs hx
    obtain ⟨c, hc, hx⟩ := List.mem_filterMap.1 hx
    have hc' : cs'.contains c = true :=
      hcs c ▸ List.contains_iff_exists_mem_beq.2 ⟨c, hc, BEq.rfl⟩
    obtain ⟨c', hc', heq⟩ := List.contains_iff_exists_mem_beq.1 hc'
    exact List.mem_filterMap.2 ⟨c', hc', hread c c' heq ▸ hx⟩
  exact ⟨one_way hcs, one_way fun c => (hcs c).symm⟩

section Resolutions

variable {res res' : Resolution} {reg reg' : Registry}

theorem addEdgesTo_eq (hg : g.Relevant) {cs cs' : List Constraint}
    (hcs : ∀ c, cs.contains c = cs'.contains c) : g.addEdgesTo r cs = g.addEdgesTo r cs' :=
  (collects_addEdge r).foldl_eq hg
    (mem_filterMap_iff_of_contains (fun _ _ => edgeFor?_eq_of_beq) hcs)

theorem noteUnable_eq (hg : g.Relevant) {cs cs' : List Constraint}
    (hcs : ∀ c, cs.contains c = cs'.contains c) : g.noteUnable r cs = g.noteUnable r cs' := by
  have hread : ∀ c c' : Constraint, (c == c') = true →
      (if (!c.untaken) = true then c.reason.holder? else none) =
        if (!c'.untaken) = true then c'.reason.holder? else none := by
    intro c c' h
    obtain ⟨hreason, huntaken⟩ := Constraint.eq_fields_of_beq h
    rw [huntaken, Reason.holder?_eq_of_beq hreason]
  rw [noteUnable, noteUnable, List.filterMap_filter, List.filterMap_filter]
  exact (collects_addUnable r).foldl_eq hg (mem_filterMap_iff_of_contains hread hcs)

theorem Relevant.addResolution (hg : g.Relevant) : (g.addResolution r res).Relevant := by
  unfold PlanGraph.addResolution
  split
  · exact hg
  split
  · exact (collects_addEdge r).foldl_keeps hg
  split
  · exact (collects_addUnable r).foldl_keeps hg
  · exact hg

theorem addResolution_eq (hg : g.Relevant) (hd : (res.decision == res'.decision) = true)
    (hcs : ∀ c, res.constraints.contains c = res'.constraints.contains c) :
    g.addResolution r res = g.addResolution r res' := by
  unfold PlanGraph.addResolution
  obtain ⟨h, h'⟩ | ⟨d, d', h, h', hdd⟩ := none_or_some_of_beq hd
  · rw [h, h']
  · simp only [h, h', Decision.isScheduled_eq_of_beq hdd, Decision.isUnable_eq_of_beq hdd,
      Decision.taken_eq_of_beq hdd, addEdgesTo_eq hg hcs, noteUnable_eq hg hcs]

end Resolutions

end PlanGraph

namespace Registry

def constraintsOf (reg : Registry) (r : Resolvent) : List Constraint :=
  ((OrderedMap.get? reg r).map (·.constraints)).getD []

/-- The same resolvents with equal decisions, and the same constraints on each of them, which may
come in another order or more than once. -/
structure Agree (reg reg' : Registry) : Prop where
  resolvents : reg.keys = reg'.keys
  decisions : ∀ r, (reg.decision? r == reg'.decision? r) = true
  constraints : ∀ r c, (reg.constraintsOf r).contains c = (reg'.constraintsOf r).contains c

variable {reg reg' : Registry}

theorem agree_update {r : Resolvent} {f : List Constraint → List Constraint}
    (hf : ∀ cs c, c ∈ f cs ↔ c ∈ cs) :
    reg.Agree (reg.update r fun res => { res with constraints := f res.constraints }) where
  resolvents := by
    apply OrderedMap.keys_ext
    intro r'
    rw [OrderedMap.contains, OrderedMap.contains, get?_update]
    split
    · next h => rw [h, Option.isSome_map]
    · rfl
  decisions r' := by
    rw [decision?, decision?, get?_update]
    split
    · next h =>
      rw [h]
      cases OrderedMap.get? reg r <;> exact BEq.rfl
    · exact BEq.rfl
  constraints r' c := by
    rw [constraintsOf, constraintsOf, get?_update]
    split
    · next h =>
      rw [h]
      cases OrderedMap.get? reg r with
      | none => rfl
      | some res =>
        rw [Bool.eq_iff_iff]
        simp only [Option.map_some, Option.getD_some, List.contains_iff_exists_mem_beq, hf]
    · rfl

structure AgreeAt (e e' : Resolvent × Resolution) : Prop where
  resolvent : e.1 = e'.1
  decision : (e.2.decision == e'.2.decision) = true
  constraints : ∀ c, e.2.constraints.contains c = e'.2.constraints.contains c

theorem Agree.entries (h : reg.Agree reg') : List.Forall₂ AgreeAt reg.entries reg'.entries := by
  have keys : List.Forall₂ (fun e e' => e.1 = e'.1) reg.entries reg'.entries := by
    have same : List.Forall₂ (· = ·) reg.keys reg'.keys := by
      rw [List.forall₂_eq_eq_eq]
      exact h.resolvents
    simpa only [OrderedMap.keys, List.forall₂_map_left_iff, List.forall₂_map_right_iff] using same
  refine List.forall₂_iff_zip.2 ⟨keys.length_eq, fun {e e'} hz => ?_⟩
  have hk : e.1 = e'.1 := (List.forall₂_iff_zip.1 keys).2 hz
  obtain ⟨he, he'⟩ := List.of_mem_zip hz
  have hget : reg.get? e.1 = some e.2 := OrderedMap.mem_entries_iff.1 he
  have hget' : reg'.get? e.1 = some e'.2 := hk ▸ OrderedMap.mem_entries_iff.1 he'
  have hd := h.decisions e.1
  have hcs := h.constraints e.1
  simp only [decision?, constraintsOf, hget, hget', Option.bind_some, Option.map_some,
    Option.getD_some] at hd hcs
  exact ⟨hk, hd, hcs⟩

def DecidedAlike (x x' : Resolvent × Decision) : Prop := x.1 = x'.1 ∧ (x.2 == x'.2) = true

theorem Agree.decidedAlike (h : reg.Agree reg') :
    List.Forall₂ DecidedAlike reg.decisions reg'.decisions := by
  apply List.rel_filterMap _ h.entries
  intro e e' he
  obtain ⟨hn, hn'⟩ | ⟨d, d', hs, hs', hdd⟩ := none_or_some_of_beq he.decision
  · simp only [hn, hn', Option.map_none]
    exact .none
  · simp only [hs, hs', Option.map_some]
    exact .some ⟨he.resolvent, hdd⟩

theorem Agree.deciding (h : reg.Agree reg') {p : Resolvent × Decision → Bool}
    (hp : ∀ r d d', (d == d') = true → p (r, d) = p (r, d')) :
    (reg.decisions.filter p).map (·.1) = (reg'.decisions.filter p).map (·.1) := by
  have kept : List.Forall₂ DecidedAlike (reg.decisions.filter p) (reg'.decisions.filter p) := by
    apply List.rel_filter _ h.decidedAlike
    rintro ⟨r, d⟩ ⟨r', d'⟩ ⟨hr, hd⟩
    cases hr
    exact Bool.eq_iff_iff.1 (hp r d d' hd)
  rw [← List.forall₂_eq_eq_eq, List.forall₂_map_left_iff, List.forall₂_map_right_iff]
  exact kept.imp fun _ _ hx => hx.1

end Registry

namespace PlanGraph

variable {g : PlanGraph} {reg reg' : Registry}

theorem takenAtSlash_eq (h : reg.Agree reg') {p : Decision → Bool}
    (hp : ∀ d d', (d == d') = true → p d = p d') : takenAtSlash p reg = takenAtSlash p reg' :=
  h.deciding fun r d d' hd => by simp only [Decision.taken_eq_of_beq hd, hp d d' hd]

theorem addReplacements_eq (h : reg.Agree reg') :
    g.addReplacements reg = g.addReplacements reg' := by
  have removals : takenAtSlash isRemoval reg = takenAtSlash isRemoval reg' :=
    takenAtSlash_eq h fun d d' hd => by cases d <;> cases d' <;> first | rfl | cases hd
  have installs : takenAtSlash isInstall reg = takenAtSlash isInstall reg' :=
    takenAtSlash_eq h fun d d' hd => by cases d <;> cases d' <;> first | rfl | cases hd
  rw [addReplacements, addReplacements, removals, installs]

theorem foldl_addResolution_eq {l l' : List (Resolvent × Resolution)} (hg : g.Relevant)
    (h : List.Forall₂ Registry.AgreeAt l l') :
    l.foldl (fun g (r, res) => g.addResolution r res) g =
      l'.foldl (fun g (r, res) => g.addResolution r res) g := by
  induction h generalizing g with
  | nil => rfl
  | @cons e e' l l' he _ ih =>
    rw [List.foldl_cons, List.foldl_cons, ih hg.addResolution, he.resolvent,
      addResolution_eq hg he.decision he.constraints]

theorem relevant_ofNodes (rs : List Resolvent) : (ofNodes rs).Relevant := by
  intro a b e he
  cases he

theorem ofRegistry_eq (h : reg.Agree reg') : ofRegistry reg = ofRegistry reg' := by
  have nodes : (reg.decisions.filter (·.2.isScheduled)).map (·.1) =
      (reg'.decisions.filter (·.2.isScheduled)).map (·.1) :=
    h.deciding fun _ _ _ => Decision.isScheduled_eq_of_beq
  simp only [ofRegistry]
  rw [addReplacements_eq h, nodes, foldl_addResolution_eq (relevant_ofNodes _) h.entries]

/-- The graph does not depend on the order of the constraints or on how often each of them is there,
and its edges join two different nodes and ask for an order. -/
theorem ofRegistry_of_agree (h : reg.Agree reg') : ofRegistry reg = ofRegistry reg' ∧
    ∀ a b e, (ofRegistry reg).edge? a b = some e →
      a ≠ b ∧ a ∈ (ofRegistry reg).nodes.toList ∧ b ∈ (ofRegistry reg).nodes.toList ∧
        e.isRelevant = true := by
  have wired := wired_ofRegistry reg
  refine ⟨ofRegistry_eq h, fun a b e he => ?_⟩
  exact ⟨wired.ne he, wired.source he, wired.target he, wired.relevant he⟩

end PlanGraph

namespace Sample

def program : Resolvent := ⟨"app/program", some "0", .slash⟩

def library : Resolvent := ⟨"app/library", some "0", .slash⟩

def offered (r : Resolvent) : PackageId :=
  { PackageId.ofSource r.package ⟨"1", [1], none, [], 0⟩ "main" .source with slot := r.slot }

def install (r : Resolvent) : Decision := .change { id := offered r, isBest := true, taken := true }

def dependsOnLibrary (labels : List Label) (alreadyMet : Bool) : Constraint where
  demand := .package (.named library.package)
  reason := .dependency ⟨program, offered program, .named library.package, labels, alreadyMet⟩
  destination := .slash

/-- The program must not be there together with what the library replaces. -/
def excludesLibrary : Constraint where
  demand := .blocker ⟨.named library.package, true⟩
  reason := .blocker ⟨program, offered program, ⟨.named library.package, true⟩, [], false⟩
  destination := .slash

def programAndLibrary : Registry := .ofList [(program, ⟨[], some (install program)⟩), (library,
  ⟨[dependsOnLibrary [.build] false, dependsOnLibrary [.run] true, excludesLibrary],
    some (install library)⟩)]

/-- What is asked of the library comes backwards, and then once more. -/
def programAndLibraryAgain : Registry :=
  programAndLibrary.update library fun res =>
    { res with constraints := res.constraints.reverse ++ res.constraints }

end Sample

namespace PlanGraph

theorem ofRegistry_of_agree_again : Sample.programAndLibrary.Agree Sample.programAndLibraryAgain ∧
    ofRegistry Sample.programAndLibrary = ofRegistry Sample.programAndLibraryAgain ∧
      ∃ e, (ofRegistry Sample.programAndLibrary).edge? Sample.program Sample.library = some e ∧
        Sample.program ≠ Sample.library ∧ e.isRelevant = true ∧
          e.build = true ∧ e.buildAllMet = false ∧ e.run = true ∧ e.runAllMet = true := by
  have agree : Sample.programAndLibrary.Agree Sample.programAndLibraryAgain := by
    apply Registry.agree_update (f := fun cs => cs.reverse ++ cs)
    simp
  obtain ⟨same, joins⟩ := ofRegistry_of_agree agree
  let e : Edge :=
    { build := true, run := true, runAllMet := true, hazards := .ofList [.mustNotCoexist] }
  have he : (ofRegistry Sample.programAndLibrary).edge? Sample.program Sample.library = some e := by
    decide +kernel
  obtain ⟨hne, -, -, hrel⟩ := joins _ _ _ he
  exact ⟨agree, same, e, he, hne, hrel, rfl, rfl, rfl, rfl⟩

end PlanGraph

end PackagePlan
