import Mathlib.Data.List.Pairwise
import PackagePlan.Proofs.Graph.Walk

/-! # Strong components

The lists that grouping the nodes of a walk comes to are the strong components
of the graph, and each of them comes after all others that it leads to.
-/

namespace PackagePlan.Components

universe u

variable {α : Type u} {R R' : α → α → Prop} {nodes c : List α} {cs : List (List α)} {a b : α}

/-- The lists share the nodes out into strong components under `R`, and none of them leads to a
later one. -/
structure AreComponents (R : α → α → Prop) (nodes : List α) (cs : List (List α)) : Prop where
  perm : cs.flatten.Perm nodes
  ne_nil : ∀ c ∈ cs, c ≠ []
  connected : ∀ c ∈ cs, ∀ a ∈ c, ∀ b ∈ c, R a b
  ordered : cs.Pairwise fun c c' => ∀ a ∈ c, ∀ b ∈ c', ¬ R a b

namespace AreComponents

theorem nil : AreComponents R [] [] :=
  ⟨.refl _, List.forall_mem_nil _, List.forall_mem_nil _, .nil⟩

theorem mem_iff (h : AreComponents R nodes cs) : a ∈ nodes ↔ ∃ c ∈ cs, a ∈ c := by
  rw [← h.perm.mem_iff, List.mem_flatten]

theorem mem_nodes (h : AreComponents R nodes cs) (hc : c ∈ cs) (ha : a ∈ c) : a ∈ nodes :=
  h.mem_iff.2 ⟨c, hc, ha⟩

theorem nodup (h : AreComponents R nodes cs) (hn : nodes.Nodup) : cs.flatten.Nodup :=
  h.perm.nodup_iff.2 hn

theorem nodup_of_mem (h : AreComponents R nodes cs) (hn : nodes.Nodup) (hc : c ∈ cs) : c.Nodup :=
  (h.nodup hn).sublist (List.sublist_flatten_of_mem hc)

theorem mem_of_mutual (h : AreComponents R nodes cs) (hc : c ∈ cs) (ha : a ∈ c) (hb : b ∈ nodes)
    (hab : R a b) (hba : R b a) : b ∈ c := by
  obtain ⟨c', hc', hb'⟩ := h.mem_iff.1 hb
  have apart : cs.Pairwise fun c c' => ¬ ((∃ a ∈ c, ∃ b ∈ c', R a b) ∧ ∃ a ∈ c', ∃ b ∈ c, R a b) :=
    h.ordered.imp fun hn ⟨⟨a, ha, b, hb, hab⟩, _⟩ => hn a ha b hb hab
  have : Std.Symm fun c c' : List α =>
      ¬ ((∃ a ∈ c, ∃ b ∈ c', R a b) ∧ ∃ a ∈ c', ∃ b ∈ c, R a b) :=
    ⟨fun _ _ hs hs' => hs hs'.symm⟩
  by_contra hn
  have hne : c ≠ c' := fun he => hn (he ▸ hb')
  exact apart.forall hc hc' hne ⟨⟨a, ha, b, hb', hab⟩, b, hb', a, ha, hba⟩

theorem disjoint (h : AreComponents R nodes cs) (hn : nodes.Nodup) : cs.Pairwise List.Disjoint :=
  (List.nodup_flatten.1 (h.nodup hn)).2

theorem together_iff (h : AreComponents R nodes cs) (ha : a ∈ nodes) (hb : b ∈ nodes) :
    (∃ c ∈ cs, a ∈ c ∧ b ∈ c) ↔ R a b ∧ R b a := by
  constructor
  · rintro ⟨c, hc, hac, hbc⟩
    exact ⟨h.connected c hc a hac b hbc, h.connected c hc b hbc a hac⟩
  · rintro ⟨hab, hba⟩
    obtain ⟨c, hc, hac⟩ := h.mem_iff.1 ha
    exact ⟨c, hc, hac, h.mem_of_mutual hc hac hb hab hba⟩

theorem lt_of_leads (h : AreComponents R nodes cs) {i j : ℕ} (hi : i < cs.length)
    (hj : j < cs.length) (hij : i ≠ j) (ha : a ∈ cs[i]) (hb : b ∈ cs[j]) (hab : R a b) :
    j < i := by
  by_contra hle
  have hlt : i < j := by omega
  exact List.pairwise_iff_getElem.1 h.ordered i j hi hj hlt a ha b hb hab

theorem congr (h : AreComponents R nodes cs)
    (hR : ∀ a ∈ nodes, ∀ b ∈ nodes, R' a b ↔ R a b) : AreComponents R' nodes cs where
  perm := h.perm
  ne_nil := h.ne_nil
  connected c hc a ha b hb :=
    (hR a (h.mem_nodes hc ha) b (h.mem_nodes hc hb)).2 (h.connected c hc a ha b hb)
  ordered := h.ordered.imp_of_mem fun hc hc' hn a ha b hb hab =>
    hn a ha b hb ((hR a (h.mem_nodes hc ha) b (h.mem_nodes hc' hb)).1 hab)

theorem map_perm {f : List α → List α} (hf : ∀ c ∈ cs, (f c).Perm c)
    (h : AreComponents R nodes cs) : AreComponents R nodes (cs.map f) where
  perm := by
    refine List.Perm.trans ?_ h.perm
    rw [← List.flatMap_def, ← List.flatMap_id]
    exact List.Perm.flatMap_left cs hf
  ne_nil := by
    simp only [List.forall_mem_map]
    intro c hc hn
    exact h.ne_nil c hc (List.nil_perm.1 (hn ▸ hf c hc))
  connected := by
    simp only [List.forall_mem_map]
    intro c hc a ha b hb
    exact h.connected c hc a ((hf c hc).mem_iff.1 ha) b ((hf c hc).mem_iff.1 hb)
  ordered := by
    refine List.pairwise_map.2 (h.ordered.imp_of_mem fun hc hc' hn a ha b hb => ?_)
    exact hn a ((hf _ hc).mem_iff.1 ha) b ((hf _ hc').mem_iff.1 hb)

theorem concat (h : AreComponents R nodes cs) (hc : c ≠ []) (hR : ∀ a ∈ c, ∀ b ∈ c, R a b)
    (hn : ∀ a ∈ nodes, ∀ b ∈ c, ¬ R a b) : AreComponents R (c ++ nodes) (cs ++ [c]) where
  perm := by
    rw [List.flatten_append, List.flatten_singleton]
    exact List.perm_append_comm.trans (h.perm.append_left c)
  ne_nil := List.forall_mem_append.2 ⟨h.ne_nil, List.forall_mem_singleton.2 hc⟩
  connected := List.forall_mem_append.2 ⟨h.connected, List.forall_mem_singleton.2 hR⟩
  ordered := List.pairwise_append.2 ⟨h.ordered, List.pairwise_singleton _ _,
    fun c' hc' d hd a ha b hb => hn a (h.mem_nodes hc' ha) b (List.mem_singleton.1 hd ▸ hb)⟩

end AreComponents

section Group

variable {next : α → List α} {l : List α}

/-- Whatever leads to a node of the list is part of a component of which some node comes before it
or is it. -/
def Foremost (next : α → List α) (l : List α) : Prop :=
  ∀ a ∈ l, ∀ b ∈ l, Reaches next a b →
    ∃ u, Reaches next a u ∧ Reaches next u a ∧ (u = b ∨ [u, b].Sublist l)

theorem Foremost.head (h : Foremost next (a :: l)) (hn : (a :: l).Nodup) (hb : b ∈ l)
    (hba : Reaches next b a) : Reaches next a b := by
  obtain ⟨u, -, hub, rfl | hu⟩ := h b (.tail _ hb) a (.head _) hba
  · exact hub
  · have ha : a ∈ l := by
      cases hu with
      | cons _ hu => exact hu.subset (.tail _ (.head _))
      | cons_cons _ hu => exact hu.subset (.head _)
    exact absurd ha (List.nodup_cons.1 hn).1

theorem Foremost.filter (h : Foremost next l) {p : α → Bool}
    (hp : ∀ a ∈ l, ∀ b ∈ l, Reaches next a b → Reaches next b a → p a = true → p b = true) :
    Foremost next (l.filter p) := by
  intro x hx y hy hxy
  obtain ⟨hx, hpx⟩ := List.mem_filter.1 hx
  obtain ⟨hy, hpy⟩ := List.mem_filter.1 hy
  obtain ⟨u, hxu, hux, hu⟩ := h x hx y hy hxy
  refine ⟨u, hxu, hux, hu.imp_right fun hu => ?_⟩
  have hpu : p u = true := hp x hx u (hu.subset (.head _)) hxu hux hpx
  have hs := hu.filter p
  rwa [List.filter_cons_of_pos hpu, List.filter_cons_of_pos hpy, List.filter_nil] at hs

section SplitOff

variable {p : α → Bool} (hp : ∀ b ∈ a :: l, p b = true ↔ Reaches next a b ∧ Reaches next b a)

include hp

theorem Foremost.outside (h : Foremost next (a :: l)) : Foremost next (l.filter (!p ·)) := by
  have hpa : p a = true := (hp a (.head _)).2 ⟨.refl, .refl⟩
  have hf := h.filter (p := (!p ·)) fun x hx y hy hxy hyx hpx => by
    rw [Bool.not_eq_true'] at hpx ⊢
    refine Bool.eq_false_iff.2 fun hpy => Bool.eq_false_iff.1 hpx ?_
    obtain ⟨hay, hya⟩ := (hp y hy).1 hpy
    exact (hp x hx).2 ⟨hay.trans hyx, hxy.trans hya⟩
  rwa [List.filter_cons_of_neg (by simp [hpa])] at hf

theorem AreComponents.concat_inside (h : AreComponents (Reaches next) (l.filter (!p ·)) cs)
    (hn : (a :: l).Nodup) (hf : Foremost next (a :: l)) :
    AreComponents (Reaches next) (a :: l) (cs ++ [a :: l.filter p]) := by
  have together : ∀ b ∈ a :: l.filter p, Reaches next a b ∧ Reaches next b a := by
    refine List.forall_mem_cons.2 ⟨⟨.refl, .refl⟩, fun b hb => ?_⟩
    obtain ⟨hb, hpb⟩ := List.mem_filter.1 hb
    exact (hp b (.tail _ hb)).1 hpb
  have apart : ∀ x ∈ l.filter (!p ·), ∀ y ∈ a :: l.filter p, ¬ Reaches next x y := by
    intro x hx y hy hxy
    obtain ⟨hx, hpx⟩ := List.mem_filter.1 hx
    have hxa := hxy.trans (together y hy).2
    have hpx' : p x = true := (hp x (.tail _ hx)).2 ⟨hf.head hn hx hxa, hxa⟩
    simp [hpx'] at hpx
  have perm : ((a :: l.filter p) ++ l.filter (!p ·)).Perm (a :: l) :=
    (List.filter_append_perm p l).cons a
  have h := h.concat (List.cons_ne_nil a (l.filter p))
    (fun x hx y hy => (together x hx).2.trans (together y hy).1) apart
  exact { h with perm := h.perm.trans perm }

end SplitOff

variable [DecidableEq α] {reach : α → List α} {fuel : Nat}

theorem groupBy_cons : groupBy reach (fuel + 1) (a :: l) =
    (a :: l.filter fun b => decide (b ∈ reach a ∧ a ∈ reach b)) ::
      groupBy reach fuel (l.filter fun b => !decide (b ∈ reach a ∧ a ∈ reach b)) := by
  rw [groupBy, List.partition_eq_filter_filter]
  rfl

theorem groupBy_areComponents (hreach : ∀ a ∈ l, ∀ b, b ∈ reach a ↔ Reaches next a b)
    (hn : l.Nodup) (hf : Foremost next l) (hl : l.length ≤ fuel) :
    AreComponents (Reaches next) l (groupBy reach fuel l).reverse := by
  induction fuel generalizing l with
  | zero =>
    obtain rfl := List.length_eq_zero_iff.1 (Nat.le_zero.1 hl)
    exact .nil
  | succ fuel ih =>
    cases l with
    | nil => exact .nil
    | cons a l =>
      rw [groupBy_cons, List.reverse_cons]
      set p : α → Bool := fun b => decide (b ∈ reach a ∧ a ∈ reach b)
      have hp : ∀ b ∈ a :: l, p b = true ↔ Reaches next a b ∧ Reaches next b a := by
        intro b hb
        simp only [p, decide_eq_true_eq, hreach a (.head _), hreach b hb]
      have hlen : (l.filter (!p ·)).length ≤ fuel :=
        (List.length_filter_le _ l).trans (Nat.le_of_succ_le_succ hl)
      have hreach' : ∀ b ∈ l.filter (!p ·), ∀ c, c ∈ reach b ↔ Reaches next b c :=
        fun b hb => hreach b (.tail _ (List.mem_filter.1 hb).1)
      have outside := ih hreach' ((List.nodup_cons.1 hn).2.filter _) (hf.outside hp) hlen
      exact outside.concat_inside hp hn hf

/-- The components of a finite graph in which `next` leads from nodes to nodes. -/
theorem components_areComponents (hnext : ∀ a ∈ l, ∀ b ∈ next a, b ∈ l) (hn : l.Nodup) :
    AreComponents (Reaches next) l (components next l) := by
  have he := walk_explores hnext
  have hmem : ∀ a, a ∈ (walk next l).ended ↔ a ∈ l := by
    intro a
    constructor
    · intro ha
      obtain ⟨b, hb, -, hba⟩ := he.reached a ha
      exact (ReachesUnseen.empty_iff.1 hba).mem_nodes hnext hb
    · exact fun ha => (he.mem_of_start a ha).resolve_left (Set.notMem_empty a)
  have perm : (walk next l).ended.Perm l := (List.perm_ext_iff_of_nodup he.nodup hn).2 hmem
  have foremost : Foremost next (walk next l).ended := by
    intro a ha b hb hab
    simpa only [ReachesUnseen.empty_iff] using
      he.foremost ha hb (ReachesUnseen.empty_iff.2 hab)
  have hreach : ∀ a ∈ (walk next l).ended, ∀ b,
      b ∈ reachable next l.length a ↔ Reaches next a b :=
    fun a ha _ => mem_reachable_iff hnext ((hmem a).1 ha)
  have h := groupBy_areComponents hreach he.nodup foremost perm.length_eq.le
  exact { h with perm := h.perm.trans perm }

end Group

end PackagePlan.Components
