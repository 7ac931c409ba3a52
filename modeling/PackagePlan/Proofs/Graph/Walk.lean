import Mathlib.Data.Finset.Card
import Mathlib.Data.Finset.SDiff
import Mathlib.Data.List.Nodup
import Mathlib.Data.Set.Insert
import Mathlib.Logic.Relation
import PackagePlan.Graph.Components

/-! # Depth-first walks

A walk explores what had not been seen before: all that can be reached around
what had been. In the order in which visits end, latest first, a node comes
after some node of its own component whenever something that leads to it does.
-/

namespace PackagePlan.Components

open Relation

universe u

variable {α : Type u} {next : α → List α} {seen seen' : Set α} {l new : List α} {a b : α}

def Reaches (next : α → List α) : α → α → Prop := ReflTransGen fun a b => b ∈ next a

/-- Every step of the way from `a` to `b` is to a node that had not been seen. -/
def ReachesUnseen (next : α → List α) (seen : Set α) : α → α → Prop :=
  ReflTransGen fun a b => b ∈ next a ∧ b ∉ seen

/-- A walk from each node of a list in turn, past what had been seen, and the nodes whose visits it
ends, the latest first. -/
inductive Explores (next : α → List α) : Set α → List α → List α → Prop
  | done {seen : Set α} : Explores next seen [] []
  | skip {seen : Set α} {a : α} {l new : List α} (ha : a ∈ seen) (h : Explores next seen l new) :
      Explores next seen (a :: l) new
  | enter {seen : Set α} {a : α} {l below new : List α} (ha : a ∉ seen)
      (hbelow : Explores next (insert a seen) (next a) below)
      (h : Explores next (seen ∪ {x | x ∈ a :: below}) l new) :
      Explores next seen (a :: l) (new ++ a :: below)

theorem Reaches.mem_nodes {nodes : List α} (hnext : ∀ a ∈ nodes, ∀ b ∈ next a, b ∈ nodes)
    (ha : a ∈ nodes) (h : Reaches next a b) : b ∈ nodes := by
  induction h with
  | refl => exact ha
  | tail _ hs ih => exact hnext _ ih _ hs

namespace ReachesUnseen

theorem mono (hs : seen' ⊆ seen) (h : ReachesUnseen next seen a b) :
    ReachesUnseen next seen' a b :=
  ReflTransGen.mono (fun _ _ ⟨hb, hn⟩ => ⟨hb, fun hm => hn (hs hm)⟩) _ _ h

theorem empty_iff : ReachesUnseen next ∅ a b ↔ Reaches next a b := by
  simp [ReachesUnseen, Reaches]

theorem meets_or_avoids (T : Set α) (h : ReachesUnseen next seen a b) :
    (∃ z ∈ T, ReachesUnseen next seen a z ∧ ReachesUnseen next seen z b) ∨
      ReachesUnseen next (seen ∪ T) a b := by
  induction h with
  | refl => exact .inr .refl
  | @tail c d hac hcd ih =>
    rcases ih with ⟨z, hz, haz, hzc⟩ | hav
    · exact .inl ⟨z, hz, haz, hzc.tail hcd⟩
    · by_cases hd : d ∈ T
      · exact .inl ⟨d, hd, hac.tail hcd, .refl⟩
      · exact .inr (hav.tail ⟨hcd.1, fun hm => hm.elim hcd.2 hd⟩)

end ReachesUnseen

namespace Explores

theorem not_mem_seen (h : Explores next seen l new) : ∀ x ∈ new, x ∉ seen := by
  induction h with
  | done => simp
  | skip _ _ ih => exact ih
  | enter ha _ _ ihb ih =>
    intro x hx hs
    rcases List.mem_append.1 hx with hx | hx
    · exact ih x hx (.inl hs)
    · rcases List.mem_cons.1 hx with rfl | hx
      · exact ha hs
      · exact ihb x hx (.inr hs)

theorem nodup (h : Explores next seen l new) : new.Nodup := by
  induction h with
  | done => exact List.nodup_nil
  | skip _ _ ih => exact ih
  | enter _ hb h ihb ih =>
    refine List.nodup_append.2 ⟨ih, List.nodup_cons.2 ⟨fun hm => ?_, ihb⟩, ?_⟩
    · exact hb.not_mem_seen _ hm (Set.mem_insert _ _)
    · rintro x hx y hy rfl
      exact h.not_mem_seen x hx (.inr hy)

theorem mem_of_start (h : Explores next seen l new) : ∀ a ∈ l, a ∈ seen ∨ a ∈ new := by
  induction h with
  | done => simp
  | skip ha _ ih => exact List.forall_mem_cons.2 ⟨.inl ha, ih⟩
  | enter _ _ _ _ ih =>
    refine List.forall_mem_cons.2 ⟨.inr (by simp), fun b hb => ?_⟩
    rcases ih b hb with (hs | hb) | hb
    · exact .inl hs
    · exact .inr (List.mem_append_right _ hb)
    · exact .inr (List.mem_append_left _ hb)

theorem closed (h : Explores next seen l new) :
    ∀ x ∈ new, ∀ y ∈ next x, y ∈ seen ∨ y ∈ new := by
  induction h with
  | done => simp
  | skip _ _ ih => exact ih
  | @enter seen a l below new _ hb _ ihb ih =>
    have below_closed : ∀ y, y ∈ insert a seen ∨ y ∈ below → y ∈ seen ∨ y ∈ a :: below := by
      rintro y ((rfl | hs) | hy)
      · exact .inr (.head _)
      · exact .inl hs
      · exact .inr (.tail _ hy)
    intro x hx y hy
    rcases List.mem_append.1 hx with hx | hx
    · rcases ih x hx y hy with (hs | hb) | hn
      · exact .inl hs
      · exact .inr (List.mem_append_right _ hb)
      · exact .inr (List.mem_append_left _ hn)
    · refine (below_closed y ?_).imp_right (List.mem_append_right _)
      rcases List.mem_cons.1 hx with rfl | hx
      · exact hb.mem_of_start y hy
      · exact ihb x hx y hy

theorem mem_of_reachesUnseen (h : Explores next seen l new) (ha : a ∈ new)
    (hab : ReachesUnseen next seen a b) : b ∈ new := by
  induction hab with
  | refl => exact ha
  | tail _ hs ih => exact (h.closed _ ih _ hs.1).resolve_left hs.2

theorem reached (h : Explores next seen l new) :
    ∀ x ∈ new, ∃ a ∈ l, a ∉ seen ∧ ReachesUnseen next seen a x := by
  induction h with
  | done => simp
  | skip _ _ ih =>
    intro x hx
    obtain ⟨b, hb, hr⟩ := ih x hx
    exact ⟨b, .tail _ hb, hr⟩
  | @enter seen a l below new ha _ _ ihb ih =>
    intro x hx
    rcases List.mem_append.1 hx with hx | hx
    · obtain ⟨b, hb, hn, hr⟩ := ih x hx
      exact ⟨b, .tail _ hb, fun hs => hn (.inl hs), hr.mono Set.subset_union_left⟩
    · refine ⟨a, .head _, ha, ?_⟩
      rcases List.mem_cons.1 hx with rfl | hx
      · exact .refl
      · obtain ⟨b, hb, hn, hr⟩ := ihb x hx
        exact .head ⟨hb, fun hs => hn (.inr hs)⟩ (hr.mono (Set.subset_insert a seen))

/-- If `a` leads to `b`, some node that leads to `a` and back is `b` or ended its visit after
`b`. -/
theorem foremost (h : Explores next seen l new) (ha : a ∈ new) (hb : b ∈ new)
    (hab : ReachesUnseen next seen a b) :
    ∃ u, ReachesUnseen next seen a u ∧ ReachesUnseen next seen u a ∧
      (u = b ∨ [u, b].Sublist new) := by
  induction h with
  | done => cases ha
  | skip _ _ ih => exact ih ha hb hab
  | @enter seen r l below new hr hbelow hnew ihb ih =>
    have tree : Explores next seen [r] (r :: below) := .enter hr hbelow .done
    have not_new : b ∈ r :: below → b ∉ new := fun hm hn => hnew.not_mem_seen b hn (.inr hm)
    rcases List.mem_append.1 ha with ha | ha <;> rcases List.mem_append.1 hb with hb | hb
    · -- A way between later trees does not go through the tree of `r`, which it could not leave.
      rcases hab.meets_or_avoids {x | x ∈ r :: below} with ⟨z, hz, -, hzb⟩ | hav
      · exact absurd hb (not_new (tree.mem_of_reachesUnseen hz hzb))
      · obtain ⟨u, hau, hua, hu⟩ := ih ha hb hav
        exact ⟨u, hau.mono Set.subset_union_left, hua.mono Set.subset_union_left,
          hu.imp_right fun hu => hu.trans (List.sublist_append_left _ _)⟩
    · exact ⟨a, .refl, .refl,
        .inr ((List.singleton_sublist.2 ha).append (List.singleton_sublist.2 hb))⟩
    · exact absurd hb (not_new (tree.mem_of_reachesUnseen ha hab))
    · -- A way within the tree meets its root, which leads back, or stays below.
      have back : ReachesUnseen next seen r a := by
        obtain ⟨r', hr', -, back⟩ := tree.reached a ha
        exact List.mem_singleton.1 hr' ▸ back
      have root_last : r = b ∨ [r, b].Sublist (new ++ r :: below) := by
        rcases List.mem_cons.1 hb with rfl | hb
        · exact .inl rfl
        · exact .inr (((List.singleton_sublist.2 hb).cons_cons r).trans
            (List.sublist_append_right _ _))
      rcases List.mem_cons.1 ha with rfl | ha
      · exact ⟨a, .refl, .refl, root_last⟩
      rcases List.mem_cons.1 hb with rfl | hb
      · exact ⟨b, hab, back, .inl rfl⟩
      rcases hab.meets_or_avoids {r} with ⟨z, rfl, haz, -⟩ | hav
      · exact ⟨z, haz, back, root_last⟩
      · obtain ⟨u, hau, hua, hu⟩ := ihb ha hb (Set.union_singleton ▸ hav)
        exact ⟨u, hau.mono (Set.subset_insert r seen), hua.mono (Set.subset_insert r seen),
          hu.imp_right fun hu =>
            hu.trans ((List.sublist_cons_self r below).trans (List.sublist_append_right _ _))⟩

end Explores

def Walk.Advances (next : α → List α) (w : Walk α) (l : List α) (w' : Walk α) : Prop :=
  ∃ new, Explores next {x | x ∈ w.seen} l new ∧ w'.ended = new ++ w.ended ∧
    ∀ x, x ∈ w'.seen ↔ x ∈ w.seen ∨ x ∈ new

theorem Walk.Advances.cons {w w₁ w₂ : Walk α} (h₁ : w.Advances next [a] w₁)
    (h₂ : w₁.Advances next l w₂) : w.Advances next (a :: l) w₂ := by
  obtain ⟨new₁, he₁, hw₁, hs₁⟩ := h₁
  obtain ⟨new₂, he₂, hw₂, hs₂⟩ := h₂
  refine ⟨new₂ ++ new₁, ?_, by rw [hw₂, hw₁, List.append_assoc], fun x => ?_⟩
  · have hS : {x | x ∈ w₁.seen} = {x | x ∈ w.seen} ∪ {x | x ∈ new₁} := Set.ext hs₁
    rw [hS] at he₂
    cases he₁ with
    | skip ha h =>
      cases h
      rw [List.append_nil]
      exact .skip ha (by simpa using he₂)
    | enter ha hb h =>
      cases h
      exact .enter ha hb he₂
  · rw [hs₂, hs₁, List.mem_append, or_assoc, or_comm (a := x ∈ new₂)]

variable [DecidableEq α] {nodes : List α} {fuel : Nat} {w w' : Walk α}

def Walk.unseen (nodes : List α) (w : Walk α) : Nat := (nodes.toFinset \ w.seen.toFinset).card

theorem Walk.Advances.unseen_le (h : w.Advances next l w') : w'.unseen nodes ≤ w.unseen nodes := by
  obtain ⟨new, -, -, hs⟩ := h
  refine Finset.card_le_card (Finset.sdiff_subset_sdiff subset_rfl fun x hx => ?_)
  exact List.mem_toFinset.2 ((hs x).2 (.inl (List.mem_toFinset.1 hx)))

theorem Walk.unseen_enter_lt (ha : a ∈ nodes) (hs : a ∉ w.seen) :
    Walk.unseen nodes { w with seen := a :: w.seen } < w.unseen nodes := by
  refine Finset.card_lt_card (Finset.ssubset_iff_of_subset ?_ |>.2 ⟨a, ?_, ?_⟩)
  · exact Finset.sdiff_subset_sdiff subset_rfl fun x hx =>
      List.mem_toFinset.2 (.tail _ (List.mem_toFinset.1 hx))
  · simp [ha, hs]
  · simp

theorem foldl_visit_advances
    (hv : ∀ a ∈ nodes, ∀ w : Walk α, w.unseen nodes < fuel →
      w.Advances next [a] (visit next fuel w a))
    (hl : ∀ a ∈ l, a ∈ nodes) (hw : w.unseen nodes < fuel) :
    w.Advances next l (l.foldl (visit next fuel) w) := by
  induction l generalizing w with
  | nil => exact ⟨[], .done, rfl, by simp⟩
  | cons a l ih =>
    have ha := hv a (hl a (.head _)) w hw
    exact ha.cons (ih (fun b hb => hl b (.tail _ hb)) (ha.unseen_le.trans_lt hw))

/-- As long as there are fewer unseen nodes than fuel, a visit is not cut short. -/
theorem visit_advances (hnext : ∀ a ∈ nodes, ∀ b ∈ next a, b ∈ nodes) (ha : a ∈ nodes)
    (hw : w.unseen nodes < fuel) : w.Advances next [a] (visit next fuel w a) := by
  induction fuel generalizing w a with
  | zero => exact absurd hw (Nat.not_lt_zero _)
  | succ fuel ih =>
    rw [visit]
    split
    · next hs => exact ⟨[], .skip hs .done, rfl, by simp⟩
    · next hs =>
      have hlt : Walk.unseen nodes { w with seen := a :: w.seen } < fuel :=
        lt_of_lt_of_le (Walk.unseen_enter_lt ha hs) (Nat.le_of_lt_succ hw)
      obtain ⟨below, he, hend, hseen⟩ := foldl_visit_advances
        (fun b hb w hw => ih hb hw) (hnext a ha) hlt
      have hS : {x | x ∈ a :: w.seen} = insert a {x | x ∈ w.seen} := by ext; simp
      refine ⟨[] ++ a :: below, .enter hs (hS ▸ he) .done, congrArg (List.cons a) hend,
        fun x => (hseen x).trans ?_⟩
      simp only [List.mem_cons, List.nil_append]
      tauto

section Whole

variable (hnext : ∀ a ∈ nodes, ∀ b ∈ next a, b ∈ nodes)

include hnext

theorem walk_explores : Explores next ∅ nodes (walk next nodes).ended := by
  have hlt : Walk.unseen nodes {} < nodes.length + 1 :=
    Nat.lt_succ_of_le (by simpa [Walk.unseen] using List.toFinset_card_le nodes)
  obtain ⟨new, he, hend, -⟩ := foldl_visit_advances
    (fun a ha w hw => visit_advances hnext ha hw) (fun a ha => ha) hlt
  rw [walk, hend]
  simpa using he

theorem mem_reachable_iff (ha : a ∈ nodes) :
    b ∈ reachable next nodes.length a ↔ Reaches next a b := by
  have hlt : Walk.unseen nodes {} < nodes.length + 1 :=
    Nat.lt_succ_of_le (by simpa [Walk.unseen] using List.toFinset_card_le nodes)
  obtain ⟨new, he, -, hs⟩ := visit_advances (w := {}) hnext ha hlt
  replace he : Explores next ∅ [a] new := by simpa using he
  have hb : b ∈ reachable next nodes.length a ↔ b ∈ new := by simpa [reachable] using hs b
  rw [hb, ← ReachesUnseen.empty_iff]
  constructor
  · intro hb
    obtain ⟨a', ha', -, hr⟩ := he.reached b hb
    exact List.mem_singleton.1 ha' ▸ hr
  · exact he.mem_of_reachesUnseen ((he.mem_of_start a (.head _)).resolve_left (Set.notMem_empty a))

end Whole

end PackagePlan.Components
