/-! # Strong components

The strong components of a finite directed graph, each after those that its
edges lead to. Components come in the order in which a depth-first walk ends
the last visit to one of their nodes.
-/

namespace PackagePlan.Components

universe u

variable {α : Type u} [DecidableEq α]

/-- The nodes that a depth-first walk has seen and those whose visits have ended, latest first. -/
structure Walk (α : Type u) where
  seen : List α := []
  ended : List α := []

/-- Visits a node that has not been seen and then, before its visit ends, those after it. `fuel`
bounds the depth of the walk. -/
def visit (next : α → List α) : Nat → Walk α → α → Walk α
  | 0, w, _ => w
  | fuel + 1, w, a =>
    if a ∈ w.seen then w
    else
      let w := (next a).foldl (visit next fuel) { w with seen := a :: w.seen }
      { w with ended := a :: w.ended }

def walk (next : α → List α) (nodes : List α) : Walk α :=
  nodes.foldl (visit next (nodes.length + 1)) {}

def reachable (next : α → List α) (size : Nat) (a : α) : List α :=
  (visit next (size + 1) {} a).seen

/-- Splits off, for the first node, the nodes of its component, then goes on with the others. -/
def groupBy (reach : α → List α) : Nat → List α → List (List α)
  | 0, _ => []
  | _, [] => []
  | fuel + 1, a :: l =>
    let after := reach a
    let (inside, outside) := l.partition fun b => b ∈ after ∧ a ∈ reach b
    (a :: inside) :: groupBy reach fuel outside

/-- The strong components of the graph with these nodes, where `next` leads from nodes to nodes
and names them in the order in which they are tried. -/
def components (next : α → List α) (nodes : List α) : List (List α) :=
  (groupBy (reachable next nodes.length) nodes.length (walk next nodes).ended).reverse

end PackagePlan.Components
