import Behaviour.Kind
import Behaviour.Scene

/-!
# Nodes of a playable tree

A node carries its own progress: a composite its cursor, a decorator its memory. A composite has a list of children
and a decorator exactly one child, so nothing is looked up while a tree is played. `reset` forgets all progress and
keeps everything else (`labels_reset`); `progress` is what inspection of a node shows of it.
-/

namespace Behaviour

/-- What identifies a node: the handle it was drafted under, and its name. -/
structure Label where
  handle : Nat
  name : String
  deriving DecidableEq

/-- How a decorator treats its child. -/
inductive Decorator (κ σ : Type) where
  | negate
  | delay
  | await (test : Test κ σ)
  | custom (before : Option (Before κ σ)) (after : Option (After κ σ))

/-- A node with its progress. -/
inductive Node (κ σ : Type) where
  | leaf (label : Label) (act : Act κ σ)
  | composite (label : Label) (rule : Rule) (keep : Bool) (cursor : Option Nat) (children : List (Node κ σ))
  | decorator (label : Label) (wrap : Decorator κ σ) (memory : Memory) (child : Node κ σ)

/-- The progress of a node: its cursor, if play has started one, and its memory. -/
structure Progress where
  cursor : Option Nat := none
  memory : Memory := {}
  deriving DecidableEq

variable {κ σ : Type}

/-- The name of the way in which a decorator treats its child. -/
def Decorator.wrapping : Decorator κ σ → Wrapping
  | negate => .negate
  | delay => .delay
  | await _ => .await
  | custom _ _ => .custom

namespace Node

/-! ## One node -/

/-- What identifies the node. -/
def label : Node κ σ → Label
  | leaf l _ => l
  | composite l _ _ _ _ => l
  | decorator l _ _ _ => l

/-- The kind of the node. -/
def kind : Node κ σ → Kind
  | leaf _ _ => .leaf
  | composite _ r _ _ _ => r.kind
  | decorator _ _ _ _ => .decorator

/-- The nodes right below the node. -/
def children : Node κ σ → List (Node κ σ)
  | leaf _ _ => []
  | composite _ _ _ _ ns => ns
  | decorator _ _ _ n => [n]

/-- The progress of the node itself. -/
def progress : Node κ σ → Progress
  | leaf _ _ => {}
  | composite _ _ _ c _ => { cursor := c }
  | decorator _ _ m _ => { memory := m }

/-! ## The whole subtree -/

mutual
/-- The node and all nodes below it, each before its children. -/
def subtree : Node κ σ → List (Node κ σ)
  | leaf l a => [leaf l a]
  | composite l r k c ns => composite l r k c ns :: forest ns
  | decorator l w m n => decorator l w m n :: n.subtree

/-- The subtrees of several nodes, one after another. -/
def forest : List (Node κ σ) → List (Node κ σ)
  | [] => []
  | n :: ns => n.subtree ++ forest ns
end

mutual
/-- All progress forgotten. -/
def reset : Node κ σ → Node κ σ
  | leaf l a => leaf l a
  | composite l r k _ ns => composite l r k none (resetAll ns)
  | decorator l w _ n => decorator l w {} n.reset

/-- All progress of several nodes forgotten. -/
def resetAll : List (Node κ σ) → List (Node κ σ)
  | [] => []
  | n :: ns => n.reset :: resetAll ns
end

@[simp] theorem resetAll_eq_map (ns : List (Node κ σ)) : resetAll ns = ns.map reset := by
  induction ns with
  | nil => rfl
  | cons n ns ih => simp [resetAll, ih]

@[simp] theorem forest_eq_flatMap (ns : List (Node κ σ)) : forest ns = ns.flatMap subtree := by
  induction ns with
  | nil => rfl
  | cons n ns ih => simp [forest, ih]

/-- The labels of the node and of all nodes below it, each before those of its children. -/
def labels (n : Node κ σ) : List Label := n.subtree.map label

mutual
/-- Forgetting progress keeps all labels and their order. -/
@[simp] theorem labels_reset : ∀ n : Node κ σ, n.reset.labels = n.labels
  | leaf _ _ => rfl
  | composite _ _ _ _ ns => by
    have := map_label_forest_resetAll ns
    simp_all [labels, reset, subtree, label]
  | decorator _ _ _ n => by
    have := labels_reset n
    simp_all [labels, reset, subtree, label]

theorem map_label_forest_resetAll :
    ∀ ns : List (Node κ σ), (forest (resetAll ns)).map label = (forest ns).map label
  | [] => rfl
  | n :: ns => by
    have h₁ := labels_reset n
    have h₂ := map_label_forest_resetAll ns
    unfold labels at h₁
    rw [resetAll, forest, forest, List.map_append, List.map_append, h₁, h₂]
end

mutual
/-- A node without progress is where `reset` leads: a second `reset` changes nothing. -/
@[simp] theorem reset_reset : ∀ n : Node κ σ, n.reset.reset = n.reset
  | leaf _ _ => rfl
  | composite _ _ _ _ ns => by rw [reset, reset, resetAll_resetAll ns]
  | decorator _ _ _ n => by rw [reset, reset, reset_reset n]

theorem resetAll_resetAll : ∀ ns : List (Node κ σ), resetAll (resetAll ns) = resetAll ns
  | [] => rfl
  | n :: ns => by rw [resetAll, resetAll, reset_reset n, resetAll_resetAll ns]
end

/-- The progress of the node drafted under a handle; fresh if no such node is in the subtree. -/
def progressOf (n : Node κ σ) (handle : Nat) : Progress :=
  ((n.subtree.find? fun m => m.label.handle == handle).map progress).getD {}

end Node

end Behaviour
