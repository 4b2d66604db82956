import Behaviour.Status

/-!
# Kinds of nodes

The four kinds of nodes, the two rules by which a composite walks its children, and the four ways in which a
decorator treats its child, with the names under which listings write them.
-/

namespace Behaviour

/-! ## Composites -/

/-- How a composite walks its children. -/
inductive Rule where
  /-- All children have to succeed. -/
  | sequence
  /-- The first child that succeeds settles it. -/
  | selector
  deriving DecidableEq

namespace Rule

/-- The status on which a composite goes on to its next child, and which it reports when no child is left. -/
def onward : Rule → Status
  | sequence => .success
  | selector => .failure

/-- Each rule is the other one with success and failure exchanged. -/
def dual : Rule → Rule
  | sequence => selector
  | selector => sequence

@[simp] theorem dual_dual : ∀ r : Rule, r.dual.dual = r
  | sequence | selector => rfl

@[simp] theorem onward_dual : ∀ r : Rule, r.dual.onward = r.onward.negate
  | sequence | selector => rfl

/-- No rule goes on from a child that is still running. -/
theorem onward_ne_running : ∀ r : Rule, r.onward ≠ .running
  | sequence | selector => by simp [onward]

end Rule

/-! ## Nodes -/

inductive Kind where
  | leaf
  | sequence
  | selector
  | decorator
  deriving DecidableEq

def Rule.kind : Rule → Kind
  | sequence => .sequence
  | selector => .selector

namespace Kind

def name : Kind → String
  | leaf => "LEAF"
  | sequence => "SEQUENCE"
  | selector => "SELECTOR"
  | decorator => "DECORATOR"

/-- Composites keep a cursor over several children. -/
def isComposite : Kind → Bool
  | sequence | selector => true
  | leaf | decorator => false

@[simp] theorem isComposite_kind : ∀ r : Rule, r.kind.isComposite = true
  | .sequence | .selector => rfl

def ofCode? : UInt8 → Option Kind
  | 0 => some leaf
  | 1 => some sequence
  | 2 => some selector
  | 3 => some decorator
  | _ => none

def nameOfCode (c : UInt8) : String := (ofCode? c).elim unknownName name

/-- A byte that stands for no kind is no composite. -/
def isCompositeCode (c : UInt8) : Bool := (ofCode? c).any isComposite

end Kind

/-! ## Decorators -/

/-- The way in which a decorator treats its child. -/
inductive Wrapping where
  /-- Success and failure are exchanged. -/
  | negate
  /-- Each result is reported one visit later. -/
  | delay
  /-- The child is kept going until a test holds. -/
  | await
  /-- Hooks run before and after the child. -/
  | custom
  deriving DecidableEq

namespace Wrapping

def name : Wrapping → String
  | negate => "NEGATE"
  | delay => "DELAY"
  | await => "UNTIL"
  | custom => "CUSTOM"

def ofCode? : UInt8 → Option Wrapping
  | 0 => some negate
  | 1 => some delay
  | 2 => some await
  | 3 => some custom
  | _ => none

def nameOfCode (c : UInt8) : String := (ofCode? c).elim unknownName name

end Wrapping

end Behaviour
