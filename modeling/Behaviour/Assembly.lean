import Behaviour.Builder

/-!
# Assemblies

Trees written down whole: an assembly adds nodes to a builder and yields the handle of the topmost one. A composite
is added first and then takes its parts as each is assembled; a decorator is added after the part that it wraps.
-/

namespace Behaviour

/-- A way of adding nodes to a builder. -/
abbrev Assembly (κ σ α : Type) := StateM (Builder κ σ) α

variable {κ σ : Type}

namespace Assembly

/-- A leaf. -/
def leaf (name : String) (act : Act κ σ) : Assembly κ σ Int := fun b => b.newLeaf name (some act)

/-- Attaches each part as soon as it is assembled. -/
def attachParts (parent : Int) : List (Assembly κ σ Int) → Assembly κ σ Unit
  | [] => pure ()
  | part :: parts => do
    let child ← part
    modify fun b => b.attach parent child
    attachParts parent parts

/-- A composite of parts. -/
def composite (rule : Rule) (name : String) (keep : Bool) (parts : List (Assembly κ σ Int)) : Assembly κ σ Int := do
  let h ← fun b => b.newComposite rule name keep
  attachParts h parts
  return h

/-- A sequence of parts that starts afresh each time. -/
def sequence (name : String) (parts : List (Assembly κ σ Int)) : Assembly κ σ Int :=
  composite .sequence name false parts

/-- A selector of parts that starts afresh each time. -/
def selector (name : String) (parts : List (Assembly κ σ Int)) : Assembly κ σ Int :=
  composite .selector name false parts

/-- A sequence of parts that resumes where it stopped. -/
def keptSequence (name : String) (parts : List (Assembly κ σ Int)) : Assembly κ σ Int :=
  composite .sequence name true parts

/-- A selector of parts that resumes where it stopped. -/
def keptSelector (name : String) (parts : List (Assembly κ σ Int)) : Assembly κ σ Int :=
  composite .selector name true parts

/-- A part with its success and failure exchanged. -/
def negated (part : Assembly κ σ Int) : Assembly κ σ Int := do
  let child ← part
  fun b => b.negated child

/-- A part whose results are reported one visit later. -/
def delayed (part : Assembly κ σ Int) : Assembly κ σ Int := do
  let child ← part
  fun b => b.delayed child

/-- A node that has been added, kept going until a test holds. -/
def awaited (child : Int) (test : Test κ σ) : Assembly κ σ Int := fun b => b.awaited child (some test)

/-- The same assembly several times, with the handle of the last one. -/
def repeated (a : Assembly κ σ Int) : Nat → Assembly κ σ Int
  | 0 => pure nowhere
  | 1 => a
  | n + 2 => do
    let _ ← a
    repeated a (n + 1)

/-- The number of nodes that a builder has room for unless told otherwise. -/
def usualCapacity : Nat := 64

/-- The assembly in a new builder of usual capacity, with its handle. -/
def build (a : Assembly κ σ Int) : Int × Builder κ σ := a.run { capacity := usualCapacity }

end Assembly

end Behaviour
