import Behaviour.Node
import Behaviour.Defect

/-!
# Drafts of nodes

A node as it stands while a tree is being put together: its role, which may still lack what it needs, the handle of
its parent and those of its children. `Draft.Fits` is what wiring keeps of every draft: it has no more children than
its role has room for.

A handle is a whole number by which a node is referred to; `0` names the first draft, and numbers below name nothing.
-/

namespace Behaviour

/-- The handle that names no node. -/
def nowhere : Int := -1

/-- What a node is for. -/
inductive Role (κ σ : Type) where
  /-- A leaf, with its act if it was given one. -/
  | leaf (act : Option (Act κ σ))
  | composite (rule : Rule) (keep : Bool)
  /-- A decorator; `none` for one that waits for a test it was not given. -/
  | decorator (wrap : Option (Decorator κ σ))

/-- A node that is being put together. -/
structure Draft (κ σ : Type) where
  name : String
  role : Role κ σ
  parent : Option Nat := none
  children : List Nat := []

variable {κ σ : Type}

/-- The largest number of children of a composite. -/
def maxChildren : Nat := 8

namespace Role

/-- The kind of node that plays the role. -/
def kind : Role κ σ → Kind
  | leaf _ => .leaf
  | composite rule _ => rule.kind
  | decorator _ => .decorator

/-- The wrapping of a decorator; a node that is none shows the first one. -/
def wrapping : Role κ σ → Wrapping
  | leaf _ | composite _ _ => .negate
  | decorator none => .await
  | decorator (some w) => w.wrapping

/-- Whether the node resumes at the place where it stopped. -/
def keep : Role κ σ → Bool
  | composite _ keep => keep
  | leaf _ | decorator _ => false

/-- Whether the node is a leaf with something to do. -/
def hasAct : Role κ σ → Bool
  | leaf act => act.isSome
  | composite _ _ | decorator _ => false

/-- Whether the node is a decorator with a test to wait for. -/
def hasTest : Role κ σ → Bool
  | decorator (some (.await _)) => true
  | leaf _ | composite _ _ | decorator _ => false

/-- The number of children that the node has room for. -/
def room : Role κ σ → Nat
  | leaf _ => 0
  | composite _ _ => maxChildren
  | decorator _ => 1

end Role

namespace Draft

/-- The draft has no more children than its role has room for. -/
def Fits (d : Draft κ σ) : Prop := d.children.length ≤ d.role.room

instance (d : Draft κ σ) : Decidable d.Fits := inferInstanceAs (Decidable (_ ≤ _))

/-- What is wrong with a draft on its own, whatever its children are. -/
def defect? (d : Draft κ σ) : Option Defect :=
  match d.role with
  | .leaf act => if act.isNone then some .idleLeaf else none
  | .composite _ _ => if d.children.isEmpty then some .emptyComposite else none
  | .decorator wrap =>
    if d.children.length ≠ 1 then some .unboundDecorator
    else if wrap.isNone then some .missingTest
    else none

/-- Everything that can be seen of a node, drafted or played. -/
structure Profile where
  name : String
  kind : Kind
  wrapping : Wrapping
  parent : Option Nat
  children : List Nat
  keep : Bool
  hasAct : Bool
  hasTest : Bool
  progress : Progress

/-- What is seen of a draft whose node has this progress. -/
def profile (d : Draft κ σ) (progress : Progress := {}) : Profile where
  name := d.name
  kind := d.role.kind
  wrapping := d.role.wrapping
  parent := d.parent
  children := d.children
  keep := d.role.keep
  hasAct := d.role.hasAct
  hasTest := d.role.hasTest
  progress := progress

end Draft

end Behaviour
