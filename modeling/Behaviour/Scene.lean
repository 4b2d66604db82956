import Behaviour.Status

/-!
# Scenes and what acts on them

A node acts on a *scene*: the context of the caller, which a decorator may exchange for its child, and the world,
which all nodes share. What a tree does to the scene is given by its acts, tests and hooks; hooks also see the
private memory of their decorator.
-/

namespace Behaviour

variable {κ σ : Type}

/-! ## Scenes -/

/-- The context that is handed down the tree, and the world that all nodes share. -/
structure Scene (κ σ : Type) where
  context : κ
  world : σ

/-- The context of this scene, with the world as another scene has left it. -/
def Scene.keepContext (outer inner : Scene κ σ) : Scene κ σ := { outer with world := inner.world }

@[simp] theorem Scene.context_keepContext (outer inner : Scene κ σ) :
    (outer.keepContext inner).context = outer.context := rfl

@[simp] theorem Scene.world_keepContext (outer inner : Scene κ σ) :
    (outer.keepContext inner).world = inner.world := rfl

/-! ## The memory of a decorator -/

/-- What a decorator remembers from one visit to the next. -/
structure Memory where
  /-- The result that a delay holds back; after its release it is left in place. -/
  pending : Status := .failure
  /-- Whether a result is held back. -/
  hasPending : Bool := false
  /-- Whether the awaited test has held. -/
  done : Bool := false
  /-- A 32-bit word for the use of hooks. -/
  counter : Int32 := 0
  deriving DecidableEq

/-! ## Acts, tests and hooks -/

/-- What a leaf does. -/
abbrev Act (κ σ : Type) := Scene κ σ → Status × Scene κ σ

/-- A question about the scene; asking may change it. -/
abbrev Test (κ σ : Type) := Scene κ σ → Bool × Scene κ σ

/-- Derives the scene of the child from that of the decorator. -/
abbrev Before (κ σ : Type) := Scene κ σ → Memory → Scene κ σ × Memory

/-- Judges the child's result in the decorator's own scene, of which it can change the world only. -/
abbrev After (κ σ : Type) := Status → Scene κ σ → Memory → Status × σ × Memory

end Behaviour
