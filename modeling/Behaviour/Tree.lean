import Behaviour.Plan
import Behaviour.Listing
import Behaviour.Visit

/-!
# Trees

A tree is frozen from a builder: its structure no longer changes, only the progress of its nodes does. One tick
visits the root once. A tree whose draft has a defect can be frozen and inspected but not played: to tick it is a
fault, and its listing tells the defect instead.
-/

namespace Behaviour

/-- A frozen tree: the drafts that it was made from, the nodes that are played, and what play has told so far. -/
structure Tree (κ σ : Type) where
  drafts : List (Draft κ σ)
  root : Int
  /-- The root with its progress, or the defect that forbids play. -/
  plan : Except Defect (Node κ σ)
  lastStatus : Status := .failure
  /-- The number of ticks, as a 32-bit word. -/
  ticks : UInt32 := 0
  /-- Whether someone watches the nodes. -/
  tracing : Bool := false

variable {κ σ : Type}

/-- What an observer is told of one node: its name and kind, its status, and the scene it left. -/
structure Sighting (κ σ : Type) where
  name : String
  kind : Kind
  status : Status
  scene : Scene κ σ

/-- What an observer is told of an event: the ends of visits. -/
def Event.sighting? : Event κ σ → Option (Sighting κ σ)
  | finished label kind status scene => some ⟨label.name, kind, status, scene⟩
  | acted _ _ | tested _ _ | derived _ | judged _ _ => none

/-- What comes out of one tick. -/
structure Turn (κ σ : Type) where
  status : Status
  tree : Tree κ σ
  scene : Scene κ σ
  log : List (Event κ σ)

namespace Tree

/-- The tree below a root of a builder. -/
def freeze (b : Builder κ σ) (root : Int) : Tree κ σ := { drafts := b.drafts, root, plan := b.plan root }

/-- The defect that forbids play, if any. -/
def defect? (t : Tree κ σ) : Option Defect :=
  match t.plan with
  | .ok _ => none
  | .error d => some d

@[simp] theorem defect?_freeze (b : Builder κ σ) (root : Int) : (freeze b root).defect? = b.check root := rfl

/-- The number of nodes, those that cannot be reached from the root included. -/
def size (t : Tree κ σ) : Nat := t.drafts.length

/-- Turns the observer on or off. -/
def watch (t : Tree κ σ) (tracing : Bool) : Tree κ σ := { t with tracing }

/-! ## Play -/

/-- One visit of the root. -/
def tick (t : Tree κ σ) (scene : Scene κ σ) : Except Fault (Turn κ σ) :=
  match t.plan with
  | .error _ => .error .invalidTree
  | .ok root =>
    let v := root.visit scene
    .ok ⟨v.status, { t with plan := .ok v.node, lastStatus := v.status, ticks := t.ticks + 1 }, v.scene, v.log⟩

/-- All progress forgotten; the count of ticks and the observer stay. -/
def reset (t : Tree κ σ) : Tree κ σ := { t with plan := t.plan.map Node.reset, lastStatus := .failure }

theorem tick_of_plan {t : Tree κ σ} {root : Node κ σ} (h : t.plan = .ok root) (scene : Scene κ σ) :
    t.tick scene =
      let v := root.visit scene
      .ok ⟨v.status, { t with plan := .ok v.node, lastStatus := v.status, ticks := t.ticks + 1 }, v.scene, v.log⟩ := by
  simp only [tick, h]

/-- To tick a tree is a fault exactly when its draft has a defect. -/
theorem tick_eq_error_iff (t : Tree κ σ) (scene : Scene κ σ) :
    t.tick scene = .error .invalidTree ↔ t.defect? ≠ none := by
  unfold tick defect?
  cases t.plan <;> simp

@[simp] theorem reset_reset (t : Tree κ σ) : t.reset.reset = t.reset := by
  unfold reset
  cases t.plan <;> simp [Except.map]

/-! ## Inspection -/

/-- The progress of the node with a number; a node that is not played has none. -/
def progressOf (t : Tree κ σ) (handle : Nat) : Progress :=
  match t.plan with
  | .ok root => root.progressOf handle
  | .error _ => {}

/-- What can be seen of the node that a handle names. -/
def inspect (t : Tree κ σ) (h : Int) : Except Fault Draft.Profile :=
  match if h < 0 then none else t.drafts[h.toNat]? with
  | some d => .ok (d.profile (t.progressOf h.toNat))
  | none => .error .noSuchNode

/-- The progress of every node, in the order of the handles. -/
def progressAll (t : Tree κ σ) : List Progress := (List.range t.size).map t.progressOf

/-- The place of the root's cursor. -/
def rootPlace (t : Tree κ σ) : Nat :=
  match t.plan with
  | .ok root => root.progress.cursor.getD 0
  | .error _ => 0

/-- The listing of the tree, or the defect that forbids play. -/
def listing (t : Tree κ σ) : String :=
  match t.plan with
  | .ok root => root.listing
  | .error d => "invalid tree: " ++ d.name ++ "\n"

/-- The handles of the nodes below the root, each before its children. -/
def handles (t : Tree κ σ) : List Nat := if t.root < 0 then [] else walk t.drafts t.size t.root.toNat

end Tree

namespace Turn

/-- What the observer was told during the turn, in order. -/
def sightings (t : Turn κ σ) : List (Sighting κ σ) :=
  if t.tree.tracing then t.log.filterMap Event.sighting? else []

end Turn

end Behaviour
