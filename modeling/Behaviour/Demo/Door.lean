import Behaviour.Assembly
import Behaviour.Text.Column
import Behaviour.Tree

/-!
# A door to break open

A small demonstration: a tree that walks through an open door or else drills it open, which takes three turns. It is
played twice, with composites that keep their place and with composites that do not. Where they do, the door is looked
at once; where they do not, it is looked at in every turn.
-/

namespace Behaviour.Demo.Door

open Text

/-- The door, how often it was looked at, and how far the drill is charged. -/
structure Site where
  checks : Nat := 0
  charge : Nat := 0
  isOpen : Bool := false

/-- The site is the context; the world is what has been printed. -/
abbrev Stage := Scene Site String

/-- Prints a line. -/
def Stage.print (s : Stage) (text : String) : Stage := { s with world := s.world ++ line text }

/-! ## Leaves -/

/-- Succeeds if the door is open. -/
def look : Act Site String := fun s =>
  let checks := s.context.checks + 1
  let s : Stage := { s with context := { s.context with checks } }
  let state := if s.context.isOpen then "open" else "closed"
  (if s.context.isOpen then .success else .failure,
    Stage.print s ("    [Leaf] CheckDoor (#" ++ toString checks ++ "): " ++ state))

/-- The number of turns that charging the drill takes. -/
def fullCharge : Nat := 3

/-- Charges the drill by one; it runs until the drill is full. -/
def charge : Act Site String := fun s =>
  let charge := s.context.charge + 1
  (if fullCharge ≤ charge then .success else .running,
    Stage.print { s with context := { s.context with charge } }
      ("    [Leaf] ChargeDrill " ++ toString charge ++ "/3"))

/-- Opens the door and empties the drill. -/
def drill : Act Site String := fun s =>
  (.success, Stage.print { s with context := { s.context with isOpen := true, charge := 0 } } "    [Leaf] DrillDoor")

/-- Walks through. -/
def walk : Act Site String := fun s => (.success, Stage.print s "    [Leaf] WalkThrough")

/-! ## The tree -/

open Assembly

/-- Walk through the door if it is open, else break it open. -/
def enter (keep : Bool) : Assembly Site String Int := do
  let check ← leaf "CheckDoor" look
  let charge ← leaf "ChargeDrill" charge
  let drill ← leaf "DrillDoor" drill
  let walk ← leaf "WalkThrough" walk
  let go ← sequence "GoThrough" [pure check, pure walk]
  let force ← composite .sequence "ForceDoor" keep [pure charge, pure drill]
  composite .selector "Root" keep [pure go, pure force]

/-- The tree, with composites that keep their place or not. -/
def tree (keep : Bool) : Tree Site String :=
  let (root, b) := build (enter keep)
  .freeze b root

/-! ## Playing -/

/-- The number of turns after which the play stops at the latest. -/
def maxTurns : Nat := 10

/-- Turns from number `turn` on, at most `left` of them, until the tree is no longer running. -/
def turns (turn : Nat) : (left : Nat) → Tree Site String → Stage → Tree Site String × Stage
  | 0, t, s => (t, s)
  | left + 1, t, s =>
    match t.tick (Stage.print s ("  Turn " ++ toString turn)) with
    | .error _ => (t, s)
    | .ok r =>
      let s := Stage.print r.scene ("  Result: " ++ r.status.name)
      if r.status = .running then turns (turn + 1) left r.tree s else (r.tree, s)

/-- What one play prints. -/
def play (keep : Bool) : String :=
  let title := line ("=== keep_state " ++ (if keep then "on" else "off") ++ " ===")
  let t := tree keep
  match t.defect? with
  | some d => title ++ line ("Tree invalid: " ++ d.name)
  | none =>
    let (t, s) := turns 1 maxTurns t ⟨{}, title⟩
    s.world ++
      line ("  Door checked " ++ toString s.context.checks ++ " times in " ++ toString t.ticks ++ " turns") ++
      line "" ++ t.listing ++ line ""

/-- What the demonstration prints. -/
def output : String := play true ++ play false

end Behaviour.Demo.Door
