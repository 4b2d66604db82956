/-!
# Corridors

A corridor is a row of cells; everything beyond its ends is wall. A warrior stands on one of the cells and faces one
way. Cells may hold a sludge, an archer or a bound captive, and may have stairs, which are the goal.

A layout is read character by character (`World.ofLayout`): `@` is the warrior, the last one counting, `s` a sludge,
`a` an archer, `C` a captive, `>` stairs, and everything else floor. `World.render` writes the corridor back, between
bars, with `&` for a warrior who faces left.

The warrior's health is an integer without bounds. What comes of it once a machine word cannot hold it, or what is
computed from it, is left undefined; the numbers here stay exact, and say nothing about such a corridor.
-/

namespace Behaviour.Corridor

/-! ## What stands in a corridor -/

/-- Who else may stand on a cell. -/
inductive Creature where
  | sludge
  | archer
  | captive
  deriving DecidableEq

namespace Creature

/-- The health of a creature when play begins. -/
def fullHealth : Creature → Nat
  | sludge => 12
  | archer => 7
  | captive => 1

/-- Sludges and archers are enemies. -/
def isEnemy : Creature → Bool
  | sludge | archer => true
  | captive => false

def glyph : Creature → Char
  | sludge => 's'
  | archer => 'a'
  | captive => 'C'

end Creature

structure Occupant where
  creature : Creature
  health : Nat
  deriving DecidableEq

structure Cell where
  stairs : Bool := false
  occupant : Option Occupant := none
  deriving DecidableEq

def Cell.creature? (c : Cell) : Option Creature := c.occupant.map Occupant.creature

inductive Facing where
  | left
  | right
  deriving DecidableEq

/-- Directions as the warrior sees them. -/
inductive Heading where
  | forward
  | backward
  deriving DecidableEq

namespace Facing

def flip : Facing → Facing
  | left => right
  | right => left

@[simp] theorem flip_flip : ∀ f : Facing, f.flip.flip = f
  | left | right => rfl

/-- The way of a heading for a warrior who faces this way. -/
def toward (f : Facing) : Heading → Facing
  | .forward => f
  | .backward => f.flip

/-- How a step changes the place. -/
def step : Facing → Int
  | left => -1
  | right => 1

@[simp] theorem step_flip : ∀ f : Facing, f.flip.step = -f.step
  | left | right => rfl

end Facing

/-! ## The world -/

/-- The warrior's health is never healed above this. -/
def maxHealth : Int := 20

/-- The corridor and the warrior in it. -/
structure World where
  cells : List Cell
  position : Nat := 0
  facing : Facing := .right
  health : Int := maxHealth
  rescued : Nat := 0
  won : Bool := false
  acted : Bool := false
  /-- The number of actions that came after the first one of their turn. -/
  rejected : Nat := 0
  deriving DecidableEq

/-- The cell that a character of a layout stands for. -/
def Cell.ofChar (c : Char) : Cell :=
  if c = 's' then { occupant := some ⟨.sludge, Creature.sludge.fullHealth⟩ }
  else if c = 'a' then { occupant := some ⟨.archer, Creature.archer.fullHealth⟩ }
  else if c = 'C' then { occupant := some ⟨.captive, Creature.captive.fullHealth⟩ }
  else if c = '>' then { stairs := true }
  else {}

/-- The place of the last `@` of a layout. -/
def lastStart? : List Char → Option Nat
  | [] => none
  | c :: cs =>
    match lastStart? cs with
    | some i => some (i + 1)
    | none => if c = '@' then some 0 else none

namespace World

/-- The world of a layout; without `@` the warrior starts on the first cell. -/
def ofLayout (layout : List Char) : World :=
  { cells := layout.map Cell.ofChar, position := (lastStart? layout).getD 0 }

@[simp] theorem length_cells_ofLayout (layout : List Char) : (ofLayout layout).cells.length = layout.length := by
  simp [ofLayout]

def dead (w : World) : Bool := w.health ≤ 0

/-- The world with another health. -/
def withHealth (w : World) (health : Int) : World := { w with health }

/-! ## Places -/

/-- The cell at a place, which may lie outside. -/
def cellAt? (w : World) (i : Int) : Option Cell := if i < 0 then none else w.cells[i.toNat]?

def occupantAt? (w : World) (i : Int) : Option Occupant := (w.cellAt? i).bind Cell.occupant

def creatureAt? (w : World) (i : Int) : Option Creature := (w.occupantAt? i).map Occupant.creature

/-- The health of whoever stands at a place; zero if nobody does. -/
def healthAt (w : World) (i : Int) : Nat := (w.occupantAt? i).elim 0 Occupant.health

/-- The place so many steps from the warrior. -/
def ahead (w : World) (h : Heading) (steps : Nat) : Int := w.position + (w.facing.toward h).step * steps

/-! ## Senses -/

/-- What the warrior senses of a place. -/
inductive Space where
  | wall
  | floor (stairs : Bool) (creature : Option Creature)
  deriving DecidableEq

namespace Space

/-- Beyond the ends of the corridor there is wall. -/
def isWall : Space → Bool
  | wall => true
  | floor _ _ => false

def hasStairs : Space → Bool
  | wall => false
  | floor stairs _ => stairs

def creature? : Space → Option Creature
  | wall => none
  | floor _ c => c

/-- Nobody stands there and it is no wall. -/
def isEmpty : Space → Bool
  | wall => false
  | floor _ c => c.isNone

def isEnemy (s : Space) : Bool := s.creature?.any Creature.isEnemy

def isCaptive (s : Space) : Bool := s.creature? == some .captive

end Space

def spaceAt (w : World) (i : Int) : Space :=
  match w.cellAt? i with
  | none => .wall
  | some c => .floor c.stairs c.creature?

/-- How far the warrior sees and shoots. -/
def lookDistance : Nat := 3

/-- The space so many steps from the warrior. -/
def sense (w : World) (h : Heading) (steps : Nat) : Space := w.spaceAt (w.ahead h steps)

def feel (w : World) (h : Heading) : Space := w.sense h 1

/-- The next spaces, nearest first. -/
def look (w : World) (h : Heading) : List Space := (List.range lookDistance).map fun i => w.sense h (i + 1)

/-! ## Layouts written back -/

def glyph (w : World) (i : Nat) (c : Cell) : Char :=
  if i = w.position then
    match w.facing with
    | .right => '@'
    | .left => '&'
  else
    match c.creature? with
    | some u => u.glyph
    | none => if c.stairs then '>' else ' '

/-- The corridor in layout notation. -/
def layout (w : World) : List Char := w.cells.mapIdx w.glyph

@[simp] theorem length_layout (w : World) : w.layout.length = w.cells.length := by simp [layout]

def render (w : World) : String := String.ofList ('|' :: w.layout ++ ['|'])

end World

end Behaviour.Corridor
