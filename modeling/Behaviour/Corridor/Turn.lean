import Behaviour.Corridor.World

/-!
# Turns in a corridor

The warrior has one action a turn. The first action of a turn takes place and uses the turn up, whether it has an
effect or not; a later one is only counted (`World.act_of_acted`). At the end of a turn the enemies within reach
strike.
-/

namespace Behaviour.Corridor

/-- The harm that a blow of the warrior does. -/
def attackPower : Nat := 5

/-- The harm that a shot of the warrior does. -/
def shootPower : Nat := 3

/-- The harm that an enemy does to the warrior. -/
def enemyPower : Int := 3

/-- The health that a rest gives back. -/
def restHealing : Int := 2

/-- How far archers shoot. -/
def archerRange : Nat := 3

/-- What the warrior can do in a turn. -/
inductive Action where
  | walk (h : Heading)
  | attack (h : Heading)
  | shoot (h : Heading)
  | pivot
  | rest
  | rescue (h : Heading)
  deriving DecidableEq

namespace World

/-! ## Actions -/

/-- The world with another occupant on a cell. -/
def setOccupant (w : World) (i : Int) (o : Option Occupant) : World :=
  { w with cells := w.cells.modify i.toNat fun c => { c with occupant := o } }

/-- Harm to whoever stands at a place; without health left they are gone. -/
def damage (w : World) (i : Int) (amount : Nat) : World :=
  match w.occupantAt? i with
  | none => w
  | some o => w.setOccupant i (if o.health ≤ amount then none else some { o with health := o.health - amount })

/-- Where a shot hits: it flies so many cells further, until it meets someone or leaves the corridor. -/
def target? (w : World) (h : Heading) : (steps range : Nat) → Option Int
  | _, 0 => none
  | steps, range + 1 =>
    match w.cellAt? (w.ahead h steps) with
    | none => none
    | some c => if c.occupant.isSome then some (w.ahead h steps) else w.target? h (steps + 1) range

/-- What an action does once it takes place. -/
def perform (w : World) : Action → World
  | .walk h =>
    if (w.feel h).isEmpty then
      { w with position := (w.ahead h 1).toNat, won := w.won || (w.feel h).hasStairs }
    else w
  | .attack h => w.damage (w.ahead h 1) attackPower
  | .shoot h =>
    match w.target? h 1 lookDistance with
    | none => w
    | some i => w.damage i shootPower
  | .pivot => { w with facing := w.facing.flip }
  | .rest => { w with health := min maxHealth (w.health + restHealing) }
  | .rescue h =>
    if (w.feel h).isCaptive then { w.setOccupant (w.ahead h 1) none with rescued := w.rescued + 1 } else w

/-- An action: the first one of a turn takes place, a later one is counted. -/
def act (w : World) (a : Action) : World :=
  if w.acted then { w with rejected := w.rejected + 1 } else { w with acted := true }.perform a

/-- After the first action of a turn every other one is only counted. -/
theorem act_of_acted {w : World} (h : w.acted = true) (a : Action) :
    w.act a = { w with rejected := w.rejected + 1 } := by
  simp [act, h]

/-- The first action of a turn takes place. -/
theorem act_of_not_acted {w : World} (h : w.acted = false) (a : Action) :
    w.act a = { w with acted := true }.perform a := by
  simp [act, h]

/-! ## The end of a turn -/

/-- The distance of a cell from the warrior. -/
def distance (w : World) (i : Nat) : Nat := (i - w.position) + (w.position - i)

/-- Whether nobody stands between the warrior and a cell. -/
def lineIsClear (w : World) (i : Nat) : Bool :=
  let lo := min i w.position + 1
  (List.range' lo (max i w.position - lo)).all fun j => (w.occupantAt? j).isNone

/-- Whether whoever stands on a cell strikes the warrior. -/
def strikes (w : World) (i : Nat) : Bool :=
  match w.creatureAt? i with
  | some .sludge => w.distance i == 1
  | some .archer => w.distance i ≤ archerRange && w.lineIsClear i
  | some .captive | none => false

/-- The number of enemies within reach. -/
def threats (w : World) : Nat := (List.range w.cells.length).countP w.strikes

/-- Every enemy within reach strikes the warrior, and a new turn begins. The health that is left is exact, however low
it is: blows past the least health of a machine word are outside this model. -/
def endTurn (w : World) : World := { w with health := w.health - enemyPower * w.threats, acted := false }

end World

end Behaviour.Corridor
