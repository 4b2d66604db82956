import Behaviour.Assembly
import Behaviour.Corridor.Turn
import Behaviour.Player

/-!
# The warrior's tree

The leaves of the warrior's tree are conditions on the world, which never change it, and actions, which always
succeed. The context of a turn is the warrior's health at the end of the turn before.

The tree tries in this order: turn to a captive behind, fight an enemy ahead, shoot an enemy three cells ahead, turn
at a wall, retreat from damage, rescue a captive ahead, heal, and walk on.
-/

namespace Behaviour.Corridor

/-- What the warrior knows of the turn before. -/
structure Stats where
  health : Int := 0
  deriving DecidableEq

instance : Inhabited Stats := ⟨{}⟩

/-- Before the first turn the warrior is taken to have been well. -/
def startingStats : Camera Stats World := fun w => (⟨maxHealth⟩, w)

/-- The warrior's health at the end of a turn. -/
def currentStats : Camera Stats World := fun w => (⟨w.health⟩, w)

/-! ## Leaves -/

/-- What a leaf can ask. -/
inductive Condition where
  | spaceAhead
  | enemyAhead
  | captiveAhead
  | wallAhead
  /-- A captive so many steps away. -/
  | captiveAt (h : Heading) (steps : Nat)
  /-- An enemy so many steps ahead. -/
  | enemyAt (steps : Nat)
  /-- Less health than at the end of the turn before. -/
  | damaged
  /-- No more health than so many hundredths of full health. -/
  | lowHealth (percent : Int)
  deriving DecidableEq

/-- Whether a condition holds. The products that are compared for low health are exact: a health of which no machine
word holds the hundredfold is outside this model. -/
def Condition.holds (stats : Stats) (w : World) : Condition → Bool
  | spaceAhead => (w.feel .forward).isEmpty
  | enemyAhead => (w.feel .forward).isEnemy
  | captiveAhead => (w.feel .forward).isCaptive
  | wallAhead => (w.feel .forward).isWall
  | captiveAt h steps => (w.sense h steps).isCaptive
  | enemyAt steps => (w.sense .forward steps).isEnemy
  | damaged => w.health < stats.health
  | lowHealth percent => w.health * 100 ≤ maxHealth * percent

/-- The status of a leaf whose condition holds or not. -/
def statusOf (holds : Bool) : Status := if holds then .success else .failure

/-- A leaf that asks. -/
def Condition.leaf (c : Condition) : Act Stats World := fun s => (statusOf (c.holds s.context s.world), s)

/-- A leaf that acts: it succeeds whatever comes of it. -/
def Action.leaf (a : Action) : Act Stats World := fun s => (.success, { s with world := s.world.act a })

/-- Whether the warrior is well. -/
def fullyHealed : Test Stats World := fun s => (s.world.health == maxHealth, s)

/-! ## Subtrees -/

open Assembly

/-- Assemblies of the warrior's trees. -/
abbrev Part := Assembly Stats World Int

/-- A named condition. -/
def ask (name : String) (c : Condition) : Part := leaf name c.leaf

/-- A named action. -/
def act (name : String) (a : Action) : Part := leaf name a.leaf

/-- Health up to this many hundredths counts as low. -/
def lowPercent : Int := 40

/-- Walk on if nothing is in the way. -/
def walkOn : Part :=
  sequence "move_forward" [ask "is_space_empty" .spaceAhead, act "walk" (.walk .forward)]

/-- With low health, rest until well; once begun, healing is resumed without asking again. -/
def heal : Part := do
  let rest ← act "rest" .rest
  keptSequence "heal_if_low" [ask "low_health" (.lowHealth lowPercent), awaited rest fullyHealed]

/-- Fight an enemy on the next cell. -/
def fight : Part :=
  sequence "if_enemy_fight" [ask "check_for_enemy" .enemyAhead, act "fight" (.attack .forward)]

/-- Set a captive on the next cell free. -/
def setFree : Part :=
  sequence "if_captive_rescue" [ask "check_for_captive" .captiveAhead, act "rescue" (.rescue .forward)]

/-- Turn round to a captive within sight behind. -/
def turnToCaptive : Part := do
  let behind ← selector "is_captive_behind"
    [ask "captive_behind_1" (.captiveAt .backward 1), ask "captive_behind_2" (.captiveAt .backward 2),
      ask "captive_behind_3" (.captiveAt .backward 3)]
  sequence "turn_for_captive" [pure behind, act "turn_around" .pivot]

/-- Shoot an enemy three cells ahead, past no captive. The shot is reported one turn later, when another one is fired
and, if the enemy still stands, the warrior closes in. -/
def snipe : Part := do
  let noCaptive₁ ← negated (ask "captive_ahead_1" (.captiveAt .forward 1))
  let noCaptive₂ ← negated (ask "captive_ahead_2" (.captiveAt .forward 2))
  let enemy ← ask "enemy_ahead_3" (.enemyAt 3)
  let shot ← delayed (act "shoot" (.shoot .forward))
  let stillEnemy ← ask "enemy_ahead_3" (.enemyAt 3)
  let walk ← act "walk" (.walk .forward)
  keptSequence "shoot_the_bad_guys"
    [pure noCaptive₁, pure noCaptive₂, pure enemy, pure shot, pure stillEnemy, pure walk]

/-- Step back when harmed while health is low. -/
def retreat : Part :=
  sequence "retreat_if_taking_damage"
    [ask "check_for_damage" .damaged, ask "low_health" (.lowHealth lowPercent),
      act "walk_backward" (.walk .backward)]

/-- Turn round at a wall. -/
def turnAtWall : Part :=
  sequence "if_wall_turn_around" [ask "check_for_wall" .wallAhead, act "turn_around" .pivot]

/-- The whole tree of the warrior: the first of these that has something to do. -/
def warriorTree : Part :=
  keptSelector "walk_or_fight"
    [turnToCaptive, fight, snipe, turnAtWall, retreat, setFree, heal, walkOn]

/-! ## Playing -/

/-- A player of the tree that an assembly builds. -/
def playerOf (part : Part) : Player Stats World :=
  let (root, b) := build part
  { tree := .freeze b root, init := startingStats, save := currentStats }

end Behaviour.Corridor
