import Behaviour.Corridor.Warrior
import Behaviour.Text.Column
import Behaviour.Text.Numeral

/-!
# Expeditions

The warrior's tree plays a few corridors. Without a choice it plays all of them; with one it plays that level and
prints what each leaf answers.
-/

namespace Behaviour.Demo.Expedition

open Corridor Text

/-- A corridor with a title. -/
structure Level where
  title : String
  layout : List Char

/-- The corridors of the demonstration. -/
def levels : List Level :=
  [⟨"stairs", "@      >".toList⟩, ⟨"sludge", "@  s   >".toList⟩, ⟨"captive behind", " C@  s  >".toList⟩,
    ⟨"archer", "@ C   a  s >".toList⟩]

/-- The number of turns after which a level is given up. -/
def maxTurns : Nat := 60

/-- What is printed, and whether the warrior got through. -/
structure Report where
  text : String
  cleared : Bool

/-- The corridor and the warrior's health, filled up to a width. -/
def scenery (width : Nat) (w : World) : String :=
  w.render ++ "  hp " ++ padLeft width (toString w.health)

/-- What the observer prints: the leaves. -/
def sightingLine (s : Sighting Stats World) : String :=
  if s.kind = .leaf then line ("    " ++ padRight 18 s.name ++ " " ++ s.status.name) else ""

/-- Turns from number `turn` on, at most `left` of them, until the level is decided. -/
def turns (turn : Nat) : (left : Nat) → Player Stats World → World → Report
  | 0, _, _ => ⟨line ("  Gave up after " ++ toString maxTurns ++ " turns") ++ line "", false⟩
  | left + 1, p, w =>
    match p.play w with
    | .error _ => ⟨"", false⟩
    | .ok r =>
      let w := r.world.endTurn
      let text := String.join (r.sightings.map sightingLine) ++
        line ("  turn " ++ padLeft 2 (toString turn) ++ "  " ++ scenery 2 w ++ "  " ++ r.status.name)
      if w.won then
        ⟨text ++ line ("  Reached the stairs in " ++ toString turn ++ " turns, rescued " ++ toString w.rescued) ++
          line "", true⟩
      else if w.dead then ⟨text ++ line ("  Warrior died on turn " ++ toString turn) ++ line "", false⟩
      else
        let rest := turns (turn + 1) left r.player w
        ⟨text ++ rest.text, rest.cleared⟩

/-- One level, with or without an observer. -/
def attempt (tracing : Bool) (level : Level) : Report :=
  let p := (playerOf warriorTree).watch tracing
  match p.tree.defect? with
  | some d => ⟨line ("Tree invalid: " ++ d.name), false⟩
  | none =>
    let w := World.ofLayout level.layout
    let head := line ("=== Level \"" ++ level.title ++ "\" ===") ++ line ("  start    " ++ scenery 0 w)
    let r := turns 1 maxTurns p w
    ⟨head ++ r.text, r.cleared⟩

/-- Several levels, and how many of them were cleared. -/
def playAll (tracing : Bool) (chosen : List Level) : String :=
  let reports := chosen.map (attempt tracing)
  String.join (reports.map Report.text) ++
    line ("Levels cleared: " ++ toString (reports.countP Report.cleared) ++ "/" ++ toString chosen.length)

/-- What a program prints, and its exit code. -/
structure Outcome where
  exitCode : Nat
  output : String

/-- The expedition of a program with a name and arguments: the first one, if any, is the number of a level. -/
def run (program : String) : List String → Outcome
  | [] => ⟨0, playAll false levels⟩
  | choice :: _ =>
    let n := (leadingInt32 choice).toInt
    if n < 1 || levels.length < n then
      ⟨1, line ("Usage: " ++ program ++ " [level 1.." ++ toString levels.length ++ "]")⟩
    else ⟨0, playAll true ((levels.drop (n.toNat - 1)).take 1)⟩

end Behaviour.Demo.Expedition
