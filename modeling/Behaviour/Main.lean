import Behaviour.Demo.Door
import Behaviour.Demo.Expedition

/-!
# The command line

`door` plays the demonstration with the door; `expedition` takes the number of a level, or plays all of them.
-/

open Behaviour.Demo

/-- Prints a demonstration and ends with its exit code. -/
def main (args : List String) : IO UInt32 := do
  match args with
  | "door" :: _ =>
    IO.print Door.output
    return 0
  | "expedition" :: rest =>
    let outcome := Expedition.run "expedition" rest
    IO.print outcome.output
    return outcome.exitCode.toUInt32
  | _ =>
    IO.eprintln "usage: behaviour door | behaviour expedition [level]"
    return 2
