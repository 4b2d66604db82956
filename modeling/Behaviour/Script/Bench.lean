import Behaviour.Player

/-!
# A bench of registers

The scene on which scripts run: 64-bit registers that all nodes share, registers that belong to the context, and for
each script that answers by turns a count of its answers. Registers are numbered through, the shared ones first.
Arithmetic wraps.
-/

namespace Behaviour.Script

/-- A row of 64-bit registers. -/
abbrev Registers := Array Int64

/-- The world of scripts: the shared registers, and how often each script has answered by turns. -/
structure Bench where
  shared : Registers
  counts : Array Nat

/-- The scene of scripts. -/
abbrev Stage := Scene Registers Bench

/-! ## Registers -/

/-- The value of a register; one that does not exist holds zero. -/
def read (s : Stage) (r : Nat) : Int64 :=
  if r < s.world.shared.size then s.world.shared.getD r 0 else s.context.getD (r - s.world.shared.size) 0

/-- The scene with a new value in a register; one that does not exist is left alone. -/
def write (s : Stage) (r : Nat) (v : Int64) : Stage :=
  if r < s.world.shared.size then { s with world := { s.world with shared := s.world.shared.setIfInBounds r v } }
  else { s with context := s.context.setIfInBounds (r - s.world.shared.size) v }

/-- A change of one register. -/
inductive Effect where
  | add (r : Nat) (v : Int64)
  | set (r : Nat) (v : Int64)
  | copy (dst src : Nat)

/-- The scene after a change. -/
def Effect.apply (s : Stage) : Effect → Stage
  | add r v => write s r (read s r + v)
  | set r v => write s r v
  | copy dst src => write s dst (read s src)

/-- Several changes in order. -/
def applyAll (es : List Effect) (s : Stage) : Stage := es.foldl Effect.apply s

/-! ## Conditions -/

/-- How two values are compared. -/
inductive Comparison where
  | lt
  | le
  | eq
  | ne
  | ge
  | gt

/-- Whether a comparison of `a` with `b` holds. -/
def Comparison.holds (a b : Int64) : Comparison → Bool
  | lt => a < b
  | le => a ≤ b
  | eq => a == b
  | ne => a != b
  | ge => b ≤ a
  | gt => b < a

/-- A comparison of something with a fixed value. -/
structure Condition (α : Type) where
  operand : α
  comparison : Comparison
  value : Int64

/-- Whether a condition holds where operands have these values. -/
def Condition.holds {α : Type} (value : α → Int64) (c : Condition α) : Bool :=
  c.comparison.holds (value c.operand) c.value

/-! ## Answers by turns -/

/-- Answers that are given one after another: after the last one it starts over, or it stays with the last one. -/
structure Rota (α : Type) where
  answers : List α
  loop : Bool

/-- The answer of turn `n`, counted from zero. -/
def Rota.pick? {α : Type} (r : Rota α) (n : Nat) : Option α :=
  if r.loop then r.answers[n % r.answers.length]? else r.answers[min n (r.answers.length - 1)]?

/-- The answer of a rota for the script with a key, which is counted. -/
def Rota.next {α : Type} (r : Rota α) (default : α) (key : Nat) (s : Stage) : α × Stage :=
  let n := s.world.counts.getD key 0
  ((r.pick? n).getD default,
    { s with world := { s.world with counts := s.world.counts.setIfInBounds key (n + 1) } })

end Behaviour.Script
