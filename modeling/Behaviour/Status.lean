/-!
# Statuses

What a node answers when it is visited. `negate` exchanges success and failure and is its own inverse
(`negate_negate`). A status also has a one-byte code, from which it is read back (`ofCode?_code`); a byte that is no
code is written `UNKNOWN` and is left alone by `negateCode`.
-/

namespace Behaviour

/-- What one visit of a node reports. -/
inductive Status where
  /-- The node has finished its job. -/
  | success
  /-- The node cannot do its job, or its condition does not hold. -/
  | failure
  /-- The node needs more turns. -/
  | running
  deriving DecidableEq, Inhabited

/-- The name of a byte that stands for nothing. -/
def unknownName : String := "UNKNOWN"

namespace Status

/-- Success and failure change places; a running node stays running. -/
def negate : Status → Status
  | success => failure
  | failure => success
  | running => running

@[simp] theorem negate_negate : ∀ s : Status, s.negate.negate = s
  | success | failure | running => rfl

@[simp] theorem negate_eq_running_iff {s : Status} : s.negate = running ↔ s = running := by
  cases s <;> simp [negate]

/-- The name under which a status is written. -/
def name : Status → String
  | success => "SUCCESS"
  | failure => "FAILURE"
  | running => "RUNNING"

/-! ## Codes -/

/-- The byte that stands for a status. -/
def code : Status → UInt8
  | success => 0
  | failure => 1
  | running => 2

/-- The status that a byte stands for. -/
def ofCode? : UInt8 → Option Status
  | 0 => some success
  | 1 => some failure
  | 2 => some running
  | _ => none

@[simp] theorem ofCode?_code : ∀ s : Status, ofCode? s.code = some s
  | success | failure | running => rfl

/-- The name written for a byte. -/
def nameOfCode (c : UInt8) : String := (ofCode? c).elim unknownName name

/-- Negation on bytes: a byte that stands for no status is left as it is. -/
def negateCode (c : UInt8) : UInt8 := (ofCode? c).elim c fun s => s.negate.code

@[simp] theorem negateCode_code (s : Status) : negateCode s.code = s.negate.code := by
  simp [negateCode]

end Status

end Behaviour
