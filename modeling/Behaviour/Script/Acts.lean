import Behaviour.Script.Bench

/-!
# Scripts

Acts, tests, hooks and snapshots that are written down as data. A script first changes registers, then answers; its
key tells the count of its answers by turns from those of other scripts.
-/

namespace Behaviour.Script

/-! ## Leaves -/

/-- What a scripted leaf answers. -/
inductive Reply where
  | always (status : Status)
  | byTurns (rota : Rota Status)
  | either (condition : Condition Nat) (yes no : Reply)

def Reply.answer (key : Nat) (s : Stage) : Reply → Status × Stage
  | always status => (status, s)
  | byTurns rota => rota.next .failure key s
  | either c yes no => if c.holds (read s) then yes.answer key s else no.answer key s

structure Leaf where
  effects : List Effect
  reply : Reply

def Leaf.act (key : Nat) (l : Leaf) : Act Registers Bench := fun s => l.reply.answer key (applyAll l.effects s)

/-! ## Tests -/

inductive TestReply where
  | always (answer : Bool)
  | byTurns (rota : Rota Bool)
  | holds (condition : Condition Nat)

structure Query where
  effects : List Effect
  reply : TestReply

def Query.test (key : Nat) (q : Query) : Test Registers Bench := fun s =>
  let s := applyAll q.effects s
  match q.reply with
  | .always answer => (answer, s)
  | .byTurns rota => rota.next false key s
  | .holds c => (c.holds (read s), s)

/-! ## Hooks -/

/-- A change of the memory of a hook's own decorator. -/
inductive Edit where
  | counter (v : Int32)
  | bump (v : Int32)
  | done (b : Bool)
  | pending (status : Status)
  | clear

def Edit.apply (m : Memory) : Edit → Memory
  | counter v => { m with counter := v }
  | bump v => { m with counter := m.counter + v }
  | done b => { m with done := b }
  | pending status => { m with pending := status, hasPending := true }
  | clear => { m with hasPending := false }

def Edit.applyAll (es : List Edit) (m : Memory) : Memory := es.foldl Edit.apply m

/-- A scripted before hook: it changes a copy of its context, which the child is given. -/
structure Prologue where
  edits : List Edit
  effects : List Effect

def Prologue.before (p : Prologue) : Before Registers Bench := fun s m =>
  (Script.applyAll p.effects s, Edit.applyAll p.edits m)

/-- What an after hook can compare: a register, or the counter of its decorator. -/
inductive Operand where
  | register (r : Nat)
  | counter

def Operand.value (s : Stage) (m : Memory) : Operand → Int64
  | register r => read s r
  | counter => m.counter.toInt64

/-- What a scripted after hook makes of its child's status. -/
inductive Verdict where
  | raw
  | always (status : Status)
  | map (onSuccess onFailure onRunning : Status)
  /-- Success only after so many successes of the child. -/
  | repeated (times : Int)
  | either (condition : Condition Operand) (yes no : Verdict)

/-- The status that is reported, and the memory after the verdict. -/
def Verdict.judge (status : Status) (s : Stage) (m : Memory) : Verdict → Status × Memory
  | raw => (status, m)
  | always status => (status, m)
  | map onSuccess onFailure onRunning =>
    match status with
    | .success => (onSuccess, m)
    | .failure => (onFailure, m)
    | .running => (onRunning, m)
  | repeated times =>
    if status ≠ .success then (status, m)
    else
      let counter := m.counter + 1
      if counter.toInt < times then (.running, { m with counter }) else (.success, { m with counter := 0 })
  | either c yes no => if c.holds (Operand.value s m) then yes.judge status s m else no.judge status s m

structure Epilogue where
  edits : List Edit
  verdict : Verdict

def Epilogue.after (e : Epilogue) : After Registers Bench := fun status s m =>
  let (status, m) := e.verdict.judge status s (Edit.applyAll e.edits m)
  (status, s.world, m)

/-! ## Snapshots -/

/-- A scripted snapshot: fixed values, or else a copy of the shared registers after the effects. -/
structure Snapshot where
  effects : List Effect
  values : Option Registers

def Snapshot.camera (c : Snapshot) : Camera Registers Bench := fun world =>
  let world := (applyAll c.effects ⟨#[], world⟩).world
  (c.values.getD world.shared, world)

end Behaviour.Script
