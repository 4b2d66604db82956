import Behaviour.Status

/-!
# Defects

What can be wrong with the wiring of a draft, and the two misuses of a finished structure that stop a program.
The first defect of a draft is kept and decides every later answer about it; `none` stands for a sound draft.
-/

namespace Behaviour

/-- What is wrong with a draft. -/
inductive Defect where
  /-- There was no room for another node. -/
  | full
  /-- A handle names no node. -/
  | unknownHandle
  /-- Children were given to a node that cannot have them. -/
  | wrongKind
  /-- A leaf has nothing to do. -/
  | idleLeaf
  /-- A sequence or selector has no children. -/
  | emptyComposite
  /-- A composite was given more children than it has room for. -/
  | tooManyChildren
  /-- A decorator has no child. -/
  | unboundDecorator
  /-- A decorator was given a second child. -/
  | reboundDecorator
  /-- A decorator waits for a test that it does not have. -/
  | missingTest
  /-- A node was put under a second parent, or under itself. -/
  | secondParent
  /-- The root is the child of some node. -/
  | ownedRoot
  deriving DecidableEq

namespace Defect

/-- The name under which a defect is written. -/
def name : Defect → String
  | full => "ARENA_FULL"
  | unknownHandle => "INVALID_HANDLE"
  | wrongKind => "WRONG_NODE_TYPE"
  | idleLeaf => "LEAF_MISSING_TICK"
  | emptyComposite => "COMPOSITE_NO_CHILDREN"
  | tooManyChildren => "CHILDREN_EXCEED_MAX"
  | unboundDecorator => "DECORATOR_UNBOUND"
  | reboundDecorator => "DECORATOR_REBOUND"
  | missingTest => "UNTIL_MISSING_PREDICATE"
  | secondParent => "MULTIPLE_PARENTS"
  | ownedRoot => "ROOT_HAS_PARENT"

/-- The name of a verdict: `NONE` where nothing is wrong. -/
def verdict (d : Option Defect) : String := d.elim "NONE" name

/-- The verdict that a byte stands for. -/
def ofCode? : UInt8 → Option (Option Defect)
  | 0 => some none
  | 1 => some (some full)
  | 2 => some (some unknownHandle)
  | 3 => some (some wrongKind)
  | 4 => some (some idleLeaf)
  | 5 => some (some emptyComposite)
  | 6 => some (some tooManyChildren)
  | 7 => some (some unboundDecorator)
  | 8 => some (some reboundDecorator)
  | 9 => some (some missingTest)
  | 10 => some (some secondParent)
  | 11 => some (some ownedRoot)
  | _ => none

/-- The name written for a byte. -/
def nameOfCode (c : UInt8) : String := (ofCode? c).elim unknownName verdict

end Defect

/-- A misuse that stops the program: the call has no answer. -/
inductive Fault where
  /-- A tree was played although its draft has a defect. -/
  | invalidTree
  /-- A node of a draft was asked for by a handle that names none. -/
  | noSuchDraft
  /-- A node of a tree was asked for by a handle that names none. -/
  | noSuchNode
  /-- The current item of an empty list was asked for. -/
  | emptyCursor
  /-- A player was set up without a first snapshot. -/
  | missingInit
  /-- A player was set up without a way to take snapshots. -/
  | missingSave
  deriving DecidableEq

end Behaviour
