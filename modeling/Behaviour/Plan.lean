import Behaviour.Builder

/-!
# From drafts to a tree

`Builder.plan` grows the tree below a root, or tells the defect that forbids it: the first defect of the wiring, a
root that names no node or has a parent, or else the defect of the first faulty draft, each draft being looked at
before its children. The walk counts down from the number of drafts; a way down that is longer than that comes back
to a node, which no parentless root allows.

`Builder.check` is the verdict alone; it is `none` exactly when there is a tree to play (`check_eq_none_iff`).
-/

namespace Behaviour

variable {κ σ : Type}

/-- The tree that the drafts below a number make, with no more than `depth` levels. -/
def grow (drafts : List (Draft κ σ)) : (depth : Nat) → Nat → Except Defect (Node κ σ)
  | 0, _ => .error .secondParent
  | depth + 1, handle =>
    match drafts[handle]? with
    | none => .error .unknownHandle
    | some d =>
      match d.role, d.children with
      | .leaf none, _ => .error .idleLeaf
      | .leaf (some act), _ => .ok (.leaf ⟨handle, d.name⟩ act)
      | .composite _ _, [] => .error .emptyComposite
      | .composite rule keep, child :: rest => do
        let nodes ← (child :: rest).mapM (grow drafts depth)
        return .composite ⟨handle, d.name⟩ rule keep none nodes
      | .decorator none, [_] => .error .missingTest
      | .decorator (some wrap), [child] => do
        let node ← grow drafts depth child
        return .decorator ⟨handle, d.name⟩ wrap {} node
      | .decorator _, _ => .error .unboundDecorator

/-- The numbers of a draft and of those below it, each before its children, down to `depth` levels. -/
def walk (drafts : List (Draft κ σ)) : (depth : Nat) → Nat → List Nat
  | 0, _ => []
  | depth + 1, handle =>
    match drafts[handle]? with
    | none => []
    | some d => handle :: d.children.flatMap (walk drafts depth)

namespace Builder

/-- The tree below a root, or the defect that forbids it. -/
def plan (b : Builder κ σ) (root : Int) : Except Defect (Node κ σ) :=
  match b.defect, b.draft? root with
  | some d, _ => .error d
  | none, none => .error .unknownHandle
  | none, some d => if d.parent.isSome then .error .ownedRoot else grow b.drafts b.size root.toNat

/-- What is wrong with the tree below a root, if anything. -/
def check (b : Builder κ σ) (root : Int) : Option Defect :=
  match b.plan root with
  | .ok _ => none
  | .error d => some d

/-- Nothing is wrong exactly when there is a tree. -/
theorem check_eq_none_iff (b : Builder κ σ) (root : Int) : b.check root = none ↔ ∃ n, b.plan root = .ok n := by
  unfold check
  cases b.plan root <;> simp

/-- A defect of the wiring decides every later verdict. -/
theorem check_of_defect {b : Builder κ σ} {d : Defect} (h : b.defect = some d) (root : Int) :
    b.check root = some d := by
  simp [check, plan, h]

end Builder

end Behaviour
