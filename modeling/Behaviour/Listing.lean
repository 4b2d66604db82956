import Behaviour.Node

/-!
# Listings

A tree written out: one line for each node, each before its children, indented by two blanks for each level. A line
shows the kind and the name of its node; for a composite also its cursor, the number of its children and whether it
keeps its place; for a decorator its wrapping, the result that it holds back and whether its test has held.
-/

namespace Behaviour

variable {κ σ : Type}

/-- What a listing shows of a decorator's memory. -/
def Memory.remarks (m : Memory) : String :=
  (if m.hasPending then ", pending " ++ m.pending.name else "") ++ (if m.done then ", done" else "")

namespace Node

/-- What a line shows after the name of its node. -/
def remarks : Node κ σ → String
  | leaf _ _ => ""
  | composite _ _ keep cursor ns =>
    " [cursor " ++ toString (cursor.getD 0) ++ "/" ++ toString ns.length ++ (if keep then ", keep_state" else "") ++ "]"
  | decorator _ w m _ => " [" ++ w.wrapping.name ++ m.remarks ++ "]"

/-- The line of a node at a depth. -/
def line (depth : Nat) (n : Node κ σ) : String :=
  String.ofList (List.replicate (2 * depth) ' ') ++ n.kind.name ++ " \"" ++ n.label.name ++ "\"" ++ n.remarks ++ "\n"

mutual
/-- The lines of a node and all nodes below it. -/
def lines (depth : Nat) : Node κ σ → List String
  | leaf l a => [line depth (leaf l a)]
  | composite l r k c ns => line depth (composite l r k c ns) :: linesAll (depth + 1) ns
  | decorator l w m n => line depth (decorator l w m n) :: n.lines (depth + 1)

/-- The lines of several nodes at one depth. -/
def linesAll (depth : Nat) : List (Node κ σ) → List String
  | [] => []
  | n :: ns => n.lines depth ++ linesAll depth ns
end

/-- The listing of a node and all nodes below it. -/
def listing (n : Node κ σ) : String := String.join (n.lines 0)

end Node

end Behaviour
