import Behaviour.Node

/-!
# Visits

One visit of a node. A leaf acts. A composite visits its children from its start place on until one answers
something other than its rule's `onward` status; it goes back to its first child unless that child is still running,
and a composite that does not keep its place starts afresh each time. A decorator opens, visits its child and closes.

A visit tells its status, the node with its new progress, the scene it leaves, and the log of everything that
happened, in order. `visit` and `scan` recurse on the tree, so a visit always ends.
-/

namespace Behaviour

variable {κ σ : Type}

/-! ## What happens in a visit -/

/-- Something that happened while a tree was visited. -/
inductive Event (κ σ : Type) where
  /-- A leaf acted, with this status. -/
  | acted (label : Label) (status : Status)
  /-- A decorator asked its test, with this answer. -/
  | tested (label : Label) (answer : Bool)
  /-- A decorator derived the scene of its child. -/
  | derived (label : Label)
  /-- A decorator judged this result of its child. -/
  | judged (label : Label) (raw : Status)
  /-- The visit of a node ended with this status and left this scene. -/
  | finished (label : Label) (kind : Kind) (status : Status) (scene : Scene κ σ)

/-- What comes out of one visit. -/
structure Visit (κ σ : Type) where
  status : Status
  node : Node κ σ
  scene : Scene κ σ
  log : List (Event κ σ)

/-- The visit with its end written to the log. -/
def Visit.finish (v : Visit κ σ) : Visit κ σ :=
  { v with log := v.log ++ [.finished v.node.label v.node.kind v.status v.scene] }

/-- What comes out of visiting children of a composite one after another; `stop` is the place of the last one. -/
structure Scan (κ σ : Type) where
  status : Status
  stop : Nat
  children : List (Node κ σ)
  scene : Scene κ σ
  log : List (Event κ σ)

/-! ## Opening and closing a decorator -/

/-- A decorator that is about to visit its child: its memory, the scene of the child, and the log so far. -/
structure Opening (κ σ : Type) where
  memory : Memory
  scene : Scene κ σ
  log : List (Event κ σ)

/-- A decorator that has judged its child. -/
structure Closing (κ σ : Type) where
  status : Status
  memory : Memory
  scene : Scene κ σ
  log : List (Event κ σ)

namespace Decorator

/-- Before the child: a test that has not held yet is asked, a before hook derives the scene of the child. -/
def enter (label : Label) (memory : Memory) (scene : Scene κ σ) : Decorator κ σ → Opening κ σ
  | await test =>
    if memory.done then ⟨memory, scene, []⟩
    else
      let (answer, scene) := test scene
      ⟨{ memory with done := answer }, scene, [.tested label answer]⟩
  | custom (some before) _ =>
    let (scene, memory) := before scene memory
    ⟨memory, scene, [.derived label]⟩
  | negate | delay | custom none _ => ⟨memory, scene, []⟩

/-- The scene that a decorator goes on with after its child: where a before hook derived the child's scene, the
decorator has its own context back. -/
def restore (outer inner : Scene κ σ) : Decorator κ σ → Scene κ σ
  | custom (some _) _ => outer.keepContext inner
  | negate | delay | await _ | custom none _ => inner

/-- After the child: what the decorator makes of the child's status. -/
def leave (label : Label) (memory : Memory) (raw : Status) (scene : Scene κ σ) : Decorator κ σ → Closing κ σ
  | negate => ⟨raw.negate, memory, scene, []⟩
  | delay =>
    if memory.hasPending then ⟨memory.pending, { memory with hasPending := false }, scene, []⟩
    else ⟨.running, { memory with pending := raw, hasPending := true }, scene, []⟩
  | await _ =>
    if raw = .failure then ⟨.failure, memory, scene, []⟩
    else if memory.done then ⟨.success, { memory with done := false }, scene, []⟩
    else ⟨.running, memory, scene, []⟩
  | custom _ (some after) =>
    let (status, world, memory) := after raw scene memory
    ⟨status, memory, { scene with world }, [.judged label raw]⟩
  | custom _ none => ⟨raw, memory, scene, []⟩

end Decorator

/-! ## Visits -/

/-- The place at which a composite starts: the kept one, or its first child. -/
def startPlace (keep : Bool) (cursor : Option Nat) : Nat := if keep then cursor.getD 0 else 0

mutual
/-- One visit of a node. -/
def Node.visit : Node κ σ → Scene κ σ → Visit κ σ
  | .leaf label act, scene =>
    let (status, scene) := act scene
    Visit.finish ⟨status, .leaf label act, scene, [.acted label status]⟩
  | .composite label rule keep cursor children, scene =>
    let s := Node.scan rule (startPlace keep cursor) children scene
    let cursor := if s.status = .running then s.stop else 0
    Visit.finish ⟨s.status, .composite label rule keep (some cursor) s.children, s.scene, s.log⟩
  | .decorator label wrap memory child, scene =>
    let o := wrap.enter label memory scene
    let v := child.visit o.scene
    let c := wrap.leave label o.memory v.status (wrap.restore scene v.scene)
    Visit.finish ⟨c.status, .decorator label wrap c.memory v.node, c.scene, o.log ++ v.log ++ c.log⟩

/-- Visits of children in order, after leaving out the first `skip`, as long as the rule goes on. -/
def Node.scan (rule : Rule) : Nat → List (Node κ σ) → Scene κ σ → Scan κ σ
  | _, [], scene => ⟨rule.onward, 0, [], scene, []⟩
  | skip + 1, child :: rest, scene =>
    let s := Node.scan rule skip rest scene
    { s with stop := s.stop + 1, children := child :: s.children }
  | 0, child :: rest, scene =>
    let v := child.visit scene
    if v.status = rule.onward then
      let s := Node.scan rule 0 rest v.scene
      { s with stop := s.stop + 1, children := v.node :: s.children, log := v.log ++ s.log }
    else ⟨v.status, 0, v.node :: rest, v.scene, v.log⟩
end

/-! ## Visits keep the tree -/

namespace Node

mutual
/-- A visit keeps the labels of all nodes. -/
@[simp] theorem labels_visit : ∀ (n : Node κ σ) (scene : Scene κ σ), (n.visit scene).node.labels = n.labels
  | leaf _ _, _ => rfl
  | composite _ rule keep cursor ns, scene => by
    have := map_label_forest_scan rule (startPlace keep cursor) ns scene
    simp_all [visit, Visit.finish, labels, subtree, label]
  | decorator l wrap memory n, scene => by
    have := labels_visit n (wrap.enter l memory scene).scene
    simp_all [visit, Visit.finish, labels, subtree, label]

theorem map_label_forest_scan (rule : Rule) : ∀ (skip : Nat) (ns : List (Node κ σ)) (scene : Scene κ σ),
    (forest (scan rule skip ns scene).children).map label = (forest ns).map label
  | _, [], _ => by simp [scan]
  | skip + 1, n :: ns, scene => by
    have := map_label_forest_scan rule skip ns scene
    simp_all [scan]
  | 0, n :: ns, scene => by
    have h₁ := labels_visit n scene
    have h₂ := map_label_forest_scan rule 0 ns (n.visit scene).scene
    unfold labels at h₁
    simp only [scan]
    split
    · rw [forest, forest, List.map_append, List.map_append, h₁, h₂]
    · rw [forest, forest, List.map_append, List.map_append, h₁]
end

/-- The last thing written to the log of a visit is that it ended, and how. -/
theorem log_visit (n : Node κ σ) (scene : Scene κ σ) : ∃ log : List (Event κ σ), (n.visit scene).log =
    log ++ [.finished (n.visit scene).node.label (n.visit scene).node.kind (n.visit scene).status
      (n.visit scene).scene] := by
  cases n <;> exact ⟨_, by simp only [visit, Visit.finish]; rfl⟩

end Node

end Behaviour
