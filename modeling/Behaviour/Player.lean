import Behaviour.Tree

/-!
# Players

A player plays a tree against a world turn by turn. The context of a turn is a snapshot: the one taken at the end of
the turn before, or a first one taken when play begins. What the nodes do to their context ends with the turn; what
they do to the world stays.
-/

namespace Behaviour

/-- Takes a snapshot of the world, which it may change. -/
abbrev Camera (κ σ : Type) := σ → κ × σ

/-- A tree, how snapshots are taken, and the last snapshot, if play has begun. -/
structure Player (κ σ : Type) where
  tree : Tree κ σ
  init : Camera κ σ
  save : Camera κ σ
  snapshot : Option κ := none

variable {κ σ : Type}

/-- Something that happened during a turn of a player. -/
inductive Moment (κ σ : Type) where
  /-- The first snapshot was taken. -/
  | opened (snapshot : κ)
  /-- Something happened in the tree. -/
  | inside (event : Event κ σ)
  /-- The snapshot for the next turn was taken. -/
  | closed (snapshot : κ)

/-- What comes out of one turn of a player. -/
structure Round (κ σ : Type) where
  status : Status
  player : Player κ σ
  world : σ
  log : List (Moment κ σ)
  /-- What the observer of the tree was told. -/
  sightings : List (Sighting κ σ)

namespace Player

/-- A player who has not begun; both ways of taking snapshots are needed, and the first one is asked for first. -/
def ofTree (tree : Tree κ σ) : (init save : Option (Camera κ σ)) → Except Fault (Player κ σ)
  | none, _ => .error .missingInit
  | some _, none => .error .missingSave
  | some init, some save => .ok { tree, init, save }

/-- The snapshot that a turn plays with, the world after it was taken, and the log of taking it. -/
def opening (p : Player κ σ) (world : σ) : κ × σ × List (Moment κ σ) :=
  match p.snapshot with
  | some s => (s, world, [])
  | none =>
    let (s, world) := p.init world
    (s, world, [.opened s])

/-- One turn: the snapshot at hand or a first one, one tick of the tree, and the snapshot for the next turn. -/
def play (p : Player κ σ) (world : σ) : Except Fault (Round κ σ) := do
  let (context, world, opened) := p.opening world
  let turn ← p.tree.tick ⟨context, world⟩
  let (saved, world) := p.save turn.scene.world
  return {
    status := turn.status
    player := { p with tree := turn.tree, snapshot := some saved }
    world := world
    log := opened ++ turn.log.map .inside ++ [.closed saved]
    sightings := turn.sightings }

/-- Forgets the progress of the tree; the snapshot stays. -/
def reset (p : Player κ σ) : Player κ σ := { p with tree := p.tree.reset }

/-- Turns the observer of the tree on or off. -/
def watch (p : Player κ σ) (tracing : Bool) : Player κ σ := { p with tree := p.tree.watch tracing }

end Player

end Behaviour
