import Behaviour.Player
import Behaviour.Proofs.Soundness

/-!
# Players in the long run

A caller plays a player turn by turn, changes the world in between as it likes, and resets the tree now and then
(`Order`). To the tree this is a run of ticks and resets; all that the player adds is the scene of each tick
(`sceneAt`): the first one has the snapshot that was taken when play began, every later one the snapshot that was
taken at the end of the turn before, whatever the nodes did to their context since, and whatever has become of the
world.

`Round.Told` is what one turn of a player comes to, given the snapshot it begins with; `Player.rounds_of_plan` strings
turns together, and `snapshots_carried` says what they come to from the first one on.
-/

namespace Behaviour

/-! ## Drives -/

/-- What a caller does with a player whose world may be changed or replaced between turns. -/
inductive Order (σ : Type) where
  | play (world : σ)
  | reset

variable {κ σ : Type}

/-- The player after several orders. -/
def Player.drive (p : Player κ σ) : List (Order σ) → Except Fault (Player κ σ)
  | [] => .ok p
  | .play w :: os => do
    let round ← p.play w
    round.player.drive os
  | .reset :: os => p.reset.drive os

/-- The rounds of several orders, and the player after them. -/
def Player.rounds (p : Player κ σ) : List (Order σ) → Except Fault (List (Round κ σ) × Player κ σ)
  | [] => .ok ([], p)
  | .play w :: os => do
    let round ← p.play w
    let (rounds, p) ← round.player.rounds os
    return (round :: rounds, p)
  | .reset :: os => p.reset.rounds os

/-- The world that a turn is played against. -/
def Order.world? : Order σ → Option σ
  | play world => some world
  | reset => none

/-- What the tree is told when orders are carried out, each turn in its scene. -/
def Order.commands : List (Order σ) → List (Scene κ σ) → List (Command κ σ)
  | play _ :: os, scene :: scenes => .tick scene :: commands os scenes
  | play _ :: _, [] => []
  | reset :: os, scenes => .reset :: commands os scenes
  | [], _ => []

/-- What happened in the tree at a moment of a turn. -/
def Moment.inside? : Moment κ σ → Option (Event κ σ)
  | .inside e => some e
  | .opened _ | .closed _ => none

/-- A turn of a player whose tree can be played is one visit of the root between two snapshots. -/
theorem Player.play_of_plan (p : Player κ σ) {n : Node κ σ} (h : p.tree.plan = .ok n) (world : σ) :
    p.play world =
      let opening := p.opening world
      let v := n.visit ⟨opening.1, opening.2.1⟩
      let saved := p.save v.scene.world
      let tree := { p.tree with plan := .ok v.node, lastStatus := v.status, ticks := p.tree.ticks + 1 }
      .ok {
        status := v.status
        player := { p with tree, snapshot := some saved.1 }
        world := saved.2
        log := opening.2.2 ++ v.log.map .inside ++ [.closed saved.1]
        sightings := (⟨v.status, tree, v.scene, v.log⟩ : Turn κ σ).sightings } := by
  simp only [play, Tree.tick_of_plan h]
  rfl

/-- What happened in the tree stands in the log of a turn between the two snapshots. -/
theorem Player.inside_log (p : Player κ σ) (world : σ) (log : List (Event κ σ)) (saved : κ) :
    ((p.opening world).2.2 ++ log.map Moment.inside ++ [Moment.closed saved]).filterMap Moment.inside? = log := by
  have hopen : (p.opening world).2.2.filterMap Moment.inside? = [] := by
    unfold opening
    split <;> rfl
  have hinside : (log.map Moment.inside).filterMap (Moment.inside? : Moment κ σ → _) = log := by
    rw [List.filterMap_map]
    exact List.filterMap_some
  rw [List.filterMap_append, List.filterMap_append, hopen, hinside]
  exact List.append_nil log

/-! ## One turn -/

/-- A turn of a player with this snapshot at hand (`none` if play has not begun) against a world: its tree was ticked
in the scene, which came to the turn. -/
structure Round.Told (init save : Camera κ σ) (snapshot : Option κ) (world : σ) (scene : Scene κ σ) (turn : Turn κ σ)
    (round : Round κ σ) : Prop where
  /-- A first snapshot is taken of the world and may change it. -/
  first : snapshot = none → scene = ⟨(init world).1, (init world).2⟩
  /-- A snapshot at hand is used as it is. -/
  later : ∀ s, snapshot = some s → scene = ⟨s, world⟩
  /-- A first snapshot is taken before anything happens in the tree, the snapshot for the next turn after all of it. -/
  log : round.log = (if snapshot.isNone then [.opened scene.context] else []) ++ turn.log.map .inside ++
    [.closed (save turn.scene.world).1]
  snapshot : round.player.snapshot = some (save turn.scene.world).1
  world : round.world = (save turn.scene.world).2
  status : round.status = turn.status
  lastStatus : turn.tree.lastStatus = turn.status
  tree : round.player.tree = turn.tree

/-- A player whose tree can be played plays its next turn, and goes on with the same ways of taking snapshots and a
tree that can be played. -/
theorem Player.told_of_plan (p : Player κ σ) {n : Node κ σ} (hplan : p.tree.plan = .ok n) (world : σ) :
    ∃ (scene : Scene κ σ) (turn : Turn κ σ) (round : Round κ σ), p.play world = .ok round ∧
      p.tree.tick scene = .ok turn ∧ round.Told p.init p.save p.snapshot world scene turn ∧
      round.player.init = p.init ∧ round.player.save = p.save ∧
      round.player.tree.plan = .ok (n.visit scene).node := by
  have hplay := p.play_of_plan hplan world
  refine ⟨_, _, _, hplay, Tree.tick_of_plan hplan _, ?_, rfl, rfl, rfl⟩
  constructor
  case first =>
    intro h
    simp only [opening, h]
  case later =>
    intro s h
    simp only [opening, h]
  case log =>
    cases h : p.snapshot with
    | none =>
      simp only [opening, h]
      rfl
    | some s =>
      simp only [opening, h]
      rfl
  case snapshot => rfl
  case world => rfl
  case status => rfl
  case lastStatus => rfl
  case tree => rfl

/-! ## Many turns -/

/-- The snapshot at hand before a turn, given the one before the first of several rounds. -/
def snapshotBefore (first : Option κ) (rounds : List (Round κ σ)) : Nat → Option κ
  | 0 => first
  | i + 1 => rounds[i]?.bind fun round => round.player.snapshot

theorem snapshotBefore_succ (first : Option κ) (round : Round κ σ) (rounds : List (Round κ σ)) (i : Nat) :
    snapshotBefore first (round :: rounds) (i + 1) = snapshotBefore round.player.snapshot rounds i := by
  cases i with
  | zero => rfl
  | succ i => rfl

/-- Orders are carried out one after another: the tree is told to tick in certain scenes and to reset, and each round
begins with the snapshot that the one before has left. -/
theorem Player.rounds_of_plan : ∀ (orders : List (Order σ)) (p : Player κ σ) {n : Node κ σ}, p.tree.plan = .ok n →
    ∃ (scenes : List (Scene κ σ)) (turns : List (Turn κ σ)) (rounds : List (Round κ σ)) (p' : Player κ σ),
      p.rounds orders = .ok (rounds, p') ∧ p.drive orders = .ok p' ∧
      p.tree.play (Order.commands orders scenes) = .ok (turns, p'.tree) ∧
      rounds.length = (orders.filterMap Order.world?).length ∧
      ∀ i w, (orders.filterMap Order.world?)[i]? = some w →
        ∃ (scene : Scene κ σ) (turn : Turn κ σ) (round : Round κ σ), scenes[i]? = some scene ∧
        turns[i]? = some turn ∧ rounds[i]? = some round ∧
        round.Told p.init p.save (snapshotBefore p.snapshot rounds i) w scene turn
  | [], p, n, _ => by
    refine ⟨[], [], [], p, rfl, rfl, rfl, rfl, ?_⟩
    intro i w hw
    cases hw
  | .play world :: orders, p, n, hplan => by
    obtain ⟨scene, turn, round, hplay, hturn, htold, hinit, hsave, hplan'⟩ := p.told_of_plan hplan world
    obtain ⟨scenes, turns, rounds, p', hrounds, hdrive, htree, hlength, hall⟩ :=
      rounds_of_plan orders round.player hplan'
    refine ⟨scene :: scenes, turn :: turns, round :: rounds, p', ?_, ?_, ?_, ?_, ?_⟩
    · simp only [Player.rounds, hplay, bind, Except.bind, hrounds]
      rfl
    · simp only [drive, hplay, bind, Except.bind, hdrive]
    · rw [htold.tree] at htree
      simp only [Order.commands, Tree.play, hturn, bind, Except.bind, htree]
      rfl
    · rw [List.length_cons, hlength]
      rfl
    · intro i w hw
      cases i with
      | zero =>
        obtain rfl : world = w := Option.some.inj hw
        exact ⟨scene, turn, round, rfl, rfl, rfl, htold⟩
      | succ i =>
        obtain ⟨scene', turn', round', hscene', hturn', hround', htold'⟩ := hall i w hw
        rw [hinit, hsave, ← snapshotBefore_succ p.snapshot] at htold'
        exact ⟨scene', turn', round', hscene', hturn', hround', htold'⟩
  | .reset :: orders, p, n, hplan => by
    have hplan' : p.reset.tree.plan = .ok n.reset := by
      simp only [reset, Tree.reset, hplan, Except.map]
    obtain ⟨scenes, turns, rounds, p', hrounds, hdrive, htree, hlength, hall⟩ := rounds_of_plan orders p.reset hplan'
    exact ⟨scenes, turns, rounds, p', hrounds, hdrive, htree, hlength, hall⟩

/-! ## From the first turn on -/

/-- The scene in which the tree is ticked in a turn of a player against a world, given the turns of the tree. -/
def sceneAt (init save : Camera κ σ) (turns : List (Turn κ σ)) (world : σ) : Nat → Option (Scene κ σ)
  | 0 => some ⟨(init world).1, (init world).2⟩
  | i + 1 => turns[i]?.map fun turn => ⟨(save turn.scene.world).1, world⟩

/-- A new player of the tree below a root carries out all these orders. Its rounds are the turns of the tree in the
scenes that snapshots make, in place as on the tree. A first snapshot is taken in the first round only and before
anything else; in each round a snapshot is taken once, after everything else, and it is the one that the player shows
then; the status of a round is the one of the root. -/
def Builder.CarriesSnapshots (b : Builder κ σ) (root : Int) (init save : Camera κ σ) (orders : List (Order σ)) : Prop :=
  ∃ (p p' : Player κ σ) (rounds : List (Round κ σ)) (scenes : List (Scene κ σ)) (turns : List (Turn κ σ))
      (a : Arena κ σ),
    Player.ofTree (Tree.freeze b root) (some init) (some save) = .ok p ∧
    p.rounds orders = .ok (rounds, p') ∧ p.drive orders = .ok p' ∧
    (Tree.freeze b root).play (Order.commands orders scenes) = .ok (turns, p'.tree) ∧
    (Arena.play (Order.commands orders scenes)).Yields (Arena.freeze b root)
      (turns.map fun u => (u.status, u.scene)) a ∧
    rounds.length = (orders.filterMap Order.world?).length ∧
    ∀ i w, (orders.filterMap Order.world?)[i]? = some w →
      ∃ (scene : Scene κ σ) (turn : Turn κ σ) (round : Round κ σ), scenes[i]? = some scene ∧
      turns[i]? = some turn ∧ rounds[i]? = some round ∧ sceneAt init save turns w i = some scene ∧
      round.log = (if i = 0 then [.opened scene.context] else []) ++ turn.log.map .inside ++
        [.closed (save turn.scene.world).1] ∧
      round.player.snapshot = some (save turn.scene.world).1 ∧ round.world = (save turn.scene.world).2 ∧
      round.status = turn.status ∧ round.player.tree.lastStatus = round.status

/-- Players of the trees below every checked root of every builder carry their snapshots from turn to turn. -/
theorem snapshots_carried (capacity : Nat) (cs : List (Call κ σ)) (root : Int) (init save : Camera κ σ)
    (orders : List (Order σ)) (hcheck : (Builder.built capacity cs).check root = none) :
    (Builder.built capacity cs).CarriesSnapshots root init save orders := by
  obtain ⟨n, hfresh⟩ := Mirrors.freeze (Builder.forest_built capacity cs) hcheck
  let p : Player κ σ := { tree := Tree.freeze (Builder.built capacity cs) root, init, save }
  obtain ⟨scenes, turns, rounds, p', hrounds, hdrive, htree, hlength, hall⟩ :=
    Player.rounds_of_plan orders p hfresh.plan
  obtain ⟨turns', t, a, n', hturns, hyields, -⟩ := hfresh.play (Order.commands orders scenes)
  obtain ⟨rfl, rfl⟩ : turns = turns' ∧ p'.tree = t := by simpa using htree.symm.trans hturns
  refine ⟨p, p', rounds, scenes, turns, a, rfl, hrounds, hdrive, htree, hyields, hlength, ?_⟩
  intro i w hw
  obtain ⟨scene, turn, round, hscene, hturn, hround, htold⟩ := hall i w hw
  have hlast : round.player.tree.lastStatus = round.status := by
    rw [htold.tree, htold.lastStatus, htold.status]
  cases i with
  | zero =>
    have hfirst : sceneAt init save turns w 0 = some scene := congrArg some (htold.first rfl).symm
    exact ⟨scene, turn, round, hscene, hturn, hround, hfirst, htold.log, htold.snapshot, htold.world, htold.status,
      hlast⟩
  | succ i =>
    -- The round before has left the snapshot that this one begins with.
    have hi : i < (orders.filterMap Order.world?).length := by
      have := (List.getElem?_eq_some_iff.1 hw).1
      omega
    obtain ⟨_, turn₀, round₀, -, hturn₀, hround₀, htold₀⟩ := hall i _ (List.getElem?_eq_getElem hi)
    have hbefore : snapshotBefore p.snapshot rounds (i + 1) = some (save turn₀.scene.world).1 := by
      rw [snapshotBefore, hround₀]
      exact htold₀.snapshot
    have hlater : sceneAt init save turns w (i + 1) = some scene := by
      rw [sceneAt, hturn₀, htold.later _ hbefore]
      rfl
    have hlog := htold.log
    rw [hbefore] at hlog
    exact ⟨scene, turn, round, hscene, hturn, hround, hlater, hlog, htold.snapshot, htold.world, htold.status, hlast⟩

/-- A scribbler overwrites its snapshot and goes on with the world. -/
def scribble : List (Call Nat Nat) := [.leaf "scribble" (some fun s => (.success, ⟨s.context + 100, s.world + 1⟩))]

/-- What a scribbler writes is not carried on, though taking snapshots changes the world, the world is replaced from
outside and the tree is reset. -/
theorem snapshots_carried_scribble : (Builder.built 1 scribble).check 0 = none ∧
    (Builder.built 1 scribble).CarriesSnapshots 0 (fun w => (w, w + 10)) (fun w => (w, w + 20))
      [.reset, .play 0, .play 7, .reset, .play 0] :=
  ⟨rfl, snapshots_carried 1 scribble 0 _ _ _ rfl⟩

end Behaviour
