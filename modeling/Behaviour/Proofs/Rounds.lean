import Behaviour.Proofs.Threats

/-!
# Rounds

A round is a turn of the player and the end of the turn. The invariant of the warrior between two rounds is `Between`:
the mode the tree is in, what a shooting warrior has ahead, that a healing one is left alone, and what the snapshot
tells. `Between.next` is the step and `between_rounds` the run.

What this says of the actions that come too late in their turn is in `rejected_eq_resumed`: only a warrior who begins a
round shooting takes two actions, and the second one is just counted (`after_cons_of_ready`).
-/

namespace Behaviour.Corridor

open World

namespace World

/-! ## The actions of one turn -/

theorem after_of_acted : ∀ {w : World} (actions : List Action), w.acted = true →
    w.after actions = { w with rejected := w.rejected + actions.length }
  | _, [], _ => rfl
  | w, a :: actions, h => by
    rw [after_cons, after_of_acted actions (acted_act w a), act_of_acted h]
    simp only [List.length_cons, Nat.add_assoc, Nat.add_comm 1]

/-- The first action of a turn takes place, and all others are only counted. -/
theorem after_cons_of_ready {w : World} (h : w.acted = false) (a : Action) (actions : List Action) :
    w.after (a :: actions) = { w.act a with rejected := w.rejected + actions.length } := by
  have hfirst : (w.act a).rejected = w.rejected := by rw [act_of_not_acted h, perform_eq]
  rw [after_cons, after_of_acted actions (acted_act w a), hfirst]

theorem rejected_after_of_ready {w : World} (h : w.acted = false) :
    ∀ actions : List Action, (w.after actions).rejected = w.rejected + (actions.length - 1)
  | [] => rfl
  | a :: actions => by
    rw [after_cons_of_ready h]
    rfl

end World

variable {stats : Stats} {w : World} {mode : Mode}

/-- What the policy decides is two actions for a warrior who is shooting, and one for every other. -/
theorem length_actions_policy (stats : Stats) (h : mode = .shooting → Aimed w) :
    (policy stats w mode).actions.length = if mode = .shooting then 2 else 1 := by
  have hone : ∀ c ∈ clauses, c.decision.actions.length = 1 := by decide
  cases mode with
  | fresh =>
    obtain ⟨c, hc, -, hd⟩ := exists_clause_fresh stats w
    rw [hd]
    exact hone c hc
  | shooting =>
    rw [policy]
    split
    · rfl
    · obtain ⟨c, hc, -, hd⟩ := (h rfl).exists_clause stats
      simp only [hd, List.length_cons, hone c (List.mem_of_mem_drop hc)]
      rfl
  | healing =>
    rw [policy]
    split <;> rfl

/-- The first action of a shooting warrior is the second shot. -/
theorem actions_policy_shooting (stats : Stats) (w : World) :
    ∃ actions, (policy stats w .shooting).actions = .shoot .forward :: actions := by
  rw [policy]
  split
  · exact ⟨_, rfl⟩
  · exact ⟨_, rfl⟩

namespace Outing

variable {o : Outing}

/-! ## Rounds -/

/-- The warrior's player and the world of a layout, where the warrior has some health. -/
def enter (layout : List Char) (health : Int) : Outing where
  player := playerOf warriorTree
  world := (World.ofLayout layout).withHealth health

/-- The outing after one more round. -/
def nextRound (o : Outing) : Except Fault Outing := o.run [.play, .endTurn]

/-- The outing after so many rounds. -/
def rounds (o : Outing) : Nat → Except Fault Outing
  | 0 => .ok o
  | n + 1 => o.rounds n >>= nextRound

theorem rounds_succ {o' : Outing} {n : Nat} (h : o.rounds n = .ok o') : o.rounds (n + 1) = o'.nextRound := by
  rw [rounds, h]
  rfl

theorem rounds_one (o : Outing) : o.rounds 1 = o.nextRound := rounds_succ rfl

theorem nextRound_of_play {round : Round Stats World} (h : o.player.play o.world = .ok round) :
    o.nextRound = .ok ⟨round.player, round.world.endTurn⟩ := run_play_endTurn h

/-- What is between two rounds: the warrior is ready and in a mode, and knows what the snapshot tells. -/
structure Between (mode : Mode) (o : Outing) : Prop where
  init : o.player.init = startingStats
  save : o.player.save = currentStats
  plays : Plays o.player mode
  ready : o.world.acted = false
  aimed : mode = .shooting → Aimed o.world
  calm : mode = .healing → o.world.threats = 0
  telling : Telling (o.player.opening o.world).1 o.world

/-- The first snapshot is that of a warrior who is well. -/
theorem opening_of_unopened {p : Player Stats World} (hinit : p.init = startingStats) (hsnapshot : p.snapshot = none)
    (w : World) : (p.opening w).1 = ⟨maxHealth⟩ := by
  rw [Player.opening, hsnapshot, hinit]
  rfl

/-- Before the first round the warrior is taken to have been well, so that low health passes for damage. -/
theorem between_of_unopened {p : Player Stats World} {w : World} (hinit : p.init = startingStats)
    (hsave : p.save = currentStats) (hsnapshot : p.snapshot = none) (hplays : Plays p .fresh) (hw : w.acted = false) :
    Between .fresh ⟨p, w⟩ where
  init := hinit
  save := hsave
  plays := hplays
  ready := hw
  aimed := nofun
  calm := nofun
  telling := by
    intro hunwell hlost
    rw [opening_of_unopened hinit hsnapshot] at hlost
    simp only [unwell, decide_eq_true_eq, maxHealth] at hunwell hlost
    omega

theorem init_playerOf (part : Part) : (playerOf part).init = startingStats := rfl

theorem save_playerOf (part : Part) : (playerOf part).save = currentStats := rfl

theorem snapshot_playerOf (part : Part) : (playerOf part).snapshot = none := rfl

theorem between_enter (layout : List Char) (health : Int) : Between .fresh (enter layout health) :=
  between_of_unopened (init_playerOf _) (save_playerOf _) (snapshot_playerOf _)
    ⟨_, plan_warriorTree, reset_warriorIn_equiv⟩ rfl

theorem opening_enter (layout : List Char) (health : Int) :
    ((enter layout health).player.opening (enter layout health).world).1 = ⟨maxHealth⟩ := by
  simp only [enter]
  exact opening_of_unopened (init_playerOf warriorTree) (snapshot_playerOf warriorTree) _

/-- The snapshot was taken before the enemies struck, so that it tells whether any did. -/
theorem telling_endTurn (w : World) : Telling ⟨w.health⟩ w.endTurn := by
  intro _ hlost
  have hthreats : w.endTurn.threats = w.threats := rfl
  simp only [endTurn, enemyPower] at hlost
  omega

/-- The turn of a round is the one that the policy has, and a next round can begin. -/
theorem Between.turn (h : Between mode o) : ∃ round, o.player.play o.world = .ok round ∧
    let d := policy (o.player.opening o.world).1 o.world mode
    round.status = d.status ∧ round.world = o.world.after d.actions ∧
      Between d.mode ⟨round.player, round.world.endTurn⟩ := by
  have hinit : ∀ w, (o.player.init w).2 = w := fun w => by rw [h.init]; rfl
  have hsave : ∀ w, (o.player.save w).2 = w := fun w => by rw [h.save]; rfl
  obtain ⟨round, hplay, hstatus, -, hworld, hplayer, hplays⟩ := h.plays.turn_of_looks hinit hsave o.world
  refine ⟨round, hplay, hstatus, hworld, ?_⟩
  constructor
  case init =>
    rw [hplayer]
    exact h.init
  case save =>
    rw [hplayer]
    exact h.save
  case plays => exact hplays
  case ready => rfl
  case aimed =>
    intro hmode
    rw [hworld]
    exact (aimed_policy hmode).endTurn
  case calm =>
    intro hmode
    rw [hworld]
    exact threats_after_policy h.telling h.aimed h.calm hmode
  case telling =>
    have hsnapshot : (round.player.opening round.world.endTurn).1 = ⟨round.world.health⟩ := by
      rw [hplayer, h.save]
      rfl
    rw [hsnapshot]
    exact telling_endTurn round.world

theorem Between.next (h : Between mode o) : ∃ o', o.nextRound = .ok o' ∧
    let d := policy (o.player.opening o.world).1 o.world mode
    o'.world = (o.world.after d.actions).endTurn ∧ Between d.mode o' := by
  obtain ⟨round, hplay, -, hworld, hnext⟩ := h.turn
  exact ⟨_, nextRound_of_play hplay, congrArg endTurn hworld, hnext⟩

theorem between_rounds (layout : List Char) (health : Int) (n : Nat) :
    ∃ mode o, (enter layout health).rounds n = .ok o ∧ Between mode o := by
  induction n with
  | zero => exact ⟨_, _, rfl, between_enter layout health⟩
  | succ n ih =>
    obtain ⟨mode, o, ho, h⟩ := ih
    obtain ⟨o', ho', -, h'⟩ := h.next
    exact ⟨_, o', (rounds_succ ho).trans ho', h'⟩

/-! ## Actions that come too late -/

/-- The place that the root resumes at after so many rounds. -/
def placeAfter (o : Outing) (n : Nat) : Option Nat := (o.rounds n).toOption.map (·.player.tree.rootPlace)

/-- The number of the first rounds that began at a place of the root. -/
def roundsFrom (o : Outing) (place n : Nat) : Nat := (List.range n).countP (o.placeAfter · = some place)

theorem roundsFrom_succ {o' : Outing} {n : Nat} (h : o.rounds n = .ok o') (place : Nat) :
    o.roundsFrom place (n + 1) = o.roundsFrom place n + if o'.player.tree.rootPlace = place then 1 else 0 := by
  have hplace : o.placeAfter n = some o'.player.tree.rootPlace := by rw [placeAfter, h]; rfl
  simp only [roundsFrom, List.range_succ, List.countP_append, List.countP_singleton, hplace, Option.some.injEq,
    decide_eq_true_eq]

/-- A round that begins with shooting counts one action more. -/
theorem Between.rejected_next (h : Between mode o) {o' : Outing} (ho' : o.nextRound = .ok o') :
    o'.world.rejected = o.world.rejected + if o.player.tree.rootPlace = 2 then 1 else 0 := by
  obtain ⟨o'', ho'', hworld, -⟩ := h.next
  obtain rfl : o'' = o' := Except.ok.inj (ho''.symm.trans ho')
  have hcount := rejected_after_of_ready h.ready (policy (o.player.opening o.world).1 o.world mode).actions
  rw [hworld]
  change (o.world.after _).rejected = _
  have hresumes : o.player.tree.rootPlace = 2 ↔ mode = .shooting := h.plays.rootPlace_eq_iff .shooting
  simp only [hcount, length_actions_policy _ h.aimed, hresumes]
  split <;> rfl

/-- A round that begins with shooting does not end so. -/
theorem Between.rootPlace_next (h : Between mode o) {o' : Outing} (ho' : o.nextRound = .ok o')
    (hplace : o.player.tree.rootPlace = 2) : o'.player.tree.rootPlace ≠ 2 := by
  obtain ⟨o'', ho'', -, h''⟩ := h.next
  obtain rfl : o'' = o' := Except.ok.inj (ho''.symm.trans ho')
  have hmode := (h.plays.rootPlace_eq_iff .shooting).1 hplace
  refine mt (h''.plays.rootPlace_eq_iff .shooting).1 ?_
  apply mode_policy_ne_shooting
  rw [hmode]
  decide

/-- In a round that begins with shooting, the second shot is all that takes place. -/
theorem Between.world_next (h : Between mode o) {o' : Outing} (ho' : o.nextRound = .ok o')
    (hplace : o.player.tree.rootPlace = 2) :
    o'.world = ({ o.world.act (.shoot .forward) with rejected := o.world.rejected + 1 } : World).endTurn := by
  obtain ⟨o'', ho'', hworld, -⟩ := h.next
  obtain rfl : o'' = o' := Except.ok.inj (ho''.symm.trans ho')
  obtain rfl := (h.plays.rootPlace_eq_iff .shooting).1 hplace
  obtain ⟨actions, hactions⟩ := actions_policy_shooting (o.player.opening o.world).1 o.world
  have hlength := length_actions_policy (o.player.opening o.world).1 h.aimed
  rw [hactions, if_pos rfl, List.length_cons] at hlength
  rw [hworld, hactions, after_cons_of_ready h.ready, Nat.succ.inj hlength]

/-- The actions counted so far belong to the rounds that began with shooting, no two of which follow each other. -/
theorem rejected_rounds (layout : List Char) (health : Int) (n : Nat) {o : Outing}
    (ho : (enter layout health).rounds n = .ok o) : o.world.rejected = (enter layout health).roundsFrom 2 n ∧
      2 * o.world.rejected + (if o.player.tree.rootPlace = 2 then 1 else 0) ≤ n := by
  induction n generalizing o with
  | zero =>
    obtain rfl : enter layout health = o := Except.ok.inj ho
    have hplace := (between_enter layout health).plays.rootPlace
    have hnone : (enter layout health).world.rejected = 0 := rfl
    rw [hplace, hnone]
    exact ⟨rfl, Nat.le_refl 0⟩
  | succ n ih =>
    obtain ⟨mode, before, hbefore, h⟩ := between_rounds layout health n
    have hnext : before.nextRound = .ok o := (rounds_succ hbefore).symm.trans ho
    obtain ⟨hcount, hle⟩ := ih hbefore
    rw [h.rejected_next hnext, roundsFrom_succ hbefore, hcount]
    refine ⟨rfl, ?_⟩
    by_cases hplace : before.player.tree.rootPlace = 2
    · have hlater := h.rootPlace_next hnext hplace
      simp only [hplace, hlater, if_true, if_false] at hle ⊢
      omega
    · simp only [hplace, if_false] at hle ⊢
      split <;> omega

end Outing

open Outing

/-- In every layout, with every health to begin with and after every number of rounds, the rejected actions are as many
as the rounds that began with shooting; they are at most half of all rounds, a round adds at most one, and one that
begins with shooting fires the second shot, does nothing else and leaves the warrior where they are. -/
theorem rejected_eq_resumed (layout : List Char) (health : Int) (n : Nat) :
    ∃ o o', (enter layout health).rounds n = .ok o ∧ o.nextRound = .ok o' ∧
      o.world.rejected = (enter layout health).roundsFrom 2 n ∧ o.world.rejected ≤ n / 2 ∧
      o.world.rejected ≤ o'.world.rejected ∧ o'.world.rejected ≤ o.world.rejected + 1 ∧
      (o.player.tree.rootPlace = 2 →
        o'.world = ({ o.world.act (.shoot .forward) with rejected := o.world.rejected + 1 } : World).endTurn ∧
        o'.world.position = o.world.position ∧ o'.world.facing = o.world.facing) := by
  obtain ⟨mode, o, ho, h⟩ := between_rounds layout health n
  obtain ⟨o', ho', -⟩ := h.next
  obtain ⟨hcount, hle⟩ := rejected_rounds layout health n ho
  have hgrows := h.rejected_next ho'
  refine ⟨o, o', ho, ho', hcount, by omega, by omega, ?_, ?_⟩
  · split at hgrows <;> omega
  · intro hplace
    have hworld := h.world_next ho' hplace
    refine ⟨hworld, ?_, ?_⟩
    · rw [hworld]
      exact position_act_shoot o.world .forward
    · rw [hworld]
      exact facing_act_shoot o.world .forward

/-- The first round ends with a shot at a sludge three cells away, and the second one begins with it. -/
theorem rejected_eq_resumed_sludge : ∃ o o', (enter "@  s>".toList 20).rounds 1 = .ok o ∧ o.nextRound = .ok o' ∧
    o.player.tree.rootPlace = 2 ∧ o.world.rejected = 0 ∧ o'.world.rejected = 1 ∧
    o'.world.position = o.world.position ∧ o'.world.facing = o.world.facing := by
  obtain ⟨o, o', ho, ho', -, hhalf, -, -, hresumed⟩ := rejected_eq_resumed "@  s>".toList 20 1
  have hplace : o.player.tree.rootPlace = 2 := by
    obtain ⟨first, hfirst, -, h⟩ := (between_enter "@  s>".toList 20).next
    obtain rfl : first = o := Except.ok.inj (hfirst.symm.trans ((rounds_one _).symm.trans ho))
    have hworld : (enter "@  s>".toList 20).world = (World.ofLayout "@  s>".toList).withHealth 20 := rfl
    have hshoots : (policy ⟨maxHealth⟩ ((World.ofLayout "@  s>".toList).withHealth 20) .fresh).mode = .shooting := rfl
    rw [opening_enter, hworld, hshoots] at h
    exact h.plays.rootPlace
  obtain ⟨hworld, hposition, hfacing⟩ := hresumed hplace
  have hnone : o.world.rejected = 0 := Nat.le_zero.1 hhalf
  refine ⟨o, o', ho, ho', hplace, hnone, ?_, hposition, hfacing⟩
  rw [hworld]
  exact congrArg (· + 1) hnone

end Behaviour.Corridor
