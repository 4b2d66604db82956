import Behaviour.Proofs.Rounds

/-!
# Rounds from stage to stage

What a round comes to depends on three things: the mode of the tree, the snapshot and the world. Together they are a
`Stage`, and `Stage.next` is the stage after one round, as the policy has it. A player at a stage is at the next one
after the round (`Outing.At.turn`).

So what happens in a corridor can be told without players, phase by phase: `Passes P s n s'` says that `n` rounds lead
from `s` to `s'` and that `P` is true of each of them, and phases are put together by `Passes.trans`. In the end
`Outing.At.leads` says the same of a player.
-/

namespace Behaviour.Corridor

open World

/-- All that the next round depends on. -/
structure Stage where
  mode : Mode
  stats : Stats
  world : World

namespace Stage

/-- What the warrior decides. -/
def decision (s : Stage) : Decision := policy s.stats s.world s.mode

/-- The stage after one round. -/
def next (s : Stage) : Stage where
  mode := s.decision.mode
  stats := ⟨(s.world.after s.decision.actions).health⟩
  world := (s.world.after s.decision.actions).endTurn

/-- A round in which the warrior does one thing and is done with it. -/
theorem next_of_decision {s : Stage} {a : Action} (h : s.decision = { actions := [a] }) :
    s.next = ⟨.fresh, ⟨(s.world.act a).health⟩, (s.world.act a).endTurn⟩ := by
  rw [next, h]
  rfl

/-- A fresh warrior who was not struck at the end of the turn before. -/
def unhurt (w : World) : Stage := ⟨.fresh, ⟨w.health⟩, w⟩

end Stage

/-! ## Phases -/

/-- So many rounds lead from a stage to another one; something is true of the world in which each of them begins and of
the status with which it ends. -/
inductive Passes (P : World → Status → Prop) : Stage → Nat → Stage → Prop
  | stay (s : Stage) : Passes P s 0 s
  | round {s s' : Stage} {n : Nat} (h : P s.world s.decision.status) (hnext : Passes P s.next n s') :
      Passes P s (n + 1) s'

namespace Passes

variable {P : World → Status → Prop} {s s' s'' : Stage} {m n : Nat}

theorem one (h : P s.world s.decision.status) (hnext : s.next = s') : Passes P s 1 s' := round h (hnext ▸ stay _)

/-- One phase after another. -/
theorem trans (h : Passes P s m s') (h' : Passes P s' n s'') : Passes P s (m + n) s'' := by
  induction h with
  | stay s => rwa [Nat.zero_add]
  | round hround _ ih =>
    rw [Nat.add_right_comm]
    exact round hround (ih h')

end Passes

/-! ## Players -/

namespace Outing

variable {o : Outing} {s s' : Stage} {n : Nat} {P : World → Status → Prop} {Q : World → Prop}

/-- The outing is at a stage. -/
structure At (o : Outing) (s : Stage) : Prop where
  init : ∀ w, (o.player.init w).2 = w
  save : o.player.save = currentStats
  plays : Plays o.player s.mode
  snapshot : (o.player.opening o.world).1 = s.stats
  world : o.world = s.world

/-- A new player begins fresh, and is taken to have been well. -/
theorem at_enter (layout : List Char) (health : Int) :
    (enter layout health).At ⟨.fresh, ⟨maxHealth⟩, (World.ofLayout layout).withHealth health⟩ where
  init w := by
    rw [(between_enter layout health).init]
    rfl
  save := (between_enter layout health).save
  plays := (between_enter layout health).plays
  snapshot := opening_enter layout health
  world := rfl

/-- One round. -/
theorem At.turn (h : o.At s) : ∃ round, o.player.play o.world = .ok round ∧ round.status = s.decision.status ∧
    Outing.At ⟨round.player, round.world.endTurn⟩ s.next := by
  have hsave : ∀ w, (o.player.save w).2 = w := fun w => by rw [h.save]; rfl
  obtain ⟨round, hplay, hstatus, -, hworld, hplayer, hplays⟩ := h.plays.turn_of_looks h.init hsave o.world
  have hdecision : policy (o.player.opening o.world).1 o.world s.mode = s.decision := by
    rw [h.snapshot, h.world, Stage.decision]
  rw [hdecision] at hstatus hworld hplays
  rw [h.world] at hworld
  refine ⟨round, hplay, hstatus, ?_⟩
  constructor
  case init =>
    rw [hplayer]
    exact h.init
  case save =>
    rw [hplayer]
    exact h.save
  case plays => exact hplays
  case snapshot =>
    rw [hplayer, hworld, h.save]
    rfl
  case world =>
    rw [hworld]
    rfl

/-- The first round, and the others after it. -/
theorem rounds_of_next {o' : Outing} (h : o.nextRound = .ok o') : ∀ n, o.rounds (n + 1) = o'.rounds n
  | 0 => h
  | n + 1 => by
    rw [rounds, rounds_of_next h n]
    rfl

/-- Each of so many rounds begins in a world and ends with a status as asked, and so is the world after them. -/
structure Leads (o : Outing) (P : World → Status → Prop) (n : Nat) (Q : World → Prop) : Prop where
  along : ∀ k < n, ∃ o' round, o.rounds k = .ok o' ∧ o'.player.play o'.world = .ok round ∧ P o'.world round.status
  ends : ∃ o', o.rounds n = .ok o' ∧ Q o'.world

/-- A player goes through the rounds that lead from its stage to another one. -/
theorem At.leads (h : o.At s) (hpasses : Passes P s n s') (hend : Q s'.world) : o.Leads P n Q := by
  induction hpasses generalizing o with
  | stay s =>
    refine ⟨nofun, o, rfl, ?_⟩
    rwa [h.world]
  | @round s s' n hround _ ih =>
    obtain ⟨round, hplay, hstatus, hat⟩ := h.turn
    obtain ⟨halong, o', ho', hq⟩ := ih hat hend
    have hnext := rounds_of_next (nextRound_of_play hplay)
    refine ⟨?_, o', (hnext n).trans ho', hq⟩
    intro k hk
    cases k with
    | zero =>
      refine ⟨o, round, rfl, hplay, ?_⟩
      rwa [h.world, hstatus]
    | succ k =>
      obtain ⟨o'', round', ho'', hlater⟩ := halong k (Nat.lt_of_succ_lt_succ hk)
      exact ⟨o'', round', (hnext k).trans ho'', hlater⟩

end Outing

end Behaviour.Corridor
