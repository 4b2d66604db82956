import Behaviour.Proofs.Reckoning
import Behaviour.Proofs.Strolling

/-!
# Between two captives

A warrior with a captive behind turns round to them, before anything else is thought of. If another captive is ahead,
then that one is behind afterwards, and the warrior turns round again: between two captives nothing else is ever done,
and neither of them is reached (`Torn.turned`). At the end of every such round the same enemies strike, since it does
not matter which way the warrior faces.

`Outing.Dithers.round` is the step, `Outing.Dithers.rounds` the run, and `captives_deadlock` says what comes of it,
whatever was done with the warrior's tree before.
-/

namespace Behaviour.Corridor

open World

/-! ## Whatever was done with the tree -/

/-- The tree is the warrior's, in a mode. -/
def TreeIn (mode : Mode) (t : Tree Stats World) : Prop := ∃ n, t.plan = .ok n ∧ n ≈ warriorIn mode

/-- Ticks in any scenes and resets keep the warrior's tree in one of the modes. -/
theorem TreeIn.play : ∀ (cs : List (Command Stats World)) {t : Tree Stats World} {mode : Mode}, TreeIn mode t →
    ∃ turns t' mode', t.play cs = .ok (turns, t') ∧ TreeIn mode' t'
  | [], t, mode, h => ⟨[], t, mode, rfl, h⟩
  | .tick scene :: cs, t, mode, ⟨n, hplan, hn⟩ => by
    let turn : Turn Stats World := ⟨(n.visit scene).status,
      { t with plan := .ok (n.visit scene).node, lastStatus := (n.visit scene).status, ticks := t.ticks + 1 },
      (n.visit scene).scene, (n.visit scene).log⟩
    have hturn : t.tick scene = .ok turn := Tree.tick_of_plan hplan scene
    have hdoes := (does_policy scene.context scene.world mode).of_equiv hn
    have hin : TreeIn _ turn.tree := ⟨_, rfl, hdoes.next_equiv⟩
    obtain ⟨turns, t', mode', hplay, ht'⟩ := hin.play cs
    refine ⟨turn :: turns, t', mode', ?_, ht'⟩
    simp only [Tree.play, hturn, bind, Except.bind, hplay]
    rfl
  | .reset :: cs, t, mode, ⟨n, hplan, hn⟩ => by
    have hin : TreeIn .fresh t.reset := by
      refine ⟨n.reset, ?_, ?_⟩
      · simp only [Tree.reset, hplan, Except.map]
      · rw [Node.reset_congr hn, reset_warriorIn]
        exact reset_warriorIn_equiv
    exact hin.play cs

/-! ## Turning round -/

namespace World

/-- Captives are in sight both ways. -/
structure Torn (w : World) : Prop where
  ahead : (w.look .forward).any Space.isCaptive = true
  behind : (w.look .backward).any Space.isCaptive = true

variable {w : World}

/-- What was ahead is behind a warrior who has turned round. -/
theorem look_turned_backward (w : World) : w.turned.look .backward = w.look .forward := by
  have hfacing : w.turned.facing.toward .backward = w.facing := w.facing.flip_flip
  unfold look sense ahead
  rw [hfacing]
  rfl

/-- The two captives have changed places. -/
theorem Torn.turned (h : w.Torn) : w.turned.Torn where
  ahead := h.behind
  behind := by
    rw [look_turned_backward]
    exact h.ahead

/-- A captive behind comes before everything else. -/
theorem Torn.policy_eq (h : w.Torn) (stats : Stats) : policy stats w .fresh = { actions := [.pivot] } :=
  firstOf_of_guard h.behind _

/-- Each time the same enemies strike. -/
theorem iterate_turned (w : World) (n : Nat) : turned^[n] w =
    { w with facing := Facing.flip^[n] w.facing, health := w.health - n * (enemyPower * w.threats) } := by
  induction n with
  | zero => simp
  | succ n ih =>
    rw [Function.iterate_succ_apply', ih, Function.iterate_succ_apply']
    have hthreats : ∀ f health, ({ w with facing := f, health } : World).threats = w.threats := fun _ _ => rfl
    simp only [turned, hthreats, World.mk.injEq, true_and, and_true]
    push_cast
    ring

end World

/-! ## Rounds -/

namespace Outing

variable {o : Outing}

/-- A fresh warrior between two captives, on no archer's cell, whose snapshots only look at the world. -/
structure Dithers (o : Outing) : Prop where
  init : ∀ w, (o.player.init w).2 = w
  save : ∀ w, (o.player.save w).2 = w
  plays : Plays o.player .fresh
  ready : o.world.acted = false
  torn : o.world.Torn
  archer : o.world.creatureAt? o.world.position ≠ some .archer

/-- A round between two captives: the warrior turns round and does nothing else. -/
structure TurnsRound (o : Outing) (round : Round Stats World) : Prop where
  play_eq : o.player.play o.world = .ok round
  status_eq : round.status = .success
  deeds_eq : deeds (round.log.filterMap Moment.inside?) = [.pivot]
  /-- The end of the turn comes to an end, cell by cell. -/
  ends : ∃ glances, round.world.endTurnInPlace = some (round.world.endTurn, glances)

/-- One round. -/
theorem Dithers.round (h : Dithers o) : ∃ round, o.TurnsRound round ∧
    ∃ o', o.nextRound = .ok o' ∧ o'.world = o.world.turned ∧ o'.Dithers := by
  obtain ⟨round, hplay, hstatus, hdeeds, hworld, hplayer, hplays⟩ := h.plays.turn_of_looks h.init h.save o.world
  rw [h.torn.policy_eq] at hstatus hdeeds hworld hplays
  have hpivot : round.world = o.world.act .pivot := hworld
  have hend : round.world.endTurn = o.world.turned := by rw [hpivot, endTurn_act_pivot h.ready]
  have harcher : round.world.creatureAt? round.world.position ≠ some .archer := by
    rw [hpivot, act_of_not_acted h.ready]
    exact h.archer
  obtain ⟨glances, hends, -⟩ := endTurnInPlace_eq harcher
  refine ⟨round, ⟨hplay, hstatus, hdeeds, glances, hends⟩, _, nextRound_of_play hplay, hend, ?_⟩
  constructor
  case init =>
    rw [hplayer]
    exact h.init
  case save =>
    rw [hplayer]
    exact h.save
  case plays => exact hplays
  case ready => rfl
  case torn =>
    rw [hend]
    exact h.torn.turned
  case archer =>
    rw [hend]
    exact h.archer

/-- Any number of rounds. -/
theorem Dithers.rounds (h : Dithers o) (n : Nat) :
    ∃ o', o.rounds n = .ok o' ∧ o'.world = World.turned^[n] o.world ∧ o'.Dithers := by
  induction n with
  | zero => exact ⟨o, rfl, rfl, h⟩
  | succ n ih =>
    obtain ⟨o', ho', hworld, h'⟩ := ih
    obtain ⟨-, -, o'', ho'', hworld', h''⟩ := h'.round
    refine ⟨o'', (rounds_succ ho').trans ho'', ?_, h''⟩
    rw [hworld', hworld, Function.iterate_succ_apply']

end Outing

/-- A warrior between two captives, whose tree is at its start after whatever was done with it, turns round in every
round and does nothing else. After any number of rounds they face about as many times, have lost as many times what the
end of one turn takes, and everything else is as before: nobody was set free, and the stairs were not reached. -/
theorem captives_deadlock (cs : List (Command Stats World)) {turns : List (Turn Stats World)} {t : Tree Stats World}
    (ht : (playerOf warriorTree).tree.play cs = .ok (turns, t)) (hroot : t.rootPlace = 0) (init save : World → Stats)
    (snapshot : Option Stats) (w : World) (harcher : w.creatureAt? w.position ≠ some .archer)
    (hready : w.acted = false) (hahead : ∃ s ∈ w.look .forward, s.isCaptive = true)
    (hbehind : ∃ s ∈ w.look .backward, s.isCaptive = true) (n : Nat) :
    ∃ o round, Outing.rounds ⟨⟨t, fun w => (init w, w), fun w => (save w, w), snapshot⟩, w⟩ n = .ok o ∧
      o.world = { w with
        facing := Facing.flip^[n] w.facing
        health := w.health - n * (w.health - w.endTurn.health) } ∧
      o.player.tree.rootPlace = 0 ∧ o.TurnsRound round := by
  obtain ⟨turns', t', mode, hplay, hin⟩ := TreeIn.play cs ⟨_, plan_warriorTree, reset_warriorIn_equiv⟩
  obtain ⟨-, rfl⟩ : turns' = turns ∧ t' = t := by simpa using hplay.symm.trans ht
  have hplays : Plays ⟨t', fun w => (init w, w), fun w => (save w, w), snapshot⟩ mode := hin
  obtain rfl := (hplays.rootPlace_eq_iff .fresh).1 hroot
  have hdithers : Outing.Dithers ⟨⟨t', fun w => (init w, w), fun w => (save w, w), snapshot⟩, w⟩ :=
    ⟨fun _ => rfl, fun _ => rfl, hplays, hready, ⟨List.any_eq_true.2 hahead, List.any_eq_true.2 hbehind⟩, harcher⟩
  obtain ⟨o, hrounds, hworld, h⟩ := hdithers.rounds n
  obtain ⟨round, hround, -⟩ := h.round
  have hloss : w.health - w.endTurn.health = enemyPower * w.threats := by
    rw [endTurn]
    exact sub_sub_cancel _ _
  refine ⟨o, round, hrounds, ?_, h.plays.rootPlace, hround⟩
  rw [hworld, iterate_turned, hloss]

/-- A new player turns round between two captives while a sludge strikes, from behind and from ahead by turns. -/
theorem captives_deadlock_struck :
    (playerOf warriorTree).tree.play [] = .ok ([], (playerOf warriorTree).tree) ∧
      (playerOf warriorTree).tree.rootPlace = 0 ∧
      (ofLayout "C s@C >".toList).creatureAt? (ofLayout "C s@C >".toList).position ≠ some .archer ∧
      (ofLayout "C s@C >".toList).acted = false ∧
      (∃ s ∈ (ofLayout "C s@C >".toList).look .forward, s.isCaptive = true) ∧
      (∃ s ∈ (ofLayout "C s@C >".toList).look .backward, s.isCaptive = true) ∧
      ∃ o round, Outing.rounds ⟨⟨(playerOf warriorTree).tree, fun w => (⟨maxHealth⟩, w), fun w => (⟨w.health⟩, w),
          none⟩, ofLayout "C s@C >".toList⟩ 5 = .ok o ∧
        o.world = { ofLayout "C s@C >".toList with facing := .left, health := 5 } ∧
        o.player.tree.rootPlace = 0 ∧ o.TurnsRound round := by
  have hroot : (playerOf warriorTree).tree.rootPlace = 0 := by
    rw [Tree.rootPlace, plan_warriorTree]
    rfl
  obtain ⟨o, round, hrounds, hworld, hplace, hround⟩ := captives_deadlock [] rfl hroot (fun _ => ⟨maxHealth⟩)
    (fun w => ⟨w.health⟩) none (ofLayout "C s@C >".toList) (by decide) rfl (by decide) (by decide) 5
  exact ⟨rfl, hroot, by decide, rfl, by decide, by decide, o, round, hrounds, hworld.trans (by decide), hplace, hround⟩

end Behaviour.Corridor
