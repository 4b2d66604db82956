import Behaviour.Proofs.Stages

/-!
# Healing

Whenever a turn leaves the warrior healing, nobody is within reach (`Between.calm`), so that the end of the turn takes
no health. A stay in healing is therefore a countdown: every turn of it gives back some health, until the warrior is
well (`Between.recovers`). It begins and ends where the warrior stands.
-/

namespace Behaviour.Corridor

open World

variable {w : World} {mode : Mode}

theorem World.act_rest_of_ready (h : w.acted = false) :
    w.act .rest = { w with acted := true, health := min maxHealth (w.health + restHealing) } := act_of_not_acted h _

theorem World.health_endTurn_of_calm (h : w.threats = 0) : w.endTurn.health = w.health := by
  rw [endTurn, h]
  simp

/-- A fresh warrior begins to heal with low health. -/
theorem health_of_begin_healing {stats : Stats} (h : (policy stats w .fresh).mode = .healing) : w.health ≤ 8 := by
  obtain ⟨-, hunwell⟩ := guards_of_begin_healing (firstOf_later_of_healing h)
  simp only [unwell, decide_eq_true_eq] at hunwell
  omega

/-- Half of a number, rounded up. -/
theorem ceil_half {x : Int} (hx : 0 ≤ x) : x ≤ 2 * (⌈(x : ℚ) / 2⌉₊ : Int) ∧ 2 * (⌈(x : ℚ) / 2⌉₊ : Int) ≤ x + 1 := by
  have hle := Nat.le_ceil ((x : ℚ) / 2)
  have hlt := Nat.ceil_lt_add_one (a := (x : ℚ) / 2) (by positivity)
  generalize ⌈(x : ℚ) / 2⌉₊ = k at *
  have hle' : (x : ℚ) ≤ 2 * k := by linarith
  have hlt' : 2 * (k : ℚ) < x + 2 := by linarith
  have hle'' : x ≤ 2 * (k : Int) := by exact_mod_cast hle'
  have hlt'' : 2 * (k : Int) < x + 2 := by exact_mod_cast hlt'
  omega

namespace Outing

variable {o : Outing}

/-- A turn in which the warrior stays where they are. -/
structure Stays (o : Outing) (round : Round Stats World) : Prop where
  play_eq : o.player.play o.world = .ok round
  position_eq : round.world.position = o.world.position
  facing_eq : round.world.facing = o.world.facing

/-- The warrior stays on the spot and heals for so many turns, and is well after one more. -/
def Recovers : Nat → Outing → Prop
  | 0, o => ∃ round, o.Stays round ∧ round.status = .success ∧ round.world.health = maxHealth ∧
      round.player.tree.rootPlace = 0
  | k + 1, o => ∃ round, o.Stays round ∧ round.status = .running ∧ round.player.tree.rootPlace = 6 ∧
      Recovers k ⟨round.player, round.world.endTurn⟩

/-- A turn of rest, of a warrior who is well or is not yet. -/
theorem Between.rest (h : Between mode o) {d : Decision} (hd : policy (o.player.opening o.world).1 o.world mode = d)
    (hrest : d.actions = [.rest]) : ∃ round, o.Stays round ∧ round.status = d.status ∧
      round.world.health = min maxHealth (o.world.health + restHealing) ∧
      Between d.mode ⟨round.player, round.world.endTurn⟩ := by
  obtain ⟨round, hplay, hstatus, hworld, hnext⟩ := h.turn
  rw [hd] at hstatus hworld hnext
  have hrested : round.world = o.world.act .rest := by rw [hworld, hrest]; rfl
  rw [act_rest_of_ready h.ready] at hrested
  refine ⟨round, ⟨hplay, ?_, ?_⟩, hstatus, ?_, hnext⟩ <;> rw [hrested]

/-- A turn of rest that leaves the warrior healing takes one turn off the time it takes to recover. -/
theorem Between.recovers_succ {k : Nat} (h : Between mode o) {d : Decision}
    (hd : policy (o.player.opening o.world).1 o.world mode = d) (hrest : d.actions = [.rest])
    (hrunning : d.status = .running) (hhealing : d.mode = .healing)
    (hlater : ∀ o' : Outing, Between .healing o' →
      o'.world.health = min maxHealth (o.world.health + restHealing) → o'.Recovers k) : o.Recovers (k + 1) := by
  obtain ⟨round, hstays, hstatus, hhealth, hnext⟩ := h.rest hd hrest
  rw [hhealing] at hnext
  have hkept : round.world.endTurn.health = round.world.health := health_endTurn_of_calm (hnext.calm rfl)
  exact ⟨round, hstays, hstatus.trans hrunning, hnext.plays.rootPlace, hlater _ hnext (hkept.trans hhealth)⟩

/-- A healing warrior recovers in the time that it takes to be well. -/
theorem Between.recovers {k : Nat} (h : Between .healing o) (hmax : o.world.health ≤ maxHealth)
    (hle : maxHealth - o.world.health ≤ 2 * (k : Int)) (hlt : 2 * (k : Int) ≤ maxHealth - o.world.health + 1) :
    o.Recovers k := by
  induction k generalizing o with
  | zero =>
    have hwell : o.world.health = maxHealth := by omega
    obtain ⟨round, hstays, hstatus, hhealth, hnext⟩ := h.rest (if_pos hwell) rfl
    refine ⟨round, hstays, hstatus, ?_, hnext.plays.rootPlace⟩
    rw [hhealth, hwell]
    rfl
  | succ k ih =>
    have hunwell : o.world.health ≠ maxHealth := by omega
    refine h.recovers_succ (if_neg hunwell) rfl rfl rfl fun o' h' hhealth => ih h' ?_ ?_ ?_
    all_goals
      simp only [maxHealth, restHealing] at *
      omega

/-- A fresh warrior who begins to heal recovers in the time that it takes to be well, this turn included. -/
theorem Between.recovers_of_begin {k : Nat} (h : Between .fresh o)
    (hbegin : (policy (o.player.opening o.world).1 o.world .fresh).mode = .healing)
    (hle : maxHealth - o.world.health ≤ 2 * (k : Int)) (hlt : 2 * (k : Int) ≤ maxHealth - o.world.health + 1) :
    o.Recovers k := by
  have hlow := health_of_begin_healing hbegin
  obtain ⟨hrest, hrunning⟩ := rest_of_healing (fun _ hc => hc) hbegin
  cases k with
  | zero =>
    simp only [maxHealth] at hle
    omega
  | succ k =>
    refine h.recovers_succ rfl hrest hrunning hbegin fun o' h' hhealth => h'.recovers ?_ ?_ ?_
    all_goals
      simp only [maxHealth, restHealing] at *
      omega

end Outing

open Outing

/-- In every layout, with every health to begin with and after every number of rounds, the end of a turn that leaves the
warrior healing takes no health. A warrior who begins to heal at the start of the tree stays on the spot for as many
turns as are missing for full health at two a turn, and ends well and at the start of the tree. -/
theorem healing_undisturbed (layout : List Char) (health : Int) (n : Nat) :
    ∃ o round, (enter layout health).rounds n = .ok o ∧ o.player.play o.world = .ok round ∧
      (round.player.tree.rootPlace = 6 → round.world.endTurn.health = round.world.health) ∧
      (o.player.tree.rootPlace = 0 → round.player.tree.rootPlace = 6 →
        o.Recovers ⌈((maxHealth - o.world.health : Int) : ℚ) / 2⌉₊) := by
  obtain ⟨mode, o, ho, h⟩ := between_rounds layout health n
  obtain ⟨round, hplay, -, -, hnext⟩ := h.turn
  refine ⟨o, round, ho, hplay, ?_, ?_⟩
  · intro hplace
    exact health_endTurn_of_calm (hnext.calm ((hnext.plays.rootPlace_eq_iff .healing).1 hplace))
  · intro hfresh hplace
    obtain rfl := (h.plays.rootPlace_eq_iff .fresh).1 hfresh
    have hbegin := (hnext.plays.rootPlace_eq_iff .healing).1 hplace
    have hlow := health_of_begin_healing hbegin
    have hmissing : 0 ≤ maxHealth - o.world.health := by
      simp only [maxHealth]
      omega
    obtain ⟨hle, hlt⟩ := ceil_half hmissing
    exact h.recovers_of_begin hbegin hle hlt

/-- Low health passes for damage in the first round, so that the warrior steps back against the wall; from the second
one on, eight turns of rest restore full health. -/
theorem healing_undisturbed_weary : ∃ o round, (enter "@ >".toList 5).rounds 1 = .ok o ∧
    o.player.play o.world = .ok round ∧ o.player.tree.rootPlace = 0 ∧ round.player.tree.rootPlace = 6 ∧
    round.world.endTurn.health = round.world.health ∧ o.Recovers 8 := by
  obtain ⟨o, round, ho, hplay, hcalm, hrecovers⟩ := healing_undisturbed "@ >".toList 5 1
  let w := (World.ofLayout "@ >".toList).withHealth 5
  have hretreat : Stage.next ⟨.fresh, ⟨maxHealth⟩, w⟩ = Stage.unhurt w.endTurn :=
    Stage.next_of_decision (a := .walk .backward) rfl
  have hrest : (Stage.unhurt w.endTurn).next.mode = .healing := rfl
  obtain ⟨first, hfirst, -, hat⟩ := (at_enter "@ >".toList 5).turn
  obtain rfl : ⟨first.player, first.world.endTurn⟩ = o :=
    Except.ok.inj ((nextRound_of_play hfirst).symm.trans ((rounds_one _).symm.trans ho))
  rw [hretreat] at hat
  obtain ⟨second, hsecond, -, hat'⟩ := hat.turn
  obtain rfl : second = round := Except.ok.inj (hsecond.symm.trans hplay)
  have hfresh : first.player.tree.rootPlace = 0 := hat.plays.rootPlace
  have hhealing : second.player.tree.rootPlace = 6 := hat'.plays.rootPlace.trans (congrArg Mode.place hrest)
  have hturns : ⌈((maxHealth - first.world.endTurn.health : Int) : ℚ) / 2⌉₊ = 8 := by
    have hhealth : first.world.endTurn.health = 5 := congrArg World.health hat.world
    rw [hhealth]
    norm_num [maxHealth, Nat.ceil_eq_iff]
  exact ⟨_, second, ho, hplay, hfresh, hhealing, hcalm hhealing, hturns ▸ hrecovers hfresh hhealing⟩

end Behaviour.Corridor
