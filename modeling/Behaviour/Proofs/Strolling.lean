import Behaviour.Proofs.Flanks
import Behaviour.Proofs.Stages

/-!
# Walking on

A warrior who is well walks on as long as the way is clear, and turns round at a wall (`Clear.policy_eq`). Where nobody
strikes after a step, that is all that comes of a round, so that a stretch of the corridor takes as many rounds as it
has cells (`Passes.stroll`). In a deserted corridor this goes on up to a wall (`Deserted.passes_free`) or until the
warrior is on stairs (`Deserted.passes_stairs`).
-/

namespace Behaviour.Corridor

namespace World

variable {w : World} {h : Heading} {i : Int} {j k n : Nat} {stairs : Bool} {stats : Stats}

/-! ## Further on -/

/-- The warrior so many steps further on. -/
def goOn (w : World) (k : Nat) : World := { w with position := (w.ahead .forward k).toNat }

theorem goOn_zero (w : World) : w.goOn 0 = w := by
  simp [goOn, ahead]

theorem goOn_goOn (w : World) (j k : Nat) : (w.goOn j).goOn k = w.goOn (j + k) := by
  simp only [goOn, ahead, World.mk.injEq, true_and, and_true]
  cases w.facing <;> simp only [Facing.toward, Facing.step] <;> omega

section Right

variable (hright : w.facing = .right)

include hright

theorem ahead_of_right (k : Nat) : w.ahead .forward k = (w.position + k : Nat) := by
  simp [ahead, hright, Facing.toward, Facing.step]

theorem sense_of_right (k : Nat) : w.sense .forward k = w.spaceAt (w.position + k : Nat) := by
  rw [sense, ahead_of_right hright]

theorem goOn_of_right (k : Nat) : w.goOn k = { w with position := w.position + k } := by
  rw [goOn, ahead_of_right hright, Int.toNat_natCast]

end Right

theorem ahead_goOn (hinside : 0 ≤ w.ahead .forward j) (k : Nat) :
    (w.goOn j).ahead .forward k = w.ahead .forward (j + k) := by
  simp only [goOn, ahead] at *
  cases hf : w.facing <;> simp only [hf, Facing.toward, Facing.step] at * <;> omega

theorem nonneg_of_spaceAt (hspace : w.spaceAt i ≠ .wall) : 0 ≤ i := by
  by_contra hi
  rw [spaceAt, cellAt?, if_pos (Int.not_le.1 hi)] at hspace
  exact hspace rfl

/-- The next cells ahead are floor, so many of them, with nobody on it. -/
def Free (w : World) (n : Nat) : Prop := ∀ k, 1 ≤ k → k ≤ n → w.sense .forward k = .floor false none

/-- What the warrior feels further on is what was ahead. -/
theorem Free.feel_goOn (hfree : w.Free n) (hk : k ≤ n) : (w.goOn k).feel .forward = w.sense .forward (k + 1) := by
  have hinside : 0 ≤ w.ahead .forward k := by
    cases k with
    | zero => simp [ahead]
    | succ k =>
      have hfloor := hfree (k + 1) (Nat.succ_pos k) hk
      exact nonneg_of_spaceAt fun hwall => Space.noConfusion (hwall.symm.trans hfloor)
  rw [feel, sense, ahead_goOn hinside, sense]
  rfl

/-- The warrior has turned round, and the turn has ended. -/
def turned (w : World) : World := { w with facing := w.facing.flip, health := w.health - enemyPower * w.threats }

theorem endTurn_act_pivot (hready : w.acted = false) : (w.act .pivot).endTurn = w.turned := by
  rw [act_of_not_acted hready, turned, hready]
  rfl

/-! ## What a clear way leads to -/

theorem isCaptive_sense_of_nobody (hnobody : w.creatureAt? (w.ahead h k) = none) :
    (w.sense h k).isCaptive = false := by
  rw [Space.isCaptive, creature?_sense, hnobody]
  rfl

theorem isEnemy_sense_of_nobody (hnobody : w.creatureAt? (w.ahead h k) = none) : (w.sense h k).isEnemy = false := by
  rw [isEnemy_sense, hnobody]
  rfl

theorem any_isCaptive_look (hnone : ∀ k, 1 ≤ k → k ≤ lookDistance → (w.sense h k).isCaptive = false) :
    (w.look h).any Space.isCaptive = false := by
  rw [List.any_eq_false]
  intro s hs
  obtain ⟨k, hk, rfl⟩ := List.mem_map.1 hs
  rw [hnone (k + 1) (Nat.succ_pos k) (List.mem_range.1 hk)]
  exact Bool.false_ne_true

/-- Nobody is in sight behind, and nobody is on the next cell or where the warrior would aim. -/
structure Clear (w : World) : Prop where
  behind : ∀ k, 1 ≤ k → k ≤ lookDistance → w.creatureAt? (w.ahead .backward k) = none
  near : w.creatureAt? (w.ahead .forward 1) = none
  far : w.creatureAt? (w.ahead .forward 3) = none

/-- If nobody is on the next cell, a warrior who is well and has nobody to fight turns round at a wall and walks on
elsewhere. -/
theorem firstOf_later_of_well (hnear : w.creatureAt? (w.ahead .forward 1) = none) (hwell : 8 < w.health)
    (stats : Stats) : firstOf stats w (clauses.drop 3) =
      { actions := [if (w.feel .forward).isWall then .pivot else .walk .forward] } := by
  have hcaptive : (w.feel .forward).isCaptive = false := isCaptive_sense_of_nobody hnear
  have hlow : unwell.guard stats w = false := by
    simp only [unwell, decide_eq_false_iff_not]
    omega
  have hfire : underFire.guard stats w = false := by
    simp only [unwell] at hlow
    simp [underFire, hlow]
  change firstOf stats w [wallAhead, underFire, captiveInReach, unwell, wayFree] = _
  cases hwall : (w.feel .forward).isWall with
  | true => exact firstOf_of_guard hwall _
  | false =>
    have hempty : (w.feel .forward).isEmpty = true := by
      rw [← creature?_sense] at hnear
      rw [feel] at hwall ⊢
      cases hs : w.sense .forward 1 with
      | wall => simp [hs, Space.isWall] at hwall
      | floor stairs creature => simpa [hs, Space.creature?, Space.isEmpty] using hnear
    rw [firstOf_of_not_guard hwall, firstOf_of_not_guard hfire, firstOf_of_not_guard hcaptive,
      firstOf_of_not_guard hlow]
    exact firstOf_of_guard hempty _

/-- A warrior who is well turns round at a wall and walks on elsewhere. -/
theorem Clear.policy_eq (hclear : w.Clear) (hwell : 8 < w.health) (stats : Stats) :
    policy stats w .fresh = { actions := [if (w.feel .forward).isWall then .pivot else .walk .forward] } := by
  have hbehind : (w.look .backward).any Space.isCaptive = false :=
    any_isCaptive_look fun k hk hlook => isCaptive_sense_of_nobody (hclear.behind k hk hlook)
  have hreach : (w.feel .forward).isEnemy = false := isEnemy_sense_of_nobody hclear.near
  have hsight : enemyInSight.guard stats w = false := by
    simp [enemyInSight, isEnemy_sense_of_nobody hclear.far]
  rw [policy, clauses, firstOf_of_not_guard hbehind, firstOf_of_not_guard hreach, firstOf_of_not_guard hsight]
  exact firstOf_later_of_well hclear.near hwell stats

/-! ## Rounds on a clear way -/

theorem act_walk (hready : w.acted = false) (hfeel : w.feel .forward = .floor stairs none) :
    w.act (.walk .forward) = { w.goOn 1 with acted := true, won := w.won || stairs } := by
  have hsame : ({ w with acted := true } : World).feel .forward = .floor stairs none := hfeel
  rw [act_of_not_acted hready, perform, hsame]
  rfl

/-- A round of walking, at the end of which enemies may strike. -/
theorem Clear.next_walk (hclear : w.Clear) (hwell : 8 < w.health) (hready : w.acted = false)
    (hfeel : w.feel .forward = .floor stairs none) : Stage.next ⟨.fresh, stats, w⟩ =
      ⟨.fresh, ⟨w.health⟩, { w.goOn 1 with
        won := w.won || stairs
        health := w.health - enemyPower * (w.goOn 1).threats }⟩ := by
  have hdecision : Stage.decision ⟨.fresh, stats, w⟩ = { actions := [.walk .forward] } := by
    rw [Stage.decision, hclear.policy_eq hwell, hfeel]
    rfl
  rw [Stage.next_of_decision hdecision, act_walk hready hfeel, goOn, hready]
  rfl

/-- A round of turning round at a wall. -/
theorem Clear.next_turn (hclear : w.Clear) (hwell : 8 < w.health) (hready : w.acted = false)
    (hwall : w.feel .forward = .wall) : Stage.next ⟨.fresh, stats, w⟩ = ⟨.fresh, ⟨w.health⟩, w.turned⟩ := by
  have hdecision : Stage.decision ⟨.fresh, stats, w⟩ = { actions := [.pivot] } := by
    rw [Stage.decision, hclear.policy_eq hwell, hwall]
    rfl
  rw [Stage.next_of_decision hdecision, endTurn_act_pivot hready, act_of_not_acted hready]
  rfl

/-- The way is clear, the next cell has no stairs, and nobody strikes after a step. -/
structure Strolls (w : World) : Prop where
  clear : w.Clear
  floor : w.feel .forward = .floor false none
  quiet : (w.goOn 1).threats = 0

theorem Strolls.next_unhurt (hstrolls : w.Strolls) (hwell : 8 < w.health) (hready : w.acted = false) :
    (Stage.unhurt w).next = .unhurt (w.goOn 1) := by
  rw [Stage.unhurt, hstrolls.clear.next_walk hwell hready hstrolls.floor, hstrolls.quiet]
  simp [Stage.unhurt, goOn]

theorem Clear.status_unhurt (hclear : w.Clear) (hwell : 8 < w.health) :
    (Stage.unhurt w).decision.status = .success :=
  congrArg Decision.status (hclear.policy_eq hwell _)

end World

open World

/-- A stretch of the corridor takes as many rounds as it has cells. -/
theorem Passes.stroll {P : World → Status → Prop} {w : World} {n : Nat} (hready : w.acted = false)
    (hwell : 8 < w.health) (hway : ∀ k < n, (w.goOn k).Strolls) (hround : ∀ k < n, P (w.goOn k) .success) :
    Passes P (.unhurt w) n (.unhurt (w.goOn n)) := by
  induction n generalizing w with
  | zero =>
    rw [goOn_zero]
    exact .stay _
  | succ n ih =>
    have hfirst : w.Strolls := by
      have := hway 0 (Nat.succ_pos n)
      rwa [goOn_zero] at this
    have hrest : ∀ k, (w.goOn 1).goOn k = w.goOn (k + 1) := fun k => by rw [goOn_goOn, Nat.add_comm]
    rw [← hrest]
    apply Passes.round
    · have := hround 0 (Nat.succ_pos n)
      rw [goOn_zero] at this
      rwa [hfirst.clear.status_unhurt hwell]
    · rw [hfirst.next_unhurt hwell hready]
      refine ih hready hwell ?_ ?_
      · intro k hk
        rw [hrest]
        exact hway (k + 1) (Nat.succ_lt_succ hk)
      · intro k hk
        rw [hrest]
        exact hround (k + 1) (Nat.succ_lt_succ hk)

/-! ## Deserted corridors -/

namespace World

/-- Nobody else is in the corridor. -/
def Deserted (w : World) : Prop := ∀ i, w.creatureAt? i = none

variable {w : World} {n : Nat}

theorem Deserted.clear (hnobody : w.Deserted) : w.Clear := ⟨fun _ _ _ => hnobody _, hnobody _, hnobody _⟩

theorem Deserted.threats_eq_zero (hnobody : w.Deserted) : w.threats = 0 := by
  rw [threats, List.countP_eq_zero]
  intro i _
  rw [strikes, hnobody]
  exact Bool.false_ne_true

theorem Deserted.goOn (hnobody : w.Deserted) (k : Nat) : (w.goOn k).Deserted := hnobody

theorem Deserted.strolls (hnobody : w.Deserted) (hfloor : w.feel .forward = .floor false none) : w.Strolls :=
  ⟨hnobody.clear, hfloor, (hnobody.goOn 1).threats_eq_zero⟩

/-- A round of turning round at a wall. -/
theorem Deserted.next_turn (hnobody : w.Deserted) (hwell : 8 < w.health) (hready : w.acted = false)
    (hwall : w.feel .forward = .wall) : (Stage.unhurt w).next = .unhurt { w with facing := w.facing.flip } := by
  rw [Stage.unhurt, hnobody.clear.next_turn hwell hready hwall, turned, hnobody.threats_eq_zero]
  simp [Stage.unhurt]

/-- A round of walking onto stairs. -/
theorem Deserted.next_arrive (hnobody : w.Deserted) (hwell : 8 < w.health) (hready : w.acted = false)
    (hstairs : w.feel .forward = .floor true none) : (Stage.unhurt w).next = .unhurt { w.goOn 1 with won := true } := by
  rw [Stage.unhurt, hnobody.clear.next_walk hwell hready hstairs, (hnobody.goOn 1).threats_eq_zero]
  simp [Stage.unhurt, World.goOn]

section Passes

variable {P : World → Status → Prop} (hnobody : w.Deserted) (hwell : 8 < w.health) (hready : w.acted = false)
  (hfree : w.Free n)

include hnobody hwell hready hfree

/-- The way along free cells takes as many rounds as there are cells. -/
theorem Deserted.passes_free (hround : ∀ k < n, P (w.goOn k) .success) :
    Passes P (.unhurt w) n (.unhurt (w.goOn n)) := by
  refine Passes.stroll hready hwell ?_ hround
  intro k hk
  apply (hnobody.goOn k).strolls
  rw [hfree.feel_goOn (Nat.le_of_lt hk)]
  exact hfree (k + 1) (Nat.succ_pos k) hk

/-- The way onto stairs behind free cells takes one round more. -/
theorem Deserted.passes_stairs (hstairs : w.sense .forward (n + 1) = .floor true none)
    (hround : ∀ k ≤ n, P (w.goOn k) .success) :
    Passes P (.unhurt w) (n + 1) (.unhurt { w.goOn (n + 1) with won := true }) := by
  have hfeel : (w.goOn n).feel .forward = .floor true none := (hfree.feel_goOn (Nat.le_refl n)).trans hstairs
  have hlast : Passes P (.unhurt (w.goOn n)) 1 (.unhurt { (w.goOn n).goOn 1 with won := true }) := by
    refine Passes.one ?_ ((hnobody.goOn n).next_arrive hwell hready hfeel)
    rw [(hnobody.goOn n).clear.status_unhurt hwell]
    exact hround n (Nat.le_refl n)
  rw [← goOn_goOn]
  exact (hnobody.passes_free hwell hready hfree fun k hk => hround k (Nat.le_of_lt hk)).trans hlast

end Passes

end World

end Behaviour.Corridor
