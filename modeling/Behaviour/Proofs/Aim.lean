import Behaviour.Proofs.Captives

/-!
# The warrior always finds something to do

A fresh warrior tries all clauses, and there is one for whatever is ahead. A shooting one skips the first three, so that
an enemy on the next cell would leave it with nothing to do. This does not happen: a shot strikes the first one in its
way (`exists_first_of_target?`), so from the first shot to the second one nobody is on the next cell, no captive is
within range, and the enemy three cells away is still there unless nobody is two cells away (`Aimed`).

`proper_policy` is the step, `Outing.Alert.run` the run, and `turns_never_fail` what comes of it.
-/

namespace Behaviour.Corridor

open World

namespace World

variable {w : World} {j : Int} {h : Heading} {k m : Nat}

/-! ## Who is at a place -/

theorem ahead_inj : w.ahead h k = w.ahead h m ↔ k = m := by
  unfold ahead
  cases w.facing.toward h <;> simp only [Facing.step] <;> omega

theorem isEnemy_sense (w : World) (h : Heading) (k : Nat) :
    (w.sense h k).isEnemy = (w.creatureAt? (w.ahead h k)).any Creature.isEnemy := by
  rw [Space.isEnemy, creature?_sense]

/-- Who is neither an enemy nor a captive is nobody. -/
theorem creatureAt?_eq_none_of (henemy : (w.sense h k).isEnemy = false) (hcaptive : ¬ w.captiveAt (w.ahead h k)) :
    w.creatureAt? (w.ahead h k) = none := by
  rw [isEnemy_sense] at henemy
  unfold captiveAt at hcaptive
  cases hc : w.creatureAt? (w.ahead h k) with
  | none => rfl
  | some c =>
    rw [hc] at henemy hcaptive
    cases c with
    | sludge => cases henemy
    | archer => cases henemy
    | captive => exact absurd rfl hcaptive

/-! ## What a shot strikes -/

/-- Where nobody is, nobody is after a shot. -/
theorem creatureAt?_act_shoot_eq_none (hj : w.creatureAt? j = none) : (w.act (.shoot h)).creatureAt? j = none := by
  rcases creatureAt?_act_shoot w h j with hsame | hnone
  · rw [hsame, hj]
  · exact hnone

/-- A shot leaves everyone alone whom it does not strike. -/
theorem occupantAt?_act_shoot_of_ne (hne : w.target? h 1 lookDistance ≠ some j) :
    (w.act (.shoot h)).occupantAt? j = w.occupantAt? j := by
  cases hw : w.acted with
  | true => rw [act_of_acted hw]; rfl
  | false =>
    rw [act_of_not_acted hw]
    exact occupantAt?_perform_of_ne hne nofun

/-- A shot leaves everyone alone who stands behind someone else. -/
theorem occupantAt?_act_shoot_behind (hm : 1 ≤ m) (hmk : m < k) (hsome : w.creatureAt? (w.ahead h m) ≠ none) :
    (w.act (.shoot h)).occupantAt? (w.ahead h k) = w.occupantAt? (w.ahead h k) := by
  apply occupantAt?_act_shoot_of_ne
  intro ht
  obtain ⟨k', -, -, hi, hbefore⟩ := exists_first_of_target? ht
  obtain rfl : k = k' := ahead_inj.1 hi
  exact hsome (hbefore m hm hmk)

theorem isEnemy_sense_act_shoot_behind (hm : 1 ≤ m) (hmk : m < k) (hsome : w.creatureAt? (w.ahead h m) ≠ none) :
    ((w.act (.shoot h)).sense h k).isEnemy = (w.sense h k).isEnemy := by
  rw [isEnemy_sense, isEnemy_sense, ahead_act_shoot, creatureAt?, creatureAt?,
    occupantAt?_act_shoot_behind hm hmk hsome]

end World

/-! ## Between the first shot and the second one -/

variable {stats : Stats} {w : World}

/-- What a warrior who is shooting has ahead. -/
structure Aimed (w : World) : Prop where
  safe : Safe .shooting w
  near : w.creatureAt? (w.ahead .forward 1) = none
  far : (w.sense .forward 3).isEnemy = true ∨ w.creatureAt? (w.ahead .forward 2) = none

/-- The end of a turn and another health leave everyone where they are. -/
theorem Aimed.endTurn (h : Aimed w) : Aimed w.endTurn := ⟨h.safe, h.near, h.far⟩

theorem Aimed.withHealth (h : Aimed w) (health : Int) : Aimed (w.withHealth health) := ⟨h.safe, h.near, h.far⟩

/-- A fresh warrior who takes a shot has not found an enemy on the next cell. -/
theorem aimed_of_guards (hreach : enemyInReach.guard stats w = false) (hsight : enemyInSight.guard stats w = true) :
    Aimed (w.act (.shoot .forward)) := by
  have hsafe := safe_of_enemyInSight hsight
  have hnext : ¬ w.captiveAt (w.ahead .forward 1) := hsafe rfl 1 (by decide) (by decide)
  constructor
  case safe => exact hsafe.act_shoot
  case near =>
    rw [ahead_act_shoot]
    exact creatureAt?_act_shoot_eq_none (creatureAt?_eq_none_of hreach hnext)
  case far =>
    rw [ahead_act_shoot]
    by_cases hsecond : w.creatureAt? (w.ahead .forward 2) = none
    · exact .inr (creatureAt?_act_shoot_eq_none hsecond)
    · left
      rw [isEnemy_sense_act_shoot_behind (by decide) (by decide) hsecond]
      simp only [enemyInSight, Bool.and_eq_true] at hsight
      exact hsight.2

/-- If the second shot leaves no enemy three cells away, it leaves nobody within range. -/
theorem Aimed.nobody_ahead (h : Aimed w) (hlost : ((w.act (.shoot .forward)).sense .forward 3).isEnemy = false) :
    ∀ k, 1 ≤ k → k ≤ lookDistance → (w.act (.shoot .forward)).creatureAt? (w.ahead .forward k) = none := by
  have hsecond : (w.act (.shoot .forward)).creatureAt? (w.ahead .forward 2) = none := by
    by_contra hsome
    have hbefore : w.creatureAt? (w.ahead .forward 2) ≠ none := fun hnone =>
      hsome (creatureAt?_act_shoot_eq_none hnone)
    -- The shot was stopped two cells away, so the enemy behind is still there.
    rw [isEnemy_sense_act_shoot_behind (by decide) (by decide) hbefore] at hlost
    rcases h.far with hfar | hfar
    · rw [hlost] at hfar
      cases hfar
    · exact hbefore hfar
  have hthird : (w.act (.shoot .forward)).creatureAt? (w.ahead .forward 3) = none := by
    have hcaptive := h.safe.act_shoot rfl 3 (by decide) (by decide)
    rw [← ahead_act_shoot (h := .forward)] at ⊢
    exact creatureAt?_eq_none_of hlost hcaptive
  intro k hpos hle
  have hk : k = 1 ∨ k = 2 ∨ k = 3 := by
    unfold lookDistance at hle
    omega
  rcases hk with rfl | rfl | rfl
  · exact creatureAt?_act_shoot_eq_none h.near
  · exact hsecond
  · exact hthird

/-- After the second shot no enemy is on the next cell. -/
theorem Aimed.not_isEnemy_feel (h : Aimed w) : ((w.act (.shoot .forward)).feel .forward).isEnemy = false := by
  rw [World.feel, isEnemy_sense, ahead_act_shoot, creatureAt?_act_shoot_eq_none h.near]
  rfl

/-! ## There is always a clause -/

/-- If a clause applies, the first one that does decides. -/
theorem exists_clause_of_guard : ∀ {cs : List Clause}, (∃ c ∈ cs, c.guard stats w = true) →
    ∃ c ∈ cs, c.guard stats w = true ∧ firstOf stats w cs = c.decision
  | [], h => by simp at h
  | c :: cs, h => by
    cases hc : c.guard stats w with
    | true => exact ⟨c, List.mem_cons_self, hc, firstOf_of_guard hc cs⟩
    | false =>
      rw [firstOf_of_not_guard hc]
      have hrest : ∃ c ∈ cs, c.guard stats w = true := by simpa [hc] using h
      obtain ⟨d, hd, hg, heq⟩ := exists_clause_of_guard hrest
      exact ⟨d, List.mem_cons_of_mem _ hd, hg, heq⟩

/-- Unless an enemy is on the next cell, one of the last five clauses applies. -/
theorem exists_later_guard (stats : Stats) (h : (w.feel .forward).isEnemy = false) :
    ∃ c ∈ clauses.drop 3, c.guard stats w = true := by
  cases hs : w.feel .forward with
  | wall => exact ⟨wallAhead, by simp [clauses], by simp [wallAhead, hs, Space.isWall]⟩
  | floor stairs creature =>
    cases creature with
    | none => exact ⟨wayFree, by simp [clauses], by simp [wayFree, hs, Space.isEmpty]⟩
    | some c =>
      cases c with
      | captive =>
        exact ⟨captiveInReach, by simp [clauses], by simp [captiveInReach, hs, Space.isCaptive, Space.creature?]⟩
      | sludge => simp [hs, Space.isEnemy, Space.creature?, Creature.isEnemy] at h
      | archer => simp [hs, Space.isEnemy, Space.creature?, Creature.isEnemy] at h

theorem exists_guard (stats : Stats) (w : World) : ∃ c ∈ clauses, c.guard stats w = true := by
  cases h : (w.feel .forward).isEnemy with
  | true => exact ⟨enemyInReach, by simp [clauses], h⟩
  | false =>
    obtain ⟨c, hc, hg⟩ := exists_later_guard stats h
    exact ⟨c, List.mem_of_mem_drop hc, hg⟩

/-- A fresh warrior follows a clause. -/
theorem exists_clause_fresh (stats : Stats) (w : World) :
    ∃ c ∈ clauses, c.guard stats w = true ∧ policy stats w .fresh = c.decision :=
  exists_clause_of_guard (exists_guard stats w)

/-- A shooting warrior who goes on after the second shot follows one of the last five clauses. -/
theorem Aimed.exists_clause (h : Aimed w) (stats : Stats) : ∃ c ∈ clauses.drop 3,
    c.guard stats (w.act (.shoot .forward)) = true ∧
      firstOf stats (w.act (.shoot .forward)) (clauses.drop 3) = c.decision :=
  exists_clause_of_guard (exists_later_guard stats h.not_isEnemy_feel)

/-- One of several clauses leads to a mode: either the first one applies and does, or one of the others does. -/
theorem mode_firstOf_cons {c : Clause} {cs : List Clause} {mode : Mode} (h : (firstOf stats w (c :: cs)).mode = mode) :
    (c.guard stats w = true ∧ c.decision.mode = mode) ∨
      (c.guard stats w = false ∧ (firstOf stats w cs).mode = mode) := by
  cases hc : c.guard stats w with
  | true =>
    rw [firstOf_of_guard hc] at h
    exact .inl ⟨rfl, h⟩
  | false =>
    rw [firstOf_of_not_guard hc] at h
    exact .inr ⟨rfl, h⟩

/-- A fresh warrior begins to shoot at an enemy in sight, if none is in reach. -/
theorem guards_of_begin_shooting (h : (policy stats w .fresh).mode = .shooting) :
    enemyInReach.guard stats w = false ∧ enemyInSight.guard stats w = true := by
  obtain ⟨-, hmode⟩ | ⟨-, h⟩ := mode_firstOf_cons h
  · cases hmode
  obtain ⟨-, hmode⟩ | ⟨hreach, h⟩ := mode_firstOf_cons h
  · cases hmode
  obtain ⟨hsight, -⟩ | ⟨-, h⟩ := mode_firstOf_cons h
  · exact ⟨hreach, hsight⟩
  · exact absurd h (mode_firstOf_later stats w)

/-! ## What the policy decides -/

/-- A decision does not fail, and a turn ends running just when it leaves something to be resumed. -/
structure Decision.Proper (d : Decision) : Prop where
  answers : d.status ≠ .failure
  running_iff : d.status = .running ↔ d.mode ≠ .fresh

theorem proper_of_mem {c : Clause} (hc : c ∈ clauses) : c.decision.Proper := by
  have hall : ∀ c ∈ clauses, c.decision.status ≠ .failure ∧ (c.decision.status = .running ↔ c.decision.mode ≠ .fresh) :=
    by decide
  exact ⟨(hall c hc).1, (hall c hc).2⟩

variable {mode : Mode}

/-- What the policy decides is proper. -/
theorem proper_policy (stats : Stats) (h : mode = .shooting → Aimed w) : (policy stats w mode).Proper := by
  cases mode with
  | fresh =>
    obtain ⟨c, hc, -, hd⟩ := exists_clause_fresh stats w
    rw [hd]
    exact proper_of_mem hc
  | shooting =>
    rw [policy]
    split
    · exact ⟨by decide, by decide⟩
    · obtain ⟨c, hc, -, hd⟩ := (h rfl).exists_clause stats
      rw [hd]
      obtain ⟨hanswers, hrunning⟩ := proper_of_mem (List.mem_of_mem_drop hc)
      exact ⟨hanswers, hrunning⟩
  | healing =>
    rw [policy]
    split
    · exact ⟨by decide, by decide⟩
    · exact ⟨by decide, by decide⟩

/-- The policy leads to shooting from a fresh start only. -/
theorem mode_policy_ne_shooting (stats : Stats) (w : World) (h : mode ≠ .fresh) :
    (policy stats w mode).mode ≠ .shooting := by
  cases mode with
  | fresh => exact absurd rfl h
  | shooting =>
    rw [policy]
    split
    · decide
    · exact mode_firstOf_later stats _
  | healing =>
    rw [policy]
    split <;> decide

/-- What the policy decides for a warrior leaves them with what a shooting warrior has ahead. -/
theorem aimed_policy (h : (policy stats w mode).mode = .shooting) : Aimed (w.after (policy stats w mode).actions) := by
  cases mode with
  | fresh =>
    obtain ⟨hreach, hsight⟩ := guards_of_begin_shooting h
    have hshot : (policy stats w .fresh).actions = [.shoot .forward] := by
      obtain ⟨c, hc, -, hd⟩ := exists_clause_fresh stats w
      have honly : ∀ c ∈ clauses, c.decision.mode = .shooting → c.decision.actions = [.shoot .forward] := by decide
      rw [hd] at h ⊢
      exact honly c hc h
    rw [hshot]
    exact aimed_of_guards hreach hsight
  | shooting => exact absurd h (mode_policy_ne_shooting stats w nofun)
  | healing => exact absurd h (mode_policy_ne_shooting stats w nofun)

theorem Mode.place_inj {mode mode' : Mode} : mode.place = mode'.place ↔ mode = mode' := by
  cases mode <;> cases mode' <;> decide

/-- The place that the root resumes at tells the mode. -/
theorem Plays.rootPlace_eq_iff {p : Player Stats World} (h : Plays p mode) (mode' : Mode) :
    p.tree.rootPlace = mode'.place ↔ mode = mode' := by
  rw [h.rootPlace, Mode.place_inj]

/-! ## Runs -/

namespace Outing

variable {o : Outing}

/-- The outing goes on with snapshots that only look, and a shooting warrior is aimed. -/
structure Alert (o : Outing) : Prop where
  init : ∀ w, (o.player.init w).2 = w
  save : ∀ w, (o.player.save w).2 = w
  aimed : ∃ mode, Plays o.player mode ∧ (mode = .shooting → Aimed o.world)

/-- A turn does not fail, and ends running just when something is left to be resumed. -/
theorem Alert.turn (h : Alert o) : ∃ round, o.player.play o.world = .ok round ∧ round.status ≠ .failure ∧
    (round.status = .running ↔ round.player.tree.rootPlace ≠ 0) ∧ Alert ⟨round.player, round.world⟩ := by
  obtain ⟨mode, hp, haimed⟩ := h.aimed
  obtain ⟨round, hplay, hstatus, -, hworld, hplayer, hplays⟩ := hp.turn_of_looks h.init h.save o.world
  obtain ⟨hanswers, hrunning⟩ := proper_policy (o.player.opening o.world).1 haimed
  refine ⟨round, hplay, ?_, ?_, ?_, ?_, _, hplays, ?_⟩
  · rwa [hstatus]
  · rw [hstatus, hrunning]
    exact not_congr (hplays.rootPlace_eq_iff .fresh).symm
  · rw [hplayer]
    exact h.init
  · rw [hplayer]
    exact h.save
  · rw [hworld]
    exact aimed_policy

theorem Alert.step (h : Alert o) (move : Move) : ∃ o', o.step move = .ok o' ∧ Alert o' := by
  cases move with
  | play =>
    obtain ⟨round, hplay, -, -, halert⟩ := h.turn
    exact ⟨_, step_play hplay, halert⟩
  | endTurn =>
    obtain ⟨mode, hp, haimed⟩ := h.aimed
    exact ⟨_, rfl, h.init, h.save, mode, hp, fun hm => (haimed hm).endTurn⟩
  | setHealth health =>
    obtain ⟨mode, hp, haimed⟩ := h.aimed
    exact ⟨_, rfl, h.init, h.save, mode, hp, fun hm => (haimed hm).withHealth health⟩

theorem Alert.run (moves : List Move) (h : Alert o) : ∃ o', o.run moves = .ok o' ∧ Alert o' :=
  run_induction (fun _ move h => h.step move) moves h

theorem alert_start (init save : World → Stats) (layout : List Char) : Alert (start init save layout) where
  init _ := rfl
  save _ := rfl
  aimed := ⟨.fresh, plays_start init save layout, nofun⟩

end Outing

/-- In every layout and every run, whatever the snapshots tell, no turn fails, and one ends running just when it leaves
the root away from its first child. -/
theorem turns_never_fail (init save : World → Stats) (layout : List Char) (moves : List Move) :
    ∃ o round, (Outing.start init save layout).run moves = .ok o ∧ o.player.play o.world = .ok round ∧
      round.status ≠ .failure ∧ (round.status = .running ↔ round.player.tree.rootPlace ≠ 0) := by
  obtain ⟨o, hrun, halert⟩ := (Outing.alert_start init save layout).run moves
  obtain ⟨round, hplay, hanswers, hrunning, -⟩ := halert.turn
  exact ⟨o, round, hrun, hplay, hanswers, hrunning⟩

/-- A sludge three cells away is shot at in the first turn, so that the next one resumes the root at the shot. -/
theorem turns_never_fail_sludge : ∃ o round,
    (Outing.start (fun w => ⟨w.health⟩) (fun w => ⟨w.health⟩) "@  s>".toList).run [.play, .endTurn] = .ok o ∧
      o.player.tree.rootPlace = 2 ∧ o.player.play o.world = .ok round ∧ round.status ≠ .failure ∧
      (round.status = .running ↔ round.player.tree.rootPlace ≠ 0) := by
  obtain ⟨o, round, hrun, hplay, hanswers, hrunning⟩ :=
    turns_never_fail (fun w => ⟨w.health⟩) (fun w => ⟨w.health⟩) "@  s>".toList [.play, .endTurn]
  refine ⟨o, round, hrun, ?_, hplay, hanswers, hrunning⟩
  have hstart := Outing.plays_start (fun w => ⟨w.health⟩) (fun w => ⟨w.health⟩) "@  s>".toList
  obtain ⟨first, hfirst, -, -, -, -, hplays⟩ :=
    hstart.turn_of_looks (fun _ => rfl) (fun _ => rfl) (World.ofLayout "@  s>".toList)
  obtain rfl : ⟨first.player, first.world.endTurn⟩ = o :=
    Except.ok.inj ((Outing.run_play_endTurn hfirst).symm.trans hrun)
  have hshoots : ∀ stats, (policy stats (World.ofLayout "@  s>".toList) .fresh).mode = .shooting := fun _ => rfl
  rw [hshoots] at hplays
  exact hplays.rootPlace

end Behaviour.Corridor
