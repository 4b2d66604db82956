import Behaviour.Proofs.Rendering
import Behaviour.Proofs.Sight
import Behaviour.Proofs.Strolling

/-!
# A duel

There is a sludge between the warrior and the stairs, and nobody else. From afar the warrior comes as near as three
cells, shoots four times, and is never struck; a warrior who begins nearer has to come up to the sludge and strikes
three times, while it strikes back. In either case the way is free then.

All worlds of a duel are alike but for the health of the sludge, the place and the health of the warrior, and the number
of rejected actions (`World.duel`): the equations for one round lead from one of them to the next, `sludge_beaten` puts
them together.
-/

namespace Behaviour.Corridor

open World

/-! ## The corridor -/

/-- A sludge with so much health left. -/
def sludge (health : Nat) : Option Occupant := if health = 0 then none else some ⟨.sludge, health⟩

theorem sludge_zero : sludge 0 = none := rfl

theorem sludge_of_pos {health : Nat} (h : 0 < health) : sludge health = some ⟨.sludge, health⟩ :=
  if_neg (Nat.ne_of_gt h)

/-- The layout of a duel, with `k` cells between the warrior and the sludge and `m` between the sludge and the stairs. -/
def duelLayout (k m : Nat) : List Char := '@' :: (List.replicate k ' ' ++ 's' :: (List.replicate m ' ' ++ ['>']))

/-- The cells of a duel, as long as the sludge has so much health left. -/
def lane (k m health : Nat) : List Cell :=
  List.replicate (k + 1) ({} : Cell) ++
    { occupant := sludge health } :: (List.replicate m ({} : Cell) ++ [{ stairs := true }])

theorem length_lane (k m h : Nat) : (lane k m h).length = k + m + 3 := by
  simp only [lane, List.length_append, List.length_cons, List.length_replicate, List.length_nil]
  omega

theorem getElem?_lane (k m h j : Nat) : (lane k m h)[j]? =
    if j = k + 1 then some { occupant := sludge h }
    else if j ≤ k + m + 1 then some {}
    else if j = k + m + 2 then some { stairs := true }
    else none := by
  rcases Nat.lt_trichotomy j (k + 1) with hj | rfl | hj
  · rw [lane, List.getElem?_append_left (by simpa using hj), List.getElem?_replicate_of_lt hj, if_neg (by omega),
      if_pos (by omega)]
  · simp [lane]
  · obtain ⟨d, rfl⟩ : ∃ d, j = k + 1 + (d + 1) := ⟨j - (k + 2), by omega⟩
    have hplace : (lane k m h)[k + 1 + (d + 1)]? = (List.replicate m ({} : Cell) ++ [{ stairs := true }])[d]? := by
      rw [lane, List.getElem?_append_right (by simp), List.length_replicate, Nat.add_sub_cancel_left,
        List.getElem?_cons_succ]
    rw [hplace, if_neg (by omega)]
    rcases Nat.lt_trichotomy d m with hd | rfl | hd
    · rw [List.getElem?_append_left (by simpa using hd), List.getElem?_replicate_of_lt hd, if_pos (by omega)]
    · rw [List.getElem?_append_right (by simp), List.length_replicate, Nat.sub_self, if_neg (by omega),
        if_pos (by omega), List.getElem?_cons_zero]
    · rw [List.getElem?_eq_none (by simpa using hd), if_neg (by omega), if_neg (by omega)]

theorem modify_lane (k m h h' : Nat) :
    (lane k m h).modify (k + 1) (fun c => { c with occupant := sludge h' }) = lane k m h' := by
  apply List.ext_getElem?
  intro j
  rw [List.getElem?_modify, getElem?_lane, getElem?_lane]
  by_cases hj : k + 1 = j
  · simp [hj]
  · simp [hj, Ne.symm hj]

namespace World

variable {w : World} {k m h i r : Nat} {health : Int} {stats : Stats}

/-! ## Senses -/

section Lane

variable (hlane : w.cells = lane k m h)

include hlane

theorem spaceAt_of_lane (j : Nat) : w.spaceAt j =
    if j = k + 1 then .floor false ((sludge h).map Occupant.creature)
    else if j ≤ k + m + 1 then .floor false none
    else if j = k + m + 2 then .floor true none
    else .wall := by
  rw [spaceAt, cellAt?_natCast, hlane, getElem?_lane]
  split_ifs <;> rfl

theorem occupantAt?_of_lane (j : Int) : w.occupantAt? j = if j = (k + 1 : Nat) then sludge h else none := by
  rw [occupantAt?, cellAt?, hlane]
  by_cases hj : j < 0
  · rw [if_pos hj, if_neg (by omega)]
    rfl
  · lift j to Nat using Int.not_lt.1 hj
    rw [if_neg hj, Int.toNat_natCast, getElem?_lane]
    simp only [Nat.cast_inj]
    split_ifs <;> rfl

/-- A blow or a shot at the sludge. -/
theorem damage_of_lane (amount : Nat) : w.damage (k + 1 : Nat) amount = { w with cells := lane k m (h - amount) } := by
  rw [damage, occupantAt?_of_lane hlane, if_pos rfl]
  rcases Nat.eq_zero_or_pos h with rfl | hpos
  · rw [sludge_zero, Nat.zero_sub, ← hlane]
  · have hleft : (if h ≤ amount then none else some ⟨.sludge, h - amount⟩) = sludge (h - amount) := by
      simp only [sludge, Nat.sub_eq_zero_iff_le]
    rw [sludge_of_pos hpos]
    change w.setOccupant (k + 1 : Nat) (if h ≤ amount then none else some ⟨.sludge, h - amount⟩) = _
    rw [hleft, setOccupant, hlane, Int.toNat_natCast, modify_lane]

theorem creatureAt?_of_lane (j : Int) :
    w.creatureAt? j = if j = (k + 1 : Nat) ∧ 0 < h then some .sludge else none := by
  rw [creatureAt?, occupantAt?_of_lane hlane]
  rcases Nat.eq_zero_or_pos h with rfl | hpos
  · simp [sludge_zero]
  · simp only [sludge_of_pos hpos, hpos, and_true]
    split <;> rfl

end Lane

/-! ## The worlds of a duel -/

/-- A world of a duel: the sludge has health `h` left, and the warrior is at the place `i`. -/
def duel (k m h i : Nat) (health : Int) (rejected : Nat) : World :=
  { cells := lane k m h, position := i, health, rejected }

theorem ofLayout_duelLayout (k m : Nat) : ofLayout (duelLayout k m) = duel k m 12 0 maxHealth 0 := by
  have hlater : '@' ∉ List.replicate k ' ' ++ 's' :: (List.replicate m ' ' ++ ['>']) := by
    simp [List.mem_replicate]
  have hstart : lastStart? (duelLayout k m) = some 0 := by
    rw [duelLayout, lastStart?, lastStart?_eq_none_iff.2 hlater]
    rfl
  have hcells : (duelLayout k m).map Cell.ofChar = lane k m 12 := by
    rw [duelLayout, lane, List.replicate_succ]
    simp [Cell.ofChar, sludge, Creature.fullHealth]
  rw [ofLayout, hstart, hcells]
  rfl

theorem ahead_duel (d : Nat) : (duel k m h i health r).ahead .forward d = (i + d : Nat) :=
  ahead_of_right rfl d

theorem sense_duel (d : Nat) : (duel k m h i health r).sense .forward d =
    (duel k m h i health r).spaceAt (i + d : Nat) := sense_of_right rfl d

theorem goOn_duel (d : Nat) : (duel k m h i health r).goOn d = duel k m h (i + d) health r :=
  goOn_of_right rfl d

/-- The sludge strikes from the next cell only. -/
theorem strikes_duel_iff {j : Nat} (hi : i ≤ k) :
    (duel k m h i health r).strikes j = true ↔ j = k + 1 ∧ 0 < h ∧ i = k := by
  rw [strikes, creatureAt?_of_lane rfl]
  by_cases hthere : (j : Int) = (k + 1 : Nat) ∧ 0 < h
  · rw [if_pos hthere]
    simp only [distance, duel, beq_iff_eq]
    omega
  · rw [if_neg hthere]
    refine iff_of_false Bool.false_ne_true ?_
    rintro ⟨rfl, hh, -⟩
    exact hthere ⟨rfl, hh⟩

theorem threats_duel_of_lt (hi : i < k) : (duel k m h i health r).threats = 0 := by
  rw [threats, List.countP_eq_zero]
  intro j _ hj
  exact Nat.ne_of_lt hi ((strikes_duel_iff (Nat.le_of_lt hi)).1 hj).2.2

theorem threats_duel_beside (hh : 0 < h) : (duel k m h k health r).threats = 1 := by
  have hstrikes : ∀ j ∈ List.range (lane k m h).length, (duel k m h k health r).strikes j = (j == k + 1) := by
    intro j _
    rw [Bool.eq_iff_iff, strikes_duel_iff (Nat.le_refl k), beq_iff_eq]
    exact and_iff_left ⟨hh, rfl⟩
  rw [threats]
  change (List.range (lane k m h).length).countP _ = 1
  rw [List.countP_congr fun j hj => by rw [hstrikes j hj]]
  apply List.count_eq_one_of_mem List.nodup_range
  rw [List.mem_range, length_lane]
  omega

theorem deserted_duel : (duel k m 0 i health r).Deserted := by
  intro j
  rw [creatureAt?_of_lane rfl, if_neg fun hj => Nat.lt_irrefl 0 hj.2]

theorem feel_duel (hi : i < k) : (duel k m h i health r).feel .forward = .floor false none := by
  rw [feel, sense_duel, spaceAt_of_lane rfl, if_neg (by omega), if_pos (by omega)]

/-- From where the sludge is neither on the next cell nor in sight. -/
theorem clear_duel (hi : i < k) (hfar : i + 2 ≠ k) : (duel k m h i health r).Clear where
  behind d hd _ := by
    rw [creatureAt?_of_lane rfl, if_neg]
    simp only [duel, ahead, Facing.toward, Facing.flip, Facing.step]
    omega
  near := by
    rw [ahead_duel, creatureAt?_of_lane rfl, if_neg]
    omega
  far := by
    rw [ahead_duel, creatureAt?_of_lane rfl, if_neg]
    omega

/-! ## Rounds of a duel -/

/-- A round of coming nearer. -/
theorem strolls_duel (hi : i + 3 ≤ k) : (duel k m h i health r).Strolls where
  clear := clear_duel (by omega) (by omega)
  floor := feel_duel (by omega)
  quiet := by
    rw [goOn_duel]
    exact threats_duel_of_lt (by omega)

/-- A round of coming up to the sludge. -/
theorem next_duel_walk (hh : 0 < h) (hwell : 8 < health) :
    Stage.next ⟨.fresh, stats, duel (i + 1) m h i health r⟩ =
      ⟨.fresh, ⟨health⟩, duel (i + 1) m h (i + 1) (health - 3) r⟩ := by
  have hclear : (duel (i + 1) m h i health r).Clear := clear_duel (Nat.lt_succ_self i) (by omega)
  rw [hclear.next_walk hwell rfl (feel_duel (Nat.lt_succ_self i)), goOn_duel, threats_duel_beside hh]
  rfl

theorem isCaptive_sense_duel (d : Heading) (n : Nat) : ((duel k m h i health r).sense d n).isCaptive = false := by
  rw [Space.isCaptive, creature?_sense, creatureAt?_of_lane rfl]
  split <;> rfl

theorem any_isCaptive_look_duel (d : Heading) : ((duel k m h i health r).look d).any Space.isCaptive = false :=
  any_isCaptive_look fun n _ _ => isCaptive_sense_duel d n

theorem isEnemy_sense_duel (hh : 0 < h) (d : Nat) :
    ((duel k m h i health r).sense .forward d).isEnemy = decide (i + d = k + 1) := by
  rw [isEnemy_sense, ahead_duel, creatureAt?_of_lane rfl]
  simp only [hh, and_true, Nat.cast_inj]
  by_cases hd : i + d = k + 1 <;> simp [hd, Creature.isEnemy]

theorem act_attack_duel : (duel k m h k health r).act (.attack .forward) =
    { duel k m (h - 5) k health r with acted := true } := by
  rw [act_of_not_acted rfl]
  change World.damage _ ((duel k m h k health r).ahead .forward 1) attackPower = _
  rw [ahead_duel]
  exact damage_of_lane rfl attackPower

/-- A shot from three cells away. -/
theorem act_shoot_duel (hh : 0 < h) : (duel (i + 2) m h i health r).act (.shoot .forward) =
    { duel (i + 2) m (h - 3) i health r with acted := true } := by
  have hinside : (duel (i + 2) m h i health r).position ≤ (lane (i + 2) m h).length := by
    rw [length_lane]
    change i ≤ _
    omega
  have htarget : (duel (i + 2) m h i health r).target? .forward 1 lookDistance = some ((i + 2 + 1 : Nat) : Int) := by
    have hplace : (duel (i + 2) m h i health r).ahead .forward 3 = (i + 2 + 1 : Nat) := ahead_duel 3
    rw [← hplace]
    refine target?_of_first hinside (Nat.le_refl 1) (by decide) (by decide) ?_ ?_
    · rw [ahead_duel, creatureAt?_of_lane rfl, if_pos ⟨rfl, hh⟩]
      nofun
    · intro d _ hd
      rw [ahead_duel, creatureAt?_of_lane rfl, if_neg]
      omega
  rw [act_shoot_of_not_acted rfl, htarget]
  exact damage_of_lane rfl shootPower

theorem endTurn_duel : ({ duel k m h i health r with acted := true } : World).endTurn =
    duel k m h i (health - enemyPower * (duel k m h i health r).threats) r := rfl

/-- A round of striking, in which the sludge strikes back if it can. -/
theorem next_duel_attack (hh : 0 < h) : Stage.next ⟨.fresh, stats, duel k m h k health r⟩ =
    ⟨.fresh, ⟨health⟩, duel k m (h - 5) k (if 5 < h then health - 3 else health) r⟩ := by
  have hreach : enemyInReach.guard stats (duel k m h k health r) = true :=
    (isEnemy_sense_duel hh 1).trans (decide_eq_true rfl)
  have hdecision : Stage.decision ⟨.fresh, stats, duel k m h k health r⟩ = { actions := [.attack .forward] } := by
    rw [Stage.decision, policy, clauses, firstOf_of_not_guard (any_isCaptive_look_duel .backward),
      firstOf_of_guard hreach]
    rfl
  have hthreats : (duel k m (h - 5) k health r).threats = if 5 < h then 1 else 0 := by
    split_ifs with hleft
    · exact threats_duel_beside (Nat.sub_pos_of_lt hleft)
    · rw [Nat.sub_eq_zero_of_le (Nat.not_lt.1 hleft)]
      exact deserted_duel.threats_eq_zero
  rw [Stage.next_of_decision hdecision, act_attack_duel, endTurn_duel, hthreats]
  split_ifs <;> simp [enemyPower, duel]

/-- A round of shooting. -/
theorem next_duel_shoot (hh : 0 < h) : Stage.next ⟨.fresh, stats, duel (i + 2) m h i health r⟩ =
    ⟨.shooting, ⟨health⟩, duel (i + 2) m (h - 3) i health r⟩ := by
  have hreach : enemyInReach.guard stats (duel (i + 2) m h i health r) = false :=
    (isEnemy_sense_duel hh 1).trans (decide_eq_false (by omega))
  have hsight : enemyInSight.guard stats (duel (i + 2) m h i health r) = true := by
    simp [enemyInSight, isCaptive_sense_duel, isEnemy_sense_duel hh]
  have hdecision : Stage.decision ⟨.fresh, stats, duel (i + 2) m h i health r⟩ = enemyInSight.decision := by
    rw [Stage.decision, policy, clauses, firstOf_of_not_guard (any_isCaptive_look_duel .backward),
      firstOf_of_not_guard hreach, firstOf_of_guard hsight]
  have hafter : (duel (i + 2) m h i health r).after enemyInSight.decision.actions =
      { duel (i + 2) m (h - 3) i health r with acted := true } := act_shoot_duel hh
  simp only [Stage.next, hdecision, hafter, endTurn_duel, threats_duel_of_lt (Nat.lt_add_of_pos_right Nat.two_pos)]
  simp [duel, enemyInSight]

/-- A round of shooting again, and of a step that is not made any more. -/
theorem next_duel_shoot_again (hh : 0 < h) (hwell : 8 < health) :
    Stage.next ⟨.shooting, stats, duel (i + 2) m h i health r⟩ =
      ⟨.fresh, ⟨health⟩, duel (i + 2) m (h - 3) i health (r + 1)⟩ := by
  have hdecision : Stage.decision ⟨.shooting, stats, duel (i + 2) m h i health r⟩ =
      { actions := [.shoot .forward, .walk .forward] } := by
    simp only [Stage.decision, policy, act_shoot_duel hh]
    split
    · rfl
    · -- The sludge is gone, and the warrior would walk on.
      have hfree : (duel (i + 2) m (h - 3) i health r).feel .forward = .floor false none := feel_duel (by omega)
      have hfeel : ({ duel (i + 2) m (h - 3) i health r with acted := true } : World).feel .forward =
          .floor false none := hfree
      have hnear := creature?_sense ({ duel (i + 2) m (h - 3) i health r with acted := true } : World) .forward 1
      rw [← feel, hfeel] at hnear
      rw [firstOf_later_of_well hnear.symm hwell stats, hfeel]
      rfl
  have hafter : (duel (i + 2) m h i health r).after [.shoot .forward, .walk .forward] =
      { duel (i + 2) m (h - 3) i health (r + 1) with acted := true } := by
    rw [after_cons_of_ready rfl, act_shoot_duel hh]
    rfl
  simp only [Stage.next, hdecision, hafter, endTurn_duel, threats_duel_of_lt (Nat.lt_add_of_pos_right Nat.two_pos)]
  simp [duel]

end World

/-! ## The phases of a duel -/

/-- The game is not won yet, and a warrior who began at a distance was never struck. -/
structure Underway (k : Nat) (w : World) (status : Status) : Prop where
  won_eq : w.won = false
  health_eq : 2 ≤ k → w.health = 20

/-- The game is won, nobody is left, and the warrior has so much health left and so many actions were rejected. -/
structure Beaten (health : Int) (rejected : Nat) (w : World) : Prop where
  won_eq : w.won = true
  deserted : w.Deserted
  health_eq : w.health = health
  rejected_eq : w.rejected = rejected

section Phases

variable {k m h i r : Nat} {health : Int} {stats : Stats}

theorem underway_duel (hhealth : 2 ≤ k → health = 20) (status : Status) : Underway k (duel k m h i health r) status :=
  ⟨rfl, hhealth⟩

/-- From afar, the warrior comes as near as three cells. -/
theorem passes_approach (k m : Nat) : Passes (Underway (k + 2)) (.unhurt (duel (k + 2) m 12 0 20 0)) k
    (.unhurt (duel (k + 2) m 12 k 20 0)) := by
  have hgoOn : ∀ d, (duel (k + 2) m 12 0 20 0).goOn d = duel (k + 2) m 12 d 20 0 := by
    intro d
    rw [goOn_duel, Nat.zero_add]
  rw [← hgoOn k]
  apply Passes.stroll rfl (show (8 : Int) < 20 by decide)
  · intro d hd
    rw [hgoOn]
    exact strolls_duel (by omega)
  · intro d _
    rw [hgoOn]
    exact underway_duel (fun _ => rfl) _

/-- Two shots, and a step that is not made. -/
theorem passes_two_shots (hh : 3 < h) : Passes (Underway (i + 2)) ⟨.fresh, stats, duel (i + 2) m h i 20 r⟩ 2
    ⟨.fresh, ⟨20⟩, duel (i + 2) m (h - 3 - 3) i 20 (r + 1)⟩ := by
  have hfirst : Passes (Underway (i + 2)) ⟨.fresh, stats, duel (i + 2) m h i 20 r⟩ 1
      ⟨.shooting, ⟨20⟩, duel (i + 2) m (h - 3) i 20 r⟩ :=
    .one (underway_duel (fun _ => rfl) _) (next_duel_shoot (by omega))
  have hsecond : Passes (Underway (i + 2)) ⟨.shooting, ⟨20⟩, duel (i + 2) m (h - 3) i 20 r⟩ 1
      ⟨.fresh, ⟨20⟩, duel (i + 2) m (h - 3 - 3) i 20 (r + 1)⟩ :=
    .one (underway_duel (fun _ => rfl) _) (next_duel_shoot_again (by omega) (by decide))
  exact hfirst.trans hsecond

/-- Next to each other, they strike in turn, and the warrior is the last one to do so. -/
theorem passes_melee (hk : k < 2) : Passes (Underway k) ⟨.fresh, stats, duel k m 12 k health r⟩ 3
    (.unhurt (duel k m 0 k (health - 3 - 3) r)) := by
  have hnear : ∀ health : Int, 2 ≤ k → health = 20 := fun _ hfar => absurd hfar (Nat.not_le.2 hk)
  have hstrike : ∀ (h : Nat) (health : Int) (stats : Stats), 0 < h →
      Passes (Underway k) ⟨.fresh, stats, duel k m h k health r⟩ 1
        ⟨.fresh, ⟨health⟩, duel k m (h - 5) k (if 5 < h then health - 3 else health) r⟩ :=
    fun h health stats hh => .one (underway_duel (hnear health) _) (next_duel_attack hh)
  -- It takes three blows: 12, 7, 2.
  exact (hstrike 12 health stats (by decide)).trans ((hstrike 7 _ _ (by decide)).trans (hstrike 2 _ _ (by decide)))

/-- When the sludge is gone, the warrior walks on onto the stairs. -/
theorem passes_on (hi : i ≤ k + m + 1) (hwell : 8 < health) (hhealth : 2 ≤ k → health = 20) :
    ∃ w, Passes (Underway k) (.unhurt (duel k m 0 i health r)) (k + m + 2 - i) (.unhurt w) ∧ Beaten health r w := by
  obtain ⟨n, hn⟩ : ∃ n, k + m + 2 = i + (n + 1) := ⟨k + m + 1 - i, by omega⟩
  have hfree : (duel k m 0 i health r).Free n := by
    intro d hd hdn
    rw [sense_duel, spaceAt_of_lane rfl, sludge_zero, if_pos (show i + d ≤ k + m + 1 by omega)]
    split <;> rfl
  have hstairs : (duel k m 0 i health r).sense .forward (n + 1) = .floor true none := by
    rw [sense_duel, spaceAt_of_lane rfl, if_neg (by omega), if_neg (by omega), if_pos hn.symm]
  have hround : ∀ d ≤ n, Underway k ((duel k m 0 i health r).goOn d) .success := by
    intro d _
    rw [goOn_duel]
    exact underway_duel hhealth _
  rw [hn, Nat.add_sub_cancel_left]
  refine ⟨_, deserted_duel.passes_stairs hwell rfl hfree hstairs hround, ?_⟩
  exact ⟨rfl, deserted_duel.goOn (n + 1), rfl, rfl⟩

end Phases

/-! ## All together -/

theorem at_duel (k m : Nat) : (Outing.enter (duelLayout k m) maxHealth).At (.unhurt (duel k m 12 0 20 0)) := by
  have hbegin := Outing.at_enter (duelLayout k m) maxHealth
  rw [ofLayout_duelLayout] at hbegin
  exact hbegin

/-- The sludge is on the next cell. -/
theorem leads_adjacent (m : Nat) :
    (Outing.enter (duelLayout 0 m) maxHealth).Leads (Underway 0) (m + 5) (Beaten 14 0) := by
  have hmelee : Passes (Underway 0) (.unhurt (duel 0 m 12 0 20 0)) 3 (.unhurt (duel 0 m 0 0 14 0)) :=
    passes_melee (by decide)
  obtain ⟨w, hon, hbeaten⟩ : ∃ w, Passes (Underway 0) (.unhurt (duel 0 m 0 0 14 0)) (0 + m + 2 - 0) (.unhurt w) ∧
    Beaten 14 0 w := passes_on (by omega) (by decide) nofun
  have hlength : m + 5 = 3 + (0 + m + 2 - 0) := by omega
  rw [hlength]
  exact (at_duel 0 m).leads (hmelee.trans hon) hbeaten

/-- There is one cell between the warrior and the sludge. -/
theorem leads_close (m : Nat) :
    (Outing.enter (duelLayout 1 m) maxHealth).Leads (Underway 1) (m + 6) (Beaten 11 0) := by
  have hwalk : Passes (Underway 1) (.unhurt (duel 1 m 12 0 20 0)) 1 ⟨.fresh, ⟨20⟩, duel 1 m 12 1 17 0⟩ :=
    .one (underway_duel (fun _ => rfl) _) (next_duel_walk (by decide) (by decide))
  have hmelee : Passes (Underway 1) ⟨.fresh, ⟨20⟩, duel 1 m 12 1 17 0⟩ 3 (.unhurt (duel 1 m 0 1 11 0)) :=
    passes_melee (by decide)
  obtain ⟨w, hon, hbeaten⟩ : ∃ w, Passes (Underway 1) (.unhurt (duel 1 m 0 1 11 0)) (1 + m + 2 - 1) (.unhurt w) ∧
    Beaten 11 0 w := passes_on (by omega) (by decide) fun hfar => absurd hfar (by decide)
  have hlength : m + 6 = 1 + (3 + (1 + m + 2 - 1)) := by omega
  rw [hlength]
  exact (at_duel 1 m).leads (hwalk.trans (hmelee.trans hon)) hbeaten

/-- There are at least two cells between them. -/
theorem leads_afar (k m : Nat) :
    (Outing.enter (duelLayout (k + 2) m) maxHealth).Leads (Underway (k + 2)) (k + 2 + m + 6) (Beaten 20 2) := by
  have happroach := passes_approach k m
  -- It takes four shots: 12, 9, 6, 3.
  have hshots : Passes (Underway (k + 2)) (.unhurt (duel (k + 2) m 12 k 20 0)) (2 + 2)
      (.unhurt (duel (k + 2) m 0 k 20 2)) :=
    (passes_two_shots (by decide)).trans (passes_two_shots (by decide))
  obtain ⟨w, hon, hbeaten⟩ : ∃ w, Passes (Underway (k + 2)) (.unhurt (duel (k + 2) m 0 k 20 2)) (k + 2 + m + 2 - k)
    (.unhurt w) ∧ Beaten 20 2 w := passes_on (by omega) (by decide) fun _ => rfl
  have hlength : k + 2 + m + 6 = k + (2 + 2 + (k + 2 + m + 2 - k)) := by omega
  rw [hlength]
  exact (at_duel (k + 2) m).leads (happroach.trans (hshots.trans hon)) hbeaten

/-- For each number of cells between the warrior and the sludge, and between the sludge and the stairs. -/
theorem sludge_beaten (k m : Nat) :
    (k = 0 → (Outing.enter (duelLayout k m) maxHealth).Leads (Underway k) (m + 5) (Beaten 14 0)) ∧
    (k = 1 → (Outing.enter (duelLayout k m) maxHealth).Leads (Underway k) (m + 6) (Beaten 11 0)) ∧
    (2 ≤ k → (Outing.enter (duelLayout k m) maxHealth).Leads (Underway k) (k + m + 6) (Beaten 20 2)) := by
  refine ⟨?_, ?_, ?_⟩
  · rintro rfl
    exact leads_adjacent m
  · rintro rfl
    exact leads_close m
  · intro hk
    obtain ⟨k, rfl⟩ := Nat.exists_eq_add_of_le' hk
    exact leads_afar k m

end Behaviour.Corridor
