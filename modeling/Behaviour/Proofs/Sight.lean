import Behaviour.Proofs.Flanks

/-!
# One line of sight

Looking, shooting and the archers at the end of a turn each go along the corridor in their own way: a look senses three
places, whatever is there, a shot flies until it meets someone or leaves the corridor, and an archer's line is read from
the warrior to the archer. All of them come to the nearest one on a side (`World.nearest?`): the first one who is seen
(`mark?_eq_some_iff`) is whom a shot hits (`target?_eq_some_iff`), and an archer who strikes is nobody else
(`mark?_of_strikes`). Beyond the first wall there is nothing but wall (`look_eq_wall_of_le`).

`sight_agrees` puts these together, with all that a shot changes.
-/

namespace Behaviour.Corridor

/-- A cell after a shot at whoever stands there. -/
def Cell.shot (c : Cell) : Cell :=
  { c with
    occupant := c.occupant.bind fun o => if o.health ≤ 3 then none else some { o with health := o.health - 3 } }

/-- A shot at someone changes their cell. -/
theorem Cell.shot_ne {c : Cell} (h : c.occupant ≠ none) : c.shot ≠ c := by
  obtain ⟨o, ho⟩ := Option.ne_none_iff_exists'.1 h
  intro heq
  have hoccupant : (c.shot).occupant = some o := by rw [heq, ho]
  simp only [Cell.shot, ho, Option.bind_some] at hoccupant
  split at hoccupant
  · cases hoccupant
  · have hhealth : o.health - 3 = o.health := congrArg Occupant.health (Option.some.inj hoccupant)
    omega

namespace World

/-- The place of the first space with someone there, as a look shows them. -/
def mark? (w : World) (h : Heading) : Option Int :=
  ((w.look h).findIdx? fun s => s.creature?.isSome).map fun k => w.ahead h (k + 1)

variable {w : World} {h : Heading} {i : Int} {k m steps range : Nat}

/-! ## Looking -/

theorem getElem?_look (hk : k < lookDistance) : (w.look h)[k]? = some (w.sense h (k + 1)) := by
  rw [look, List.getElem?_map, List.getElem?_range hk]
  rfl

theorem sense_eq_wall_iff : w.sense h k = .wall ↔ w.cellAt? (w.ahead h k) = none := by
  unfold sense spaceAt
  cases w.cellAt? (w.ahead h k) <;> simp

/-- A shot hits someone. -/
theorem creatureAt?_of_target? (ht : w.target? h steps range = some i) : w.creatureAt? i ≠ none := by
  induction range generalizing steps with
  | zero => cases ht
  | succ range ih =>
    rw [target?] at ht
    split at ht
    · cases ht
    · rename_i c hc
      split at ht
      · rename_i hsome
        obtain rfl := Option.some.inj ht
        rw [creatureAt?_eq_bind, hc, Option.bind_some, Cell.creature?, ne_eq, Option.map_eq_none_iff]
        exact Option.isSome_iff_ne_none.1 hsome
      · exact ih ht

section Inside

variable (hinside : w.position ≤ w.cells.length)
include hinside

/-- Behind a place outside the corridor there are only places outside. -/
theorem cellAt?_ahead_eq_none_of_le (hk : 1 ≤ k) (hkm : k ≤ m) (hwall : w.cellAt? (w.ahead h k) = none) :
    w.cellAt? (w.ahead h m) = none := by
  obtain ⟨k, rfl⟩ := Nat.exists_eq_add_one.2 hk
  obtain ⟨m, rfl⟩ := Nat.exists_eq_add_one.2 (Nat.le_trans hk hkm)
  -- Places ahead are places on the side that the heading leads to.
  have hplace : ∀ j, w.cellAt? (w.ahead h (j + 1)) = (w.outward (w.facing.toward h))[j]? := by
    intro j
    exact (getElem?_outward hinside (w.facing.toward h) j).symm
  rw [hplace, List.getElem?_eq_none_iff] at hwall ⊢
  omega

/-- Behind a wall that is seen there is wall. -/
theorem look_eq_wall_of_le (hkm : k ≤ m) (hm : m < lookDistance) (hwall : (w.look h)[k]? = some .wall) :
    (w.look h)[m]? = some .wall := by
  rw [getElem?_look (Nat.lt_of_le_of_lt hkm hm), Option.some.injEq, sense_eq_wall_iff] at hwall
  rw [getElem?_look hm, Option.some.injEq, sense_eq_wall_iff]
  exact cellAt?_ahead_eq_none_of_le hinside (Nat.succ_pos k) (Nat.succ_le_succ hkm) hwall

/-- The first one who is seen is the nearest one, if near enough. -/
theorem mark?_eq_some_iff : w.mark? h = some i ↔
    ∃ k u, w.nearest? (w.facing.toward h) = some (k, u) ∧ k ≤ lookDistance ∧ i = w.ahead h k := by
  have hseen : ∀ j (hj : j < (w.look h).length),
      ((w.look h)[j].creature?.isSome = true) ↔ w.creatureAt? (w.ahead h (j + 1)) ≠ none := by
    intro j hj
    rw [Option.isSome_iff_ne_none]
    simp [look, creature?_sense]
  have hlength : (w.look h).length = lookDistance := by simp [look]
  simp only [mark?, Option.map_eq_some_iff, List.findIdx?_eq_some_iff_getElem, hseen, nearest?_eq_some_iff hinside]
  constructor
  · rintro ⟨j, ⟨hj, hthere, hbefore⟩, rfl⟩
    obtain ⟨u, hu⟩ := Option.ne_none_iff_exists'.1 hthere
    refine ⟨j + 1, u, ⟨Nat.succ_pos j, hu, ?_⟩, hlength ▸ hj, rfl⟩
    intro m hm hlt
    obtain ⟨m, rfl⟩ := Nat.exists_eq_add_one.2 hm
    exact not_not.1 (hbefore m (by omega))
  · rintro ⟨k, u, ⟨hk, hu, hbefore⟩, hrange, rfl⟩
    obtain ⟨j, rfl⟩ := Nat.exists_eq_add_one.2 hk
    refine ⟨j, ⟨by omega, ?_, ?_⟩, rfl⟩
    · exact ne_of_eq_of_ne hu (Option.some_ne_none u)
    · intro m hm
      exact not_not.2 (hbefore (m + 1) (Nat.succ_pos m) (by omega))

/-! ## Shooting -/

/-- A shot hits the first one on its way, however far the corridor goes on. -/
theorem target?_of_first (hk : 1 ≤ steps) (hnear : steps ≤ k) (hfar : k < steps + range)
    (hthere : w.creatureAt? (w.ahead h k) ≠ none)
    (hbefore : ∀ m, steps ≤ m → m < k → w.creatureAt? (w.ahead h m) = none) :
    w.target? h steps range = some (w.ahead h k) := by
  induction range generalizing steps with
  | zero => omega
  | succ range ih =>
    rw [target?]
    cases hc : w.cellAt? (w.ahead h steps) with
    | none =>
      have hwall := cellAt?_ahead_eq_none_of_le hinside hk hnear hc
      simp [creatureAt?_eq_bind, hwall] at hthere
    | some c =>
      rcases Nat.eq_or_lt_of_le hnear with rfl | hlt
      · rw [creatureAt?_eq_bind, hc, Option.bind_some, Cell.creature?, ne_eq, Option.map_eq_none_iff] at hthere
        simp only [Option.isSome_iff_ne_none.2 hthere, if_true]
      · have hnobody := hbefore steps (Nat.le_refl _) hlt
        rw [creatureAt?_eq_bind, hc, Option.bind_some, Cell.creature?, Option.map_eq_none_iff] at hnobody
        simp only [hnobody, Option.isSome_none]
        exact ih (by omega) hlt (by omega) fun m hm => hbefore m (by omega)

theorem target?_eq_some_iff : w.target? h 1 lookDistance = some i ↔
    ∃ k u, w.nearest? (w.facing.toward h) = some (k, u) ∧ k ≤ lookDistance ∧ i = w.ahead h k := by
  simp only [nearest?_eq_some_iff hinside]
  constructor
  · intro ht
    obtain ⟨k, hk, hrange, rfl, hbefore⟩ := exists_first_of_target? ht
    obtain ⟨u, hu⟩ := Option.ne_none_iff_exists'.1 (creatureAt?_of_target? ht)
    exact ⟨k, u, ⟨hk, hu, hbefore⟩, by omega, rfl⟩
  · rintro ⟨k, u, ⟨hk, hu, hbefore⟩, hrange, rfl⟩
    exact target?_of_first hinside (Nat.le_refl 1) hk (by omega) (ne_of_eq_of_ne hu (Option.some_ne_none u)) hbefore

/-- A shot hits the first one who is seen. -/
theorem target?_eq_mark? (h : Heading) : w.target? h 1 lookDistance = w.mark? h := by
  apply Option.ext
  intro i
  rw [target?_eq_some_iff hinside, mark?_eq_some_iff hinside]

/-- An archer who strikes is the first one who is seen on that side. -/
theorem mark?_of_strikes {i : Nat} (hk : 1 ≤ k) (hi : (i : Int) = w.ahead h k)
    (harcher : w.creatureAt? i = some .archer) (hstrikes : w.strikes i = true) : w.mark? h = some (i : Int) := by
  obtain ⟨u, hnearest, hreaches⟩ := (strikes_iff_of_beside hinside hk hi).1 hstrikes
  have hu := ((nearest?_eq_some_iff hinside).1 hnearest).2.1
  change w.creatureAt? (w.ahead h k) = some u at hu
  obtain rfl : Creature.archer = u := by
    rw [hi, hu] at harcher
    exact (Option.some.inj harcher).symm
  rw [mark?_eq_some_iff hinside]
  exact ⟨k, .archer, hnearest, of_decide_eq_true hreaches, hi⟩

end Inside

/-! ## What a shot changes -/

/-- A shot that takes place finds its target as if it did not use up the turn. -/
theorem act_shoot_of_not_acted (hacted : w.acted = false) : w.act (.shoot h) =
    match w.target? h 1 lookDistance with
    | none => { w with acted := true }
    | some i => ({ w with acted := true } : World).damage i shootPower := by
  rw [act_of_not_acted hacted]
  rfl

/-- A shot at someone leaves their cell shot. -/
theorem damage_shootPower {c : Cell} (hc : w.cellAt? i = some c) (ho : c.occupant ≠ none) :
    w.damage i shootPower = w.setOccupant i c.shot.occupant := by
  obtain ⟨o, ho⟩ := Option.ne_none_iff_exists'.1 ho
  have hthere : w.occupantAt? i = some o := by rw [occupantAt?, hc, Option.bind_some, ho]
  simp only [damage, hthere, Cell.shot, ho, Option.bind_some]
  rfl

/-- A shot at someone changes their cell and no other one. -/
theorem cellAt?_damage_shootPower {c : Cell} (hc : w.cellAt? i = some c) (ho : c.occupant ≠ none) (j : Int) :
    (w.damage i shootPower).cellAt? j = if j = i then some c.shot else w.cellAt? j := by
  rw [damage_shootPower hc ho, cellAt?_setOccupant (cellAt?_eq_some hc).1]
  by_cases hij : j = i
  · subst hij
    simp [hc, Cell.shot]
  · simp [hij, Ne.symm hij]

/-! ## All together -/

/-- What a look, a shot and the archers at the end of a turn make of one side. -/
structure SightAgrees (w : World) (h : Heading) : Prop where
  /-- Behind a wall that is seen there is wall. -/
  walls : ∀ k m, k ≤ m → m < lookDistance → (w.look h)[k]? = some .wall → (w.look h)[m]? = some .wall
  /-- Where nobody is seen, a shot uses up the turn and does nothing else. -/
  miss : w.acted = false → w.mark? h = none → w.act (.shoot h) = { w with acted := true }
  /-- Otherwise it changes the cell of the first one who is seen, and no other cell. -/
  hit : w.acted = false → ∀ i, w.mark? h = some i →
    w.act (.shoot h) = { w with acted := true, cells := (w.act (.shoot h)).cells } ∧
      ∃ c, w.cellAt? i = some c ∧ c.shot ≠ c ∧
        ∀ j, (w.act (.shoot h)).cellAt? j = if j = i then some c.shot else w.cellAt? j
  /-- An archer on this side who would strike at the end of the turn is the one whom a shot hits. -/
  archers : ∀ k (i : Nat), 1 ≤ k → (i : Int) = w.ahead h k → w.creatureAt? i = some .archer → w.strikes i = true →
    w.mark? h = some (i : Int)

theorem sightAgrees (hinside : w.position ≤ w.cells.length) (h : Heading) : w.SightAgrees h := by
  constructor
  case walls => exact fun k m => look_eq_wall_of_le hinside
  case miss =>
    intro hacted hmark
    rw [act_shoot_of_not_acted hacted, target?_eq_mark? hinside, hmark]
  case hit =>
    intro hacted i hmark
    have htarget : w.target? h 1 lookDistance = some i := by rw [target?_eq_mark? hinside, hmark]
    obtain ⟨u, hu⟩ := Option.ne_none_iff_exists'.1 (creatureAt?_of_target? htarget)
    rw [creatureAt?_eq_bind] at hu
    obtain ⟨c, hc, hcreature⟩ := Option.bind_eq_some_iff.1 hu
    have hsome : c.occupant ≠ none := by
      intro hnone
      simp [Cell.creature?, hnone] at hcreature
    have hact : w.act (.shoot h) = ({ w with acted := true } : World).damage i shootPower := by
      rw [act_shoot_of_not_acted hacted, htarget]
    refine ⟨?_, c, hc, Cell.shot_ne hsome, fun j => ?_⟩
    · rw [hact, damage_eq]
    · rw [hact]
      exact cellAt?_damage_shootPower (w := { w with acted := true }) hc hsome j
  case archers => exact fun k i => mark?_of_strikes hinside

end World

open World

/-- In every layout, whatever has happened, on both sides. -/
theorem sight_agrees (layout : List Char) (xs : List Happening) (h : Heading) :
    ((ofLayout layout).happenAll xs).SightAgrees h :=
  sightAgrees (position_le_happenAll layout xs) h

/-- The archer behind the captive is neither hit nor strikes; a shot the other way meets nobody. -/
example : (ofLayout " @ Ca".toList).mark? .forward = some 3 ∧ (ofLayout " @ Ca".toList).strikes 4 = false ∧
    (ofLayout " @ Ca".toList).mark? .backward = none := by decide

end Behaviour.Corridor
