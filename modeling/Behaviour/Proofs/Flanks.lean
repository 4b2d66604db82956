import Behaviour.Proofs.Lawful

/-!
# Struck from two sides

At the end of a turn all cells of the corridor are looked at, and for every archer within range those in between. What
comes of it depends on two creatures only: the *nearest* one on each side of the warrior (`World.nearest?`), looking
outward from the neighbouring cell. Whoever is behind them is too far away or has no clear line, so each side strikes at
most once (`strikes_eq`, `threats_eq_fronts`), and which way the warrior faces plays no part (`endTurn_by_sides`).
-/

namespace Behaviour.Corridor

/-- Whether a creature so many steps away strikes, if nobody is nearer. -/
def Creature.reaches : Creature → Nat → Bool
  | sludge, steps => steps == 1
  | archer, steps => steps ≤ 3
  | captive, _ => false

/-- Who is met first on the way over several cells, and after how many steps. -/
def firstMet? : List Cell → Option (Nat × Creature)
  | [] => none
  | c :: cs =>
    match c.creature? with
    | some u => some (1, u)
    | none => (firstMet? cs).map fun (steps, u) => (steps + 1, u)

/-- Whoever is met first is on some cell, and nobody is on the cells before. -/
theorem firstMet?_eq_some_iff {u : Creature} : ∀ {cs : List Cell} {steps : Nat}, firstMet? cs = some (steps, u) ↔
    ∃ j, steps = j + 1 ∧ cs[j]?.bind Cell.creature? = some u ∧ ∀ i < j, cs[i]?.bind Cell.creature? = none
  | [], steps => by simp [firstMet?]
  | c :: cs, steps => by
    rw [firstMet?]
    cases hc : c.creature? with
    | some v =>
      simp only [Option.some.injEq, Prod.mk.injEq]
      constructor
      · rintro ⟨rfl, rfl⟩
        exact ⟨0, rfl, by simp [hc], nofun⟩
      · rintro ⟨j, rfl, hj, hbefore⟩
        cases j with
        | zero => exact ⟨rfl, by simpa [hc] using hj⟩
        | succ j => simpa [hc] using hbefore 0 (Nat.succ_pos j)
    | none =>
      simp only [Option.map_eq_some_iff, Prod.exists, Prod.mk.injEq, firstMet?_eq_some_iff]
      constructor
      · rintro ⟨_, _, ⟨j, rfl, hj, hbefore⟩, rfl, rfl⟩
        refine ⟨j + 1, rfl, by simpa using hj, ?_⟩
        intro i hi
        cases i with
        | zero => simpa using hc
        | succ i => simpa using hbefore i (Nat.lt_of_succ_lt_succ hi)
      · rintro ⟨j, rfl, hj, hbefore⟩
        cases j with
        | zero => simp [hc] at hj
        | succ j =>
          refine ⟨j + 1, u, ⟨j, rfl, by simpa using hj, ?_⟩, rfl, rfl⟩
          intro i hi
          simpa using hbefore (i + 1) (Nat.succ_lt_succ hi)

namespace World

/-! ## Sides -/

/-- The place so many steps from the warrior on a side. -/
def beside (w : World) (side : Facing) (steps : Nat) : Int := w.position + side.step * steps

/-- The cells on a side of the warrior, from the neighbouring one outward. -/
def outward (w : World) : Facing → List Cell
  | .left => (w.cells.take w.position).reverse
  | .right => w.cells.drop (w.position + 1)

/-- The nearest one on a side, looking outward from the neighbouring cell, and how many steps away. -/
def nearest? (w : World) (side : Facing) : Option (Nat × Creature) := firstMet? (w.outward side)

/-- Whether the nearest one on a side strikes. -/
def threatens (w : World) (side : Facing) : Bool := (w.nearest? side).any fun (steps, u) => u.reaches steps

/-- The number of sides from which the warrior is struck. -/
def fronts (w : World) : Nat := [Facing.left, Facing.right].countP w.threatens

variable {w : World} {side : Facing} {i steps : Nat} {u : Creature}

/-- The warrior does not leave the corridor. -/
theorem position_le_happen (h : w.position ≤ w.cells.length) (x : Happening) :
    (w.happen x).position ≤ (w.happen x).cells.length := by
  rcases position_happen w x with hstays | ⟨hinside, -⟩
  · rwa [hstays, length_cells_happen]
  · exact Nat.le_of_lt hinside

theorem position_le_happenAll (layout : List Char) (xs : List Happening) :
    ((ofLayout layout).happenAll xs).position ≤ ((ofLayout layout).happenAll xs).cells.length := by
  have hstart : (ofLayout layout).position ≤ (ofLayout layout).cells.length := by
    rw [length_cells_ofLayout]
    change (lastStart? layout).getD 0 ≤ _
    cases hs : lastStart? layout with
    | none => exact Nat.zero_le _
    | some i => exact Nat.le_of_lt (lastStart?_lt hs)
  exact happenAll_induction (P := fun w => w.position ≤ w.cells.length) (fun _ x hw => position_le_happen hw x) hstart xs

/-- Who is at a place is who is on the cell there. -/
theorem creatureAt?_eq_bind (w : World) (i : Int) : w.creatureAt? i = (w.cellAt? i).bind Cell.creature? := by
  rw [creatureAt?, occupantAt?]
  cases w.cellAt? i <;> rfl

section Inside

variable (hinside : w.position ≤ w.cells.length)
include hinside

theorem getElem?_outward (side : Facing) (j : Nat) : (w.outward side)[j]? = w.cellAt? (w.beside side (j + 1)) := by
  cases side with
  | left =>
    have hplace : w.beside .left (j + 1) = w.position - (j + 1 : Nat) := by
      simp only [beside, Facing.step]
      omega
    rw [hplace, cellAt?, outward]
    by_cases hj : j < w.position
    · rw [List.getElem?_reverse (by rw [List.length_take]; omega), List.length_take, List.getElem?_take,
        if_pos (by omega), if_neg (by omega)]
      congr 1
      omega
    · rw [List.getElem?_eq_none (by rw [List.length_reverse, List.length_take]; omega), if_pos (by omega)]
  | right =>
    have hplace : w.beside .right (j + 1) = (w.position + 1 + j : Nat) := by
      simp only [beside, Facing.step]
      omega
    rw [hplace, cellAt?, outward, List.getElem?_drop, if_neg (by omega), Int.toNat_natCast]

/-- The nearest one is so many steps away, and nobody is nearer. -/
theorem nearest?_eq_some_iff : w.nearest? side = some (steps, u) ↔
    1 ≤ steps ∧ w.creatureAt? (w.beside side steps) = some u ∧
      ∀ m, 1 ≤ m → m < steps → w.creatureAt? (w.beside side m) = none := by
  have hcell : ∀ j, (w.outward side)[j]?.bind Cell.creature? = w.creatureAt? (w.beside side (j + 1)) := by
    intro j
    rw [getElem?_outward hinside, creatureAt?_eq_bind]
  rw [nearest?, firstMet?_eq_some_iff]
  simp only [hcell]
  constructor
  · rintro ⟨j, rfl, hj, hbefore⟩
    refine ⟨Nat.succ_pos j, hj, ?_⟩
    intro m hm hlt
    obtain ⟨m, rfl⟩ := Nat.exists_eq_add_one.2 hm
    exact hbefore m (by omega)
  · rintro ⟨hpos, hthere, hbefore⟩
    obtain ⟨j, rfl⟩ := Nat.exists_eq_add_one.2 hpos
    exact ⟨j, rfl, hthere, fun i hi => hbefore (i + 1) (Nat.succ_pos i) (by omega)⟩

end Inside

/-! ## Places on a side -/

theorem distance_of_beside (hi : (i : Int) = w.beside side steps) : w.distance i = steps := by
  unfold beside at hi
  unfold distance
  cases side <;> simp only [Facing.step] at hi <;> omega

/-- Every other cell is on one side of the warrior. -/
theorem beside_wayTo (i : Nat) : w.beside (w.wayTo i) (w.distance i) = i := by
  unfold beside wayTo distance
  split <;> simp only [Facing.step] <;> omega

/-- The line to a cell is clear if nobody on its side is nearer. -/
theorem lineIsClear_iff_beside (hi : (i : Int) = w.beside side steps) :
    w.lineIsClear i = true ↔ ∀ m, 1 ≤ m → m < steps → w.creatureAt? (w.beside side m) = none := by
  rw [lineIsClear_iff_between]
  unfold Between
  unfold beside at hi ⊢
  constructor
  · intro h m hm hlt
    apply h
    cases side <;> simp only [Facing.step] at hi ⊢ <;> omega
  · intro h j hj
    have hplace : ∃ m : Nat, 1 ≤ m ∧ m < steps ∧ j = w.position + side.step * m := by
      refine ⟨(j - w.position).natAbs, ?_⟩
      cases side <;> simp only [Facing.step] at hi ⊢ <;> omega
    obtain ⟨m, hm, hlt, rfl⟩ := hplace
    exact h m hm hlt

/-! ## Who strikes -/

/-- Whoever stands on a cell is the nearest one on a side, and strikes. -/
def strikesFrom (w : World) (side : Facing) (i : Nat) : Bool :=
  (w.nearest? side).any fun (steps, u) => u.reaches steps && (i : Int) == w.beside side steps

theorem strikesFrom_iff : w.strikesFrom side i = true ↔
    ∃ steps u, w.nearest? side = some (steps, u) ∧ u.reaches steps = true ∧ (i : Int) = w.beside side steps := by
  rw [strikesFrom, Option.any_eq_true]
  simp only [Prod.exists, Bool.and_eq_true, beq_iff_eq]

/-- On a side, whoever strikes is the nearest one. -/
theorem strikes_iff_of_beside (hinside : w.position ≤ w.cells.length) (hpos : 1 ≤ steps)
    (hi : (i : Int) = w.beside side steps) :
    w.strikes i = true ↔ ∃ u, w.nearest? side = some (steps, u) ∧ u.reaches steps = true := by
  simp only [nearest?_eq_some_iff hinside, ← lineIsClear_iff_beside hi, ← hi]
  unfold strikes
  rw [distance_of_beside hi]
  cases hc : w.creatureAt? i with
  | none => simp
  | some c =>
    cases c with
    | captive => simp [Creature.reaches]
    | archer =>
      have hrange : archerRange = 3 := rfl
      simp [Creature.reaches, hrange, hpos, and_comm]
    | sludge =>
      -- Nobody is between the warrior and the neighbouring cell.
      have hnear : steps = 1 → w.lineIsClear i = true := by
        rintro rfl
        exact (lineIsClear_iff_beside hi).2 fun m hm hlt => by omega
      simpa [Creature.reaches, hpos] using hnear

/-- Whoever strikes does so from the left or from the right. -/
theorem strikes_eq (hinside : w.position ≤ w.cells.length) (harcher : w.creatureAt? w.position ≠ some .archer)
    (i : Nat) : w.strikes i = (w.strikesFrom .left i || w.strikesFrom .right i) := by
  rw [Bool.eq_iff_iff, Bool.or_eq_true, strikesFrom_iff, strikesFrom_iff]
  constructor
  · intro hstrikes
    -- Nobody strikes from the warrior's own cell.
    have hpos : 1 ≤ w.distance i := by
      rw [Nat.one_le_iff_ne_zero]
      intro hzero
      obtain rfl : i = w.position := by
        unfold distance at hzero
        omega
      unfold strikes at hstrikes
      rw [hzero] at hstrikes
      split at hstrikes <;> simp_all
    obtain ⟨u, hnearest, hreaches⟩ :=
      (strikes_iff_of_beside hinside hpos (beside_wayTo i).symm).1 hstrikes
    have hplace : (i : Int) = w.beside (w.wayTo i) (w.distance i) := (beside_wayTo i).symm
    cases hside : w.wayTo i with
    | left => exact .inl ⟨_, u, hside ▸ hnearest, hreaches, hside ▸ hplace⟩
    | right => exact .inr ⟨_, u, hside ▸ hnearest, hreaches, hside ▸ hplace⟩
  · rintro (⟨steps, u, hnearest, hreaches, hi⟩ | ⟨steps, u, hnearest, hreaches, hi⟩) <;>
      exact (strikes_iff_of_beside hinside ((nearest?_eq_some_iff hinside).1 hnearest).1 hi).2 ⟨u, hnearest, hreaches⟩

/-- Nobody strikes from both sides. -/
theorem not_strikesFrom_right (hinside : w.position ≤ w.cells.length) (h : w.strikesFrom .left i = true) :
    w.strikesFrom .right i = false := by
  rw [strikesFrom_iff] at h
  obtain ⟨steps, u, hnearest, -, hi⟩ := h
  have hpos := ((nearest?_eq_some_iff hinside).1 hnearest).1
  rw [Bool.eq_false_iff, ne_eq, strikesFrom_iff]
  rintro ⟨steps', u', -, -, hi'⟩
  simp only [beside, Facing.step] at hi hi'
  omega

/-- A side from which the warrior is struck has one who strikes. -/
theorem countP_strikesFrom (hinside : w.position ≤ w.cells.length) (side : Facing) :
    (List.range w.cells.length).countP (w.strikesFrom side) = if w.threatens side then 1 else 0 := by
  cases hside : w.threatens side with
  | false =>
    rw [List.countP_eq_zero.2]
    · rfl
    intro i _ hi
    obtain ⟨steps, u, hnearest, hreaches, -⟩ := strikesFrom_iff.1 hi
    simp [threatens, hnearest, hreaches] at hside
  | true =>
    rw [threatens, Option.any_eq_true] at hside
    obtain ⟨⟨steps, u⟩, hnearest, hreaches⟩ := hside
    obtain ⟨-, hthere, -⟩ := (nearest?_eq_some_iff hinside).1 hnearest
    rw [creatureAt?_eq_bind] at hthere
    obtain ⟨c, hc, -⟩ := Option.bind_eq_some_iff.1 hthere
    obtain ⟨hlo, hcell⟩ := cellAt?_eq_some hc
    obtain ⟨hhi, -⟩ := List.getElem?_eq_some_iff.1 hcell
    have honly : ∀ i ∈ List.range w.cells.length,
        w.strikesFrom side i = true ↔ (i == (w.beside side steps).toNat) = true := by
      intro i _
      have hplace : (i : Int) = w.beside side steps ↔ i = (w.beside side steps).toNat := by omega
      simp [strikesFrom, hnearest, hreaches, hplace]
    rw [List.countP_congr honly]
    exact List.count_eq_one_of_mem List.nodup_range (List.mem_range.2 hhi)

/-- As many enemies strike as there are sides with one who does. -/
theorem threats_eq_fronts (hinside : w.position ≤ w.cells.length)
    (harcher : w.creatureAt? w.position ≠ some .archer) : w.threats = w.fronts := by
  have hleft : ∀ i, w.strikesFrom .left i = true → w.strikes i = true := by
    intro i hi
    rw [strikes_eq hinside harcher, hi, Bool.true_or]
  have hright : ∀ i ∈ List.range w.cells.length,
      (w.strikes i && !w.strikesFrom .left i) = true ↔ w.strikesFrom .right i = true := by
    intro i _
    rw [strikes_eq hinside harcher]
    cases hi : w.strikesFrom .left i with
    | true => simp [not_strikesFrom_right hinside hi]
    | false => simp
  rw [threats, ← countP_of_imp hleft, List.countP_congr hright, countP_strikesFrom hinside,
    countP_strikesFrom hinside, fronts, List.countP_cons, List.countP_cons, List.countP_nil, Nat.zero_add, Nat.add_comm]

theorem fronts_le_two (w : World) : w.fronts ≤ 2 := List.countP_le_length

/-! ## The end of a turn -/

/-- What the end of a turn comes to. -/
structure StruckBySides (w : World) : Prop where
  /-- Cell by cell it comes to an end. -/
  ends : ∃ glances, w.endTurnInPlace = some (w.endTurn, glances)
  /-- Each side whose nearest one strikes takes some health, and nothing else changes but that a new turn begins. -/
  endTurn_eq : w.endTurn = { w with health := w.health - 3 * w.fronts, acted := false }
  loss : w.endTurn.health = w.health ∨ w.endTurn.health = w.health - 3 ∨ w.endTurn.health = w.health - 6
  /-- It does not matter which way the warrior faces. -/
  facing : ∀ f, ({ w with facing := f } : World).endTurn = { w.endTurn with facing := f }

end World

open World

/-- In every layout, whatever has happened, unless the warrior stands on an archer's cell. -/
theorem endTurn_by_sides (layout : List Char) (xs : List Happening)
    (h : ((ofLayout layout).happenAll xs).creatureAt? ((ofLayout layout).happenAll xs).position ≠ some .archer) :
    ((ofLayout layout).happenAll xs).StruckBySides := by
  have hinside := position_le_happenAll layout xs
  generalize (ofLayout layout).happenAll xs = w at h hinside ⊢
  obtain ⟨glances, hend, -⟩ := endTurnInPlace_eq h
  have hfronts := fronts_le_two w
  have heq : w.endTurn = { w with health := w.health - 3 * w.fronts, acted := false } := by
    rw [endTurn, threats_eq_fronts hinside h, enemyPower]
  refine ⟨⟨glances, hend⟩, heq, ?_, fun f => rfl⟩
  rw [heq]
  change w.health - 3 * (w.fronts : Int) = _ ∨ w.health - 3 * (w.fronts : Int) = _ ∨ w.health - 3 * (w.fronts : Int) = _
  omega

/-- An archer at the end of its range and a sludge on the next cell strike, the archer behind the sludge does not. -/
theorem endTurn_by_sides_ambush : ((ofLayout "a  @sa".toList).happenAll [.act .pivot]).creatureAt?
      ((ofLayout "a  @sa".toList).happenAll [.act .pivot]).position ≠ some .archer ∧
    ((ofLayout "a  @sa".toList).happenAll [.act .pivot]).StruckBySides :=
  ⟨by decide, endTurn_by_sides "a  @sa".toList [.act .pivot] (by decide)⟩

example : ((ofLayout "a  @sa".toList).happenAll [.act .pivot, .endTurn]).health = 14 := by decide

end Behaviour.Corridor
