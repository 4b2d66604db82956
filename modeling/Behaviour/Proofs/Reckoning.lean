import Behaviour.Proofs.Threats

/-!
# The end of a turn, cell by cell

At the end of a turn every cell is looked at, and for an archer within range the cells between it and the warrior are
read one by one, without a look at the ends of the corridor (`scout`). Nothing in this guarantees an end: a walk that
starts beyond the cell that it leads to goes on for ever.

Unless the warrior stands on an archer's cell, the walks end, what comes of them is `endTurn`, and they read nothing
but cells strictly between the warrior and an archer within range (`endTurnInPlace_eq`).
-/

namespace Behaviour.Corridor.World

/-! ## Looking along the corridor -/

/-- Whether nobody is met on the way from place `i` to a target, with the places that are read. A way that misses its
target has no end, and no answer. -/
def scout (w : World) (target : Int) (way : Facing) (i : Int) : Option (Bool × List Int) :=
  if i = target then some (true, [])
  else if (w.creatureAt? i).isSome then some (false, [i])
  else do
    let (clear, reads) ← w |>.scout target way (i + way.step)
    some (clear, i :: reads)
partial_fixpoint

/-- The way from the warrior to a cell. -/
def wayTo (w : World) (i : Nat) : Facing := if w.position < i then .right else .left

/-- Whether whoever stands on a cell strikes the warrior, and the places that are read to find out. -/
def strikesInPlace (w : World) (i : Nat) : Option (Bool × List Int) :=
  match w.creatureAt? i with
  | some .sludge => some (w.distance i == 1, [])
  | some .archer =>
    if w.distance i ≤ archerRange then w.scout i (w.wayTo i) (w.position + (w.wayTo i).step) else some (false, [])
  | some .captive | none => some (false, [])

/-- A place that is read for whoever stands on a cell. -/
structure Glance where
  cell : Nat
  place : Int

/-- The world after those on several cells have struck, one after another, with all that was read. -/
def reckon (w : World) : List Nat → Option (World × List Glance)
  | [] => some (w, [])
  | i :: is => do
    let (struck, reads) ← w.strikesInPlace i
    let (w, glances) ← (if struck then { w with health := w.health - enemyPower } else w).reckon is
    return (w, reads.map (Glance.mk i) ++ glances)

/-- The end of a turn, with all that was read. -/
def endTurnInPlace (w : World) : Option (World × List Glance) := do
  let (w, glances) ← w.reckon (List.range w.cells.length)
  return ({ w with acted := false }, glances)

/-- Where a walk ends, it ends alike in every world that has the same creatures. -/
theorem scout_of_scout {w w' : World} (h : ∀ j, w'.creatureAt? j = w.creatureAt? j) {target : Int} {way : Facing}
    {i : Int} {r : Bool × List Int} (hr : w.scout target way i = some r) : w'.scout target way i = some r := by
  refine scout.partial_correctness w target way (motive := fun i r => w'.scout target way i = some r) ?_ i r hr
  intro further ih i r hr
  rw [scout]
  split at hr
  case isTrue hend => rw [if_pos hend, hr]
  case isFalse hend =>
    rw [if_neg hend, h]
    split at hr
    case isTrue hmet => rw [if_pos hmet, hr]
    case isFalse hmet =>
      obtain ⟨rest, hrest, hr⟩ := Option.bind_eq_some_iff.1 hr
      rw [if_neg hmet, ih _ _ hrest]
      exact hr

/-- A walk depends on nothing but the creatures, and so does whether it ends. -/
theorem scout_congr {w w' : World} (h : ∀ j, w'.creatureAt? j = w.creatureAt? j) (target : Int) (way : Facing)
    (i : Int) : w'.scout target way i = w.scout target way i := by
  ext r
  exact ⟨scout_of_scout fun j => (h j).symm, scout_of_scout h⟩

/-! ## Walks end -/

variable {w : World} {i : Nat}

/-- A walk of so many steps ends, reads no place but those on its way, and tells whether somebody is on one of them. -/
theorem scout_eq (w : World) (way : Facing) (n : Nat) (i : Int) : ∃ reads,
    w.scout (i + way.step * n) way i = some (decide (∀ k < n, w.creatureAt? (i + way.step * k) = none), reads) ∧
      ∀ j ∈ reads, ∃ k < n, j = i + way.step * k := by
  induction n generalizing i with
  | zero =>
    refine ⟨[], ?_, nofun⟩
    rw [scout]
    simp
  | succ n ih =>
    have hstart : i ≠ i + way.step * (n + 1 : Nat) := by
      cases way <;> simp only [Facing.step] <;> omega
    have hfirst : ∀ {j : Int}, j = i → ∃ k < n + 1, j = i + way.step * (k : Nat) := by
      intro j hj
      exact ⟨0, by omega, by simp [hj]⟩
    rw [scout, if_neg hstart]
    by_cases hnobody : w.creatureAt? i = none
    · obtain ⟨reads, hrest, hreads⟩ := ih (i + way.step)
      have hnext : ∀ k : Nat, i + way.step + way.step * k = i + way.step * (k + 1 : Nat) := by
        intro k
        cases way <;> simp only [Facing.step] <;> omega
      simp only [hnext] at hrest hreads
      have hall : (∀ k < n + 1, w.creatureAt? (i + way.step * (k : Nat)) = none) ↔
          ∀ k < n, w.creatureAt? (i + way.step * (k + 1 : Nat)) = none := by
        constructor
        · intro h k hk
          exact h (k + 1) (by omega)
        · intro h k hk
          cases k with
          | zero => simpa using hnobody
          | succ k => exact h k (by omega)
      refine ⟨i :: reads, ?_, ?_⟩
      · simp only [hnobody, Option.isSome_none, hrest, hall]
        rfl
      · intro j hj
        rcases List.mem_cons.1 hj with rfl | hj
        · exact hfirst rfl
        · obtain ⟨k, hk, rfl⟩ := hreads j hj
          exact ⟨k + 1, by omega, rfl⟩
    · refine ⟨[i], ?_, ?_⟩
      · have hsome : (w.creatureAt? i).isSome = true := Option.isSome_iff_ne_none.2 hnobody
        have hmet : ¬ ∀ k < n + 1, w.creatureAt? (i + way.step * (k : Nat)) = none := by
          intro h
          exact hnobody (by simpa using h 0 (by omega))
        simp only [hsome, hmet]
        rfl
      · intro j hj
        exact hfirst (List.mem_singleton.1 hj)

/-- A place is strictly between the warrior and a cell. -/
def Between (w : World) (i : Nat) (j : Int) : Prop := min (i : Int) w.position < j ∧ j < max (i : Int) w.position

/-- The places on the way from the warrior to a cell are those between them. -/
theorem between_iff_onWay (j : Int) : w.Between i j ↔
    ∃ k < w.distance i - 1, j = w.position + (w.wayTo i).step + (w.wayTo i).step * (k : Nat) := by
  unfold Between distance wayTo
  split
  · simp only [Facing.step]
    constructor
    · intro h
      exact ⟨(j - w.position - 1).toNat, by omega, by omega⟩
    · rintro ⟨k, hk, rfl⟩
      omega
  · simp only [Facing.step]
    constructor
    · intro h
      exact ⟨(w.position - 1 - j).toNat, by omega, by omega⟩
    · rintro ⟨k, hk, rfl⟩
      omega

/-- The line to a cell is clear if nobody is at a place between the warrior and the cell. -/
theorem lineIsClear_iff_between : w.lineIsClear i = true ↔ ∀ j, w.Between i j → w.creatureAt? j = none := by
  rw [lineIsClear_iff]
  unfold Between creatureAt?
  simp only [Option.map_eq_none_iff]
  constructor
  · rintro h j ⟨hlo, hhi⟩
    have hj : ((j.toNat : Nat) : Int) = j := by omega
    have hnobody := h j.toNat (by omega) (by omega)
    rwa [hj] at hnobody
  · intro h j hlo hhi
    exact h j ⟨by omega, by omega⟩

/-- The walk to another cell ends and tells whether the line to it is clear, having read places in between only. -/
theorem scout_wayTo (hi : i ≠ w.position) : ∃ reads,
    w.scout i (w.wayTo i) (w.position + (w.wayTo i).step) = some (w.lineIsClear i, reads) ∧
      ∀ j ∈ reads, w.Between i j := by
  obtain ⟨reads, hscout, hreads⟩ :=
    w.scout_eq (w.wayTo i) (w.distance i - 1) (w.position + (w.wayTo i).step)
  have hend : (w.position : Int) + (w.wayTo i).step + (w.wayTo i).step * ((w.distance i - 1 : Nat) : Int) = i := by
    unfold wayTo distance
    split <;> simp only [Facing.step] <;> omega
  have hclear : w.lineIsClear i = decide (∀ k < w.distance i - 1,
      w.creatureAt? (w.position + (w.wayTo i).step + (w.wayTo i).step * (k : Nat)) = none) := by
    rw [Bool.eq_iff_iff, decide_eq_true_iff, lineIsClear_iff_between]
    constructor
    · intro h k hk
      exact h _ ((between_iff_onWay _).2 ⟨k, hk, rfl⟩)
    · intro h j hj
      obtain ⟨k, hk, rfl⟩ := (between_iff_onWay j).1 hj
      exact h k hk
  refine ⟨reads, ?_, ?_⟩
  · rw [hend] at hscout
    rw [hscout, hclear]
  · intro j hj
    exact (between_iff_onWay j).2 (hreads j hj)

/-! ## Strikes -/

/-- What is read for a cell is strictly between the warrior and the archer within range who stands there. -/
def Sees (w : World) (g : Glance) : Prop :=
  w.creatureAt? g.cell = some .archer ∧ w.distance g.cell ≤ archerRange ∧ w.Between g.cell g.place

/-- A place between a warrior inside the corridor and an archer is inside, too. -/
theorem Sees.exists_cell {g : Glance} (h : w.Sees g) (hinside : w.position ≤ w.cells.length) :
    ∃ c, w.cellAt? g.place = some c := by
  obtain ⟨harcher, -, hlo, hhi⟩ := h
  obtain ⟨o, ho, -⟩ := Option.map_eq_some_iff.1 harcher
  obtain ⟨c, hc, -⟩ := Option.bind_eq_some_iff.1 ho
  obtain ⟨hlt, -⟩ := List.getElem?_eq_some_iff.1 (cellAt?_eq_some hc).2
  have hplace : g.place.toNat < w.cells.length := by omega
  refine ⟨w.cells[g.place.toNat], ?_⟩
  rw [cellAt?, if_neg (by omega), List.getElem?_eq_getElem hplace]

theorem strikesInPlace_eq (hi : w.creatureAt? i = some .archer → i ≠ w.position) : ∃ reads,
    w.strikesInPlace i = some (w.strikes i, reads) ∧ ∀ j ∈ reads, w.Sees ⟨i, j⟩ := by
  unfold strikesInPlace strikes
  cases hc : w.creatureAt? i with
  | none => exact ⟨[], rfl, nofun⟩
  | some c =>
    cases c with
    | sludge => exact ⟨[], rfl, nofun⟩
    | captive => exact ⟨[], rfl, nofun⟩
    | archer =>
      by_cases hrange : w.distance i ≤ archerRange
      · obtain ⟨reads, hscout, hreads⟩ := scout_wayTo (hi hc)
        refine ⟨reads, by simp [hrange, hscout], ?_⟩
        intro j hj
        exact ⟨hc, hrange, hreads j hj⟩
      · exact ⟨[], by simp [hrange], nofun⟩

/-- Whoever stands on the cells of a list strikes as from all cells at once. -/
theorem reckon_eq (h : w.creatureAt? w.position ≠ some .archer) : ∀ (is : List Nat) (health : Int), ∃ glances,
    ({ w with health } : World).reckon is =
      some ({ w with health := health - enemyPower * is.countP w.strikes }, glances) ∧ ∀ g ∈ glances, w.Sees g
  | [], health => ⟨[], by simp [reckon], nofun⟩
  | i :: is, health => by
    have hi : w.creatureAt? i = some .archer → i ≠ w.position := by
      rintro hc rfl
      exact h hc
    -- Nothing of this depends on the warrior's health.
    obtain ⟨reads, hstrikes, hreads⟩ := strikesInPlace_eq (w := { w with health }) hi
    obtain ⟨glances, hrest, hglances⟩ := reckon_eq h is (health - if w.strikes i then enemyPower else 0)
    have hhealth : (if w.strikes i then { w with health := health - enemyPower } else { w with health } : World) =
        { w with health := health - if w.strikes i then enemyPower else 0 } := by
      split
      · rfl
      · simp
    refine ⟨reads.map (Glance.mk i) ++ glances, ?_, ?_⟩
    · have hcount : health - (if w.strikes i then enemyPower else 0) - enemyPower * (is.countP w.strikes : Int) =
          health - enemyPower * ((i :: is).countP w.strikes : Int) := by
        rw [List.countP_cons]
        split <;> simp only [enemyPower] <;> omega
      rw [hcount] at hrest
      have hfirst : ({ w with health } : World).strikesInPlace i = some (w.strikes i, reads) := hstrikes
      rw [reckon, hfirst]
      simp only [Option.bind_eq_bind, Option.bind_some]
      rw [hhealth, hrest]
      rfl
    · intro g hg
      rcases List.mem_append.1 hg with hg | hg
      · obtain ⟨j, hj, rfl⟩ := List.mem_map.1 hg
        exact hreads j hj
      · exact hglances g hg

/-- Unless the warrior stands on an archer's cell, the end of a turn comes to an end. -/
theorem endTurnInPlace_eq (h : w.creatureAt? w.position ≠ some .archer) : ∃ glances,
    w.endTurnInPlace = some (w.endTurn, glances) ∧ ∀ g ∈ glances, w.Sees g := by
  obtain ⟨glances, hreckon, hglances⟩ := reckon_eq h (List.range w.cells.length) w.health
  refine ⟨glances, ?_, hglances⟩
  have hself : ({ w with health := w.health } : World) = w := rfl
  rw [hself] at hreckon
  rw [endTurnInPlace, hreckon]
  rfl

end Behaviour.Corridor.World
