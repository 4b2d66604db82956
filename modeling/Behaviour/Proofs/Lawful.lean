import Behaviour.Proofs.Reckoning

/-!
# What always holds in a corridor

Whatever the warrior does, turns end or not and health changes: the corridor keeps its cells and stairs, nobody appears
in it and nobody gains health, and the warrior stays inside and never stands on an archer's cell (`Stems`). Nothing does
more to the corridor than a walk, a strike or a rescue (`effect_happen`), and each of them keeps that.

So the walks along the lines of sight at the end of a turn always end. The captives of the layout are all there, free or
fallen to a strike (`captives_happenAll`), and the game is won once a walk has led onto stairs (`won_happenAll`), for
good. `corridor_lawful` puts these together.
-/

namespace Behaviour.Corridor

/-- What can happen to a corridor and the warrior in it. -/
inductive Happening where
  | act (a : Action)
  | endTurn
  | setHealth (health : Int)
  deriving DecidableEq

/-- Blows and shots strike. -/
def Happening.isStrike : Happening → Bool
  | .act (.attack _) | .act (.shoot _) => true
  | .act _ | .endTurn | .setHealth _ => false

namespace World

/-- The world after something has happened. -/
def happen (w : World) : Happening → World
  | .act a => w.act a
  | .endTurn => w.endTurn
  | .setHealth health => w.withHealth health

/-- The world after several things have happened, one after another. -/
def happenAll (w : World) (xs : List Happening) : World := xs.foldl happen w

@[simp] theorem happenAll_nil (w : World) : w.happenAll [] = w := rfl

@[simp] theorem happenAll_cons (w : World) (x : Happening) (xs : List Happening) :
    w.happenAll (x :: xs) = (w.happen x).happenAll xs := rfl

/-- What nothing that happens puts an end to, stays so. -/
theorem happenAll_induction {P : World → Prop} (hstep : ∀ w x, P w → P (w.happen x)) {w : World} (h : P w)
    (xs : List Happening) : P (w.happenAll xs) := by
  induction xs generalizing w with
  | nil => exact h
  | cons x xs ih => exact ih (hstep w x h)

/-! ## What can happen -/

/-- What comes of something that happens, as far as the cells, the warrior's place, the captives who were set free and
victory go. -/
inductive Effect (w : World) : Happening → World → Prop where
  /-- None of this changes. -/
  | none {x w'} (hcells : w'.cells = w.cells) (hposition : w'.position = w.position) (hrescued : w'.rescued = w.rescued)
      (hwon : w'.won = w.won) : Effect w x w'
  /-- The warrior steps on a cell with nobody on it. -/
  | walk {w'} (h : Heading) (hempty : (w.feel h).isEmpty = true) (hcells : w'.cells = w.cells)
      (hposition : w'.position = (w.ahead h 1).toNat) (hrescued : w'.rescued = w.rescued)
      (hwon : w'.won = (w.won || (w.feel h).hasStairs)) : Effect w (.act (.walk h)) w'
  /-- Harm is done to whoever stands at a place. -/
  | strike {x w'} (i : Int) (amount : Nat) (hstrike : x.isStrike = true) (hcells : w'.cells = (w.damage i amount).cells)
      (hposition : w'.position = w.position) (hrescued : w'.rescued = w.rescued) (hwon : w'.won = w.won) : Effect w x w'
  /-- A captive is set free. -/
  | rescue {w'} (h : Heading) (hcaptive : w.captiveAt (w.ahead h 1))
      (hcells : w'.cells = (w.setOccupant (w.ahead h 1) .none).cells) (hposition : w'.position = w.position)
      (hrescued : w'.rescued = w.rescued + 1) (hwon : w'.won = w.won) : Effect w (.act (.rescue h)) w'

variable {start w w' : World} {x : Happening} {i : Int}

/-- Who stands at a place depends on the cells only. -/
theorem occupantAt?_congr (h : w'.cells = w.cells) (i : Int) : w'.occupantAt? i = w.occupantAt? i := by
  rw [occupantAt?, cellAt?, h, occupantAt?, cellAt?]

theorem creatureAt?_congr (h : w'.cells = w.cells) (i : Int) : w'.creatureAt? i = w.creatureAt? i := by
  rw [creatureAt?, occupantAt?_congr h, creatureAt?]

theorem cells_damage_congr (h : w'.cells = w.cells) (i : Int) (amount : Nat) :
    (w'.damage i amount).cells = (w.damage i amount).cells := by
  unfold damage
  rw [occupantAt?_congr h]
  cases w.occupantAt? i with
  | none => exact h
  | some o => exact congrArg (List.modify · i.toNat _) h

/-- An action that takes place has one of these effects. -/
theorem effect_perform (w : World) (a : Action) : w.Effect (.act a) (w.perform a) := by
  cases a with
  | walk h =>
    rw [perform]
    split
    · rename_i hempty
      exact .walk h hempty rfl rfl rfl rfl
    · exact .none rfl rfl rfl rfl
  | attack h =>
    rw [perform, damage_eq]
    exact .strike (w.ahead h 1) attackPower rfl rfl rfl rfl rfl
  | shoot h =>
    rw [perform]
    split
    · exact .none rfl rfl rfl rfl
    · rename_i i hi
      rw [damage_eq]
      exact .strike i shootPower rfl rfl rfl rfl rfl
  | pivot => exact .none rfl rfl rfl rfl
  | rest => exact .none rfl rfl rfl rfl
  | rescue h =>
    rw [perform]
    split
    · rename_i hcaptive
      exact .rescue h (captiveAt_iff_isCaptive.2 hcaptive) rfl rfl rfl rfl
    · exact .none rfl rfl rfl rfl

theorem effect_happen (w : World) (x : Happening) : w.Effect x (w.happen x) := by
  cases x with
  | act a =>
    rw [happen]
    cases hw : w.acted with
    | true =>
      rw [act_of_acted hw]
      exact .none rfl rfl rfl rfl
    | false =>
      rw [act_of_not_acted hw]
      -- That the action of the turn is used up plays no part in what it does.
      cases effect_perform { w with acted := true } a with
      | none hcells hposition hrescued hwon => exact .none hcells hposition hrescued hwon
      | walk h hempty hcells hposition hrescued hwon => exact .walk h hempty hcells hposition hrescued hwon
      | strike i amount hstrike hcells hposition hrescued hwon =>
        have hsame : ({ w with acted := true } : World).cells = w.cells := rfl
        exact .strike i amount hstrike (hcells.trans (cells_damage_congr hsame i amount)) hposition hrescued hwon
      | rescue h hcaptive hcells hposition hrescued hwon => exact .rescue h hcaptive hcells hposition hrescued hwon
  | endTurn => exact .none rfl rfl rfl rfl
  | setHealth health => exact .none rfl rfl rfl rfl

/-! ## Cells, stairs and occupants -/

theorem stairs_setOccupant (w : World) (i : Int) (o : Option Occupant) :
    (w.setOccupant i o).cells.map Cell.stairs = w.cells.map Cell.stairs := by
  apply List.ext_getElem?
  intro j
  simp only [setOccupant, List.getElem?_map, List.getElem?_modify]
  cases w.cells[j]? with
  | none => rfl
  | some c =>
    simp only [Option.map_eq_map, Option.map_some]
    split <;> rfl

theorem stairs_damage (w : World) (i : Int) (amount : Nat) :
    (w.damage i amount).cells.map Cell.stairs = w.cells.map Cell.stairs := by
  obtain hw | ⟨c, o, -, hw, -⟩ := damage_cases w i amount <;> rw [hw]
  exact stairs_setOccupant w i o

/-- Whatever happens, there are the same cells with the same stairs. -/
theorem stairs_happen (w : World) (x : Happening) : (w.happen x).cells.map Cell.stairs = w.cells.map Cell.stairs := by
  cases effect_happen w x with
  | none hcells => rw [hcells]
  | walk h hempty hcells => rw [hcells]
  | strike i amount hstrike hcells => rw [hcells, stairs_damage]
  | rescue h hcaptive hcells => rw [hcells, stairs_setOccupant]

theorem length_cells_happen (w : World) (x : Happening) : (w.happen x).cells.length = w.cells.length := by
  simpa using congrArg List.length (stairs_happen w x)

/-- Of an occupant is left nobody, or the same one, or one with less health. -/
def Leaves (o o' : Option Occupant) : Prop :=
  o' = none ∨ o' = o ∨ ∃ u n, o = some u ∧ 1 ≤ n ∧ n ≤ u.health ∧ o' = some { u with health := n }

theorem occupantAt?_setOccupant_self {c : Cell} (hc : w.cellAt? i = some c) (o : Option Occupant) :
    (w.setOccupant i o).occupantAt? i = o := by
  simp [occupantAt?, cellAt?_setOccupant (cellAt?_eq_some hc).1, hc]

theorem leaves_damage (w : World) (i j : Int) (amount : Nat) :
    Leaves (w.occupantAt? j) ((w.damage i amount).occupantAt? j) := by
  by_cases hij : i = j
  · subst hij
    unfold damage
    split
    · exact .inr (.inl rfl)
    · rename_i o ho
      obtain ⟨c, hc, -⟩ := Option.bind_eq_some_iff.1 ho
      rw [occupantAt?_setOccupant_self hc, ho]
      split
      · exact .inl rfl
      · refine .inr (.inr ⟨o, o.health - amount, rfl, ?_, ?_, rfl⟩) <;> omega
  · exact .inr (.inl (occupantAt?_damage_of_ne hij amount))

/-- Nobody appears at a place, and nobody there gains health. -/
theorem leaves_happen (w : World) (x : Happening) (j : Int) :
    Leaves (w.occupantAt? j) ((w.happen x).occupantAt? j) := by
  cases effect_happen w x with
  | none hcells => exact .inr (.inl (occupantAt?_congr hcells j))
  | walk h hempty hcells => exact .inr (.inl (occupantAt?_congr hcells j))
  | strike i amount hstrike hcells =>
    rw [occupantAt?_congr hcells]
    exact leaves_damage w i j amount
  | rescue h hcaptive hcells =>
    obtain ⟨c, hc, -⟩ := captiveAt_iff_hasCaptive.1 hcaptive
    rw [occupantAt?_congr hcells]
    by_cases hj : w.ahead h 1 = j
    · subst hj
      exact .inl (occupantAt?_setOccupant_self hc none)
    · exact .inr (.inl (occupantAt?_setOccupant_of_ne (cellAt?_eq_some hc).1 hj none))

theorem creatureAt?_happen (w : World) (x : Happening) (j : Int) :
    (w.happen x).creatureAt? j = w.creatureAt? j ∨ (w.happen x).creatureAt? j = none := by
  unfold creatureAt?
  rcases leaves_happen w x j with hnone | hsame | ⟨u, n, hu, -, -, hn⟩
  · right
    rw [hnone]
    rfl
  · left
    rw [hsame]
  · left
    rw [hu, hn]
    rfl

/-! ## The warrior's place -/

/-- A cell with nobody on it is inside the corridor. -/
theorem exists_cell_of_isEmpty {h : Heading} (hempty : (w.feel h).isEmpty = true) :
    ∃ c, w.cellAt? (w.ahead h 1) = some c ∧ c.occupant = none ∧ (w.feel h).hasStairs = c.stairs := by
  unfold feel sense spaceAt at *
  cases hc : w.cellAt? (w.ahead h 1) with
  | none => simp [hc, Space.isEmpty] at hempty
  | some c => exact ⟨c, rfl, by simpa [hc, Space.isEmpty, Cell.creature?] using hempty, rfl⟩

/-- The warrior stays, or steps on another cell of the corridor with nobody on it. -/
theorem position_happen (w : World) (x : Happening) : (w.happen x).position = w.position ∨
    (w.happen x).position < (w.happen x).cells.length ∧
      (w.happen x).creatureAt? (w.happen x).position = none := by
  cases effect_happen w x with
  | none hcells hposition => exact .inl hposition
  | strike i amount hstrike hcells hposition => exact .inl hposition
  | rescue h hcaptive hcells hposition => exact .inl hposition
  | walk h hempty hcells hposition =>
    obtain ⟨c, hc, hnobody, -⟩ := exists_cell_of_isEmpty hempty
    obtain ⟨hpos, hcell⟩ := cellAt?_eq_some hc
    have hplace : ((w.ahead h 1).toNat : Int) = w.ahead h 1 := by omega
    right
    rw [creatureAt?_congr hcells, hcells, hposition, hplace]
    refine ⟨(List.getElem?_eq_some_iff.1 hcell).1, ?_⟩
    simp [creatureAt?, occupantAt?, hc, hnobody]

/-- A warrior who is not on an archer's cell does not get on one. -/
theorem not_archer_happen (h : w.creatureAt? w.position ≠ some .archer) (x : Happening) :
    (w.happen x).creatureAt? (w.happen x).position ≠ some .archer := by
  rcases position_happen w x with hstays | ⟨-, hnobody⟩
  · rw [hstays]
    rcases creatureAt?_happen w x w.position with hsame | hnone
    · rwa [hsame]
    · simp [hnone]
  · simp [hnobody]

/-! ## Everything stems from the beginning -/

/-- What a world has in common with the one that it began as. -/
structure Stems (start w : World) : Prop where
  /-- There are as many cells, and the same ones have stairs. -/
  stairs : w.cells.map Cell.stairs = start.cells.map Cell.stairs
  /-- The warrior is inside the corridor, if it has an inside. -/
  inside : w.position < w.cells.length ∨ w.cells = [] ∧ w.position = 0
  /-- On each cell is nobody, or who was there, with no more health and still some. -/
  occupants : ∀ i, w.creatureAt? i = none ∧ w.healthAt i = 0 ∨
    w.creatureAt? i = start.creatureAt? i ∧ 1 ≤ w.healthAt i ∧ w.healthAt i ≤ start.healthAt i
  /-- The warrior is not on an archer's cell. -/
  archer : w.creatureAt? w.position ≠ some .archer
  /-- Who began alone on a cell, is. -/
  alone : start.creatureAt? start.position = none → w.creatureAt? w.position = none

theorem Stems.position_le (h : start.Stems w) : w.position ≤ w.cells.length := by
  rcases h.inside with hlt | ⟨-, hzero⟩ <;> omega

/-- Whoever was there with some health and is left, still has some. -/
theorem occupants_of_leaves (hleaves : Leaves (w.occupantAt? i) (w'.occupantAt? i))
    (h : w.creatureAt? i = none ∧ w.healthAt i = 0 ∨
      w.creatureAt? i = start.creatureAt? i ∧ 1 ≤ w.healthAt i ∧ w.healthAt i ≤ start.healthAt i) :
    w'.creatureAt? i = none ∧ w'.healthAt i = 0 ∨
      w'.creatureAt? i = start.creatureAt? i ∧ 1 ≤ w'.healthAt i ∧ w'.healthAt i ≤ start.healthAt i := by
  generalize start.creatureAt? i = c, start.healthAt i = n at h ⊢
  unfold creatureAt? healthAt at *
  rcases hleaves with hnone | hsame | ⟨u, m, hu, hm, hle, hsome⟩
  · left
    simp [hnone]
  · rwa [hsame]
  · rcases h with ⟨hcreature, -⟩ | ⟨hcreature, hhealth, hbound⟩
    · simp [hu] at hcreature
    · right
      rw [hu] at hcreature hbound
      rw [hsome]
      exact ⟨hcreature, hm, Nat.le_trans hle hbound⟩

/-- What happens next keeps what the world has in common with its beginning. -/
theorem Stems.happen (h : start.Stems w) (x : Happening) : start.Stems (w.happen x) where
  stairs := (stairs_happen w x).trans h.stairs
  inside := by
    have hlength := length_cells_happen w x
    rcases position_happen w x with hstays | ⟨hinside, -⟩
    · rw [hstays, hlength]
      refine h.inside.imp_right ?_
      rintro ⟨hnil, hzero⟩
      rw [hnil] at hlength
      exact ⟨List.length_eq_zero_iff.1 hlength, hzero⟩
    · exact .inl hinside
  occupants i := occupants_of_leaves (leaves_happen w x i) (h.occupants i)
  archer := not_archer_happen h.archer x
  alone hstart := by
    rcases position_happen w x with hstays | ⟨-, hnobody⟩
    · rw [hstays]
      rcases creatureAt?_happen w x w.position with hsame | hnone
      · rw [hsame]
        exact h.alone hstart
      · exact hnone
    · exact hnobody

theorem Stems.happenAll (h : start.Stems w) : ∀ xs : List Happening, start.Stems (w.happenAll xs) :=
  happenAll_induction (fun _ x hw => hw.happen x) h

/-- The start of a layout is inside it. -/
theorem lastStart?_lt : ∀ {layout : List Char} {i : Nat}, lastStart? layout = some i → i < layout.length
  | [], _, h => by cases h
  | c :: cs, i, h => by
    rw [lastStart?] at h
    split at h
    · rename_i j hj
      obtain rfl := Option.some.inj h
      exact Nat.succ_lt_succ (lastStart?_lt hj)
    · split at h
      · obtain rfl := Option.some.inj h
        exact Nat.zero_lt_succ _
      · cases h

/-- Everybody in a layout has some health. -/
theorem one_le_health_ofChar {c : Char} {o : Occupant} (h : (Cell.ofChar c).occupant = some o) : 1 ≤ o.health := by
  unfold Cell.ofChar at h
  split_ifs at h <;> cases h <;> decide

/-- The world of a layout stems from itself, unless the warrior begins on an archer's cell. -/
theorem stems_ofLayout {layout : List Char}
    (h : (ofLayout layout).creatureAt? (ofLayout layout).position ≠ some .archer) :
    (ofLayout layout).Stems (ofLayout layout) where
  stairs := rfl
  inside := by
    cases layout with
    | nil => exact .inr ⟨rfl, rfl⟩
    | cons c cs =>
      left
      rw [length_cells_ofLayout]
      change (lastStart? (c :: cs)).getD 0 < _
      cases hs : lastStart? (c :: cs) with
      | none => exact Nat.zero_lt_succ _
      | some i => exact lastStart?_lt hs
  occupants i := by
    cases ho : (ofLayout layout).occupantAt? i with
    | none => exact .inl ⟨by simp [creatureAt?, ho], by simp [healthAt, ho]⟩
    | some o =>
      right
      obtain ⟨c, hc, hoccupant⟩ := Option.bind_eq_some_iff.1 ho
      obtain ⟨d, -, rfl⟩ := List.mem_map.1 (List.mem_of_getElem? (cellAt?_eq_some hc).2)
      refine ⟨rfl, ?_, Nat.le_refl _⟩
      simpa [healthAt, ho] using one_le_health_ofChar hoccupant
  archer := h
  alone hstart := hstart

/-! ## Captives -/

/-- The number of captives that fall to a strike: those who are there before it and not after it. -/
def fallen (w : World) (x : Happening) : Nat :=
  if x.isStrike then
    (List.range w.cells.length).countP fun (i : Nat) =>
      w.creatureAt? i == some .captive && !((w.happen x).creatureAt? i == some .captive)
  else 0

/-- The number of captives that fall to strikes while several things happen. -/
def fallenIn (w : World) : List Happening → Nat
  | [] => 0
  | x :: xs => w.fallen x + (w.happen x).fallenIn xs

/-- Items with a property, counted place by place. -/
theorem countP_range_getElem? {α : Type} (p : α → Bool) : ∀ l : List α,
    (List.range l.length).countP (fun i => l[i]?.any p) = l.countP p
  | [] => rfl
  | a :: l => by
    rw [List.length_cons, List.range_succ_eq_map, List.countP_cons, List.countP_map, List.countP_cons,
      ← countP_range_getElem? p l]
    rfl

/-- The captives of a corridor, counted place by place. -/
theorem captives_eq_countP_range (w : World) : w.captives =
    (List.range w.cells.length).countP fun (i : Nat) => w.creatureAt? i == some .captive := by
  rw [captives, ← countP_range_getElem?]
  apply List.countP_congr
  intro i hi
  have hplace : w.cellAt? i = w.cells[i]? := by simp [cellAt?]
  rw [creatureAt?, occupantAt?, hplace]
  cases w.cells[i]? <;> rfl

/-- Items lose a property or keep it. -/
theorem countP_of_imp {α : Type} {p q : α → Bool} (h : ∀ a, q a = true → p a = true) (l : List α) :
    l.countP q + l.countP (fun a => p a && !q a) = l.countP p := by
  induction l with
  | nil => rfl
  | cons a l ih =>
    have ha := h a
    rw [List.countP_cons, List.countP_cons, List.countP_cons, ← ih]
    cases hp : p a <;> cases hq : q a <;> simp_all <;> omega

/-- After a strike the captives are left or fallen. -/
theorem captives_add_fallen_of_isStrike (w : World) (hx : x.isStrike = true) :
    (w.happen x).captives + w.fallen x = w.captives := by
  rw [captives_eq_countP_range, captives_eq_countP_range, fallen, if_pos hx, length_cells_happen]
  apply countP_of_imp
  intro i hi
  rcases creatureAt?_happen w x i with hsame | hnone
  · rwa [hsame] at hi
  · simp [hnone] at hi

/-- Whatever happens, captives are left, set free or fallen to a strike. -/
theorem captives_happen (w : World) (x : Happening) :
    (w.happen x).captives + (w.happen x).rescued + w.fallen x = w.captives + w.rescued := by
  cases hx : x.isStrike with
  | true =>
    have hrescued : (w.happen x).rescued = w.rescued := by
      cases effect_happen w x with
      | none hcells hposition hrescued => exact hrescued
      | walk h => cases hx
      | strike i amount hstrike hcells hposition hrescued => exact hrescued
      | rescue h => cases hx
    have hcaptives := captives_add_fallen_of_isStrike w hx
    omega
  | false =>
    have hfallen : w.fallen x = 0 := by simp [fallen, hx]
    cases effect_happen w x with
    | none hcells hposition hrescued => rw [hfallen, captives, hcells, hrescued, captives, Nat.add_zero]
    | walk h hempty hcells hposition hrescued => rw [hfallen, captives, hcells, hrescued, captives, Nat.add_zero]
    | strike i amount hstrike => simp [hx] at hstrike
    | rescue h hcaptive hcells hposition hrescued =>
      have hcaptives := captives_setOccupant_none hcaptive
      rw [captives, ← hcells, ← captives] at hcaptives
      omega

theorem captives_happenAll (xs : List Happening) : ∀ w : World,
    (w.happenAll xs).captives + (w.happenAll xs).rescued + w.fallenIn xs = w.captives + w.rescued := by
  induction xs with
  | nil => exact fun w => rfl
  | cons x xs ih =>
    intro w
    have hstep := captives_happen w x
    have hrest := ih (w.happen x)
    rw [happenAll_cons, fallenIn]
    omega

/-! ## Victory -/

/-- Something that happens is a walk, it takes effect, and it leads onto stairs. -/
def WalksOntoStairs (w : World) (x : Happening) : Prop :=
  (∃ h, x = .act (.walk h)) ∧ (w.happen x).position ≠ w.position ∧
    ((w.happen x).cellAt? (w.happen x).position).any Cell.stairs = true

theorem won_happen (w : World) (x : Happening) :
    (w.happen x).won = true ↔ w.won = true ∨ w.WalksOntoStairs x := by
  have hstays : (w.happen x).position = w.position → ¬ w.WalksOntoStairs x := fun h hx => hx.2.1 h
  cases effect_happen w x with
  | none hcells hposition hrescued hwon => rw [hwon, or_iff_left (hstays hposition)]
  | strike i amount hstrike hcells hposition hrescued hwon => rw [hwon, or_iff_left (hstays hposition)]
  | rescue h hcaptive hcells hposition hrescued hwon => rw [hwon, or_iff_left (hstays hposition)]
  | walk h hempty hcells hposition hrescued hwon =>
    obtain ⟨c, hc, -, hstairs⟩ := exists_cell_of_isEmpty hempty
    have hpos := (cellAt?_eq_some hc).1
    have hplace : ((w.ahead h 1).toNat : Int) = w.ahead h 1 := by omega
    have hmoves : (w.ahead h 1).toNat ≠ w.position := by
      unfold ahead at *
      cases hf : w.facing.toward h <;> simp only [hf, Facing.step] at * <;> omega
    have hcell : (w.happen (.act (.walk h))).cellAt? (w.ahead h 1) = some c := by
      rw [← hc, cellAt?, hcells, cellAt?]
    rw [hwon, hstairs, Bool.or_eq_true, WalksOntoStairs, hposition, hplace, hcell]
    simp [hmoves]

/-- The game is won if some walk has led onto stairs. -/
theorem won_happenAll (xs : List Happening) : ∀ w : World, (w.happenAll xs).won = true ↔
    w.won = true ∨ ∃ before x later, xs = before ++ x :: later ∧ (w.happenAll before).WalksOntoStairs x := by
  induction xs with
  | nil => simp
  | cons x xs ih =>
    intro w
    rw [happenAll_cons, ih, won_happen, or_assoc]
    apply or_congr_right
    constructor
    · rintro (hx | ⟨before, y, later, rfl, hy⟩)
      · exact ⟨[], x, xs, rfl, hx⟩
      · exact ⟨x :: before, y, later, rfl, hy⟩
    · rintro ⟨before, y, later, hxs, hy⟩
      cases before with
      | nil =>
        obtain ⟨rfl, rfl⟩ := List.cons.inj hxs
        exact .inl hy
      | cons z before =>
        obtain ⟨rfl, rfl⟩ := List.cons.inj hxs
        exact .inr ⟨before, y, later, rfl, hy⟩

end World

/-! ## All together -/

open World

/-- What is so in every world that has begun as a layout. -/
structure Lawful (layout : List Char) (xs : List Happening) (w : World) : Prop where
  stems : (World.ofLayout layout).Stems w
  /-- The end of a turn comes to an end, cell by cell, and reads only cells strictly between the warrior and an archer
  within range. -/
  reckons : ∃ glances, w.endTurnInPlace = some (w.endTurn, glances) ∧
    ∀ g ∈ glances, w.Sees g ∧ ∃ c, w.cellAt? g.place = some c
  captives : layout.count 'C' = w.captives + w.rescued + (World.ofLayout layout).fallenIn xs
  won : w.won = true ↔
    ∃ before x later, xs = before ++ x :: later ∧ ((World.ofLayout layout).happenAll before).WalksOntoStairs x
  /-- The game stays won, whatever happens then. -/
  wins : w.won = true → ∀ later, (w.happenAll later).won = true

/-- In every layout that does not put the warrior on an archer's cell, whatever happens. -/
theorem corridor_lawful (layout : List Char) (xs : List Happening)
    (h : (World.ofLayout layout).creatureAt? (World.ofLayout layout).position ≠ some .archer) :
    Lawful layout xs ((World.ofLayout layout).happenAll xs) := by
  have hstems := (stems_ofLayout h).happenAll xs
  refine ⟨hstems, ?_, ?_, ?_, ?_⟩
  · obtain ⟨glances, hend, hsees⟩ := endTurnInPlace_eq hstems.archer
    exact ⟨glances, hend, fun g hg => ⟨hsees g hg, (hsees g hg).exists_cell hstems.position_le⟩⟩
  · rw [captives_happenAll, captives_ofLayout]
    rfl
  · rw [won_happenAll]
    exact or_iff_right Bool.false_ne_true
  · intro hwon later
    rw [won_happenAll]
    exact .inl hwon

/-- A captive falls to a blow, and a shot at an archer follows. -/
theorem corridor_lawful_shots : Lawful "@Ca >".toList [.act (.attack .forward), .endTurn, .act (.shoot .forward)]
    ((World.ofLayout "@Ca >".toList).happenAll [.act (.attack .forward), .endTurn, .act (.shoot .forward)]) :=
  corridor_lawful "@Ca >".toList _ (by decide)

end Behaviour.Corridor
