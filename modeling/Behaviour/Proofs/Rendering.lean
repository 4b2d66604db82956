import Behaviour.Proofs.Mirror

/-!
# Layouts drawn and read back

A world is drawn with one glyph for each cell, the warrior's own hiding what is below it, and a layout is read character
by character, the last `@` counting. What is drawn of the world of a layout is the layout itself, *tidied*: blank where
an `@` does not count or a character stands for nothing (`layout_ofLayout`). Read again, it gives the same world
(`ofLayout_tidied`).

Whatever has happened since, what is drawn tells where the warrior is and who and what is on every cell, provided that
the warrior faces right and hides nothing (`readBack_layout`): one glyph suffices for a cell, because nobody ever stands
on stairs (`Uncrowded.happen`).
-/

namespace Behaviour.Corridor

/-! ## The start of a layout -/

theorem lastStart?_eq_none_iff : ∀ {layout : List Char}, lastStart? layout = none ↔ '@' ∉ layout
  | [] => by simp [lastStart?]
  | c :: cs => by
    have ih : lastStart? cs = none ↔ '@' ∉ cs := lastStart?_eq_none_iff
    rw [lastStart?]
    cases hs : lastStart? cs with
    | some i =>
      have hmem : '@' ∈ cs := not_not.1 fun h => by simp [ih.2 h] at hs
      simp [hmem]
    | none =>
      have hnone : '@' ∉ cs := ih.1 hs
      by_cases hc : c = '@'
      · simp [hc]
      · simp [hc, Ne.symm hc, hnone]

/-- The start is the last `@`. -/
theorem lastStart?_eq_some_iff : ∀ {layout : List Char} {p : Nat}, lastStart? layout = some p ↔
    layout[p]? = some '@' ∧ ∀ j, p < j → layout[j]? ≠ some '@'
  | [], p => by simp [lastStart?]
  | c :: cs, p => by
    have hlater : ∀ q, (∀ j, q + 1 < j → (c :: cs)[j]? ≠ some '@') ↔ ∀ j, q < j → cs[j]? ≠ some '@' := by
      intro q
      constructor
      · intro h j hj
        simpa using h (j + 1) (Nat.succ_lt_succ hj)
      · intro h j hj
        obtain ⟨j, rfl⟩ := Nat.exists_eq_add_one.2 (Nat.lt_of_le_of_lt (Nat.zero_le _) hj)
        simpa using h j (Nat.lt_of_succ_lt_succ hj)
    rw [lastStart?]
    cases hs : lastStart? cs with
    | some i =>
      obtain ⟨hi, -⟩ := lastStart?_eq_some_iff.1 hs
      cases p with
      | zero =>
        -- The first character is not the last `@`.
        simp only [Option.some.injEq, Nat.add_one_ne_zero, false_iff, not_and]
        intro _ h
        exact h (i + 1) (Nat.succ_pos i) (by simpa using hi)
      | succ q =>
        rw [hlater, List.getElem?_cons_succ, ← lastStart?_eq_some_iff, hs]
        simp
    | none =>
      have hnone : ∀ j, cs[j]? ≠ some '@' := fun j hj => lastStart?_eq_none_iff.1 hs (List.mem_of_getElem? hj)
      cases p with
      | zero =>
        have hno : ∀ j, 0 < j → (c :: cs)[j]? ≠ some '@' := by
          intro j hj
          obtain ⟨j, rfl⟩ := Nat.exists_eq_add_one.2 hj
          simpa using hnone j
        rw [and_iff_left hno]
        by_cases hc : c = '@' <;> simp [hc]
      | succ q =>
        have hq := hnone q
        by_cases hc : c = '@' <;> simp [hc, hq]

/-- After a place before the start, and only there, an `@` is left. -/
theorem mem_drop_iff_of_start {layout : List Char} {p i : Nat} (hp : lastStart? layout = some p) :
    '@' ∈ layout.drop (i + 1) ↔ i < p := by
  obtain ⟨hat, hlast⟩ := lastStart?_eq_some_iff.1 hp
  simp only [List.mem_iff_getElem?, List.getElem?_drop]
  constructor
  · rintro ⟨j, hj⟩
    have hle : i + 1 + j ≤ p := Nat.not_lt.1 fun hlt => hlast _ hlt hj
    omega
  · intro hlt
    refine ⟨p - (i + 1), ?_⟩
    rwa [Nat.add_sub_cancel' (Nat.succ_le_of_lt hlt)]

/-! ## Tidied layouts -/

/-- A character that stands for nothing is blank. -/
def blanked (c : Char) : Char := if c ∈ ['s', 'a', 'C', '>', '@'] then c else ' '

/-- A layout with blanks for every `@` but the last one and for all that stands for nothing. -/
def tidied : List Char → List Char
  | [] => []
  | c :: cs => (if c = '@' ∧ '@' ∈ cs then ' ' else blanked c) :: tidied cs

variable {layout : List Char}

theorem blanked_eq_at_iff {c : Char} : blanked c = '@' ↔ c = '@' := by
  unfold blanked
  split
  · rfl
  · rename_i hnot
    have hc : c ≠ '@' := by
      rintro rfl
      exact hnot (by decide)
    simp [hc]

theorem Cell.ofChar_of_nobody {c : Char} (h : c ∉ ['s', 'a', 'C']) : Cell.ofChar c = { stairs := c == '>' } := by
  simp only [List.mem_cons, List.not_mem_nil, or_false, not_or] at h
  obtain ⟨hs, ha, hC⟩ := h
  by_cases hgoal : c = '>' <;> simp [Cell.ofChar, hs, ha, hC, hgoal]

theorem Cell.ofChar_of_not_mem {c : Char} (h : c ∉ ['s', 'a', 'C', '>']) : Cell.ofChar c = {} := by
  have hplain : c ≠ '>' := by
    rintro rfl
    exact h (by decide)
  rw [Cell.ofChar_of_nobody fun hmem => h (List.mem_append_left ['>'] hmem), beq_eq_false_iff_ne.2 hplain]

/-- What stands for nothing is read as floor. -/
theorem ofChar_blanked (c : Char) : Cell.ofChar (blanked c) = Cell.ofChar c := by
  unfold blanked
  split
  · rfl
  · rename_i hnot
    have hfloor : c ∉ ['s', 'a', 'C', '>'] := fun h => hnot (List.mem_append_left ['@'] h)
    rw [Cell.ofChar_of_not_mem hfloor]
    rfl

theorem length_tidied : ∀ layout : List Char, (tidied layout).length = layout.length
  | [] => rfl
  | _ :: cs => congrArg (· + 1) (length_tidied cs)

theorem getElem?_tidied : ∀ (layout : List Char) (i : Nat), (tidied layout)[i]? =
    layout[i]?.map fun c => if c = '@' ∧ '@' ∈ layout.drop (i + 1) then ' ' else blanked c
  | [], _ => rfl
  | _ :: _, 0 => rfl
  | _ :: cs, i + 1 => getElem?_tidied cs i

/-- Of every `@` one is left. -/
theorem count_tidied (layout : List Char) : (tidied layout).count '@' = if '@' ∈ layout then 1 else 0 := by
  induction layout with
  | nil => rfl
  | cons c cs ih =>
    rw [tidied, List.count_cons, ih]
    by_cases hc : c = '@'
    · by_cases hcs : '@' ∈ cs <;> simp [hc, hcs, blanked]
    · simp [hc, Ne.symm hc, blanked_eq_at_iff]

theorem lastStart?_tidied : ∀ layout : List Char, lastStart? (tidied layout) = lastStart? layout
  | [] => rfl
  | c :: cs => by
    rw [tidied, lastStart?, lastStart?, lastStart?_tidied cs]
    cases hs : lastStart? cs with
    | some i => rfl
    | none => simp [lastStart?_eq_none_iff.1 hs, blanked_eq_at_iff]

theorem map_ofChar_tidied (layout : List Char) : (tidied layout).map Cell.ofChar = layout.map Cell.ofChar := by
  induction layout with
  | nil => rfl
  | cons c cs ih =>
    rw [tidied, List.map_cons, List.map_cons, ih]
    split
    · rename_i hearlier
      rw [hearlier.1]
      rfl
    · rw [ofChar_blanked]

/-- Tidying changes nothing for those who read the layout. -/
theorem World.ofLayout_tidied (layout : List Char) : ofLayout (tidied layout) = ofLayout layout := by
  rw [ofLayout, map_ofChar_tidied, lastStart?_tidied, ofLayout]

/-! ## Drawing -/

namespace World

variable {w : World} {i : Nat} {c : Cell}

theorem getElem?_layout (w : World) (i : Nat) : w.layout[i]? = w.cells[i]?.map (w.glyph i) := List.getElem?_mapIdx

theorem render_eq (w : World) : w.render.toList = '|' :: w.layout ++ ['|'] := String.toList_ofList

/-- Elsewhere than at the warrior's place, a cell is drawn as it was read. -/
theorem glyph_ofChar {c : Char} (hi : i ≠ w.position) (hc : c ≠ '@') : w.glyph i (Cell.ofChar c) = blanked c := by
  rw [glyph, if_neg hi]
  by_cases hmem : c ∈ ['s', 'a', 'C', '>']
  · simp only [List.mem_cons, List.not_mem_nil, or_false] at hmem
    rcases hmem with rfl | rfl | rfl | rfl <;> rfl
  · have hblank : blanked c = ' ' := by
      refine if_neg fun h => ?_
      rcases List.mem_append.1 (show c ∈ ['s', 'a', 'C', '>'] ++ ['@'] from h) with h | h
      · exact hmem h
      · exact hc (List.mem_singleton.1 h)
    rw [Cell.ofChar_of_not_mem hmem, hblank]
    rfl

/-- What is drawn of the world of a layout is the layout, tidied. -/
theorem layout_ofLayout {layout : List Char} (h : '@' ∈ layout) : (ofLayout layout).layout = tidied layout := by
  obtain ⟨p, hp⟩ := Option.ne_none_iff_exists'.1 (mt lastStart?_eq_none_iff.1 (not_not.2 h))
  obtain ⟨hat, hlast⟩ := lastStart?_eq_some_iff.1 hp
  have hposition : (ofLayout layout).position = p := by rw [ofLayout, hp]; rfl
  apply List.ext_getElem?
  intro i
  rw [getElem?_layout, getElem?_tidied, ofLayout, List.getElem?_map, ← ofLayout]
  cases hc : layout[i]? with
  | none => rfl
  | some c =>
    simp only [Option.map_some, Option.some.injEq]
    by_cases hi : i = p
    · subst hi
      obtain rfl : '@' = c := Option.some.inj (hat.symm.trans hc)
      rw [glyph, if_pos hposition.symm, if_neg fun h => Nat.lt_irrefl i ((mem_drop_iff_of_start hp).1 h.2)]
      rfl
    · by_cases hstart : c = '@'
      · subst hstart
        have hle : i ≤ p := Nat.not_lt.1 fun hlt => hlast i hlt hc
        rw [if_pos ⟨rfl, (mem_drop_iff_of_start hp).2 (Nat.lt_of_le_of_ne hle hi)⟩, glyph, if_neg (hposition ▸ hi)]
        rfl
      · rw [glyph_ofChar (hposition ▸ hi) hstart, if_neg fun h => hstart h.1]

/-! ## Stairs are left free -/

/-- Nobody is on stairs. -/
def Uncrowded (w : World) : Prop := ∀ c ∈ w.cells, c.stairs = true → c.creature? = none

/-- No character stands for somebody on stairs. -/
theorem uncrowded_ofLayout (layout : List Char) : (ofLayout layout).Uncrowded := by
  intro c hc hstairs
  obtain ⟨a, -, rfl⟩ := List.mem_map.1 hc
  unfold Cell.ofChar at *
  split_ifs at *
  rfl

theorem cellAt?_natCast (w : World) (i : Nat) : w.cellAt? i = w.cells[i]? := by
  simp [cellAt?]

theorem creatureAt?_natCast (hc : w.cells[i]? = some c) : w.creatureAt? i = c.creature? := by
  rw [creatureAt?, occupantAt?, cellAt?_natCast, hc]
  rfl

/-- Nobody ever gets on stairs. -/
theorem Uncrowded.happen (h : w.Uncrowded) (x : Happening) : (w.happen x).Uncrowded := by
  intro c' hc' hstairs
  obtain ⟨i, hi⟩ := List.mem_iff_getElem?.1 hc'
  have hsame := congrArg (·[i]?) (stairs_happen w x)
  simp only [List.getElem?_map, hi, Option.map_some] at hsame
  obtain ⟨c, hc, hcstairs⟩ := Option.map_eq_some_iff.1 hsame.symm
  have hnobody : w.creatureAt? i = none := by
    rw [creatureAt?_natCast hc]
    exact h c (List.mem_of_getElem? hc) (hcstairs.trans hstairs)
  rw [← creatureAt?_natCast hi]
  rcases creatureAt?_happen w x i with hleft | hnone
  · rw [hleft, hnobody]
  · exact hnone

theorem Uncrowded.happenAll (h : w.Uncrowded) : ∀ xs : List Happening, (w.happenAll xs).Uncrowded :=
  happenAll_induction (fun _ x hw => hw.happen x) h

/-! ## Reading back -/

theorem glyph_ne_at (hi : i ≠ w.position) (c : Cell) : w.glyph i c ≠ '@' := by
  rw [glyph, if_neg hi]
  cases c.creature? with
  | some u => cases u <;> exact of_decide_eq_true rfl
  | none => cases c.stairs <;> decide

/-- A glyph is read as a cell with the same stairs and the same creature. -/
theorem ofChar_glyph (hi : i ≠ w.position) (hc : c.stairs = true → c.creature? = none) :
    (Cell.ofChar (w.glyph i c)).stairs = c.stairs ∧ (Cell.ofChar (w.glyph i c)).creature? = c.creature? := by
  rw [glyph, if_neg hi]
  cases hu : c.creature? with
  | some u =>
    have hplain : c.stairs = false := by
      rw [← Bool.not_eq_true]
      intro hstairs
      rw [hc hstairs] at hu
      cases hu
    rw [hplain]
    cases u <;> exact ⟨rfl, rfl⟩
  | none => cases c.stairs <;> exact ⟨rfl, rfl⟩

theorem lastStart?_layout (hinside : w.Inside) (hfacing : w.facing = .right) :
    lastStart? w.layout = some w.position := by
  rw [lastStart?_eq_some_iff]
  constructor
  · rw [getElem?_layout, List.getElem?_eq_getElem hinside, Option.map_some, glyph, if_pos rfl, hfacing]
  · intro j hj hat
    rw [getElem?_layout] at hat
    obtain ⟨c, -, hc⟩ := Option.map_eq_some_iff.1 hat
    exact glyph_ne_at (Nat.ne_of_gt hj) c hc

theorem spaceAt_ofLayout_layout (hcrowd : w.Uncrowded) (hhides : w.spaceAt w.position = .floor false none) (i : Int) :
    (ofLayout w.layout).spaceAt i = w.spaceAt i := by
  by_cases hi : i < 0
  · simp only [spaceAt, cellAt?, if_pos hi]
  · lift i to Nat using Int.not_lt.1 hi
    have hread : (ofLayout w.layout).cells[i]? = (w.cells[i]?.map (w.glyph i)).map Cell.ofChar := by
      rw [← getElem?_layout]
      exact List.getElem?_map
    simp only [spaceAt, cellAt?_natCast, hread] at hhides ⊢
    cases hc : w.cells[i]? with
    | none => rfl
    | some c =>
      simp only [Option.map_some, Space.floor.injEq]
      by_cases hplace : i = w.position
      · -- The warrior's glyph is read as floor, which is what it hides.
        subst hplace
        have hglyph : Cell.ofChar (w.glyph w.position c) = {} := by
          rw [glyph, if_pos rfl]
          cases w.facing <;> rfl
        rw [hc] at hhides
        rw [hglyph]
        exact Space.floor.inj hhides.symm
      · exact ofChar_glyph hplace (hcrowd c (List.mem_of_getElem? hc))

end World

/-! ## All together -/

open World

/-- What is drawn of the world of a layout whose last `@` is at a place. -/
structure Redrawn (layout : List Char) (p : Nat) (text : List Char) : Prop where
  start : layout[p]? = some '@' ∧ ∀ j : Nat, p < j → layout[j]? ≠ some '@'
  render_eq : (ofLayout layout).render.toList = '|' :: text ++ ['|']
  length_eq : text.length = layout.length
  /-- There is one `@`, at that place. -/
  count_eq : text.count '@' = 1
  getElem?_start : text[p]? = some '@'
  /-- There are blanks for the earlier ones and for all that stands for nothing. -/
  getElem?_eq : ∀ i : Nat, text[i]? = layout[i]?.map fun c =>
    if c = '@' ∧ i < p ∨ c ∉ ['s', 'a', 'C', '>', '@'] then ' ' else c
  /-- Read back, it is the same world. -/
  ofLayout_eq : ofLayout text = ofLayout layout

/-- What is drawn of a world tells how it is. -/
structure ReadBack (w : World) (text : List Char) : Prop where
  render_eq : w.render.toList = '|' :: text ++ ['|']
  position_eq : (ofLayout text).position = w.position
  facing_eq : (ofLayout text).facing = w.facing
  spaceAt_eq : ∀ i, (ofLayout text).spaceAt i = w.spaceAt i

theorem exists_redrawn {layout : List Char} (h : '@' ∈ layout) : ∃ p, Redrawn layout p (tidied layout) := by
  obtain ⟨p, hp⟩ := Option.ne_none_iff_exists'.1 (mt lastStart?_eq_none_iff.1 (not_not.2 h))
  refine ⟨p, ?_⟩
  constructor
  case start => exact lastStart?_eq_some_iff.1 hp
  case render_eq => rw [render_eq, layout_ofLayout h]
  case length_eq => exact length_tidied layout
  case count_eq => rw [count_tidied, if_pos h]
  case getElem?_start => exact (lastStart?_eq_some_iff.1 ((lastStart?_tidied layout).trans hp)).1
  case getElem?_eq =>
    intro i
    rw [getElem?_tidied]
    simp only [mem_drop_iff_of_start hp, blanked, ite_or, ite_not]
  case ofLayout_eq => exact ofLayout_tidied layout

namespace World

theorem readBack_layout {w : World} (hinside : w.Inside) (hcrowd : w.Uncrowded) (hfacing : w.facing = .right)
    (hhides : w.spaceAt w.position = .floor false none) : ReadBack w w.layout where
  render_eq := w.render_eq
  position_eq := by
    change (lastStart? w.layout).getD 0 = _
    rw [lastStart?_layout hinside hfacing]
    rfl
  facing_eq := hfacing.symm
  spaceAt_eq := spaceAt_ofLayout_layout hcrowd hhides

end World

/-- For every layout with a start: drawn, it is tidied and can be read again, and so can all that becomes of it while
the warrior faces right and hides nothing. -/
theorem layouts_round_trip (layout : List Char) (h : '@' ∈ layout) : (∃ p text, Redrawn layout p text) ∧
    ∀ xs : List Happening, ((ofLayout layout).happenAll xs).facing = .right →
      ((ofLayout layout).happenAll xs).spaceAt ((ofLayout layout).happenAll xs).position = .floor false none →
      ∃ text, ReadBack ((ofLayout layout).happenAll xs) text := by
  obtain ⟨p, hredrawn⟩ := exists_redrawn h
  refine ⟨⟨p, _, hredrawn⟩, ?_⟩
  intro xs hfacing hhides
  have hinside := (inside_ofLayout (List.ne_nil_of_mem h)).happenAll xs
  have hcrowd := (uncrowded_ofLayout layout).happenAll xs
  exact ⟨_, readBack_layout hinside hcrowd hfacing hhides⟩

/-- An `@` that does not count, a letter that stands for nothing, and a captive who is shot. -/
theorem layouts_round_trip_shot : '@' ∈ "C@x@ s>".toList ∧ (∃ p text, Redrawn "C@x@ s>".toList p text) ∧
    ∃ text, ReadBack ((ofLayout "C@x@ s>".toList).happenAll
      [.act (.walk .backward), .endTurn, .act (.shoot .backward), .endTurn]) text :=
  have h := layouts_round_trip "C@x@ s>".toList (by decide)
  ⟨by decide, h.1, h.2 _ (by decide) (by decide)⟩

end Behaviour.Corridor
