import Behaviour.Proofs.Rendering
import Behaviour.Proofs.Strolling

/-!
# Empty corridors

In a corridor without creatures the warrior walks right until there are stairs or the corridor ends, and in the latter
case turns round and walks left. So the stairs that are reached are the next ones on the right or, if there are none,
the next ones on the left, and the way to them is known beforehand (`Route`). `empty_corridor_cleared` says that the
rounds that it takes are counted by its length, and what they are like.
-/

namespace Behaviour.Corridor

open World

variable {layout : List Char} {p q n : Nat}

/-! ## The way to the stairs -/

/-- How many rounds the way from a place takes to the next stairs on the right or, where there are none, to the wall,
back, and on to the next ones on the left. -/
inductive Route (layout : List Char) (p : Nat) : Nat → Prop
  | right {q : Nat} (hlt : p < q) (hstairs : layout[q]? = some '>')
      (hnext : ∀ j, p < j → j < q → layout[j]? ≠ some '>') : Route layout p (q - p)
  | left {q : Nat} (hnone : ∀ j, p < j → layout[j]? ≠ some '>') (hlt : q < p) (hstairs : layout[q]? = some '>')
      (hnext : ∀ j, q < j → j < p → layout[j]? ≠ some '>') :
      Route layout p ((layout.length - 1 - p) + 1 + (layout.length - 1 - q))

/-- There is a way to the stairs if there are any. -/
theorem exists_route (hmem : '>' ∈ layout) (hp : layout[p]? ≠ some '>') : ∃ n, Route layout p n := by
  by_cases hright : ∃ q, p < q ∧ layout[q]? = some '>'
  · obtain ⟨hlt, hstairs⟩ := Nat.find_spec hright
    exact ⟨_, .right hlt hstairs fun j hj hjq hat => Nat.find_min hright hjq ⟨hj, hat⟩⟩
  · have hnone : ∀ j, p < j → layout[j]? ≠ some '>' := fun j hj hat => hright ⟨j, hj, hat⟩
    obtain ⟨i, hi⟩ := List.mem_iff_getElem?.1 hmem
    have hle : i ≤ p := Nat.not_lt.1 fun hlt => hnone i hlt hi
    have hstairs := Nat.findGreatest_spec (P := fun j => layout[j]? = some '>') hle hi
    have hlt := Nat.lt_of_le_of_ne (Nat.findGreatest_le p) fun heq => hp (heq ▸ hstairs)
    exact ⟨_, .left hnone hlt hstairs fun j hj hjp => Nat.findGreatest_is_greatest hj (Nat.le_of_lt hjp)⟩

/-! ## Layouts without creatures -/

namespace World

section Nobody

variable (hnobody : ∀ c ∈ ['s', 'a', 'C'], c ∉ layout)

include hnobody

theorem deserted_ofLayout : (ofLayout layout).Deserted := by
  intro i
  rw [creatureAt?_eq_bind]
  cases hc : (ofLayout layout).cellAt? i with
  | none => rfl
  | some c =>
    obtain ⟨a, ha, rfl⟩ := List.mem_map.1 (List.mem_of_getElem? (cellAt?_eq_some hc).2)
    rw [Option.bind_some, Cell.ofChar_of_nobody fun h => hnobody a h ha]
    rfl

/-- Without creatures, a place is stairs or floor or else wall. -/
theorem spaceAt_ofLayout (i : Nat) : (ofLayout layout).spaceAt i =
    layout[i]?.elim .wall fun c => .floor (c == '>') none := by
  have hcell : (ofLayout layout).cellAt? i = layout[i]?.map Cell.ofChar := by
    rw [cellAt?_natCast]
    exact List.getElem?_map
  rw [spaceAt, hcell]
  cases hc : layout[i]? with
  | none => rfl
  | some a =>
    rw [Option.map_some, Cell.ofChar_of_nobody fun h => hnobody a h (List.mem_of_getElem? hc)]
    rfl

theorem spaceAt_ofLayout_of_stairs (hstairs : layout[q]? = some '>') :
    (ofLayout layout).spaceAt q = .floor true none := by
  rw [spaceAt_ofLayout hnobody, hstairs]
  rfl

theorem spaceAt_ofLayout_of_plain (hlt : q < layout.length) (hplain : layout[q]? ≠ some '>') :
    (ofLayout layout).spaceAt q = .floor false none := by
  rw [List.getElem?_eq_getElem hlt, Ne, Option.some.injEq] at hplain
  rw [spaceAt_ofLayout hnobody, List.getElem?_eq_getElem hlt, Option.elim_some, beq_eq_false_iff_ne.2 hplain]

theorem spaceAt_ofLayout_of_length_le (hle : layout.length ≤ q) : (ofLayout layout).spaceAt q = .wall := by
  rw [spaceAt_ofLayout hnobody, List.getElem?_eq_none hle]
  rfl

end Nobody

end World

/-! ## Both ways -/

/-- Nothing has gone wrong so far, and the game is not won yet. -/
structure OnTheWay (w : World) (status : Status) : Prop where
  status_eq : status = .success
  won_eq : w.won = false
  health_eq : w.health = 20
  rejected_eq : w.rejected = 0

/-- The game is won, and nothing has gone wrong. -/
structure Arrived (w : World) : Prop where
  won_eq : w.won = true
  health_eq : w.health = 20
  rejected_eq : w.rejected = 0

namespace World

/-- The corridor of a layout with the warrior at a place. -/
def placed (layout : List Char) (i : Nat) (f : Facing) : World := { ofLayout layout with position := i, facing := f }

theorem well_placed (layout : List Char) (i : Nat) (f : Facing) : 8 < (placed layout i f).health :=
  of_decide_eq_true rfl

theorem sense_placed_right (layout : List Char) (i k : Nat) :
    (placed layout i .right).sense .forward k = (ofLayout layout).spaceAt (i + k : Nat) :=
  sense_of_right rfl k

theorem sense_placed_left (layout : List Char) {i k : Nat} (hk : k ≤ i) :
    (placed layout i .left).sense .forward k = (ofLayout layout).spaceAt (i - k : Nat) := by
  have hplace : (placed layout i .left).ahead .forward k = (i - k : Nat) := by
    simp only [placed, ahead, Facing.toward, Facing.step]
    omega
  rw [sense, hplace]
  rfl

theorem goOn_placed_right (layout : List Char) (i k : Nat) :
    (placed layout i .right).goOn k = placed layout (i + k) .right := goOn_of_right rfl k

end World

section Ways

variable (hnobody : ∀ c ∈ ['s', 'a', 'C'], c ∉ layout)

include hnobody

theorem deserted_placed (i : Nat) (f : Facing) : (placed layout i f).Deserted := deserted_ofLayout hnobody

/-- Along free cells onto stairs. -/
theorem passes_placed {i : Nat} {f : Facing} (hfree : (placed layout i f).Free n)
    (hstairs : (placed layout i f).sense .forward (n + 1) = .floor true none) :
    ∃ w, Passes OnTheWay (.unhurt (placed layout i f)) (n + 1) (.unhurt w) ∧ Arrived w := by
  have hround : ∀ k ≤ n, OnTheWay ((placed layout i f).goOn k) .success := fun k _ => ⟨rfl, rfl, rfl, rfl⟩
  refine ⟨_, (deserted_placed hnobody i f).passes_stairs (well_placed layout i f) rfl hfree hstairs hround, ?_⟩
  exact ⟨rfl, rfl, rfl⟩

/-- The way to stairs on the right. -/
theorem passes_right (hlt : p < q) (hstairs : layout[q]? = some '>')
    (hnext : ∀ j, p < j → j < q → layout[j]? ≠ some '>') :
    ∃ w, Passes OnTheWay (.unhurt (placed layout p .right)) (q - p) (.unhurt w) ∧ Arrived w := by
  obtain ⟨n, rfl⟩ : ∃ n, q = p + (n + 1) := ⟨q - p - 1, by omega⟩
  have hinside := (List.getElem?_eq_some_iff.1 hstairs).1
  have hfree : (placed layout p .right).Free n := by
    intro k hk hkn
    rw [sense_placed_right]
    exact spaceAt_ofLayout_of_plain hnobody (by omega) (hnext (p + k) (by omega) (by omega))
  have hgoal : (placed layout p .right).sense .forward (n + 1) = .floor true none := by
    rw [sense_placed_right]
    exact spaceAt_ofLayout_of_stairs hnobody hstairs
  rw [Nat.add_sub_cancel_left]
  exact passes_placed hnobody hfree hgoal

/-- The way to stairs on the left. -/
theorem passes_left (hlt : q < p) (hinside : p < layout.length) (hstairs : layout[q]? = some '>')
    (hnext : ∀ j, q < j → j ≤ p → layout[j]? ≠ some '>') :
    ∃ w, Passes OnTheWay (.unhurt (placed layout p .left)) (p - q) (.unhurt w) ∧ Arrived w := by
  obtain ⟨n, rfl⟩ : ∃ n, p = q + (n + 1) := ⟨p - q - 1, by omega⟩
  have hfree : (placed layout (q + (n + 1)) .left).Free n := by
    intro k hk hkn
    rw [sense_placed_left layout (by omega)]
    exact spaceAt_ofLayout_of_plain hnobody (by omega) (hnext _ (by omega) (by omega))
  have hgoal : (placed layout (q + (n + 1)) .left).sense .forward (n + 1) = .floor true none := by
    rw [sense_placed_left layout (by omega), Nat.add_sub_cancel]
    exact spaceAt_ofLayout_of_stairs hnobody hstairs
  rw [Nat.add_sub_cancel_left]
  exact passes_placed hnobody hfree hgoal

/-- The way to the wall on the right, and the turn there. -/
theorem passes_wall (hinside : p < layout.length) (hnone : ∀ j, p < j → layout[j]? ≠ some '>') :
    Passes OnTheWay (.unhurt (placed layout p .right)) (layout.length - 1 - p + 1)
      (.unhurt (placed layout (layout.length - 1) .left)) := by
  obtain ⟨n, hn⟩ : ∃ n, layout.length = p + n + 1 := ⟨layout.length - 1 - p, by omega⟩
  have hdeserted := deserted_placed hnobody
  have hfree : (placed layout p .right).Free n := by
    intro k hk hkn
    rw [sense_placed_right]
    exact spaceAt_ofLayout_of_plain hnobody (by omega) (hnone (p + k) (by omega))
  have hwall : (placed layout (p + n) .right).feel .forward = .wall := by
    rw [feel, sense_placed_right]
    exact spaceAt_ofLayout_of_length_le hnobody (Nat.le_of_eq hn)
  have hwalk : Passes OnTheWay (.unhurt (placed layout p .right)) n (.unhurt (placed layout (p + n) .right)) := by
    rw [← goOn_placed_right]
    exact (hdeserted p .right).passes_free (well_placed _ _ _) rfl hfree fun k _ => ⟨rfl, rfl, rfl, rfl⟩
  have hturn : Passes OnTheWay (.unhurt (placed layout (p + n) .right)) 1 (.unhurt (placed layout (p + n) .left)) := by
    refine Passes.one ?_ ((hdeserted (p + n) .right).next_turn (well_placed _ _ _) rfl hwall)
    rw [(hdeserted (p + n) .right).clear.status_unhurt (well_placed _ _ _)]
    exact ⟨rfl, rfl, rfl, rfl⟩
  rw [hn, Nat.add_sub_cancel, Nat.add_sub_cancel_left]
  exact hwalk.trans hturn

/-- All the way. -/
theorem Route.passes (hroute : Route layout p n) (hp : layout[p]? = some '@') :
    ∃ w, Passes OnTheWay (.unhurt (placed layout p .right)) n (.unhurt w) ∧ Arrived w := by
  have hinside := (List.getElem?_eq_some_iff.1 hp).1
  cases hroute with
  | right hlt hstairs hnext => exact passes_right hnobody hlt hstairs hnext
  | @left q hnone hlt hstairs hnext =>
    have hplain : ∀ j, q < j → j ≤ layout.length - 1 → layout[j]? ≠ some '>' := by
      intro j hj _
      -- There are none on the left that are nearer, none at the start, and none on the right.
      rcases Nat.lt_trichotomy j p with hjp | rfl | hjp
      · exact hnext j hj hjp
      · rw [hp]
        decide
      · exact hnone j hjp
    obtain ⟨w, hpasses, harrived⟩ := passes_left hnobody (by omega) (by omega) hstairs hplain
    exact ⟨w, (passes_wall hnobody hinside hnone).trans hpasses, harrived⟩

end Ways

/-- In every corridor with stairs and without creatures, whose warrior starts at the last `@`. -/
theorem empty_corridor_cleared (hat : layout[p]? = some '@') (hlast : ∀ j, p < j → layout[j]? ≠ some '@')
    (hnobody : ∀ c ∈ ['s', 'a', 'C'], c ∉ layout) (hstairs : '>' ∈ layout) :
    (∃ n, Route layout p n) ∧ ∀ n, Route layout p n → (Outing.enter layout maxHealth).Leads OnTheWay n Arrived := by
  constructor
  · apply exists_route hstairs
    rw [hat]
    decide
  · intro n hroute
    have hstart : ofLayout layout = placed layout p .right := by
      rw [placed, ofLayout, lastStart?_eq_some_iff.2 ⟨hat, hlast⟩]
      rfl
    have hbegin := Outing.at_enter layout maxHealth
    change Outing.At _ (.unhurt (ofLayout layout)) at hbegin
    rw [hstart] at hbegin
    obtain ⟨w, hpasses, harrived⟩ := hroute.passes hnobody hat
    exact hbegin.leads hpasses harrived

/-- Two rounds to the wall, one to turn round, and five back to stairs that were behind the warrior. -/
theorem empty_corridor_cleared_behind : (∃ n, Route ">@ @ ?".toList 3 n) ∧
    (Outing.enter ">@ @ ?".toList maxHealth).Leads OnTheWay 8 Arrived := by
  have h := lastStart?_eq_some_iff.1 (show lastStart? ">@ @ ?".toList = some 3 by decide)
  obtain ⟨hroute, hleads⟩ := empty_corridor_cleared h.1 h.2 (by simp) (by decide)
  have hplain : ∀ j, 0 < j → (">@ @ ?".toList)[j]? ≠ some '>' := by
    intro j hj
    obtain ⟨j, rfl⟩ := Nat.exists_eq_add_one.2 hj
    exact fun hat => absurd (List.mem_of_getElem? (l := "@ @ ?".toList) hat) (by decide)
  exact ⟨hroute, hleads 8 (.left (fun j hj => hplain j (by omega)) (by decide) (by decide) fun j hj _ => hplain j hj)⟩

end Behaviour.Corridor
