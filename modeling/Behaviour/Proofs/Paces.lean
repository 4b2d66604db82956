import Behaviour.Cursor

/-!
# Cursors keep their place

Where a cursor stands, and all that it answers, follows from the number of steps since the last reset (`paces`). It is
*paced* if it stands where so many steps lead, at the last item if there are not that many (`Paced`): each use keeps
that (`Paced.use`), hence every sequence of uses (`Paced.useAll`), and steps taken at once count as many
(`Paced.advanceBy`). The only use that is ever refused is to ask for the item of an empty list (`useAll_of_empty`).

From wherever it stands a cursor leads through the rest of its items (`Bounded.traverse`). The loop has an end because a
step that moves a cursor takes it closer to the end of its list, however long that is (`Cursor.lt_size_of_moved`).

`cursor_keeps_place` puts these together.
-/

namespace Behaviour

namespace Cursor

variable {α : Type}

/-! ## Uses -/

/-- What a cursor is used for. -/
inductive Use where
  | advance
  | reset
  | hasNext
  | current
  deriving DecidableEq

/-- What it answers. -/
inductive Answer (α : Type) where
  | done
  | verdict (b : Bool)
  | item (a : α)
  deriving DecidableEq

def use (c : Cursor α) : Use → Except Fault (Answer α × Cursor α)
  | .advance => .ok (.verdict c.advance.1, c.advance.2)
  | .reset => .ok (.done, c.reset)
  | .hasNext => .ok (.verdict c.hasNext, c)
  | .current => c.current.map fun a => (.item a, c)

/-- The answers to several uses in order, and the cursor after them. -/
def useAll (c : Cursor α) : List Use → Except Fault (List (Answer α) × Cursor α)
  | [] => .ok ([], c)
  | u :: us => do
    let (answer, c) ← c.use u
    let (answers, c) ← c.useAll us
    return (answer :: answers, c)

/-- The number of steps since the last reset, or since the beginning. -/
def paces (us : List Use) : Nat := (us.reverse.takeWhile fun u => u ≠ .reset).count .advance

/-- The answer to a use that comes after others; there is none to what is refused. -/
def answer? (items : Array α) (before : List Use) : Use → Option (Answer α)
  | .advance => some (.verdict (decide (paces (before ++ [.advance]) < items.size)))
  | .reset => some .done
  | .hasNext => some (.verdict (decide (paces before + 1 < items.size)))
  | .current => items[min (paces before) (max items.size 1 - 1)]?.map .item

variable {c c' : Cursor α} {items : Array α} {k : Nat} {before us : List Use} {u : Use} {answer : Answer α}

theorem paces_concat (us : List Use) (u : Use) : paces (us ++ [u]) =
    match u with
    | .advance => paces us + 1
    | .reset => 0
    | .hasNext | .current => paces us := by
  rw [paces, List.reverse_append, List.reverse_singleton, List.singleton_append, List.takeWhile_cons]
  cases u with
  | advance => exact List.count_cons_self
  | reset => rfl
  | hasNext | current => exact List.count_cons_of_ne (by decide)

theorem useAll_cons (h : c.use u = .ok (answer, c')) (us : List Use) :
    c.useAll (u :: us) = (c'.useAll us).map fun r => (answer :: r.1, r.2) := by
  rw [useAll, h]
  change (c'.useAll us >>= fun r => pure (answer :: r.1, r.2)) = _
  cases c'.useAll us <;> rfl

/-- The item of an empty list is refused, and so is everything after it. -/
theorem useAll_of_empty (hempty : c.items.size = 0) (hcurrent : .current ∈ us) :
    c.useAll us = .error .emptyCursor := by
  induction us generalizing c with
  | nil => cases hcurrent
  | cons u us ih =>
    -- A use other than that one changes no items.
    have hrest : ∀ {answer c'}, c.use u = .ok (answer, c') → c'.items = c.items → .current ∈ us →
        c.useAll (u :: us) = .error .emptyCursor := by
      intro answer c' huse hitems hmem
      rw [useAll_cons huse, ih (by rw [hitems, hempty]) hmem]
      rfl
    have hlater : u ≠ .current → .current ∈ us := fun hu => (List.mem_cons.1 hcurrent).resolve_left hu.symm
    cases u with
    | advance => exact hrest rfl (items_advance c) (hlater (by decide))
    | reset => exact hrest rfl rfl (hlater (by decide))
    | hasNext => exact hrest rfl rfl (hlater (by decide))
    | current =>
      have hnone : c.items[c.index.toNat]? = none := Array.getElem?_eq_none (by omega)
      have hrefused : c.current = .error .emptyCursor := by rw [current, hnone]
      rw [useAll, use, hrefused]
      rfl

/-! ## Paces -/

/-- Unless the list is empty, there is an item at the place. -/
theorem Bounded.current (h : c.Bounded) (hpos : 0 < c.items.size) :
    ∃ a, c.items[c.index.toNat]? = some a ∧ c.current = .ok a := by
  have hlt : c.index.toNat < c.items.size := by
    have := h.index_lt
    omega
  have hitem := Array.getElem?_eq_getElem hlt
  exact ⟨c.items[c.index.toNat], hitem, current_eq_ok h.size_lt hitem⟩

/-- The cursor stands where `k` steps from the first item lead. -/
structure Paced (c : Cursor α) (items : Array α) (k : Nat) : Prop where
  items_eq : c.items = items
  index_eq : c.index.toNat = min k (max items.size 1 - 1)

namespace Paced

theorem start (items : Array α) : ({ items } : Cursor α).Paced items 0 := ⟨rfl, (Nat.zero_min _).symm⟩

section

variable (hsize : items.size < UInt16.size) (h : c.Paced items k)
include h

theorem reset : c.reset.Paced items 0 := ⟨h.items_eq, (Nat.zero_min _).symm⟩

include hsize

theorem bounded : c.Bounded := by
  obtain ⟨rfl, hindex⟩ := h
  exact ⟨hsize, by omega⟩

theorem hasNext_iff : c.hasNext = true ↔ k + 1 < items.size := by
  have hbounded := h.bounded hsize
  obtain ⟨rfl, hindex⟩ := h
  rw [Cursor.hasNext_iff hbounded, hindex]
  omega

theorem current (hpos : 0 < items.size) :
    ∃ a, items[min k (max items.size 1 - 1)]? = some a ∧ c.current = .ok a := by
  have hbounded := h.bounded hsize
  obtain ⟨rfl, hindex⟩ := h
  rw [← hindex]
  exact hbounded.current hpos

/-- A step counts, whether or not it finds a next item. -/
theorem advance : c.advance.2.Paced items (k + 1) ∧ c.advance.1 = decide (k + 1 < items.size) := by
  have hbounded := h.bounded hsize
  obtain ⟨rfl, hindex⟩ := h
  by_cases hnext : k + 1 < c.items.size
  · obtain ⟨hmoved, hplace⟩ := advance_of_next hbounded (by omega)
    exact ⟨⟨items_advance c, by omega⟩, by rw [hmoved, decide_eq_true hnext]⟩
  · rw [advance_of_last hbounded (by omega)]
    refine ⟨⟨rfl, ?_⟩, (decide_eq_false hnext).symm⟩
    change c.index.toNat = min (k + 1) (max c.items.size 1 - 1)
    omega

end

/-- Whatever a cursor is used for, it is answered as the uses before tell, and the uses up to then tell its place. -/
theorem use (hsize : items.size < UInt16.size) (h : c.Paced items (paces before)) (u : Use)
    (hserved : items.size = 0 → u ≠ .current) :
    ∃ answer c', c.use u = .ok (answer, c') ∧ answer? items before u = some answer ∧
      c'.Paced items (paces (before ++ [u])) := by
  cases u with
  | advance =>
    obtain ⟨hplace, hmoved⟩ := h.advance hsize
    refine ⟨_, _, rfl, ?_, ?_⟩
    · rw [answer?, paces_concat, hmoved]
    · rw [paces_concat]
      exact hplace
  | reset => exact ⟨_, _, rfl, rfl, by rw [paces_concat]; exact h.reset⟩
  | hasNext =>
    refine ⟨_, _, rfl, ?_, by rw [paces_concat]; exact h⟩
    rw [answer?, Bool.eq_iff_iff.2 ((h.hasNext_iff hsize).trans decide_eq_true_iff.symm)]
  | current =>
    have hpos : 0 < items.size := Nat.pos_of_ne_zero fun hempty => hserved hempty rfl
    obtain ⟨a, ha, hcurrent⟩ := h.current hsize hpos
    refine ⟨.item a, c, ?_, ?_, by rw [paces_concat]; exact h⟩
    · rw [Cursor.use, hcurrent]
      rfl
    · rw [answer?, ha]
      rfl

theorem useAll (hsize : items.size < UInt16.size) (h : c.Paced items (paces before))
    (hserved : items.size = 0 → .current ∉ us) :
    ∃ answers c', c.useAll us = .ok (answers, c') ∧ answers.length = us.length ∧
      (∀ i u, us[i]? = some u → answers[i]? = answer? items (before ++ us.take i) u) ∧
      c'.Paced items (paces (before ++ us)) := by
  induction us generalizing c before with
  | nil => exact ⟨[], c, rfl, rfl, fun i u hu => by simp at hu, by rwa [List.append_nil]⟩
  | cons u us ih =>
    have hfirst : items.size = 0 → u ≠ .current := fun he hu => hserved he (hu ▸ List.mem_cons_self)
    obtain ⟨answer, c₁, huse, hanswer, hpaced⟩ := h.use hsize u hfirst
    obtain ⟨answers, c₂, hrest, hlength, hanswers, hpaced⟩ :=
      ih hpaced fun he hmem => hserved he (List.mem_cons_of_mem _ hmem)
    refine ⟨answer :: answers, c₂, ?_, congrArg (· + 1) hlength, fun i v hv => ?_, ?_⟩
    · rw [useAll_cons huse, hrest]
      rfl
    · cases i with
      | zero =>
        obtain rfl : u = v := Option.some.inj hv
        rw [List.take_zero, List.append_nil, hanswer]
        rfl
      | succ i =>
        rw [List.take_succ_cons, List.append_cons]
        exact hanswers i v hv
    · rwa [List.append_cons]

end Paced

/-! ## Several steps at once -/

theorem advanceBy_succ : ∀ (j : Nat) (c : Cursor α), advanceBy (j + 1) c = (advanceBy j c).2.advance
  | 0, _ => rfl
  | 1, _ => rfl
  | j + 2, c => advanceBy_succ (j + 1) c.advance.2

theorem Paced.advanceBy (hsize : items.size < UInt16.size) (h : c.Paced items k) :
    ∀ j, (Cursor.advanceBy j c).2.Paced items (k + j)
  | 0 => h
  | j + 1 => by
    rw [advanceBy_succ]
    exact ((Paced.advanceBy hsize h j).advance hsize).1

/-! ## The loop through the items -/

/-- The items that a loop meets which takes the current item and steps on for as long as that moves the cursor, and the
cursor after it. -/
def traverse (c : Cursor α) : Except Fault (List α × Cursor α) :=
  match c.current with
  | .error e => .error e
  | .ok a =>
    if c.advance.1 then c.advance.2.traverse.map fun (as, c') => (a :: as, c')
    else .ok ([a], c.advance.2)
termination_by c.size.toNat - c.index.toNat
decreasing_by
  obtain ⟨hplace, hlt⟩ := lt_size_of_moved (c := c) ‹_›
  rw [size_advance]
  omega

/-- The item at the place and those after the place make up the items from the place on. -/
theorem Bounded.drop_index {a : α} (h : c.Bounded) (hpos : 0 < c.items.size) (ha : c.current = .ok a) :
    c.items.toList.drop c.index.toNat = a :: c.items.toList.drop (c.index.toNat + 1) := by
  obtain ⟨b, hb, hcurrent⟩ := h.current hpos
  obtain rfl : b = a := Except.ok.inj (hcurrent.symm.trans ha)
  obtain ⟨hlt, rfl⟩ := Array.getElem?_eq_some_iff.1 hb
  exact List.drop_eq_getElem_cons hlt

/-- The loop meets the items from the place of the cursor on, in order and each once, and ends at the last one. -/
theorem Bounded.traverse (h : c.Bounded) (hpos : 0 < c.items.size) :
    ∃ c', c.traverse = .ok (c.items.toList.drop c.index.toNat, c') ∧ c'.items = c.items ∧
      c'.index.toNat + 1 = c.items.size := by
  -- Each round of the loop takes the first one off the items from the place on.
  fun_induction Cursor.traverse c with
  | case1 c e hrefused =>
    obtain ⟨a, -, hcurrent⟩ := h.current hpos
    rw [hcurrent] at hrefused
    cases hrefused
  | case2 c a hcurrent hmoved ih =>
    obtain ⟨c', hrest, hitems, hlast⟩ := ih h.advance (by rwa [items_advance])
    rw [items_advance, (lt_size_of_moved hmoved).1] at hrest
    rw [items_advance] at hitems hlast
    refine ⟨c', ?_, hitems, hlast⟩
    rw [hrest, h.drop_index hpos hcurrent]
    rfl
  | case3 c a hcurrent hstayed =>
    have hlast : c.items.size ≤ c.index.toNat + 1 :=
      Nat.not_lt.1 fun hnext => hstayed (advance_of_next h hnext).1
    rw [h.drop_index hpos hcurrent, advance_of_last h hlast, List.drop_of_length_le hlast]
    have := h.index_lt
    exact ⟨c, rfl, rfl, by omega⟩

/-! ## All together -/

/-- What holds of a cursor wherever it stands. -/
structure Steady (c : Cursor α) : Prop where
  index_lt : c.index.toNat < max c.items.size 1
  /-- A step that moves the cursor takes it to the next place and does not wrap. -/
  moved : c.advance.1 = true → c.advance.2.index.toNat = c.index.toNat + 1
  stayed : c.advance.1 = false → c.advance.2 = c
  /-- There is a next item exactly when one more step moves the cursor. -/
  hasNext_iff : c.hasNext = true ↔ c.advance.2.index ≠ c.index
  /-- So many steps after a reset lead so far, at most to the last item. -/
  advanceBy : ∀ j, (advanceBy j c.reset).2.index.toNat = min j (max c.items.size 1 - 1)
  /-- The last of them finds a next item exactly if there are more items than steps. -/
  moves_iff : ∀ j, 0 < j → ((Cursor.advanceBy j c.reset).1 = true ↔ j < c.items.size)
  current : 0 < c.items.size → ∃ a, c.items[c.index.toNat]? = some a ∧ c.current = .ok a
  /-- The loop from here on meets each item from here on once and in order. -/
  traverse : 0 < c.items.size → ∃ c', c.traverse = .ok (c.items.toList.drop c.index.toNat, c') ∧
    c'.items = c.items ∧ c'.index.toNat + 1 = c.items.size

theorem Bounded.steady (h : c.Bounded) : c.Steady := by
  have hpaced : ∀ j, (Cursor.advanceBy j c.reset).2.Paced c.items j := fun j => by
    have hsteps := Paced.advanceBy h.size_lt (.start c.items) j
    rwa [Nat.zero_add] at hsteps
  constructor
  case index_lt => exact h.index_lt
  case moved => exact fun hmoved => (lt_size_of_moved hmoved).1
  case stayed =>
    intro hstayed
    rw [fst_advance] at hstayed
    rw [Cursor.advance, if_neg (ne_true_of_eq_false hstayed)]
  case hasNext_iff =>
    rw [Cursor.hasNext_iff h]
    by_cases hnext : c.index.toNat + 1 < c.items.size
    · have hplace := (advance_of_next h hnext).2
      refine iff_of_true hnext fun heq => ?_
      rw [heq] at hplace
      omega
    · rw [advance_of_last h (Nat.not_lt.1 hnext)]
      exact iff_of_false hnext fun hne => hne rfl
  case advanceBy => exact fun j => (hpaced j).index_eq
  case moves_iff =>
    intro j hj
    obtain ⟨i, rfl⟩ := Nat.exists_eq_add_one.2 hj
    rw [advanceBy_succ, ((hpaced i).advance h.size_lt).2, decide_eq_true_iff]
  case current => exact h.current
  case traverse => exact h.traverse

/-- What uses of a new cursor come to. -/
structure KeepsPlace (items : Array α) (us : List Use) : Prop where
  /-- Where there are no items, asking for one ends it all. -/
  refused : items.size = 0 → .current ∈ us → useAll { items } us = .error .emptyCursor
  /-- Otherwise each use is answered as those before it tell, and all of them tell where the cursor stands. -/
  answered : (items.size = 0 → .current ∉ us) → ∃ answers c, useAll { items } us = .ok (answers, c) ∧
    answers.length = us.length ∧ (∀ i u, us[i]? = some u → answers[i]? = answer? items (us.take i) u) ∧
    c.Paced items (paces us) ∧ c.Steady

end Cursor

open Cursor

/-- For every list that a 16-bit word can count, the empty one included, and all uses of a cursor in it. -/
theorem cursor_keeps_place {α : Type} (items : Array α) (hsize : items.size < UInt16.size) (us : List Use) :
    KeepsPlace items us where
  refused hempty := useAll_of_empty hempty
  answered hserved := by
    have hstart : ({ items } : Cursor α).Paced items (paces []) := .start items
    obtain ⟨answers, c, hall, hlength, hanswers, hpaced⟩ := hstart.useAll hsize hserved
    exact ⟨answers, c, hall, hlength, hanswers, hpaced, (hpaced.bounded hsize).steady⟩

/-- The longest list there is. -/
theorem cursor_keeps_place_longest : (Array.range 65535).size < UInt16.size ∧
    KeepsPlace (Array.range 65535) [.advance, .current, .reset, .hasNext] :=
  ⟨by rw [Array.size_range]; decide, cursor_keeps_place _ (by rw [Array.size_range]; decide) _⟩

example : (useAll { items := #[4, 7] } [.advance, .advance, .current, .reset, .hasNext]).map Prod.fst =
    .ok [.verdict true, .verdict false, .item 7, .done, .verdict true] := by rfl

end Behaviour
