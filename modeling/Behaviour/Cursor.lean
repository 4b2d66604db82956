import Behaviour.Defect

/-!
# Cursors

A place in a fixed list of items. The place and the number of items are 16-bit words, and the test for a next item
widens both first, so that it cannot wrap at the longest lists. `Cursor.Bounded` is what every step keeps: the place
is below the number of items, or the list is empty (`Bounded.advance`).
-/

namespace Behaviour

/-- A place in a fixed list of items. -/
structure Cursor (α : Type) where
  items : Array α
  index : UInt16 := 0

namespace Cursor

variable {α : Type}

/-- The number of items, as a 16-bit word. -/
def size (c : Cursor α) : UInt16 := UInt16.ofNat c.items.size

/-- Whether the place is before the last item. -/
def hasNext (c : Cursor α) : Bool := c.index.toUInt32 + 1 < c.size.toUInt32

/-- The item at the place; a list whose length counts as zero has none. -/
def current (c : Cursor α) : Except Fault α :=
  match c.items[c.index.toNat]? with
  | some a => if c.size = 0 then .error .emptyCursor else .ok a
  | none => .error .emptyCursor

/-- One step on, with the answer whether there was a next item; at the last item the place stays. -/
def advance (c : Cursor α) : Bool × Cursor α :=
  if c.hasNext then (true, { c with index := c.index + 1 }) else (false, c)

/-- Back to the first item. -/
def reset (c : Cursor α) : Cursor α := { c with index := 0 }

/-- `n` steps on, with the answer of the last one (`false` if there was none). -/
def advanceBy : Nat → Cursor α → Bool × Cursor α
  | 0, c => (false, c)
  | 1, c => c.advance
  | n + 2, c => advanceBy (n + 1) c.advance.2

/-! ## Places stay in range -/

/-- The list is no longer than a 16-bit word counts, and the place is one of its places. -/
structure Bounded (c : Cursor α) : Prop where
  size_lt : c.items.size < UInt16.size
  index_lt : c.index.toNat < max c.items.size 1

@[simp] theorem items_advance (c : Cursor α) : c.advance.2.items = c.items := by
  unfold advance; split <;> rfl

@[simp] theorem size_advance (c : Cursor α) : c.advance.2.size = c.size := by rw [size, items_advance, size]

/-- A step finds a next item exactly if there is one. -/
theorem fst_advance (c : Cursor α) : c.advance.1 = c.hasNext := by
  unfold advance
  cases c.hasNext <;> rfl

/-- A list that a 16-bit word can count is counted exactly. -/
theorem toNat_size {c : Cursor α} (h : c.items.size < UInt16.size) : c.size.toNat = c.items.size := by
  rw [size, UInt16.toNat_ofNat', Nat.mod_eq_of_lt h]

/-- The widened sum does not wrap, at whatever place. -/
theorem hasNext_iff_lt_size (c : Cursor α) : c.hasNext = true ↔ c.index.toNat + 1 < c.size.toNat := by
  have hsum : (c.index.toUInt32 + 1).toNat = c.index.toNat + 1 := by
    have hindex := c.index.toNat_lt
    rw [UInt32.toNat_add, UInt16.toNat_toUInt32, UInt32.toNat_one]
    omega
  rw [hasNext, decide_eq_true_eq, UInt32.lt_iff_toNat_lt, hsum, UInt16.toNat_toUInt32]

/-- A step that finds a next item leads to the next place, which is below the size and no wrapped one. -/
theorem lt_size_of_moved {c : Cursor α} (h : c.advance.1 = true) :
    c.advance.2.index.toNat = c.index.toNat + 1 ∧ c.index.toNat + 1 < c.size.toNat := by
  rw [fst_advance] at h
  have hlt := (hasNext_iff_lt_size c).1 h
  have hword := c.size.toNat_lt
  refine ⟨?_, hlt⟩
  rw [advance, if_pos h, UInt16.toNat_add, UInt16.toNat_one]
  omega

/-- There is a next item exactly when the next place is below the number of items. -/
theorem hasNext_iff {c : Cursor α} (h : c.Bounded) : c.hasNext = true ↔ c.index.toNat + 1 < c.items.size := by
  rw [hasNext_iff_lt_size, toNat_size h.size_lt]

/-- The item at a place of a list that a 16-bit word can count. -/
theorem current_eq_ok {c : Cursor α} {a : α} (h : c.items.size < UInt16.size) (ha : c.items[c.index.toNat]? = some a) :
    c.current = .ok a := by
  have hpos : c.items.size ≠ 0 := by
    have := (Array.getElem?_eq_some_iff.1 ha).1
    omega
  have hsize : c.size ≠ 0 := by
    intro h₀
    have := congrArg UInt16.toNat h₀
    rw [toNat_size h] at this
    exact hpos this
  unfold current
  rw [ha]
  exact if_neg hsize

/-- At the last item a cursor stays. -/
theorem advance_of_last {c : Cursor α} (h : c.Bounded) (hlast : c.items.size ≤ c.index.toNat + 1) :
    c.advance = (false, c) := by
  have hn : ¬ c.hasNext = true := fun hn => by
    have := (hasNext_iff h).1 hn
    omega
  unfold advance
  rw [if_neg hn]

/-- Before the last item a cursor goes on to the next one. -/
theorem advance_of_next {c : Cursor α} (h : c.Bounded) (hnext : c.index.toNat + 1 < c.items.size) :
    c.advance.1 = true ∧ c.advance.2.index.toNat = c.index.toNat + 1 := by
  have hmoved : c.advance.1 = true := by
    rw [fst_advance]
    exact (hasNext_iff h).2 hnext
  exact ⟨hmoved, (lt_size_of_moved hmoved).1⟩

theorem Bounded.advance {c : Cursor α} (h : c.Bounded) : c.advance.2.Bounded := by
  by_cases hnext : c.index.toNat + 1 < c.items.size
  · refine ⟨by simpa using h.size_lt, ?_⟩
    rw [(advance_of_next h hnext).2, items_advance]
    omega
  · rw [advance_of_last h (Nat.not_lt.1 hnext)]
    exact h

end Cursor

end Behaviour
