import Behaviour.Cursor
import Behaviour.Tree

/-!
# Play in place

A tree can be played without being grown first: in an *arena*, a row of slots that holds every draft with its
progress. Play goes from slot to slot by handles, moves the cursor of a slot with the operations of `Cursor`, and
overwrites memories. Nothing guarantees that this works. A handle may name no slot, a cursor may stand at no child, a
leaf may have nothing to do: each of these is looked for where play relies on it and stops play with a `Snag`. Where
handles go round in a circle, play has no end, and no answer.

A piece of play is a computation on arenas (`Play`); what had happened by the time play was stopped can still be read
off the arena that it was stopped in. `Play.Yields` says that it ends with a result.
-/

namespace Behaviour

variable {κ σ α β : Type}

/-! ## Arenas -/

/-- What stops play. -/
inductive Snag where
  /-- The tree has a defect. -/
  | invalidTree
  /-- A handle names no slot. -/
  | strayHandle
  /-- A leaf has nothing to do. -/
  | idleLeaf
  /-- A composite has no children. -/
  | emptyComposite
  /-- A cursor that stands at no child was asked for its child. -/
  | emptyCursor
  /-- A decorator has no child, or more than one. -/
  | notOneChild
  /-- A decorator has no test to ask. -/
  | missingTest
  deriving DecidableEq

/-- A draft with its progress. -/
structure Slot (κ σ : Type) where
  draft : Draft κ σ
  /-- The place among the children, if play has started at one. -/
  cursor : Option (Cursor Nat) := none
  memory : Memory := {}

/-- The slots of a tree, and what play has told so far. -/
structure Arena (κ σ : Type) where
  slots : List (Slot κ σ)
  root : Int
  defect : Option Defect
  lastStatus : Status := .failure
  ticks : UInt32 := 0
  /-- Everything that has happened in play, in order. -/
  log : List (Event κ σ) := []

/-- What inspection shows of the progress of a slot. -/
def Slot.progress (s : Slot κ σ) : Progress := ⟨s.cursor.map fun c => c.index.toNat, s.memory⟩

def Slot.reset (s : Slot κ σ) : Slot κ σ := { s with cursor := none, memory := {} }

/-! ## Pieces of play -/

/-- A computation on arenas. It may be stopped, and it may have no end. -/
abbrev Play (κ σ α : Type) := ExceptT Snag (StateT (Arena κ σ) Option) α

namespace Play

/-- Play ends, with a value and in an arena. -/
def Yields (x : Play κ σ α) (a : Arena κ σ) (v : α) (a' : Arena κ σ) : Prop := x.run.run a = some (.ok v, a')

/-- Play is stopped in an arena. -/
def Stops (x : Play κ σ α) (a : Arena κ σ) (s : Snag) (a' : Arena κ σ) : Prop := x.run.run a = some (.error s, a')

def fetch (h : Nat) : Play κ σ (Slot κ σ) := do
  match (← get).slots[h]? with
  | some s => return s
  | none => throw .strayHandle

def adjust (h : Nat) (f : Slot κ σ → Slot κ σ) : Play κ σ Unit :=
  modify fun a => { a with slots := a.slots.modify h f }

def note (es : List (Event κ σ)) : Play κ σ Unit := modify fun a => { a with log := a.log ++ es }

end Play

open Play

namespace Arena

/-! ## Leaves -/

def perform (label : Label) (act : Option (Act κ σ)) (scene : Scene κ σ) : Play κ σ (Status × Scene κ σ) :=
  match act with
  | none => throw .idleLeaf
  | some act => do
    let answer := act scene
    note [.acted label answer.1]
    return answer

/-! ## Composites -/

/-- A composite that has no cursor yet, or does not keep its place, starts at its first child. -/
def prepare (h : Nat) (keep : Bool) : Play κ σ Unit := do
  let s ← fetch h
  if s.draft.children.isEmpty then throw .emptyComposite
  else if s.cursor.isNone || !keep then
    adjust h fun slot => { slot with cursor := some { items := s.draft.children.toArray } }
  else return

/-- The child at which the cursor of a composite stands. -/
def currentChild (h : Nat) : Play κ σ Nat := do
  let s ← fetch h
  match s.cursor.map Cursor.current with
  | some (.ok child) => return child
  | _ => throw .emptyCursor

/-- Moves the cursor of a composite to the next child, with the answer whether there was one. -/
def advance (h : Nat) : Play κ σ Bool := do
  let s ← fetch h
  match s.cursor with
  | some c =>
    adjust h fun slot => { slot with cursor := some c.advance.2 }
    return c.advance.1
  | none => throw .emptyCursor

def rewind (h : Nat) : Play κ σ Unit := adjust h fun slot => { slot with cursor := slot.cursor.map Cursor.reset }

/-! ## Decorators -/

def onlyChild (s : Slot κ σ) : Play κ σ Nat :=
  match s.draft.children with
  | [child] => return child
  | _ => throw .notOneChild

/-- A decorator opens: the scene that its child is given. -/
def enter (h : Nat) (wrap : Decorator κ σ) (scene : Scene κ σ) : Play κ σ (Scene κ σ) := do
  let s ← fetch h
  let o := wrap.enter ⟨h, s.draft.name⟩ s.memory scene
  adjust h fun slot => { slot with memory := o.memory }
  note o.log
  return o.scene

/-- A decorator closes: what it makes of the status of its child. -/
def leave (h : Nat) (wrap : Decorator κ σ) (outer : Scene κ σ) (raw : Status × Scene κ σ) :
    Play κ σ (Status × Scene κ σ) := do
  let s ← fetch h
  let c := wrap.leave ⟨h, s.draft.name⟩ s.memory raw.1 (wrap.restore outer raw.2)
  adjust h fun slot => { slot with memory := c.memory }
  note c.log
  return (c.status, c.scene)

end Arena

/-! ## Visits -/

mutual
/-- One visit of the slot that a handle names. -/
def Scene.visit (h : Nat) (scene : Scene κ σ) : Play κ σ (Status × Scene κ σ) := do
  let s ← fetch h
  let answer ← (
    match s.draft.role with
    | .leaf act => Arena.perform ⟨h, s.draft.name⟩ act scene
    | .composite rule keep => do
      Arena.prepare h keep
      scene |>.scan rule h
    | .decorator wrap => do
      let child ← Arena.onlyChild s
      match wrap with
      | none => throw .missingTest
      | some wrap => do
        let inner ← Arena.enter h wrap scene
        let raw ← inner |>.visit child
        Arena.leave h wrap scene raw)
  note [.finished ⟨h, s.draft.name⟩ s.draft.role.kind answer.1 answer.2]
  return answer
partial_fixpoint

/-- Visits of children of a composite, from the cursor on, as long as the rule goes on. -/
def Scene.scan (rule : Rule) (h : Nat) (scene : Scene κ σ) : Play κ σ (Status × Scene κ σ) := do
  let child ← Arena.currentChild h
  let answer ← scene |>.visit child
  if answer.1 = rule.onward then do
    if ← Arena.advance h then answer.2 |>.scan rule h
    else do
      Arena.rewind h
      return answer
  else if answer.1 = .running then return answer
  else do
    Arena.rewind h
    return answer
partial_fixpoint
end

namespace Arena

/-! ## Ticks and resets -/

/-- The drafts of a builder laid out for play below a root. -/
def freeze (b : Builder κ σ) (root : Int) : Arena κ σ where
  slots := b.drafts.map fun d => { draft := d }
  root := root
  defect := b.check root

def tick (scene : Scene κ σ) : Play κ σ (Status × Scene κ σ) := do
  let a ← get
  if a.defect.isSome then throw .invalidTree
  else do
    modify fun a => { a with ticks := a.ticks + 1 }
    if a.root < 0 then throw .strayHandle
    else do
      let answer ← scene.visit a.root.toNat
      modify fun a => { a with lastStatus := answer.1 }
      return answer

/-- All progress forgotten; the count of ticks stays. -/
def reset (a : Arena κ σ) : Arena κ σ := { a with slots := a.slots.map Slot.reset, lastStatus := .failure }

/-- The progress in the slot that a handle names; where there is no slot, there is none. -/
def progressOf (a : Arena κ σ) (h : Nat) : Progress := (a.slots[h]?.map Slot.progress).getD {}

end Arena

/-! ## Runs -/

/-- What a caller can do with a tree, in any order: tick it in a scene of its choice, or reset it. -/
inductive Command (κ σ : Type) where
  | tick (scene : Scene κ σ)
  | reset

/-- Several commands in order, in place, with the answers of the ticks. -/
def Arena.play : List (Command κ σ) → Play κ σ (List (Status × Scene κ σ))
  | [] => return []
  | .tick scene :: cs => do
    let answer ← tick scene
    let answers ← play cs
    return answer :: answers
  | .reset :: cs => do
    modify reset
    play cs

/-- Several commands in order, on a tree, with the turns of the ticks. -/
def Tree.play (t : Tree κ σ) : List (Command κ σ) → Except Fault (List (Turn κ σ) × Tree κ σ)
  | [] => .ok ([], t)
  | .tick scene :: cs => do
    let turn ← t.tick scene
    let (turns, t) ← turn.tree.play cs
    return (turn :: turns, t)
  | .reset :: cs => t.reset.play cs

/-! ## Putting pieces together -/

namespace Play

variable {a a₁ a₂ : Arena κ σ} {s : Slot κ σ} {h : Nat}

theorem yields_pure (v : α) (a : Arena κ σ) : (pure v : Play κ σ α).Yields a v a := rfl

theorem yields_get (a : Arena κ σ) : (get : Play κ σ (Arena κ σ)).Yields a a a := rfl

theorem yields_modify (f : Arena κ σ → Arena κ σ) (a : Arena κ σ) :
    (modify f : Play κ σ Unit).Yields a () (f a) := rfl

theorem yields_adjust (h : Nat) (f : Slot κ σ → Slot κ σ) (a : Arena κ σ) :
    (adjust h f).Yields a () { a with slots := a.slots.modify h f } := rfl

theorem yields_note (es : List (Event κ σ)) (a : Arena κ σ) :
    (note es).Yields a () { a with log := a.log ++ es } := rfl

/-- Play that ends goes on with what follows it. -/
theorem Yields.bind {x : Play κ σ α} {f : α → Play κ σ β} {v : α} {w : β} (hx : x.Yields a v a₁)
    (hf : (f v).Yields a₁ w a₂) : (x >>= f).Yields a w a₂ := by
  unfold Yields at *
  simp only [ExceptT.run_bind, StateT.run_bind, hx]
  exact hf

/-- Play that ends with what follows it has ended before that. -/
theorem Yields.exists_of_bind {x : Play κ σ α} {f : α → Play κ σ β} {w : β} (h : (x >>= f).Yields a w a₂) :
    ∃ v a₁, x.Yields a v a₁ ∧ (f v).Yields a₁ w a₂ := by
  unfold Yields at *
  simp only [ExceptT.run_bind, StateT.run_bind] at h
  obtain ⟨⟨r, a₁⟩, hx, hrest⟩ := Option.bind_eq_some_iff.1 h
  cases r with
  | ok v => exact ⟨v, a₁, hx, hrest⟩
  | error e => cases hrest

/-- Play ends in one way at most. -/
theorem Yields.unique {x : Play κ σ α} {v w : α} (h : x.Yields a v a₁) (h' : x.Yields a w a₂) : v = w ∧ a₁ = a₂ := by
  unfold Yields at *
  rw [h] at h'
  cases h'
  exact ⟨rfl, rfl⟩

/-- What follows play that ends. -/
theorem Yields.rest {x : Play κ σ α} {f : α → Play κ σ β} {v : α} {w : β} (hx : x.Yields a v a₁)
    (h : (x >>= f).Yields a w a₂) : (f v).Yields a₁ w a₂ := by
  obtain ⟨v', a', hx', hrest⟩ := h.exists_of_bind
  obtain ⟨rfl, rfl⟩ := hx.unique hx'
  exact hrest

/-- Play that is stopped is stopped for good. -/
theorem Stops.bind {x : Play κ σ α} {f : α → Play κ σ β} {e : Snag} (hx : x.Stops a e a₁) :
    (x >>= f).Stops a e a₁ := by
  unfold Stops at *
  simp only [ExceptT.run_bind, StateT.run_bind, hx]
  rfl

/-- Play that ends is stopped where what follows it is stopped. -/
theorem Yields.bind_stops {x : Play κ σ α} {f : α → Play κ σ β} {v : α} {e : Snag} (hx : x.Yields a v a₁)
    (hf : (f v).Stops a₁ e a₂) : (x >>= f).Stops a e a₂ := by
  unfold Stops Yields at *
  simp only [ExceptT.run_bind, StateT.run_bind, hx]
  exact hf

theorem yields_fetch (hs : a.slots[h]? = some s) : (fetch h).Yields a s a := by
  unfold fetch
  refine (yields_get a).bind ?_
  rw [hs]
  rfl

end Play

end Behaviour
