import Behaviour.Draft

/-!
# Builders

A builder collects drafts of nodes and wires them together. It has room for a fixed number of nodes. A step that
cannot be done changes no draft; it only leaves its defect behind, and of several defects the builder keeps the
first (`record`, `defect_record`). A node gets at most one parent and never itself (`attachDefect?`).
-/

namespace Behaviour

/-- Drafts of nodes, the number of nodes that there is room for, and the first thing that went wrong. -/
structure Builder (κ σ : Type) where
  capacity : Nat
  drafts : List (Draft κ σ) := []
  defect : Option Defect := none

variable {κ σ : Type}

namespace Builder

/-! ## Looking -/

def size (b : Builder κ σ) : Nat := b.drafts.length

/-- The draft that a handle names. -/
def draft? (b : Builder κ σ) (h : Int) : Option (Draft κ σ) := if h < 0 then none else b.drafts[h.toNat]?

/-- Whether a handle names a draft. -/
def isValid (b : Builder κ σ) (h : Int) : Bool := (b.draft? h).isSome

theorem isValid_iff (b : Builder κ σ) (h : Int) : b.isValid h = true ↔ 0 ≤ h ∧ h < b.size := by
  unfold isValid draft? size
  split
  · exact ⟨nofun, fun h' => by omega⟩
  · simp only [Option.isSome_iff_ne_none, ne_eq, List.getElem?_eq_none_iff]
    omega

def inspect (b : Builder κ σ) (h : Int) : Except Fault Draft.Profile :=
  match b.draft? h with
  | some d => .ok d.profile
  | none => .error .noSuchDraft

/-! ## Defects -/

/-- Keeps a defect, unless an earlier one is kept already. -/
def record (b : Builder κ σ) (d : Defect) : Builder κ σ := { b with defect := b.defect.or (some d) }

@[simp] theorem drafts_record (b : Builder κ σ) (d : Defect) : (b.record d).drafts = b.drafts := rfl

/-- The first defect wins. -/
theorem defect_record (b : Builder κ σ) (d : Defect) : (b.record d).defect = some (b.defect.getD d) := by
  unfold record; cases b.defect <;> rfl

/-! ## Adding nodes -/

/-- A new draft without parent and children, and its handle; where there is no room, no draft and no handle. -/
def add (b : Builder κ σ) (name : String) (role : Role κ σ) : Int × Builder κ σ :=
  if b.size < b.capacity then (b.size, { b with drafts := b.drafts ++ [{ name, role }] })
  else (nowhere, b.record .full)

/-- A leaf, with what it does. -/
def newLeaf (b : Builder κ σ) (name : String) (act : Option (Act κ σ)) : Int × Builder κ σ :=
  b.add name (.leaf act)

/-- A sequence or selector; `keep` makes it resume where it stopped. -/
def newComposite (b : Builder κ σ) (rule : Rule) (name : String) (keep : Bool) : Int × Builder κ σ :=
  b.add name (.composite rule keep)

/-- A decorator that exchanges success and failure. -/
def newNegate (b : Builder κ σ) (name : String) : Int × Builder κ σ := b.add name (.decorator (some .negate))

/-- A decorator that reports each result one visit later. -/
def newDelay (b : Builder κ σ) (name : String) : Int × Builder κ σ := b.add name (.decorator (some .delay))

/-- A decorator that keeps its child going until a test holds. -/
def newAwait (b : Builder κ σ) (name : String) (test : Option (Test κ σ)) : Int × Builder κ σ :=
  b.add name (.decorator (test.map .await))

/-- A decorator with hooks of its own; each may be left out. -/
def newCustom (b : Builder κ σ) (name : String) (before : Option (Before κ σ)) (after : Option (After κ σ)) :
    Int × Builder κ σ :=
  b.add name (.decorator (some (.custom before after)))

/-! ## Wiring -/

/-- Makes one draft the last child of another. -/
def link (b : Builder κ σ) (parent child : Nat) : Builder κ σ :=
  { b with drafts :=
      (b.drafts.modify child fun d => { d with parent := some parent }).modify parent fun d =>
        { d with children := d.children ++ [child] } }

@[simp] theorem size_link (b : Builder κ σ) (parent child : Nat) : (b.link parent child).size = b.size := by
  simp [link, size]

/-- Why a node cannot become a child of a composite, if it cannot. -/
def attachDefect? (b : Builder κ σ) (parent child : Int) : Option Defect :=
  match b.draft? parent, b.draft? child with
  | some p, some c =>
    if !p.role.kind.isComposite then some .wrongKind
    else if maxChildren ≤ p.children.length then some .tooManyChildren
    else if c.parent.isSome || child == parent then some .secondParent
    else none
  | _, _ => some .unknownHandle

/-- Makes a node the last child of a sequence or selector. -/
def attach (b : Builder κ σ) (parent child : Int) : Builder κ σ :=
  match b.attachDefect? parent child with
  | some d => b.record d
  | none => b.link parent.toNat child.toNat

/-- Why a node cannot become the child of a decorator, if it cannot. -/
def decorateDefect? (b : Builder κ σ) (decorator child : Int) : Option Defect :=
  match b.draft? decorator, b.draft? child with
  | some p, some c =>
    if p.role.kind ≠ .decorator then some .wrongKind
    else if !p.children.isEmpty then some .reboundDecorator
    else if c.parent.isSome || child == decorator then some .secondParent
    else none
  | _, _ => some .unknownHandle

/-- Makes a node the child of a decorator. -/
def decorate (b : Builder κ σ) (decorator child : Int) : Builder κ σ :=
  match b.decorateDefect? decorator child with
  | some d => b.record d
  | none => b.link decorator.toNat child.toNat

def attachAll (b : Builder κ σ) (parent : Int) (children : List Int) : Builder κ σ :=
  children.foldl (fun b child => b.attach parent child) b

/-! ## Wrapping nodes -/

def negateName : String := "not"

def delayName : String := "delay"

def awaitName : String := "until"

def negated (b : Builder κ σ) (child : Int) : Int × Builder κ σ :=
  let (h, b) := b.newNegate negateName
  (h, b.decorate h child)

def delayed (b : Builder κ σ) (child : Int) : Int × Builder κ σ :=
  let (h, b) := b.newDelay delayName
  (h, b.decorate h child)

def awaited (b : Builder κ σ) (child : Int) (test : Option (Test κ σ)) : Int × Builder κ σ :=
  let (h, b) := b.newAwait awaitName test
  (h, b.decorate h child)

/-- A delaying decorator around each of several nodes, in order. -/
def delayEach (b : Builder κ σ) : List Int → List Int × Builder κ σ
  | [] => ([], b)
  | h :: hs =>
    let (w, b) := b.delayed h
    let (ws, b) := b.delayEach hs
    (w :: ws, b)

/-- A delaying decorator around each of the first `count` nodes; the other handles stay as they are. -/
def delayFirst (b : Builder κ σ) (count : Nat) (hs : List Int) : List Int × Builder κ σ :=
  let (ws, b) := b.delayEach (hs.take count)
  (ws ++ hs.drop count, b)

end Builder

end Behaviour
