import Mathlib.Tactic.SplitIfs
import Behaviour.Proofs.Wiring

/-!
# What a builder refuses

Whatever is asked of a builder comes down to *steps*, each of which adds, attaches or decorates one node (`Step`); a
call that wraps nodes makes several of them, and goes on after one that is refused. A step is a program that looks at
one thing after another and writes as it goes (`Building`): it makes the child its parent's before it changes the list
of the parent, and stops at the first ground for refusal. `outcome_wire` says that nothing has been written by then.

A refused step leaves its defect to the builder, which keeps the first one that it is left (`defect_performAll`). So
the defect of a builder is that of the first refused step of its history (`refusals_first_win`).
-/

namespace Behaviour

variable {κ σ : Type}

/-! ## Steps as programs -/

/-- A piece of building. It writes as it goes, and may stop with a defect. -/
abbrev Building (κ σ α : Type) := ExceptT Defect (StateM (Builder κ σ)) α

namespace Building

def find (h : Int) : Building κ σ (Draft κ σ) := do
  let b ← get
  match b.draft? h with
  | some d => return d
  | none => throw .unknownHandle

def alter (h : Int) (f : Draft κ σ → Draft κ σ) : Building κ σ Unit :=
  modify fun b => { b with drafts := b.drafts.modify h.toNat f }

def add (name : String) (role : Role κ σ) : Building κ σ Int := do
  let b ← get
  if b.capacity ≤ b.size then throw .full
  else do
    modify fun b => { b with drafts := b.drafts ++ [{ name := name, role := role }] }
    return b.size

/-- Writes the parent into the child, which must have none. -/
def adopt (parent child : Int) : Building κ σ Unit := do
  let c ← find child
  if c.parent.isSome || child == parent then throw .secondParent
  else alter child fun d => { d with parent := some parent.toNat }

/-- Writes the child into the parent. -/
def enlist (parent child : Int) : Building κ σ Unit :=
  alter parent fun d => { d with children := d.children ++ [child.toNat] }

/-- Makes a node the child of one that it is looked up with, if there is no objection to the parent. -/
def wire (objection? : Draft κ σ → Option Defect) (parent child : Int) : Building κ σ Unit := do
  let p ← find parent
  let _ ← find child
  match objection? p with
  | some d => throw d
  | none => do
    adopt parent child
    enlist parent child

def attach : (parent child : Int) → Building κ σ Unit :=
  wire fun p =>
    if !p.role.kind.isComposite then some .wrongKind
    else if maxChildren ≤ p.children.length then some .tooManyChildren
    else none

def decorate : (decorator child : Int) → Building κ σ Unit :=
  wire fun p =>
    if p.role.kind ≠ .decorator then some .wrongKind
    else if !p.children.isEmpty then some .reboundDecorator
    else none

/-- What a piece of building comes to: how it ends, and the builder that it has written. -/
def outcome {α : Type} (x : Building κ σ α) (b : Builder κ σ) : Except Defect α × Builder κ σ := x.run.run b

section Outcomes

variable {α β : Type} {b b' : Builder κ σ}

theorem outcome_throw (d : Defect) : (throw d : Building κ σ α).outcome b = (.error d, b) := rfl

theorem outcome_alter (h : Int) (f : Draft κ σ → Draft κ σ) :
    (alter h f).outcome b = (.ok (), { b with drafts := b.drafts.modify h.toNat f }) := rfl

/-- What follows a piece of building goes on where it has ended. -/
theorem outcome_bind_of_ok {x : Building κ σ α} {f : α → Building κ σ β} {a : α} (h : x.outcome b = (.ok a, b')) :
    (x >>= f).outcome b = (f a).outcome b' := by
  unfold outcome at *
  simp only [ExceptT.run_bind, StateT.run_bind, h]
  rfl

/-- Nothing follows a piece of building that has stopped. -/
theorem outcome_bind_of_error {x : Building κ σ α} {f : α → Building κ σ β} {d : Defect}
    (h : x.outcome b = (.error d, b')) : (x >>= f).outcome b = (.error d, b') := by
  unfold outcome at *
  simp only [ExceptT.run_bind, StateT.run_bind, h]
  rfl

theorem outcome_find (h : Int) :
    (find h).outcome b = ((b.draft? h).elim (.error .unknownHandle) .ok, b) := by
  unfold find
  rw [outcome_bind_of_ok (show (get : Building κ σ (Builder κ σ)).outcome b = (.ok b, b) from rfl)]
  cases b.draft? h <;> rfl

theorem outcome_add (name : String) (role : Role κ σ) : (add name role).outcome b =
    if b.capacity ≤ b.size then (.error .full, b)
    else (.ok (b.size : Int), { b with drafts := b.drafts ++ [{ name, role }] }) := by
  unfold add
  rw [outcome_bind_of_ok (show (get : Building κ σ (Builder κ σ)).outcome b = (.ok b, b) from rfl)]
  split <;> rfl

/-- A child that is free gets its parent and is written into it. -/
theorem outcome_adopt {p c : Int} {dc : Draft κ σ} (hc : b.draft? c = some dc) :
    (do adopt p c; enlist p c : Building κ σ Unit).outcome b =
      if (dc.parent.isSome || c == p) = true then (.error .secondParent, b)
      else (.ok (), b.link p.toNat c.toNat) := by
  have hfind : (find c).outcome b = (.ok dc, b) := by rw [outcome_find, hc]; rfl
  by_cases htaken : (dc.parent.isSome || c == p) = true
  · rw [if_pos htaken]
    refine outcome_bind_of_error ?_
    unfold adopt
    rw [outcome_bind_of_ok hfind, if_pos htaken, outcome_throw]
  · rw [if_neg htaken]
    have hadopt : (adopt p c).outcome b = (.ok (), { b with
        drafts := b.drafts.modify c.toNat fun d => { d with parent := some p.toNat } }) := by
      unfold adopt
      rw [outcome_bind_of_ok hfind, if_neg htaken, outcome_alter]
    rw [outcome_bind_of_ok hadopt]
    rfl

/-- Wiring goes to its end if both handles name nodes, there is no objection to the parent and the child is free; it has
written nothing where it stops. -/
theorem outcome_wire (objection? : Draft κ σ → Option Defect) (p c : Int) : (wire objection? p c).outcome b =
    match b.draft? p, b.draft? c with
    | some dp, some dc =>
      match objection? dp with
      | some d => (.error d, b)
      | none =>
        if (dc.parent.isSome || c == p) = true then (.error .secondParent, b) else (.ok (), b.link p.toNat c.toNat)
    | _, _ => (.error .unknownHandle, b) := by
  unfold wire
  cases hp : b.draft? p with
  | none => exact outcome_bind_of_error (by rw [outcome_find, hp]; rfl)
  | some dp =>
    rw [outcome_bind_of_ok (by rw [outcome_find, hp]; rfl)]
    cases hc : b.draft? c with
    | none => exact outcome_bind_of_error (by rw [outcome_find, hc]; rfl)
    | some dc =>
      rw [outcome_bind_of_ok (by rw [outcome_find, hc]; rfl)]
      simp only
      split
      · rfl
      · exact outcome_adopt hc

/-- Attaching goes to its end if there is nothing against it, and has written nothing where it stops. -/
theorem outcome_attach (p c : Int) : (attach p c).outcome b =
    (b.attachDefect? p c).elim (.ok (), b.link p.toNat c.toNat) fun d => (.error d, b) := by
  unfold attach Builder.attachDefect?
  rw [outcome_wire]
  cases b.draft? p with
  | none => rfl
  | some dp =>
    cases b.draft? c with
    | none => rfl
    | some dc =>
      simp only
      split_ifs <;> rfl

/-- So does decorating. -/
theorem outcome_decorate (p c : Int) : (decorate p c).outcome b =
    (b.decorateDefect? p c).elim (.ok (), b.link p.toNat c.toNat) fun d => (.error d, b) := by
  unfold decorate Builder.decorateDefect?
  rw [outcome_wire]
  cases b.draft? p with
  | none => rfl
  | some dp =>
    cases b.draft? c with
    | none => rfl
    | some dc =>
      simp only
      split_ifs <;> rfl

end Outcomes

end Building

/-! ## Steps -/

/-- One thing that is done to a builder. -/
inductive Step (κ σ : Type) where
  | add (name : String) (role : Role κ σ)
  | attach (parent child : Int)
  | decorate (decorator child : Int)

namespace Step

def run : Step κ σ → Building κ σ Unit
  | add name role => do
    let _ ← Building.add name role
  | attach parent child => Building.attach parent child
  | decorate decorator child => Building.decorate decorator child

/-- What a step is refused for, if it is. -/
def refusal? (s : Step κ σ) (b : Builder κ σ) : Option Defect :=
  match (s.run.outcome b).1 with
  | .ok _ => none
  | .error d => some d

/-- The builder after a step; one that is refused leaves its defect. -/
def perform (s : Step κ σ) (b : Builder κ σ) : Builder κ σ :=
  match s.run.outcome b with
  | (.ok _, b) => b
  | (.error d, b) => b.record d

section Outcomes

variable (b : Builder κ σ)

theorem outcome_add (name : String) (role : Role κ σ) : (add name role).run.outcome b =
    if b.capacity ≤ b.size then (.error .full, b)
    else (.ok (), { b with drafts := b.drafts ++ [{ name, role }] }) := by
  unfold run
  have h := Building.outcome_add (b := b) name role
  by_cases hfull : b.capacity ≤ b.size
  · rw [if_pos hfull] at h ⊢
    exact Building.outcome_bind_of_error h
  · rw [if_neg hfull] at h ⊢
    exact Building.outcome_bind_of_ok h

theorem refusal?_add (name : String) (role : Role κ σ) :
    (add name role).refusal? b = if b.capacity ≤ b.size then some .full else none := by
  unfold refusal?
  rw [outcome_add]
  by_cases hfull : b.capacity ≤ b.size
  · rw [if_pos hfull, if_pos hfull]
  · rw [if_neg hfull, if_neg hfull]

theorem perform_add (name : String) (role : Role κ σ) : (add name role).perform b = (b.add name role).2 := by
  unfold perform Builder.add
  rw [outcome_add]
  by_cases hfull : b.capacity ≤ b.size
  · rw [if_pos hfull, if_neg (Nat.not_lt.2 hfull)]
  · rw [if_neg hfull, if_pos (Nat.not_le.1 hfull)]

theorem refusal?_attach (p c : Int) : (attach p c).refusal? b = b.attachDefect? p c := by
  unfold refusal? run
  rw [Building.outcome_attach]
  cases b.attachDefect? p c <;> rfl

theorem perform_attach (p c : Int) : (attach p c).perform b = b.attach p c := by
  unfold perform run Builder.attach
  rw [Building.outcome_attach]
  cases b.attachDefect? p c <;> rfl

theorem refusal?_decorate (p c : Int) : (decorate p c).refusal? b = b.decorateDefect? p c := by
  unfold refusal? run
  rw [Building.outcome_decorate]
  cases b.decorateDefect? p c <;> rfl

theorem perform_decorate (p c : Int) : (decorate p c).perform b = b.decorate p c := by
  unfold perform run Builder.decorate
  rw [Building.outcome_decorate]
  cases b.decorateDefect? p c <;> rfl

end Outcomes

/-- A refused step has written nothing. -/
theorem outcome_of_refusal? {s : Step κ σ} {b : Builder κ σ} {d : Defect} (h : s.refusal? b = some d) :
    s.run.outcome b = (.error d, b) := by
  cases s with
  | add name role =>
    rw [refusal?_add] at h
    split at h
    · rename_i hfull
      cases h
      rw [outcome_add, if_pos hfull]
    · cases h
  | attach p c =>
    rw [refusal?_attach] at h
    rw [run, Building.outcome_attach, h]
    rfl
  | decorate p c =>
    rw [refusal?_decorate] at h
    rw [run, Building.outcome_decorate, h]
    rfl

/-- A refused step leaves its defect, and nothing else. -/
theorem perform_of_refusal? {s : Step κ σ} {b : Builder κ σ} {d : Defect} (h : s.refusal? b = some d) :
    s.perform b = b.record d := by
  unfold perform
  rw [outcome_of_refusal? h]

/-- A step that is not refused leaves no defect. -/
theorem defect_perform_of_refusal?_eq_none {s : Step κ σ} {b : Builder κ σ} (h : s.refusal? b = none) :
    (s.perform b).defect = b.defect := by
  cases s with
  | add name role =>
    rw [refusal?_add] at h
    have hroom : b.size < b.capacity := by
      rw [← Nat.not_le]
      intro hfull
      rw [if_pos hfull] at h
      cases h
    rw [perform_add, Builder.add, if_pos hroom]
  | attach p c =>
    rw [refusal?_attach] at h
    rw [perform_attach, Builder.attach, h]
    rfl
  | decorate p c =>
    rw [refusal?_decorate] at h
    rw [perform_decorate, Builder.decorate, h]
    rfl

end Step

/-! ## The steps of a history -/

namespace Builder

/-- The builder after several steps. -/
def performAll (b : Builder κ σ) (ss : List (Step κ σ)) : Builder κ σ := ss.foldl (fun b s => s.perform b) b

/-- What is refused in the course of several steps, in order. -/
def refusals (b : Builder κ σ) : List (Step κ σ) → List Defect
  | [] => []
  | s :: ss => (s.refusal? b).toList ++ (s.perform b).refusals ss

/-- A new decorator is bound to a node, whatever became of the new decorator. -/
def wrapSteps (b : Builder κ σ) (name : String) (wrap : Option (Decorator κ σ)) (child : Int) : List (Step κ σ) :=
  [.add name (.decorator wrap), .decorate (b.add name (.decorator wrap)).1 child]

def delaySteps (b : Builder κ σ) : List Int → List (Step κ σ)
  | [] => []
  | h :: hs => b.wrapSteps delayName (some .delay) h ++ (b.delayed h).2.delaySteps hs

/-- The steps that a call makes. -/
def stepsOf (b : Builder κ σ) : Call κ σ → List (Step κ σ)
  | .leaf name act => [.add name (.leaf act)]
  | .composite rule name keep => [.add name (.composite rule keep)]
  | .negate name => [.add name (.decorator (some .negate))]
  | .delay name => [.add name (.decorator (some .delay))]
  | .await name test => [.add name (.decorator (test.map .await))]
  | .custom name before after => [.add name (.decorator (some (.custom before after)))]
  | .attach parent child => [.attach parent child]
  | .decorate decorator child => [.decorate decorator child]
  | .negated child => b.wrapSteps negateName (some .negate) child
  | .delayed child => b.wrapSteps delayName (some .delay) child
  | .awaited child test => b.wrapSteps awaitName (test.map .await) child
  | .delayFirst count handles => b.delaySteps (handles.take count)

/-- The steps that several calls make. -/
def stepsFrom (b : Builder κ σ) : List (Call κ σ) → List (Step κ σ)
  | [] => []
  | c :: cs => b.stepsOf c ++ (b.call c).stepsFrom cs

theorem performAll_append (b : Builder κ σ) (ss ss' : List (Step κ σ)) :
    b.performAll (ss ++ ss') = (b.performAll ss).performAll ss' := List.foldl_append

theorem performAll_wrapSteps (b : Builder κ σ) (name : String) (wrap : Option (Decorator κ σ)) (child : Int) :
    b.performAll (b.wrapSteps name wrap child) =
      (b.add name (.decorator wrap)).2.decorate (b.add name (.decorator wrap)).1 child := by
  simp only [wrapSteps, performAll, List.foldl_cons, List.foldl_nil, Step.perform_add, Step.perform_decorate]

theorem performAll_delaySteps : ∀ (hs : List Int) (b : Builder κ σ),
    b.performAll (b.delaySteps hs) = (b.delayEach hs).2
  | [], _ => rfl
  | h :: hs, b => by
    have hwrap : b.performAll (b.wrapSteps delayName (some .delay) h) = (b.delayed h).2 := performAll_wrapSteps ..
    rw [delaySteps, performAll_append, hwrap, performAll_delaySteps hs]
    rfl

/-- A call is made of its steps. -/
theorem performAll_stepsOf (b : Builder κ σ) (c : Call κ σ) : b.performAll (b.stepsOf c) = b.call c := by
  cases c with
  | leaf | composite | negate | delay | await | custom => exact Step.perform_add ..
  | attach => exact Step.perform_attach ..
  | decorate => exact Step.perform_decorate ..
  | negated | delayed | awaited => exact performAll_wrapSteps ..
  | delayFirst => exact performAll_delaySteps ..

theorem performAll_stepsFrom : ∀ (cs : List (Call κ σ)) (b : Builder κ σ),
    b.performAll (b.stepsFrom cs) = b.calls cs
  | [], _ => rfl
  | c :: cs, b => by
    rw [stepsFrom, performAll_append, performAll_stepsOf, performAll_stepsFrom cs, calls_cons]

theorem capacity_calls : ∀ (cs : List (Call κ σ)) (b : Builder κ σ), (b.calls cs).capacity = b.capacity
  | [], _ => rfl
  | c :: cs, b => by
    rw [calls_cons, capacity_calls cs (b.call c)]
    exact call_induction (P := fun b' => b'.capacity = b.capacity) (fun _ _ _ h => by rw [capacity_add, h])
      (fun _ _ _ h => by rw [capacity_decorate, h]) (fun p x _ => capacity_attach b p x) rfl

/-- One step leaves the builder with the defect that it had, or else with its own. -/
theorem defect_perform (b : Builder κ σ) (s : Step κ σ) : (s.perform b).defect = b.defect.or (s.refusal? b) := by
  cases h : s.refusal? b with
  | none => rw [Step.defect_perform_of_refusal?_eq_none h, Option.or_none]
  | some d =>
    rw [Step.perform_of_refusal? h]
    rfl

/-- Several steps leave the builder with the defect that it had, or else with that of the first one refused. -/
theorem defect_performAll : ∀ (ss : List (Step κ σ)) (b : Builder κ σ),
    (b.performAll ss).defect = b.defect.or (b.refusals ss).head?
  | [], b => Option.or_none.symm
  | s :: ss, b => by
    have ih := defect_performAll ss (s.perform b)
    rw [defect_perform, Option.or_assoc] at ih
    rw [refusals, List.head?_append, Option.head?_toList]
    exact ih

end Builder

/-! ## Grounds for refusal -/

/-- The first ground that holds decides for its defect; if none holds, there is no defect. -/
def Decides : List (Prop × Defect) → Option Defect → Prop
  | [], verdict => verdict = none
  | (ground, d) :: grounds, verdict => (ground → verdict = some d) ∧ (¬ground → Decides grounds verdict)

/-- Grounds that are looked at in order. -/
theorem Decides.ite {ground test : Prop} [Decidable test] {d : Defect} {grounds : List (Prop × Defect)}
    {verdict : Option Defect} (htest : ground ↔ test) (hrest : ¬test → Decides grounds verdict) :
    Decides ((ground, d) :: grounds) (if test then some d else verdict) := by
  refine ⟨fun h => if_pos (htest.1 h), fun h => ?_⟩
  have h' : ¬test := fun ht => h (htest.2 ht)
  rw [if_neg h']
  exact hrest h'

namespace Builder

/-- Something is true of the node that a handle names. -/
def Holds (b : Builder κ σ) (h : Int) (P : Draft κ σ → Prop) : Prop := ∃ d, b.draft? h = some d ∧ P d

/-- What can be said against a child of a composite, the weightiest first. -/
def attachGrounds (b : Builder κ σ) (p c : Int) : List (Prop × Defect) :=
  [(¬(b.isValid p ∧ b.isValid c), .unknownHandle),
    (b.Holds p fun d => d.role.kind ≠ .sequence ∧ d.role.kind ≠ .selector, .wrongKind),
    (b.Holds p fun d => d.children.length = 8, .tooManyChildren),
    ((b.Holds c fun d => d.parent ≠ none) ∨ c = p, .secondParent)]

/-- What can be said against a child of a decorator, the weightiest first. -/
def decorateGrounds (b : Builder κ σ) (p c : Int) : List (Prop × Defect) :=
  [(¬(b.isValid p ∧ b.isValid c), .unknownHandle),
    (b.Holds p fun d => d.role.kind ≠ .decorator, .wrongKind),
    (b.Holds p fun d => d.children ≠ [], .reboundDecorator),
    ((b.Holds c fun d => d.parent ≠ none) ∨ c = p, .secondParent)]

section Grounds

variable {b : Builder κ σ} {p c : Int}

theorem holds_iff {d : Draft κ σ} {P : Draft κ σ → Prop} (hd : b.draft? p = some d) : b.Holds p P ↔ P d := by
  simp [Holds, hd]

/-- A child is refused for its parent if it has one already, or is to be its own. -/
theorem taken_iff {d : Draft κ σ} (hc : b.draft? c = some d) :
    ((b.Holds c fun d => d.parent ≠ none) ∨ c = p) ↔ (d.parent.isSome || c == p) = true := by
  rw [holds_iff hc, Bool.or_eq_true, Option.isSome_iff_ne_none, beq_iff_eq]

theorem defect?_of_not_isValid (h : ¬(b.isValid p ∧ b.isValid c)) :
    b.attachDefect? p c = some .unknownHandle ∧ b.decorateDefect? p c = some .unknownHandle := by
  unfold attachDefect? decorateDefect?
  cases hp : b.draft? p with
  | none => exact ⟨rfl, rfl⟩
  | some dp =>
    cases hc : b.draft? c with
    | none => exact ⟨rfl, rfl⟩
    | some dc => exact absurd (by simp [isValid, hp, hc]) h

theorem exists_of_isValid (h : ¬¬(b.isValid p ∧ b.isValid c)) :
    ∃ dp dc, b.draft? p = some dp ∧ b.draft? c = some dc := by
  obtain ⟨hp, hc⟩ := Decidable.not_not.1 h
  obtain ⟨dp, hp⟩ := Option.isSome_iff_exists.1 hp
  obtain ⟨dc, hc⟩ := Option.isSome_iff_exists.1 hc
  exact ⟨dp, dc, hp, hc⟩

theorem decides_attach (hf : Forest b.drafts) (p c : Int) : Decides (b.attachGrounds p c) (b.attachDefect? p c) := by
  refine ⟨fun h => (defect?_of_not_isValid h).1, fun h => ?_⟩
  obtain ⟨dp, dc, hp, hc⟩ := exists_of_isValid h
  simp only [attachDefect?, hp, hc]
  refine .ite ?_ fun hkind => .ite ?_ fun _ => .ite (taken_iff hc) fun _ => rfl
  · rw [holds_iff hp]
    cases dp.role.kind <;> simp [Kind.isComposite]
  · -- A composite never has more than eight children.
    have hfit : dp.children.length ≤ dp.role.room := hf.fits (draft?_eq_some hp).2
    rw [holds_iff hp]
    cases hrole : dp.role with
    | leaf => simp [hrole, Role.kind, Kind.isComposite] at hkind
    | decorator => simp [hrole, Role.kind, Kind.isComposite] at hkind
    | composite =>
      simp only [hrole, Role.room, maxChildren] at hfit ⊢
      omega

theorem decides_decorate (b : Builder κ σ) (p c : Int) : Decides (b.decorateGrounds p c) (b.decorateDefect? p c) := by
  refine ⟨fun h => (defect?_of_not_isValid h).2, fun h => ?_⟩
  obtain ⟨dp, dc, hp, hc⟩ := exists_of_isValid h
  simp only [decorateDefect?, hp, hc]
  refine .ite (holds_iff hp) fun _ => .ite ?_ fun _ => .ite (taken_iff hc) fun _ => rfl
  rw [holds_iff hp]
  simp

end Grounds

end Builder

/-! ## Every history -/

/-- What a builder refuses, in every history with any handles. Its defect is at all times that of the first step that
was refused, and there is none before. A refused step changes no draft, one that is done changes no defect. A step
that adds a node is refused when the builder is full, and then gives no handle. A child is refused for the first of the
grounds that hold, and for no other reason. -/
theorem refusals_first_win (capacity : Nat) (cs : List (Call κ σ)) :
    let fresh : Builder κ σ := { capacity }
    let b := Builder.built capacity cs
    fresh.performAll (fresh.stepsFrom cs) = b ∧
    (∀ before after, fresh.stepsFrom cs = before ++ after →
      (fresh.performAll before).defect = (fresh.refusals before).head?) ∧
    (∀ (s : Step κ σ) d, s.refusal? b = some d →
      (s.perform b).drafts = b.drafts ∧ (s.perform b).defect = some (b.defect.getD d)) ∧
    (∀ s : Step κ σ, s.refusal? b = none → (s.perform b).defect = b.defect) ∧
    (∀ name role, Decides [(b.size = capacity, .full)] ((Step.add name role).refusal? b)) ∧
    (∀ name role, b.size = capacity → b.add name role = (-1, b.record .full)) ∧
    (∀ p c, Decides (b.attachGrounds p c) ((Step.attach p c).refusal? b)) ∧
    ∀ p c, Decides (b.decorateGrounds p c) ((Step.decorate p c).refusal? b) := by
  intro fresh b
  have hsize : b.size ≤ capacity := Builder.size_calls_le cs ⟨Nat.zero_le _, rfl⟩
  have hcapacity : b.capacity = capacity := Builder.capacity_calls cs fresh
  refine ⟨Builder.performAll_stepsFrom cs fresh, fun before _ _ => Builder.defect_performAll before fresh,
    fun s d h => ?_, fun s => Step.defect_perform_of_refusal?_eq_none, fun name role => ?_, fun name role hfull => ?_,
    fun p c => ?_, fun p c => ?_⟩
  · rw [Step.perform_of_refusal? h]
    exact ⟨rfl, Builder.defect_record b d⟩
  · rw [Step.refusal?_add]
    exact .ite (by omega) fun _ => rfl
  · rw [Builder.add, if_neg (by omega)]
    rfl
  · rw [Step.refusal?_attach]
    exact Builder.decides_attach (Builder.forest_built capacity cs) p c
  · rw [Step.refusal?_decorate]
    exact b.decides_decorate p c

/-- Where a node is wrapped for which there is no room, two steps are refused, and the first of them is told. -/
example :
    let fresh : Builder Unit Unit := { capacity := 1 }
    let cs := [.leaf "wait" none, .negated 0]
    fresh.refusals (fresh.stepsFrom cs) = [.full, .unknownHandle] ∧ (fresh.calls cs).defect = some .full := by
  exact ⟨rfl, rfl⟩

end Behaviour
