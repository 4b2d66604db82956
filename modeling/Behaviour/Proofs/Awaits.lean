import Behaviour.Proofs.Course

/-!
# Awaits over whole runs

An await asks its test until this has held, and remembers that it has until the await succeeds: through visits in which
the child fails, and through ticks that do not meet it (`HasHeld`). The child is visited each time, after the test; its
failure is passed on, and any other answer of it counts for nothing: the await succeeds if its test has held, and is
running if not (`Trail.Awaits`). One visit goes on so from the visits before (`Node.awaited_visit`), and a reset begins
anew; so it goes in every run (`await_remembers`).
-/

namespace Behaviour

variable {κ σ : Type}

open Play

/-! ## Visits of an await -/

/-- What the test answered that was asked when the visit began, if one was asked. -/
def Trail.asked? (u : Trail κ σ) : Option Bool :=
  match u.opened with
  | .tested _ answer :: _ => some answer
  | _ => none

/-- The test has held in one of these visits, and none has succeeded since, this one included. -/
def HasHeld (us : List (Trail κ σ)) : Prop :=
  ∃ past u later, us = past ++ u :: later ∧ u.asked? = some true ∧ ∀ w ∈ u :: later, w.status ≠ .success

/-- A visit of an await, in the course of which its child is visited, after other visits of the await. -/
structure Trail.Awaits (u : Trail κ σ) (test : Test κ σ) (children : List Nat) (past : List (Trail κ σ))
    (child : Trail κ σ) : Prop where
  children : children = [child.label.handle]
  /-- The child is visited once. -/
  inner : u.inner = [child]
  /-- The test is asked before the child is visited. -/
  log : u.log = u.opened ++ child.log ++ [u.finish]
  left : child.left = u.left
  /-- A test that has held is not asked again. -/
  sure : HasHeld past → u.opened = [] ∧ child.given = u.given
  unsure : ¬HasHeld past → u.opened = [.tested u.label (test u.given).1] ∧ child.given = (test u.given).2
  fails : u.status = .failure ↔ child.status = .failure
  succeeds : child.status ≠ .failure → (u.status = .success ↔ HasHeld past ∨ u.asked? = some true)
  waits : child.status ≠ .failure → ¬(HasHeld past ∨ u.asked? = some true) → u.status = .running
  /-- A visit that fails does not forget that the test has held. -/
  keeps : u.status = .failure → (HasHeld (past ++ [u]) ↔ HasHeld past ∨ u.asked? = some true)

/-- How an await with this test has gone in its visits since a reset, and what it remembers of them. -/
structure Awaited (test : Test κ σ) (us : List (Trail κ σ)) (children : List Nat) (memory : Memory) : Prop where
  goes : ∀ past u later, us = past ++ u :: later → ∃ v, u.Awaits test children past v
  holds : memory.done = true ↔ HasHeld us

/-- Where a list with one more member is split: at this member, or before it. -/
theorem split_concat {α : Type} {xs past later : List α} {x u : α} (h : xs ++ [x] = past ++ u :: later) :
    (past = xs ∧ u = x) ∨ ∃ later', later = later' ++ [x] ∧ xs = past ++ u :: later' := by
  rcases List.eq_nil_or_concat later with rfl | ⟨later', y, rfl⟩
  · obtain ⟨hpast, hlast⟩ := List.append_inj' h rfl
    exact .inl ⟨hpast.symm, (List.cons.inj hlast).1.symm⟩
  · rw [List.concat_eq_append, ← List.cons_append, ← List.append_assoc] at h
    obtain ⟨hxs, hlast⟩ := List.append_inj' h rfl
    exact .inr ⟨later', by rw [List.concat_eq_append, (List.cons.inj hlast).1], hxs⟩

theorem not_hasHeld_nil : ¬HasHeld ([] : List (Trail κ σ)) := by
  rintro ⟨past, u, later, h, -⟩
  simp at h

/-- After one more visit the test has held if it had held before or holds now, unless the visit has succeeded. -/
theorem hasHeld_concat {us : List (Trail κ σ)} {u : Trail κ σ} :
    HasHeld (us ++ [u]) ↔ u.status ≠ .success ∧ (HasHeld us ∨ u.asked? = some true) := by
  constructor
  · rintro ⟨past, w, later, h, hasked, hnone⟩
    rcases split_concat h with ⟨-, rfl⟩ | ⟨later', rfl, rfl⟩
    · exact ⟨hnone w List.mem_cons_self, .inr hasked⟩
    · rw [← List.cons_append] at hnone
      refine ⟨hnone u (List.mem_append_right _ (List.mem_singleton_self u)), .inl ⟨past, w, later', rfl, hasked, ?_⟩⟩
      exact fun x hx => hnone x (List.mem_append_left _ hx)
  · rintro ⟨hstatus, ⟨past, w, later, rfl, hasked, hnone⟩ | hasked⟩
    · refine ⟨past, w, later ++ [u], by simp, hasked, ?_⟩
      rw [← List.cons_append]
      intro x hx
      rcases List.mem_append.1 hx with hx | hx
      · exact hnone x hx
      · rwa [List.mem_singleton.1 hx]
    · refine ⟨us, u, [], rfl, hasked, ?_⟩
      simpa using hstatus

namespace Awaited

/-- Before its first visit an await has nothing to remember. -/
theorem nil (test : Test κ σ) (children : List Nat) : Awaited test ([] : List (Trail κ σ)) children {} where
  goes := by
    intro past u later h
    simp at h
  holds := iff_of_false Bool.false_ne_true not_hasHeld_nil

/-- One more visit goes on as the await has gone so far, and is remembered. -/
theorem concat {test : Test κ σ} {us : List (Trail κ σ)} {children : List Nat} {memory memory' : Memory}
    {u v : Trail κ σ} (h : Awaited test us children memory) (hu : u.Awaits test children us v)
    (hmemory : memory'.done = true ↔ u.status ≠ .success ∧ (memory.done = true ∨ u.asked? = some true)) :
    Awaited test (us ++ [u]) children memory' where
  goes := by
    intro past w later heq
    rcases split_concat heq with ⟨rfl, rfl⟩ | ⟨later', -, hus⟩
    · exact ⟨v, hu⟩
    · exact h.goes past w later' hus
  holds := by rw [hmemory, hasHeld_concat, h.holds]

end Awaited

/-! ## Nodes and their visits -/

namespace Decorator

variable (test : Test κ σ) (l : Label) {memory : Memory} (scene : Scene κ σ)

/-- A test that has held is not asked. -/
theorem enter_await_of_done (h : memory.done = true) : (await test).enter l memory scene = ⟨memory, scene, []⟩ :=
  if_pos h

theorem enter_await_of_not_done (h : memory.done = false) : (await test).enter l memory scene =
    ⟨{ memory with done := (test scene).1 }, (test scene).2, [.tested l (test scene).1]⟩ := by
  simp [enter, h]

/-- An await passes a failure on; otherwise its answer is whether the test has held, which it then forgets. -/
theorem leave_await (memory : Memory) (raw : Status) : (await test).leave l memory raw scene =
    ⟨if raw = .failure then .failure else if memory.done then .success else .running,
      { memory with done := memory.done && raw == .failure }, scene, []⟩ := by
  obtain ⟨pending, hasPending, done, counter⟩ := memory
  by_cases hraw : raw = .failure
  · simp [leave, hraw]
  · cases done <;> simp [leave, hraw]

end Decorator

namespace Node

section Visit

variable {test : Test κ σ} {us : List (Trail κ σ)} {memory : Memory} {c : Node κ σ}

/-- What an await knows when it visits its child: that the test has held before, or that it holds now. -/
theorem done_enter_await (test : Test κ σ) (h : memory.done = true ↔ HasHeld us) (l : Label) (c : Node κ σ)
    (scene : Scene κ σ) :
    ((Decorator.await test).enter l memory scene).memory.done = true ↔
      HasHeld us ∨ ((decorator l (.await test) memory c).trail scene).asked? = some true := by
  cases hdone : memory.done with
  | true => simp [Decorator.enter, hdone, h.1 hdone]
  | false =>
    have hnot : ¬HasHeld us := fun hheld => by simp [h.2 hheld] at hdone
    simp [Decorator.enter, trail, Trail.asked?, hdone, hnot]

/-- A visit goes on as the await has gone so far, if the await remembers whether its test has held. -/
theorem awaits_trail (h : memory.done = true ↔ HasHeld us) (l : Label) (c : Node κ σ) (scene : Scene κ σ) :
    ((decorator l (.await test) memory c).trail scene).Awaits test [c.label.handle] us
      (c.trail ((Decorator.await test).enter l memory scene).scene) := by
  have hknows := done_enter_await test h l c scene
  generalize hu : (decorator l (.await test) memory c).trail scene = u at hknows ⊢
  generalize ho : (Decorator.await test).enter l memory scene = o at hknows ⊢
  have hleave := Decorator.leave_await test l (c.trail o.scene).left o.memory (c.trail o.scene).status
  have hlabel : u.label = l := by rw [← hu, trail]
  have hgiven : u.given = scene := by rw [← hu, given_trail]
  have hopened : u.opened = o.log := by rw [← hu, ← ho, trail]
  have hinner : u.inner = [c.trail o.scene] := by rw [← hu, ← ho, trail]
  have hclosed : u.closed = [] := by
    rw [← hu, trail, ho]
    exact congrArg Closing.log hleave
  have hleft : u.left = (c.trail o.scene).left := by
    rw [← hu, trail, ho]
    exact congrArg Closing.scene hleave
  have hstatus : u.status = if (c.trail o.scene).status = .failure then .failure
      else if o.memory.done then .success else .running := by
    rw [← hu, trail, ho]
    exact congrArg Closing.status hleave
  constructor
  case children => rw [label_trail]
  case inner => exact hinner
  case log => rw [Trail.log_eq, hinner, hclosed, List.flatMap_singleton, List.append_nil]
  case left => exact hleft.symm
  case sure =>
    intro hheld
    rw [Decorator.enter_await_of_done test l scene (h.2 hheld)] at ho
    rw [hopened, given_trail, hgiven, ← ho]
    exact ⟨rfl, rfl⟩
  case unsure =>
    intro hnot
    have hdone : memory.done = false := Bool.eq_false_iff.2 fun hdone => hnot (h.1 hdone)
    rw [Decorator.enter_await_of_not_done test l scene hdone] at ho
    rw [hopened, given_trail, hgiven, hlabel, ← ho]
    exact ⟨rfl, rfl⟩
  case fails =>
    rw [hstatus]
    split_ifs with hraw <;> simp [hraw]
  case succeeds =>
    intro hraw
    rw [hstatus, if_neg hraw, ← hknows]
    split_ifs with hdone <;> simp [hdone]
  case waits =>
    intro hraw hnot
    rw [← hknows] at hnot
    rw [hstatus, if_neg hraw, if_neg hnot]
  case keeps =>
    intro hfails
    rw [hasHeld_concat, hfails]
    simp

/-- After a visit an await remembers that its test has held, unless it has succeeded. -/
theorem done_visit_await (l : Label) (memory : Memory) (c : Node κ σ) (scene : Scene κ σ) :
    ((decorator l (.await test) memory c).visit scene).node.progress.memory.done = true ↔
      ((decorator l (.await test) memory c).trail scene).status ≠ .success ∧
        ((Decorator.await test).enter l memory scene).memory.done = true := by
  have hraw := (c.visit_eq_trail ((Decorator.await test).enter l memory scene).scene).1
  simp only [visit, Visit.finish, progress, trail, Decorator.leave_await, hraw]
  split_ifs with hfails hdone <;> simp_all

/-- One more visit goes on as the await has gone so far. -/
theorem awaited_visit (h : Awaited test us [c.label.handle] memory) (l : Label) (scene : Scene κ σ) :
    Awaited test (us ++ [(decorator l (.await test) memory c).trail scene]) [c.label.handle]
      ((decorator l (.await test) memory c).visit scene).node.progress.memory := by
  refine h.concat (awaits_trail h.holds l c scene) ?_
  rw [done_visit_await, done_enter_await test h.holds l c scene, h.holds]

end Visit

/-- If the node is an await, these are its visits. -/
def Awaits (us : List (Trail κ σ)) (m : Node κ σ) : Prop :=
  ∀ l test memory c, m = decorator l (.await test) memory c → Awaited test us [c.label.handle] memory

theorem awaits_visit (us : List (Trail κ σ)) (m : Node κ σ) (scene : Scene κ σ) (h : m.Awaits us) :
    (m.visit scene).node.Awaits (us ++ [m.trail scene]) := by
  intro l test memory c heq
  cases m with
  | leaf => cases heq
  | composite => cases heq
  | decorator l' wrap memory' c' =>
    obtain ⟨-, hwrap, rfl, rfl⟩ := decorator.inj heq
    subst hwrap
    rw [label_visit]
    exact awaited_visit (h l' test memory' c' rfl) l' scene

theorem awaits_reset (m : Node κ σ) : m.reset.Awaits [] := by
  intro l test memory c heq
  cases m with
  | leaf => cases heq
  | composite => cases heq
  | decorator =>
    obtain ⟨rfl, rfl, rfl, rfl⟩ := decorator.inj heq
    exact Awaited.nil _ _

end Node

/-! ## Every run -/

/-- Below a root, in this run, in place and on the tree: every await that can be reached has gone so in its visits
since the last reset, and remembers whether its test has held. -/
def Builder.Awaits (b : Builder κ σ) (root : Int) (commands : List (Command κ σ)) : Prop :=
  ∃ (n : Node κ σ) (turns : List (Turn κ σ)) (t : Tree κ σ) (a : Arena κ σ), b.Runs root commands n turns t a ∧
    ∀ h d test, Reaches b.drafts root.toNat h → b.drafts[h]? = some d → d.role = .decorator (some (.await test)) →
      Awaited test (visitsOf (n.course [] commands).1 h) d.children (a.progressOf h).memory

/-- Below every checked root of every builder, in every run. -/
theorem await_remembers (capacity : Nat) (cs : List (Call κ σ)) (root : Int) (commands : List (Command κ σ))
    (hcheck : (Builder.built capacity cs).check root = none) : (Builder.built capacity cs).Awaits root commands := by
  obtain ⟨n, turns, t, a, hruns, hnodes⟩ :=
    exists_runs_of_check Node.awaits_visit Node.awaits_reset (Builder.forest_built capacity cs) hcheck commands
  refine ⟨n, turns, t, a, hruns, ?_⟩
  intro h d test hreach hd hrole
  obtain ⟨m, -, hplays, hchildren, hprogress, hawaits⟩ := hnodes h d hreach hd
  rw [hrole] at hplays
  obtain ⟨l, memory, c, rfl⟩ := hplays.exists_decorator
  rw [hchildren, hprogress]
  exact hawaits l test memory c rfl

/-- A ferry stays away in a storm. Otherwise it waits until its bell has rung; the crossing fails in fog. -/
def ferry : List (Call Nat Nat) :=
  [.composite .sequence "ferry" false, .leaf "calm" (some fun s => (if s.context = 9 then .failure else .success, s)),
    .attach 0 1, .leaf "cross" (some fun s => (if s.context = 1 then .failure else .success, s)),
    .awaited 2 (some fun s => (s.context % 2 = 1, s)), .attach 0 3]

/-- The bell rings in fog; it is not forgotten in a storm, and is silent when the ferry leaves at last. -/
theorem await_remembers_ferry : (Builder.built 5 ferry).check 0 = none ∧
    (Builder.built 5 ferry).Awaits 0 [.tick ⟨0, 0⟩, .tick ⟨1, 0⟩, .tick ⟨9, 0⟩, .tick ⟨0, 0⟩, .tick ⟨0, 0⟩] :=
  ⟨rfl, await_remembers 5 ferry 0 _ rfl⟩

end Behaviour
