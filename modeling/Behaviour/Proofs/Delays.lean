import Behaviour.Proofs.Course

/-!
# Delays over whole runs

A delay visits its child each time that it is visited itself, but tells of every other answer only: in visits with an
even number it holds the child's answer back, in the next one it releases it and drops what the child answers then
(`Delayed`). However many ticks lie between two visits of the delay, those that do not meet it leave its memory alone;
a reset begins the count anew. So it goes in every run (`delay_alternates`).
-/

namespace Behaviour

variable {κ σ : Type}

open Play

/-! ## Visits of a delay -/

/-- A visit of a decorator that visits its child once and does nothing else to the scene. -/
structure Trail.Passes (u : Trail κ σ) (children : List Nat) (v : Trail κ σ) : Prop where
  inner : u.inner = [v]
  children : children = [v.label.handle]
  given : v.given = u.given
  left : v.left = u.left

/-- What the child of a decorator answered in a visit. -/
def Trail.raw? (u : Trail κ σ) : Option Status := u.inner.head?.map Trail.status

theorem Trail.Passes.raw?_eq {u v : Trail κ σ} {children : List Nat} (h : u.Passes children v) :
    u.raw? = some v.status := by
  rw [raw?, h.inner]
  rfl

/-- How a delay has answered in its visits since a reset, and what it holds back. -/
structure Delayed (us : List (Trail κ σ)) (children : List Nat) (memory : Memory) : Prop where
  child : ∀ u ∈ us, ∃ v, u.Passes children v
  even : ∀ j u, us[2 * j]? = some u → u.status = .running
  /-- The answer is the child's from the visit before; what the child answers in this one is dropped. -/
  odd : ∀ j u, us[2 * j + 1]? = some u → us[2 * j]?.bind Trail.raw? = some u.status
  /-- A result is held back from an even visit to the next odd one. -/
  holds : memory.hasPending = true ↔ us.length % 2 = 1
  pending : ∀ j, us.length = 2 * j + 1 → us[2 * j]?.bind Trail.raw? = some memory.pending

/-- What stands at a place of a list with one more member. -/
theorem eq_of_getElem?_concat {α : Type} {xs : List α} {x y : α} {i : Nat} (h : (xs ++ [x])[i]? = some y) :
    xs[i]? = some y ∨ i = xs.length ∧ x = y := by
  obtain ⟨hi, rfl⟩ := List.getElem?_eq_some_iff.1 h
  rw [List.length_append, List.length_singleton] at hi
  rcases Nat.lt_or_eq_of_le (Nat.le_of_lt_succ hi) with hlt | rfl
  · left
    rw [List.getElem_append_left hlt]
    exact List.getElem?_eq_getElem hlt
  · exact .inr ⟨rfl, by simp⟩

namespace Delayed

/-- Before its first visit a delay holds nothing back. -/
theorem nil (children : List Nat) : Delayed ([] : List (Trail κ σ)) children {} where
  child := List.forall_mem_nil _
  even := nofun
  odd := nofun
  holds := by simp
  pending := nofun

section Concat

variable {us : List (Trail κ σ)} {children : List Nat} {memory : Memory} (h : Delayed us children memory)
  {u v : Trail κ σ} (hu : u.Passes children v)
include h hu

theorem child_concat : ∀ w ∈ us ++ [u], ∃ v, w.Passes children v := by
  intro w hw
  rcases List.mem_append.1 hw with hw | hw
  · exact h.child w hw
  · rw [List.mem_singleton.1 hw]
    exact ⟨v, hu⟩

/-- A delay that holds nothing back is running, and holds back what its child answers. -/
theorem hold (hnone : memory.hasPending = false) (hstatus : u.status = .running) :
    Delayed (us ++ [u]) children { memory with pending := v.status, hasPending := true } := by
  have hcount : ¬us.length % 2 = 1 := by
    rw [← h.holds, hnone]
    exact Bool.false_ne_true
  constructor
  case child => exact h.child_concat hu
  case even =>
    intro j w hw
    rcases eq_of_getElem?_concat hw with hw | ⟨-, rfl⟩
    · exact h.even j w hw
    · exact hstatus
  case odd =>
    intro j w hw
    rcases eq_of_getElem?_concat hw with hw | ⟨hj, -⟩
    · have hlt := (List.getElem?_eq_some_iff.1 hw).1
      rw [List.getElem?_append_left (by omega)]
      exact h.odd j w hw
    · omega
  case holds =>
    rw [List.length_append, List.length_singleton]
    simp only [true_iff]
    omega
  case pending =>
    intro j hj
    rw [List.length_append, List.length_singleton] at hj
    have hlast : 2 * j = us.length := by omega
    rw [hlast, List.getElem?_concat_length]
    exact hu.raw?_eq

/-- A delay that holds something back releases it, whatever its child answers. -/
theorem release (hsome : memory.hasPending = true) (hstatus : u.status = memory.pending) :
    Delayed (us ++ [u]) children { memory with hasPending := false } := by
  have hcount := h.holds.1 hsome
  constructor
  case child => exact h.child_concat hu
  case even =>
    intro j w hw
    rcases eq_of_getElem?_concat hw with hw | ⟨hj, -⟩
    · exact h.even j w hw
    · omega
  case odd =>
    intro j w hw
    rcases eq_of_getElem?_concat hw with hw | ⟨hj, rfl⟩
    · have hlt := (List.getElem?_eq_some_iff.1 hw).1
      rw [List.getElem?_append_left (by omega)]
      exact h.odd j w hw
    · rw [List.getElem?_append_left (by omega), hstatus]
      exact h.pending j hj.symm
  case holds =>
    rw [List.length_append, List.length_singleton]
    simp only [Bool.false_eq_true, false_iff]
    omega
  case pending =>
    intro j hj
    rw [List.length_append, List.length_singleton] at hj
    omega

end Concat

end Delayed

/-! ## Nodes and their visits -/

namespace Node

/-- If the node is a delay, these are its visits. -/
def Delays (us : List (Trail κ σ)) (m : Node κ σ) : Prop :=
  ∀ l memory c, m = decorator l .delay memory c → Delayed us [c.label.handle] memory

/-- A delay passes the scene on to its child, and what the child has left to whoever visits it. -/
theorem passes_trail_delay (l : Label) (memory : Memory) (c : Node κ σ) (scene : Scene κ σ) :
    ((decorator l .delay memory c).trail scene).Passes [c.label.handle] (c.trail scene) where
  inner := rfl
  children := by rw [label_trail]
  given := c.given_trail scene
  left := by
    cases hp : memory.hasPending <;> simp [trail, Decorator.enter, Decorator.restore, Decorator.leave, hp]

/-- One more visit goes on as the delay has answered so far. -/
theorem delayed_visit {us : List (Trail κ σ)} {memory : Memory} {c : Node κ σ}
    (h : Delayed us [c.label.handle] memory) (l : Label) (scene : Scene κ σ) :
    Delayed (us ++ [(decorator l .delay memory c).trail scene]) [c.label.handle]
      ((decorator l .delay memory c).visit scene).node.progress.memory := by
  have hpasses := passes_trail_delay l memory c scene
  have hraw : (c.visit scene).status = (c.trail scene).status := (c.visit_eq_trail scene).1
  have hclose : ((decorator l .delay memory c).visit scene).node.progress.memory =
      (Decorator.delay.leave l memory (c.visit scene).status (c.visit scene).scene).memory := rfl
  have hstatus : ((decorator l .delay memory c).trail scene).status =
      (Decorator.delay.leave l memory (c.trail scene).status (c.trail scene).left).status := rfl
  rw [hclose, hraw]
  cases hp : memory.hasPending with
  | false =>
    simp only [Decorator.leave, hp, Bool.false_eq_true, if_false] at hstatus ⊢
    exact h.hold hpasses hp hstatus
  | true =>
    simp only [Decorator.leave, hp, if_true] at hstatus ⊢
    exact h.release hpasses hp hstatus

theorem delays_visit (us : List (Trail κ σ)) (m : Node κ σ) (scene : Scene κ σ) (h : m.Delays us) :
    (m.visit scene).node.Delays (us ++ [m.trail scene]) := by
  intro l memory c heq
  cases m with
  | leaf => cases heq
  | composite => cases heq
  | decorator l' wrap memory' c' =>
    obtain ⟨-, hwrap, rfl, rfl⟩ := decorator.inj heq
    subst hwrap
    rw [label_visit]
    exact delayed_visit (h l' memory' c' rfl) l' scene

theorem delays_reset (m : Node κ σ) : m.reset.Delays [] := by
  intro l memory c heq
  cases m with
  | leaf => cases heq
  | composite => cases heq
  | decorator =>
    obtain ⟨rfl, rfl, rfl, rfl⟩ := decorator.inj heq
    exact Delayed.nil _

end Node

/-! ## Every run -/

/-- Below a root, in this run, in place and on the tree: every delay that can be reached has answered so in its visits
since the last reset, and holds back what it has to. -/
def Builder.Delays (b : Builder κ σ) (root : Int) (commands : List (Command κ σ)) : Prop :=
  ∃ (n : Node κ σ) (turns : List (Turn κ σ)) (t : Tree κ σ) (a : Arena κ σ), b.Runs root commands n turns t a ∧
    ∀ h d, Reaches b.drafts root.toNat h → b.drafts[h]? = some d → d.role = .decorator (some .delay) →
      Delayed (visitsOf (n.course [] commands).1 h) d.children (a.progressOf h).memory

/-- Below every checked root of every builder, in every run. -/
theorem delay_alternates (capacity : Nat) (cs : List (Call κ σ)) (root : Int) (commands : List (Command κ σ))
    (hcheck : (Builder.built capacity cs).check root = none) : (Builder.built capacity cs).Delays root commands := by
  obtain ⟨n, turns, t, a, hruns, hnodes⟩ :=
    exists_runs_of_check Node.delays_visit Node.delays_reset (Builder.forest_built capacity cs) hcheck commands
  refine ⟨n, turns, t, a, hruns, ?_⟩
  intro h d hreach hd hrole
  obtain ⟨m, -, hplays, hchildren, hprogress, hdelays⟩ := hnodes h d hreach hd
  rw [hrole] at hplays
  cases m with
  | leaf => cases hplays
  | composite => cases hplays.1
  | decorator l wrap memory c =>
    cases hplays
    rw [hchildren, hprogress]
    exact hdelays l memory c rfl

/-- A patrol takes the short way as long as a lamp burns, and otherwise the long one, whose news come a turn late. -/
def patrol : List (Call Nat Nat) :=
  [.composite .selector "patrol" false, .leaf "short" (some fun s => (if s.context = 1 then .success else .failure, s)),
    .attach 0 1, .leaf "long" (some fun s => (.success, { s with world := s.world + 1 })), .delayed 2, .attach 0 3]

/-- The delay is visited, passed over and visited again, then reset with a result held back. -/
theorem delay_alternates_patrol : (Builder.built 5 patrol).check 0 = none ∧
    (Builder.built 5 patrol).Delays 0 [.tick ⟨0, 0⟩, .tick ⟨1, 0⟩, .tick ⟨0, 0⟩, .tick ⟨0, 0⟩, .reset, .tick ⟨0, 0⟩] :=
  ⟨rfl, delay_alternates 5 patrol 0 _ rfl⟩

end Behaviour
