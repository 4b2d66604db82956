import Behaviour.Proofs.Session

/-!
# A reset makes a tree new

Whatever was asked of a tree, after a reset it is the tree that was frozen, but for the count of ticks and the
observer, which stay (`reset_renews`). This holds in place for every slot, those included that cannot be reached from
the root: what can be reached shows a root that differs from the frozen one in progress only, and what cannot is never
played. As a session depends on the root and the observer alone, all later requests are answered as by a tree that has
just been frozen.
-/

namespace Behaviour

variable {κ σ : Type}

open Play

theorem Arena.reset_reset (a : Arena κ σ) : a.reset.reset = a.reset := by
  simp only [Arena.reset, List.map_map]
  rfl

/-- A reset keeps the drafts of all slots. -/
theorem Arena.map_draft_reset (a : Arena κ σ) : a.reset.slots.map Slot.draft = a.slots.map Slot.draft := by
  rw [Arena.reset, List.map_map]
  rfl

/-- Slots that forget their progress are determined by their drafts. -/
theorem Arena.slots_reset (a : Arena κ σ) :
    a.reset.slots = (a.slots.map Slot.draft).map fun d => { draft := d } := by
  rw [Arena.reset, List.map_map]
  rfl

namespace Mirrors

variable {a : Arena κ σ} {t : Tree κ σ} {n : Node κ σ} {b : Builder κ σ} {root : Int}

/-- Two arenas play below the same root if their roots differ in progress only. -/
theorem root_eq {a' : Arena κ σ} {t' : Tree κ σ} {n' : Node κ σ} (h : Mirrors a t n) (h' : Mirrors a' t' n')
    (hreset : n.reset = n'.reset) : a.root = a'.root := by
  have hlabel : n.label = n'.label := Node.label_eq_of_reset_eq hreset
  have hroot := h.root
  have hroot' := h'.root
  rw [hlabel] at hroot
  have := h.root_nonneg
  have := h'.root_nonneg
  omega

/-- An arena with the drafts of a builder is reset to what was frozen; only the count of ticks and the log are its
own. -/
theorem reset_arena (h : Mirrors a t n) (hcheck : b.check root = none) (hdrafts : a.slots.map Slot.draft = b.drafts)
    (hroot : a.root = root) :
    a.reset = { Arena.freeze b root with ticks := a.ticks, log := a.log } := by
  have hslots : a.reset.slots = (Arena.freeze b root).slots := by
    rw [Arena.slots_reset, hdrafts]
    rfl
  have hdefect : a.defect = (Arena.freeze b root).defect := h.defect.trans hcheck.symm
  calc a.reset
      = ⟨a.reset.slots, a.root, a.defect, .failure, a.ticks, a.log⟩ := rfl
    _ = ⟨(Arena.freeze b root).slots, root, (Arena.freeze b root).defect, .failure, a.ticks, a.log⟩ := by
        rw [hslots, hroot, hdefect]

/-- A tree whose root is the planned one but for its progress is reset to what was frozen; only the count of ticks and
the observer are its own. -/
theorem reset_tree (h : Mirrors a t n) {n₀ : Node κ σ} (hplan : b.plan root = .ok n₀) (hreset : n.reset = n₀)
    (hdrafts : t.drafts = b.drafts) (hroot : t.root = root) :
    t.reset = { Tree.freeze b root with ticks := t.ticks, tracing := t.tracing } := by
  have hplan' : t.reset.plan = (Tree.freeze b root).plan := by
    simp only [Tree.reset, h.plan, Except.map, hreset, Tree.freeze, hplan]
  calc t.reset
      = ⟨t.drafts, t.root, t.reset.plan, .failure, t.ticks, t.tracing⟩ := rfl
    _ = ⟨b.drafts, root, (Tree.freeze b root).plan, .failure, t.ticks, t.tracing⟩ := by
        rw [hdrafts, hroot, hplan']

end Mirrors

/-- What grows has no progress yet. -/
theorem reset_grow {ds : List (Draft κ σ)} (hf : Forest ds) : ∀ (depth : Nat) {h : Nat} {n : Node κ σ},
    grow ds depth h = .ok n → n.reset = n
  | 0, _, _, hg => by cases hg
  | depth + 1, h, n, hg => by
    obtain ⟨k, d, hk, -, -, -, hprogress, hchildren⟩ := grow_cases hf hg
    obtain rfl : depth = k := Nat.succ.inj hk
    have hbelow : ∀ m ∈ n.children, m.reset = m := fun m hm => by
      obtain ⟨x, hx⟩ := exists_of_mapM_grow hchildren m hm
      exact reset_grow hf depth hx
    cases n with
    | leaf => rfl
    | composite l rule keep cursor ns =>
      obtain rfl : cursor = none := congrArg Progress.cursor hprogress
      have hns : ns.map Node.reset = ns := (List.map_congr_left hbelow).trans (List.map_id' ns)
      rw [Node.reset, Node.resetAll_eq_map, hns]
    | decorator l wrap memory m =>
      obtain rfl : memory = {} := congrArg Progress.memory hprogress
      rw [Node.reset, hbelow m List.mem_cons_self]

theorem reset_plan {b : Builder κ σ} {root : Int} {n : Node κ σ} (hf : Forest b.drafts) (h : b.plan root = .ok n) :
    n.reset = n := by
  obtain ⟨-, -, -, hgrow⟩ := Builder.grow_of_plan h
  exact reset_grow hf _ hgrow

/-- Below a root, after these requests, a reset makes everything new. Every slot is as it was frozen, and so are the
tree and its last status; the drafts, the count of ticks and the observer are as before the reset. Later requests are
answered, and leave the progress of all nodes, as with a tree that is frozen anew. A second reset changes nothing. -/
def Builder.Renews (b : Builder κ σ) (root : Int) (requests : List (Request κ σ)) : Prop :=
  ∃ (replies : List (Reply κ σ)) (a : Arena κ σ) (t : Tree κ σ),
    (Arena.serve false requests).Yields (Arena.freeze b root) replies a ∧
    (Tree.freeze b root).serve requests = .ok (replies, t) ∧
    a.reset = { Arena.freeze b root with ticks := a.ticks, log := a.log } ∧
    t.reset = { Tree.freeze b root with ticks := t.ticks, tracing := t.tracing } ∧
    a.reset.slots.map Slot.draft = a.slots.map Slot.draft ∧ t.reset.drafts = t.drafts ∧
    (∀ later : List (Request κ σ), ∃ (replies' : List (Reply κ σ)) (a₁ a₂ : Arena κ σ) (t₁ t₂ : Tree κ σ),
      (Arena.serve t.tracing later).Yields a.reset replies' a₁ ∧
      (Arena.serve t.tracing later).Yields (Arena.freeze b root) replies' a₂ ∧
      t.reset.serve later = .ok (replies', t₁) ∧
      ((Tree.freeze b root).watch t.tracing).serve later = .ok (replies', t₂) ∧
      (∀ h, a₁.progressOf h = a₂.progressOf h) ∧ ∀ h, t₁.progressOf h = t₂.progressOf h) ∧
    a.reset.reset = a.reset ∧ t.reset.reset = t.reset

/-- Below every checked root of every builder, a reset makes everything new, whatever was asked before. -/
theorem reset_renews (capacity : Nat) (cs : List (Call κ σ)) (root : Int) (requests : List (Request κ σ))
    (hcheck : (Builder.built capacity cs).check root = none) : (Builder.built capacity cs).Renews root requests := by
  have hf := Builder.forest_built capacity cs
  obtain ⟨n₀, hfresh⟩ := Mirrors.freeze hf hcheck
  have hplan : (Builder.built capacity cs).plan root = .ok n₀ := hfresh.plan
  obtain ⟨a, t, hserve, hyields, h, hdrafts, hdrafts', hroot'⟩ := hfresh.serve requests
  -- The root that is left after a reset is the one that was frozen.
  have hfixed : n₀.reset = n₀ := reset_plan hf hplan
  have hreset := Node.reset_serve requests (Tree.freeze (Builder.built capacity cs) root).tracing n₀
  have hslots := hdrafts.trans (Arena.map_draft_freeze _ root)
  have hroot : a.root = root := h.root_eq hfresh hreset
  rw [hfixed] at hreset
  have hrenewed := h.reset
  rw [hreset] at hrenewed
  refine ⟨_, a, t, hyields, hserve, h.reset_arena hcheck hslots hroot, h.reset_tree hplan hreset hdrafts' hroot',
    a.map_draft_reset, rfl, fun later => ?_, a.reset_reset, t.reset_reset⟩
  obtain ⟨a₁, t₁, hserve₁, hyields₁, h₁, -⟩ := hrenewed.serve later
  obtain ⟨a₂, t₂, hserve₂, hyields₂, h₂, -⟩ := (hfresh.watch t.tracing).serve later
  have hsame : ∀ x, t₁.progressOf x = t₂.progressOf x := fun x => by
    simp only [Tree.progressOf, h₁.plan, h₂.plan]
    rfl
  exact ⟨_, a₁, a₂, t₁, t₂, hyields₁, hyields₂, hserve₁, hserve₂,
    fun x => (h₁.progressOf x).trans ((hsame x).trans (h₂.progressOf x).symm), hsame⟩

/-- A walk that needs one more turn is interrupted, under observation and with a circle aside. -/
theorem reset_renews_errand : (Builder.built 8 errand).check 0 = none ∧
    (Builder.built 8 errand).Renews 0 [.watch true, .tick ⟨(), 0⟩, .list] :=
  ⟨rfl, reset_renews 8 errand 0 _ rfl⟩

end Behaviour
