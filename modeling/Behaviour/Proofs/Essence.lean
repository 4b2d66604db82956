import Behaviour.Proofs.Subtree

/-!
# What later visits read

Of the progress of a node a later visit reads only its *essence*: the place of a composite that keeps it, a result that
is held back, whether an awaited test has held, and all of a memory that hooks can see. Two nodes that differ in other
progress only are equivalent (`≈`). `visit_congr` says that equivalent nodes answer and act alike and stay equivalent;
a reset makes them equal (`reset_congr`), and below them the same nodes are found by name (`named?_congr`).
-/

namespace Behaviour

variable {κ σ : Type}

/-! ## Memories -/

namespace Decorator

/-- What the decorator reads of its memory in a later visit. -/
def essential (m : Memory) : Decorator κ σ → Memory
  | negate => {}
  | delay => if m.hasPending then { pending := m.pending, hasPending := true } else {}
  | await _ => { done := m.done }
  | custom _ _ => m

@[simp] theorem essential_essential (w : Decorator κ σ) (m : Memory) : w.essential (w.essential m) = w.essential m := by
  cases w with
  | delay => cases h : m.hasPending <;> simp [essential, h]
  | negate | await | custom => rfl

@[simp] theorem hasPending_essential_delay (m : Memory) :
    ((delay : Decorator κ σ).essential m).hasPending = m.hasPending := by
  cases h : m.hasPending <;> simp [essential, h]

theorem pending_essential_delay {m : Memory} (h : m.hasPending = true) :
    ((delay : Decorator κ σ).essential m).pending = m.pending := by
  simp [essential, h]

/-- A decorator opens alike with the essential part of its memory. -/
theorem enter_essential (w : Decorator κ σ) (l : Label) (m : Memory) (s : Scene κ σ) :
    w.enter l (w.essential m) s =
      { w.enter l m s with memory := w.essential (w.enter l m s).memory } := by
  cases w with
  | await test => cases h : m.done <;> simp [enter, essential, h]
  | custom before after => cases before <;> rfl
  | negate | delay => rfl

/-- A decorator closes alike with the essential part of its memory. What it then remembers may differ, since a released
result stays in place, but not in what is essential. -/
theorem leave_essential (w : Decorator κ σ) (l : Label) (m : Memory) (raw : Status) (s : Scene κ σ) :
    (w.leave l (w.essential m) raw s).status = (w.leave l m raw s).status ∧
      w.essential (w.leave l (w.essential m) raw s).memory = w.essential (w.leave l m raw s).memory ∧
      (w.leave l (w.essential m) raw s).scene = (w.leave l m raw s).scene ∧
      (w.leave l (w.essential m) raw s).log = (w.leave l m raw s).log := by
  cases w with
  | negate => exact ⟨rfl, rfl, rfl, rfl⟩
  | delay => cases h : m.hasPending <;> simp [leave, essential, h]
  | await test => cases raw <;> cases h : m.done <;> simp [leave, essential, h]
  | custom before after => exact ⟨rfl, rfl, rfl, rfl⟩

/-- A decorator opens alike with two memories that have the same essence. -/
theorem enter_congr {w : Decorator κ σ} {m m' : Memory} (h : w.essential m = w.essential m') (l : Label)
    (s : Scene κ σ) : (w.enter l m s).scene = (w.enter l m' s).scene ∧ (w.enter l m s).log = (w.enter l m' s).log ∧
      w.essential (w.enter l m s).memory = w.essential (w.enter l m' s).memory := by
  have he := w.enter_essential l m s
  rw [h, w.enter_essential l m' s] at he
  simp only [Opening.mk.injEq] at he
  exact ⟨he.2.1.symm, he.2.2.symm, he.1.symm⟩

/-- A decorator closes alike with two memories that have the same essence. -/
theorem leave_congr {w : Decorator κ σ} {m m' : Memory} (h : w.essential m = w.essential m') (l : Label) (raw : Status)
    (s : Scene κ σ) : (w.leave l m raw s).status = (w.leave l m' raw s).status ∧
      w.essential (w.leave l m raw s).memory = w.essential (w.leave l m' raw s).memory ∧
      (w.leave l m raw s).scene = (w.leave l m' raw s).scene ∧ (w.leave l m raw s).log = (w.leave l m' raw s).log := by
  obtain ⟨hstatus, hmemory, hscene, hlog⟩ := w.leave_essential l m raw s
  obtain ⟨hstatus', hmemory', hscene', hlog'⟩ := w.leave_essential l m' raw s
  rw [h] at hstatus hmemory hscene hlog
  exact ⟨hstatus.symm.trans hstatus', hmemory.symm.trans hmemory', hscene.symm.trans hscene',
    hlog.symm.trans hlog'⟩

end Decorator

namespace Node

/-! ## Nodes -/

mutual
/-- The node with no other progress than what later visits read. -/
def essence : Node κ σ → Node κ σ
  | leaf l a => leaf l a
  | composite l r k c ns => composite l r k (some (startPlace k c)) (essenceAll ns)
  | decorator l w m n => decorator l w (w.essential m) n.essence

/-- Several nodes with no other progress than what later visits read. -/
def essenceAll : List (Node κ σ) → List (Node κ σ)
  | [] => []
  | n :: ns => n.essence :: essenceAll ns
end

@[simp] theorem essenceAll_eq_map (ns : List (Node κ σ)) : essenceAll ns = ns.map essence := by
  induction ns with
  | nil => rfl
  | cons n ns ih => simp [essenceAll, ih]

theorem startPlace_some_startPlace (keep : Bool) (c : Option Nat) :
    startPlace keep (some (startPlace keep c)) = startPlace keep c := by
  cases keep <;> rfl

mutual
@[simp] theorem essence_essence : ∀ n : Node κ σ, n.essence.essence = n.essence
  | leaf _ _ => rfl
  | composite _ _ k c ns => by
    rw [essence, essence, startPlace_some_startPlace, essenceAll_essenceAll ns]
  | decorator _ w m n => by rw [essence, essence, w.essential_essential, essence_essence n]

theorem essenceAll_essenceAll : ∀ ns : List (Node κ σ), essenceAll (essenceAll ns) = essenceAll ns
  | [] => rfl
  | n :: ns => by rw [essenceAll, essenceAll, essence_essence n, essenceAll_essenceAll ns]
end

/-- Nodes that differ in nothing that a later visit reads. -/
instance : Setoid (Node κ σ) where
  r n m := n.essence = m.essence
  iseqv := ⟨fun _ => rfl, Eq.symm, Eq.trans⟩

theorem equiv_iff {n m : Node κ σ} : n ≈ m ↔ n.essence = m.essence := Iff.rfl

@[simp] theorem label_essence (n : Node κ σ) : n.essence.label = n.label := by
  cases n <;> rfl

theorem equiv_composite {l : Label} {r : Rule} {keep : Bool} {c c' : Option Nat} {ns ns' : List (Node κ σ)}
    (hc : startPlace keep c = startPlace keep c') (hns : ns.map essence = ns'.map essence) :
    composite l r keep c ns ≈ composite l r keep c' ns' := by
  rw [equiv_iff, essence, essence, essenceAll_eq_map, essenceAll_eq_map, hc, hns]

/-- What is equivalent to a composite is one that starts at the same place. -/
theorem exists_of_equiv_composite {n : Node κ σ} {l : Label} {r : Rule} {keep : Bool} {c : Option Nat}
    {ns : List (Node κ σ)} (h : n ≈ composite l r keep c ns) :
    ∃ c' ns', n = composite l r keep c' ns' ∧ startPlace keep c' = startPlace keep c := by
  rw [equiv_iff] at h
  cases n with
  | composite l' r' keep' c' ns' =>
    simp only [essence, composite.injEq, Option.some.injEq] at h
    obtain ⟨rfl, rfl, rfl, hc, -⟩ := h
    exact ⟨c', ns', rfl, hc⟩
  | leaf | decorator => simp [essence] at h

/-- What is equivalent to a decorator is one with the same essential memory. -/
theorem exists_of_equiv_decorator {n m : Node κ σ} {l : Label} {w : Decorator κ σ} {memory : Memory}
    (h : n ≈ decorator l w memory m) :
    ∃ memory' m', n = decorator l w memory' m' ∧ w.essential memory' = w.essential memory := by
  rw [equiv_iff] at h
  cases n with
  | decorator l' w' memory' m' =>
    simp only [essence, decorator.injEq] at h
    obtain ⟨rfl, rfl, hm, -⟩ := h
    exact ⟨memory', m', rfl, hm⟩
  | leaf | composite => simp [essence] at h

/-! ## Visits -/

mutual
/-- A visit of the essence of a node answers and acts as one of the node does, and leaves an equivalent node. -/
theorem visit_essence : ∀ (n : Node κ σ) (s : Scene κ σ),
    (n.essence.visit s).status = (n.visit s).status ∧ (n.essence.visit s).node ≈ (n.visit s).node ∧
      (n.essence.visit s).scene = (n.visit s).scene ∧ (n.essence.visit s).log = (n.visit s).log
  | leaf _ _, _ => ⟨rfl, rfl, rfl, rfl⟩
  | composite l rule keep cursor ns, s => by
    obtain ⟨hstatus, hstop, hchildren, hscene, hlog⟩ := scan_essenceAll rule (startPlace keep cursor) ns s
    simp only [essence, visit, Visit.finish, startPlace_some_startPlace, hstatus, hstop, hscene, hlog, label, kind,
      true_and, and_true]
    exact equiv_composite rfl hchildren
  | decorator l w m n, s => by
    simp only [essence, visit, Visit.finish, w.enter_essential]
    obtain ⟨hstatus, hnode, hscene, hlog⟩ := visit_essence n (w.enter l m s).scene
    rw [hstatus, hscene, hlog]
    obtain ⟨hstatus', hmemory, hscene', hlog'⟩ := w.leave_essential l (w.enter l m s).memory
      (n.visit (w.enter l m s).scene).status (w.restore s (n.visit (w.enter l m s).scene).scene)
    refine ⟨hstatus', ?_, hscene', ?_⟩
    · rw [equiv_iff, essence, essence, hmemory, equiv_iff.1 hnode]
    · simp only [hstatus', hscene', hlog', label, kind]

theorem scan_essenceAll (rule : Rule) : ∀ (skip : Nat) (ns : List (Node κ σ)) (s : Scene κ σ),
    (scan rule skip (essenceAll ns) s).status = (scan rule skip ns s).status ∧
      (scan rule skip (essenceAll ns) s).stop = (scan rule skip ns s).stop ∧
      (scan rule skip (essenceAll ns) s).children.map essence = (scan rule skip ns s).children.map essence ∧
      (scan rule skip (essenceAll ns) s).scene = (scan rule skip ns s).scene ∧
      (scan rule skip (essenceAll ns) s).log = (scan rule skip ns s).log
  | _, [], _ => by simp [essenceAll]
  | skip + 1, n :: ns, s => by
    obtain ⟨hstatus, hstop, hchildren, hscene, hlog⟩ := scan_essenceAll rule skip ns s
    simp only [essenceAll, scan, hstatus, hstop, hscene, hlog, List.map_cons, hchildren, essence_essence, and_self]
  | 0, n :: ns, s => by
    obtain ⟨hstatus, hnode, hscene, hlog⟩ := visit_essence n s
    by_cases hgo : (n.visit s).status = rule.onward
    · obtain ⟨hstatus', hstop', hchildren', hscene', hlog'⟩ := scan_essenceAll rule 0 ns (n.visit s).scene
      rw [essenceAll, scan_of_onward (hstatus.trans hgo), scan_of_onward hgo, hscene]
      simp only [hstatus', hstop', hscene', hlog, hlog', List.map_cons, hchildren', equiv_iff.1 hnode, and_self]
    · rw [essenceAll, scan_of_ne_onward (fun h => hgo (hstatus.symm.trans h)), scan_of_ne_onward hgo]
      simp only [hstatus, hscene, hlog, List.map_cons, equiv_iff.1 hnode, ← essenceAll_eq_map,
        essenceAll_essenceAll, and_self]
end

/-- Equivalent nodes answer and act alike, and stay equivalent. -/
theorem visit_congr {n m : Node κ σ} (h : n ≈ m) (s : Scene κ σ) :
    (n.visit s).status = (m.visit s).status ∧ (n.visit s).node ≈ (m.visit s).node ∧
      (n.visit s).scene = (m.visit s).scene ∧ (n.visit s).log = (m.visit s).log := by
  obtain ⟨hstatus, hnode, hscene, hlog⟩ := visit_essence n s
  rw [equiv_iff.1 h] at hstatus hnode hscene hlog
  obtain ⟨hstatus', hnode', hscene', hlog'⟩ := visit_essence m s
  exact ⟨hstatus.symm.trans hstatus', (Setoid.symm hnode).trans hnode', hscene.symm.trans hscene',
    hlog.symm.trans hlog'⟩

/-! ## Resets -/

mutual
/-- A reset forgets what is essential as well. -/
theorem reset_essence : ∀ n : Node κ σ, n.essence.reset = n.reset
  | leaf _ _ => rfl
  | composite _ _ _ _ ns => by rw [essence, reset, reset, resetAll_essenceAll ns]
  | decorator _ _ _ n => by rw [essence, reset, reset, reset_essence n]

theorem resetAll_essenceAll : ∀ ns : List (Node κ σ), resetAll (essenceAll ns) = resetAll ns
  | [] => rfl
  | n :: ns => by rw [essenceAll, resetAll, resetAll, reset_essence n, resetAll_essenceAll ns]
end

theorem reset_congr {n m : Node κ σ} (h : n ≈ m) : n.reset = m.reset := by
  rw [← reset_essence n, equiv_iff.1 h, reset_essence]

/-! ## Nodes by name -/

mutual
theorem subtree_essence : ∀ n : Node κ σ, n.essence.subtree = n.subtree.map essence
  | leaf _ _ => rfl
  | composite _ _ _ _ ns => by rw [essence, subtree, subtree, forest_essenceAll ns]; rfl
  | decorator _ _ _ n => by rw [essence, subtree, subtree, subtree_essence n]; rfl

theorem forest_essenceAll : ∀ ns : List (Node κ σ), forest (essenceAll ns) = (forest ns).map essence
  | [] => rfl
  | n :: ns => by rw [essenceAll, forest, forest, subtree_essence n, forest_essenceAll ns, List.map_append]
end

/-- The first node of a name, the node itself and all nodes below it being searched, each before its children. -/
def named? (n : Node κ σ) (name : String) : Option (Node κ σ) := n.subtree.find? fun m => m.label.name == name

theorem named?_essence (n : Node κ σ) (name : String) : n.essence.named? name = (n.named? name).map essence := by
  rw [named?, named?, subtree_essence, List.find?_map]
  congr 2
  funext m
  exact congrArg (fun l : Label => l.name == name) (label_essence m)

/-- Below equivalent nodes, equivalent nodes are found under a name. -/
theorem named?_congr {n m x : Node κ σ} {name : String} (h : n ≈ m) (hx : m.named? name = some x) :
    ∃ y, n.named? name = some y ∧ y ≈ x := by
  have heq : (n.named? name).map essence = (m.named? name).map essence := by
    rw [← named?_essence, ← named?_essence, equiv_iff.1 h]
  rw [hx] at heq
  exact Option.map_eq_some_iff.1 heq

end Node

end Behaviour
