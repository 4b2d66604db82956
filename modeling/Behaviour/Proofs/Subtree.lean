import Behaviour.Visit

/-!
# Nodes and what is below them

The subtree of a node is the node and the subtrees of its children (`subtree_eq`), so that a property of all nodes of
a subtree is one of the node and of all nodes below each child (`All`). A visit changes nothing but progress
(`reset_visit`); a scan that leaves out children is a scan of the others (`scan_eq_drop`).
-/

namespace Behaviour.Node

variable {κ σ : Type}

/-! ## Subtrees -/

theorem subtree_eq (n : Node κ σ) : n.subtree = n :: n.children.flatMap subtree := by
  cases n <;> simp [subtree, children]

theorem mem_subtree_self (n : Node κ σ) : n ∈ n.subtree := by
  rw [subtree_eq]
  exact List.mem_cons_self

mutual
/-- The subtree of a node of a subtree is a part of it. -/
theorem subtree_sublist : ∀ {n m : Node κ σ}, m ∈ n.subtree → m.subtree.Sublist n.subtree
  | leaf _ _, m, hm => by
    obtain rfl := List.mem_singleton.1 hm
    exact .refl _
  | composite _ _ _ _ ns, m, hm => by
    rcases List.mem_cons.1 hm with rfl | hm
    · exact .refl _
    · exact (subtree_sublist_forest hm).cons _
  | decorator _ _ _ n, m, hm => by
    rcases List.mem_cons.1 hm with rfl | hm
    · exact .refl _
    · exact (subtree_sublist hm).cons _

theorem subtree_sublist_forest : ∀ {ns : List (Node κ σ)} {m : Node κ σ}, m ∈ forest ns →
    m.subtree.Sublist (forest ns)
  | n :: ns, m, hm => by
    rw [forest] at hm ⊢
    rcases List.mem_append.1 hm with hm | hm
    · exact (subtree_sublist hm).trans (List.sublist_append_left _ _)
    · exact (subtree_sublist_forest hm).trans (List.sublist_append_right _ _)
end

section Induction

variable {P : List (Node κ σ) → Prop} (nil : P []) (cons : ∀ n ns, P n.children → P ns → P (n :: ns))
include nil cons

mutual
theorem forest_induction_children : ∀ n : Node κ σ, P n.children
  | leaf _ _ => nil
  | composite _ _ _ _ ns => forest_induction ns
  | decorator _ _ _ n => cons n [] (forest_induction_children n) nil

/-- What is true of no nodes, and of some nodes if it is of the children of the first one and of the others, is true of
all lists of nodes. -/
theorem forest_induction : ∀ ns : List (Node κ σ), P ns
  | [] => nil
  | n :: ns => cons n ns (forest_induction_children n) (forest_induction ns)
end

end Induction

/-- The handles of a node and of all nodes below it. -/
def handles (n : Node κ σ) : List Nat := n.subtree.map fun m => m.label.handle

theorem handles_eq (n : Node κ σ) : n.handles = n.label.handle :: n.children.flatMap handles := by
  rw [handles, subtree_eq, List.map_cons, List.map_flatMap]
  rfl

theorem handles_eq_map_labels (n : Node κ σ) : n.handles = n.labels.map Label.handle := by
  simp [handles, labels]

theorem nodup_of_mem {n m : Node κ σ} (h : n.handles.Nodup) (hm : m ∈ n.subtree) : m.handles.Nodup :=
  h.sublist ((subtree_sublist hm).map _)

/-- The node and all nodes below it have a property. -/
def All (P : Node κ σ → Prop) (n : Node κ σ) : Prop := ∀ m ∈ n.subtree, P m

namespace All

variable {P : Node κ σ → Prop} {n : Node κ σ}

theorem self (h : n.All P) : P n := h n n.mem_subtree_self

theorem child {m : Node κ σ} (h : n.All P) (hm : m ∈ n.children) : m.All P := fun x hx =>
  h x (by
    rw [subtree_eq]
    exact List.mem_cons_of_mem _ (List.mem_flatMap.2 ⟨m, hm, hx⟩))

theorem of_mem {m : Node κ σ} (h : n.All P) (hm : m ∈ n.subtree) : m.All P := fun x hx =>
  h x ((subtree_sublist hm).subset hx)

theorem of_children (hn : P n) (h : ∀ m ∈ n.children, m.All P) : n.All P := by
  intro x hx
  rw [subtree_eq] at hx
  rcases List.mem_cons.1 hx with rfl | hx
  · exact hn
  · obtain ⟨m, hm, hx⟩ := List.mem_flatMap.1 hx
    exact h m hm x hx

end All

/-! ## Resets -/

@[simp] theorem label_reset (n : Node κ σ) : n.reset.label = n.label := by
  cases n <;> rfl

/-- Nodes that differ in progress only have the same label. -/
theorem label_eq_of_reset_eq {n m : Node κ σ} (h : n.reset = m.reset) : n.label = m.label := by
  rw [← label_reset n, h, label_reset]

theorem children_reset (n : Node κ σ) : n.reset.children = n.children.map reset := by
  cases n <;> simp [reset, children]

theorem progress_reset (n : Node κ σ) : n.reset.progress = {} := by
  cases n <;> rfl

mutual
/-- The nodes below a node that forgets its progress are those below it, each without progress. -/
theorem subtree_reset : ∀ n : Node κ σ, n.reset.subtree = n.subtree.map reset
  | leaf _ _ => rfl
  | composite _ _ _ _ ns => by rw [reset, subtree, subtree, forest_resetAll ns]; rfl
  | decorator _ _ _ n => by rw [reset, subtree, subtree, subtree_reset n]; rfl

theorem forest_resetAll : ∀ ns : List (Node κ σ), forest (resetAll ns) = (forest ns).map reset
  | [] => rfl
  | n :: ns => by rw [resetAll, forest, forest, subtree_reset n, forest_resetAll ns, List.map_append]
end

@[simp] theorem handles_reset (n : Node κ σ) : n.reset.handles = n.handles := by
  rw [handles_eq_map_labels, handles_eq_map_labels, labels_reset]

/-- A property that does not depend on progress is kept by a reset. -/
theorem all_reset_iff {P : Node κ σ → Prop} (hP : ∀ m : Node κ σ, P m.reset ↔ P m) (n : Node κ σ) :
    n.reset.All P ↔ n.All P := by
  unfold All
  rw [subtree_reset, List.forall_mem_map]
  exact forall₂_congr fun m _ => hP m

/-! ## Visits -/

@[simp] theorem label_visit (n : Node κ σ) (scene : Scene κ σ) : (n.visit scene).node.label = n.label := by
  cases n <;> rfl

@[simp] theorem handles_visit (n : Node κ σ) (scene : Scene κ σ) : (n.visit scene).node.handles = n.handles := by
  rw [handles_eq_map_labels, handles_eq_map_labels, labels_visit]

mutual
/-- A visit changes nothing but progress. -/
theorem reset_visit : ∀ (n : Node κ σ) (scene : Scene κ σ), (n.visit scene).node.reset = n.reset
  | leaf _ _, _ => rfl
  | composite _ rule keep cursor ns, scene => by
    simp only [visit, Visit.finish, reset, resetAll_scan rule (startPlace keep cursor) ns scene]
  | decorator l wrap memory n, scene => by
    simp only [visit, Visit.finish, reset, reset_visit n (wrap.enter l memory scene).scene]

theorem resetAll_scan (rule : Rule) : ∀ (skip : Nat) (ns : List (Node κ σ)) (scene : Scene κ σ),
    resetAll (scan rule skip ns scene).children = resetAll ns
  | _, [], _ => by rw [scan]
  | skip + 1, n :: ns, scene => by simp only [scan, resetAll, resetAll_scan rule skip ns scene]
  | 0, n :: ns, scene => by
    simp only [scan]
    split
    · simp only [resetAll, reset_visit n scene, resetAll_scan rule 0 ns (n.visit scene).scene]
    · simp only [resetAll, reset_visit n scene]
end

theorem map_handle_scan (rule : Rule) (skip : Nat) (ns : List (Node κ σ)) (scene : Scene κ σ) :
    ((scan rule skip ns scene).children.map fun m => m.label.handle) = ns.map fun m => m.label.handle := by
  have h := congrArg (List.map fun m : Node κ σ => m.label.handle) (resetAll_scan rule skip ns scene)
  simpa [Function.comp_def] using h

theorem scan_of_onward {rule : Rule} {n : Node κ σ} {scene : Scene κ σ} (h : (n.visit scene).status = rule.onward)
    (ns : List (Node κ σ)) : scan rule 0 (n :: ns) scene =
      ⟨(scan rule 0 ns (n.visit scene).scene).status, (scan rule 0 ns (n.visit scene).scene).stop + 1,
        (n.visit scene).node :: (scan rule 0 ns (n.visit scene).scene).children,
        (scan rule 0 ns (n.visit scene).scene).scene,
        (n.visit scene).log ++ (scan rule 0 ns (n.visit scene).scene).log⟩ := by
  rw [scan]
  exact if_pos h

theorem scan_of_ne_onward {rule : Rule} {n : Node κ σ} {scene : Scene κ σ} (h : (n.visit scene).status ≠ rule.onward)
    (ns : List (Node κ σ)) : scan rule 0 (n :: ns) scene =
      ⟨(n.visit scene).status, 0, (n.visit scene).node :: ns, (n.visit scene).scene, (n.visit scene).log⟩ := by
  rw [scan]
  exact if_neg h

/-- A scan that leaves out children is one of the children that are left. -/
theorem scan_eq_drop (rule : Rule) : ∀ (skip : Nat) (ns : List (Node κ σ)) (scene : Scene κ σ),
    skip ≤ ns.length → scan rule skip ns scene =
      { scan rule 0 (ns.drop skip) scene with
        stop := skip + (scan rule 0 (ns.drop skip) scene).stop
        children := ns.take skip ++ (scan rule 0 (ns.drop skip) scene).children }
  | 0, _, _, _ => by simp
  | skip + 1, [], _, h => by simp at h
  | skip + 1, n :: ns, scene, h => by
    rw [scan, scan_eq_drop rule skip ns scene (by simpa using h)]
    simp only [List.drop_succ_cons, List.take_succ_cons, List.cons_append, Nat.add_right_comm skip]

/-- A scan that ends with a running child stops at it. -/
theorem stop_scan_lt {rule : Rule} : ∀ {ns : List (Node κ σ)} {scene : Scene κ σ},
    (scan rule 0 ns scene).status = .running → (scan rule 0 ns scene).stop < ns.length
  | [], _, h => absurd h (rule.onward_ne_running)
  | n :: ns, scene, h => by
    by_cases honward : (n.visit scene).status = rule.onward
    · rw [scan_of_onward honward] at h ⊢
      have := stop_scan_lt h
      simp only [List.length_cons]
      omega
    · rw [scan_of_ne_onward honward]
      simp

end Behaviour.Node
