import Behaviour.Proofs.Subtree
import Behaviour.Tree

/-!
# Trails

The *trail* of a visit is the tree of all visits that were made in its course: which node was visited, the scene that
it was given, what it answered, the scene that it left, and the visits of its children, in order. `Node.trail` follows
a visit from answer to answer; it writes no log and changes no node. `visit_eq_trail` says that a visit answers as its
trail does, and that its log is the trail told in order.

Below the visited node the trail meets each node at most once and in the order of the tree (`handles_trail_sublist`);
every visit on it is one of a node of the subtree (`exists_of_mem_preorder`); and nodes that it does not meet are left
as they are (`kept_of_mem_subtree_visit`).
-/

namespace Behaviour

variable {κ σ : Type}

/-- A visit of a node with the visits that were made below it. -/
structure Trail (κ σ : Type) where
  label : Label
  kind : Kind
  /-- The scene that the node was given. -/
  given : Scene κ σ
  /-- The status that whoever made the visit was told. -/
  status : Status
  /-- The scene that the node left. -/
  left : Scene κ σ
  /-- What the node did itself before its children were visited. -/
  opened : List (Event κ σ)
  /-- What the node did itself after its children were visited. -/
  closed : List (Event κ σ)
  inner : List (Trail κ σ)

namespace Trail

/-! ## The visits of a trail -/

/-- What is told of the end of a visit. -/
def finish (t : Trail κ σ) : Event κ σ := .finished t.label t.kind t.status t.left

/-- What an observer is told of a visit. -/
def sighting (t : Trail κ σ) : Sighting κ σ := ⟨t.label.name, t.kind, t.status, t.left⟩

mutual
/-- The visits in the order in which they began. -/
def preorder : Trail κ σ → List (Trail κ σ)
  | ⟨label, kind, given, status, left, opened, closed, inner⟩ =>
    ⟨label, kind, given, status, left, opened, closed, inner⟩ :: preorderAll inner

/-- The visits of several trails, one trail after another, in the order in which they began. -/
def preorderAll : List (Trail κ σ) → List (Trail κ σ)
  | [] => []
  | t :: ts => t.preorder ++ preorderAll ts
end

mutual
/-- The visits in the order in which they ended. -/
def postorder : Trail κ σ → List (Trail κ σ)
  | ⟨label, kind, given, status, left, opened, closed, inner⟩ =>
    postorderAll inner ++ [⟨label, kind, given, status, left, opened, closed, inner⟩]

/-- The visits of several trails, one trail after another, in the order in which they ended. -/
def postorderAll : List (Trail κ σ) → List (Trail κ σ)
  | [] => []
  | t :: ts => t.postorder ++ postorderAll ts
end

mutual
/-- Everything that happened, in order. -/
def log : Trail κ σ → List (Event κ σ)
  | ⟨label, kind, _, status, left, opened, closed, inner⟩ =>
    opened ++ logAll inner ++ closed ++ [.finished label kind status left]

/-- Everything that happened on several trails, one after another. -/
def logAll : List (Trail κ σ) → List (Event κ σ)
  | [] => []
  | t :: ts => t.log ++ logAll ts
end

@[simp] theorem preorderAll_eq_flatMap (ts : List (Trail κ σ)) : preorderAll ts = ts.flatMap preorder := by
  induction ts with
  | nil => rfl
  | cons t ts ih => simp [preorderAll, ih]

@[simp] theorem postorderAll_eq_flatMap (ts : List (Trail κ σ)) : postorderAll ts = ts.flatMap postorder := by
  induction ts with
  | nil => rfl
  | cons t ts ih => simp [postorderAll, ih]

@[simp] theorem logAll_eq_flatMap (ts : List (Trail κ σ)) : logAll ts = ts.flatMap log := by
  induction ts with
  | nil => rfl
  | cons t ts ih => simp [logAll, ih]

theorem preorder_eq (t : Trail κ σ) : t.preorder = t :: t.inner.flatMap preorder := by
  cases t
  simp [preorder]

theorem postorder_eq (t : Trail κ σ) : t.postorder = t.inner.flatMap postorder ++ [t] := by
  cases t
  simp [postorder]

theorem log_eq (t : Trail κ σ) : t.log = t.opened ++ t.inner.flatMap log ++ t.closed ++ [t.finish] := by
  cases t
  simp [log, finish]

/-- The handles of the nodes that were visited, in the order in which their visits began. -/
def handles (t : Trail κ σ) : List Nat := t.preorder.map fun u => u.label.handle

theorem handles_eq (t : Trail κ σ) : t.handles = t.label.handle :: t.inner.flatMap handles := by
  rw [handles, preorder_eq, List.map_cons, List.map_flatMap]
  rfl

mutual
/-- Every visit that began has ended, and none other. -/
theorem postorder_perm : ∀ t : Trail κ σ, t.postorder.Perm t.preorder
  | ⟨label, kind, given, status, left, opened, closed, inner⟩ => by
    rw [postorder, preorder]
    exact (List.perm_append_comm.trans (by rfl)).trans ((postorderAll_perm inner).cons _)

theorem postorderAll_perm : ∀ ts : List (Trail κ σ), (postorderAll ts).Perm (preorderAll ts)
  | [] => by rfl
  | t :: ts => by
    rw [postorderAll, preorderAll]
    exact (postorder_perm t).append (postorderAll_perm ts)
end

mutual
/-- Every visit but the first one was made in the course of another one. -/
theorem exists_parent : ∀ (t : Trail κ σ) {u : Trail κ σ}, u ∈ t.preorder → u = t ∨ ∃ p ∈ t.preorder, u ∈ p.inner
  | ⟨label, kind, given, status, left, opened, closed, inner⟩, u, hu => by
    rw [preorder] at hu ⊢
    rcases List.mem_cons.1 hu with rfl | hu
    · exact .inl rfl
    · right
      rcases exists_parentAll inner hu with h | ⟨p, hp, h⟩
      · exact ⟨_, List.mem_cons_self, h⟩
      · exact ⟨p, List.mem_cons_of_mem _ hp, h⟩

theorem exists_parentAll : ∀ (ts : List (Trail κ σ)) {u : Trail κ σ}, u ∈ preorderAll ts →
    u ∈ ts ∨ ∃ p ∈ preorderAll ts, u ∈ p.inner
  | [], _, hu => by cases hu
  | t :: ts, u, hu => by
    rw [preorderAll] at hu ⊢
    rcases List.mem_append.1 hu with hu | hu
    · rcases exists_parent t hu with rfl | ⟨p, hp, h⟩
      · exact .inl List.mem_cons_self
      · exact .inr ⟨p, List.mem_append_left _ hp, h⟩
    · rcases exists_parentAll ts hu with h | ⟨p, hp, h⟩
      · exact .inl (List.mem_cons_of_mem _ h)
      · exact .inr ⟨p, List.mem_append_right _ hp, h⟩
end

mutual
/-- What is picked out of a log is picked out of the visits in the order in which they ended, if for each visit that
which is picked out of the node's own doings comes after what is picked out of those of its children. -/
theorem filterMap_log {β : Type} {f : Event κ σ → Option β} {g : Trail κ σ → Option β} : ∀ t : Trail κ σ,
    (∀ u ∈ t.preorder, (u.opened ++ u.inner.flatMap log ++ u.closed ++ [u.finish]).filterMap f =
      (u.inner.flatMap log).filterMap f ++ (g u).toList) →
    t.log.filterMap f = t.postorder.filterMap g
  | ⟨label, kind, given, status, left, opened, closed, inner⟩, h => by
    have hself := h _ (by rw [preorder]; exact List.mem_cons_self)
    have hinner := filterMap_logAll inner fun u hu => h u (by rw [preorder]; exact List.mem_cons_of_mem _ hu)
    rw [logAll_eq_flatMap] at hinner
    rw [log_eq, hself, postorder, List.filterMap_append, ← hinner]
    rfl

theorem filterMap_logAll {β : Type} {f : Event κ σ → Option β} {g : Trail κ σ → Option β} : ∀ ts : List (Trail κ σ),
    (∀ u ∈ preorderAll ts, (u.opened ++ u.inner.flatMap log ++ u.closed ++ [u.finish]).filterMap f =
      (u.inner.flatMap log).filterMap f ++ (g u).toList) →
    (logAll ts).filterMap f = (postorderAll ts).filterMap g
  | [], _ => rfl
  | t :: ts, h => by
    rw [logAll, postorderAll, List.filterMap_append, List.filterMap_append,
      filterMap_log t fun u hu => h u (by rw [preorderAll]; exact List.mem_append_left _ hu),
      filterMap_logAll ts fun u hu => h u (by rw [preorderAll]; exact List.mem_append_right _ hu)]
end

end Trail

/-! ## The trail of a visit -/

/-- What the rule makes of visits of children: the last answer and the last scene; if there was no visit, all went
well and nothing happened. -/
def Rule.outcome (rule : Rule) (scene : Scene κ σ) (ts : List (Trail κ σ)) : Status × Scene κ σ :=
  (ts.getLast?.map fun t => (t.status, t.left)).getD (rule.onward, scene)

mutual
/-- The trail of a visit of the node. A leaf acts; a composite visits children as long as they answer what its rule
goes on with; a decorator opens, visits its child and closes. -/
def Node.trail : Node κ σ → Scene κ σ → Trail κ σ
  | .leaf label act, scene =>
    let answer := act scene
    ⟨label, .leaf, scene, answer.1, answer.2, [.acted label answer.1], [], []⟩
  | .composite label rule keep cursor ns, scene =>
    let ts := Node.trailAll rule (startPlace keep cursor) ns scene
    let outcome := rule.outcome scene ts
    ⟨label, rule.kind, scene, outcome.1, outcome.2, [], [], ts⟩
  | .decorator label wrap memory n, scene =>
    let o := wrap.enter label memory scene
    let t := n.trail o.scene
    let c := wrap.leave label o.memory t.status (wrap.restore scene t.left)
    ⟨label, .decorator, scene, c.status, c.scene, o.log, c.log, [t]⟩

/-- The trails of the visits of children, after leaving out the first `skip`, as long as the rule goes on. -/
def Node.trailAll (rule : Rule) : Nat → List (Node κ σ) → Scene κ σ → List (Trail κ σ)
  | _, [], _ => []
  | skip + 1, _ :: ns, scene => Node.trailAll rule skip ns scene
  | 0, n :: ns, scene =>
    let t := n.trail scene
    if t.status = rule.onward then t :: Node.trailAll rule 0 ns t.left else [t]
end

namespace Node

@[simp] theorem label_trail (n : Node κ σ) (scene : Scene κ σ) : (n.trail scene).label = n.label := by
  cases n <;> rfl

@[simp] theorem kind_visit (n : Node κ σ) (scene : Scene κ σ) : (n.visit scene).node.kind = n.kind := by
  cases n <;> rfl

theorem trailAll_of_onward {rule : Rule} {n : Node κ σ} {scene : Scene κ σ} (h : (n.trail scene).status = rule.onward)
    (ns : List (Node κ σ)) : trailAll rule 0 (n :: ns) scene =
      n.trail scene :: trailAll rule 0 ns (n.trail scene).left := by
  rw [trailAll]
  exact if_pos h

theorem trailAll_of_ne_onward {rule : Rule} {n : Node κ σ} {scene : Scene κ σ}
    (h : (n.trail scene).status ≠ rule.onward) (ns : List (Node κ σ)) :
    trailAll rule 0 (n :: ns) scene = [n.trail scene] := by
  rw [trailAll]
  exact if_neg h

/-- Visits after the first one decide what the rule makes of all of them. -/
theorem outcome_cons_trailAll {rule : Rule} {n : Node κ σ} {scene : Scene κ σ}
    (h : (n.trail scene).status = rule.onward) (ns : List (Node κ σ)) (scene' : Scene κ σ) :
    rule.outcome scene' (n.trail scene :: trailAll rule 0 ns (n.trail scene).left) =
      rule.outcome (n.trail scene).left (trailAll rule 0 ns (n.trail scene).left) := by
  cases trailAll rule 0 ns (n.trail scene).left with
  | nil => simp [Rule.outcome, h]
  | cons t ts =>
    have hlast := List.getLast?_eq_some_getLast (List.cons_ne_nil t ts)
    simp only [Rule.outcome, List.getLast?_cons_cons, hlast, Option.map_some, Option.getD_some]

mutual
/-- A visit answers as its trail does, and its log is the trail told in order. -/
theorem visit_eq_trail : ∀ (n : Node κ σ) (scene : Scene κ σ),
    (n.visit scene).status = (n.trail scene).status ∧ (n.visit scene).scene = (n.trail scene).left ∧
      (n.visit scene).log = (n.trail scene).log
  | leaf label act, scene => ⟨rfl, rfl, rfl⟩
  | composite label rule keep cursor ns, scene => by
    obtain ⟨hstatus, hscene, hlog⟩ := scan_eq_trailAll rule (startPlace keep cursor) ns scene
    simp only [visit, Visit.finish, trail, Trail.log, hstatus, hscene, hlog, Node.label, Node.kind,
      Trail.logAll_eq_flatMap, List.nil_append, List.append_nil, and_self]
  | decorator label wrap memory n, scene => by
    obtain ⟨hstatus, hscene, hlog⟩ := visit_eq_trail n (wrap.enter label memory scene).scene
    simp only [visit, Visit.finish, trail, Trail.log, hstatus, hscene, hlog, Node.label, Node.kind, Trail.logAll,
      List.append_nil, and_self]

theorem scan_eq_trailAll (rule : Rule) : ∀ (skip : Nat) (ns : List (Node κ σ)) (scene : Scene κ σ),
    (scan rule skip ns scene).status = (rule.outcome scene (trailAll rule skip ns scene)).1 ∧
      (scan rule skip ns scene).scene = (rule.outcome scene (trailAll rule skip ns scene)).2 ∧
      (scan rule skip ns scene).log = (trailAll rule skip ns scene).flatMap Trail.log
  | _, [], _ => by simp [scan, trailAll, Rule.outcome]
  | skip + 1, n :: ns, scene => by
    rw [scan, trailAll]
    exact scan_eq_trailAll rule skip ns scene
  | 0, n :: ns, scene => by
    obtain ⟨hstatus, hscene, hlog⟩ := visit_eq_trail n scene
    by_cases honward : (n.visit scene).status = rule.onward
    · have honward' := hstatus.symm.trans honward
      obtain ⟨hstatus', hscene', hlog'⟩ := scan_eq_trailAll rule 0 ns (n.trail scene).left
      rw [scan_of_onward honward, trailAll_of_onward honward', outcome_cons_trailAll honward', hscene]
      refine ⟨hstatus', hscene', ?_⟩
      rw [hlog', hlog, List.flatMap_cons]
    · rw [scan_of_ne_onward honward, trailAll_of_ne_onward fun h => honward (hstatus.trans h)]
      refine ⟨hstatus, hscene, ?_⟩
      rw [hlog, List.flatMap_singleton]
end

/-! ## Which nodes a trail meets -/

mutual
/-- A trail meets nodes of the subtree, in their order, and none twice. -/
theorem handles_trail_sublist : ∀ (n : Node κ σ) (scene : Scene κ σ), (n.trail scene).handles.Sublist n.handles
  | leaf _ _, _ => .refl _
  | composite label rule keep cursor ns, scene => by
    rw [Trail.handles_eq, handles_eq]
    exact (handles_trailAll_sublist rule (startPlace keep cursor) ns scene).cons_cons _
  | decorator label wrap memory n, scene => by
    have := handles_trail_sublist n (wrap.enter label memory scene).scene
    rw [Trail.handles_eq, handles_eq, label_trail]
    simpa [trail, children] using this

theorem handles_trailAll_sublist (rule : Rule) : ∀ (skip : Nat) (ns : List (Node κ σ)) (scene : Scene κ σ),
    ((trailAll rule skip ns scene).flatMap Trail.handles).Sublist (ns.flatMap handles)
  | _, [], _ => by simp [trailAll]
  | skip + 1, n :: ns, scene => by
    rw [trailAll, List.flatMap_cons]
    exact (handles_trailAll_sublist rule skip ns scene).trans (List.sublist_append_right _ _)
  | 0, n :: ns, scene => by
    have hn := handles_trail_sublist n scene
    rw [List.flatMap_cons]
    by_cases honward : (n.trail scene).status = rule.onward
    · rw [trailAll_of_onward honward, List.flatMap_cons]
      exact hn.append (handles_trailAll_sublist rule 0 ns (n.trail scene).left)
    · rw [trailAll_of_ne_onward honward, List.flatMap_singleton]
      exact hn.trans (List.sublist_append_left _ _)
end

mutual
/-- Every visit on a trail is a visit of a node of the subtree, as this node stood before. -/
theorem exists_of_mem_preorder : ∀ (n : Node κ σ) (scene : Scene κ σ) {u : Trail κ σ},
    u ∈ (n.trail scene).preorder → ∃ m ∈ n.subtree, ∃ scene', u = m.trail scene'
  | leaf label act, scene, u, hu => by
    rw [Trail.preorder_eq] at hu
    exact ⟨_, List.mem_singleton_self _, scene, List.mem_singleton.1 hu⟩
  | composite label rule keep cursor ns, scene, u, hu => by
    rw [Trail.preorder_eq] at hu
    rw [subtree_eq]
    rcases List.mem_cons.1 hu with rfl | hu
    · exact ⟨_, List.mem_cons_self, scene, rfl⟩
    · obtain ⟨m, hm, h⟩ := exists_of_mem_preorderAll rule (startPlace keep cursor) ns scene hu
      exact ⟨m, List.mem_cons_of_mem _ hm, h⟩
  | decorator label wrap memory n, scene, u, hu => by
    rw [Trail.preorder_eq] at hu
    rcases List.mem_cons.1 hu with rfl | hu
    · exact ⟨_, by rw [subtree_eq]; exact List.mem_cons_self, scene, rfl⟩
    · rw [trail, List.flatMap_singleton] at hu
      obtain ⟨m, hm, h⟩ := exists_of_mem_preorder n _ hu
      exact ⟨m, List.mem_cons_of_mem _ hm, h⟩

theorem exists_of_mem_preorderAll (rule : Rule) : ∀ (skip : Nat) (ns : List (Node κ σ)) (scene : Scene κ σ)
    {u : Trail κ σ}, u ∈ (trailAll rule skip ns scene).flatMap Trail.preorder →
    ∃ m ∈ ns.flatMap subtree, ∃ scene', u = m.trail scene'
  | _, [], _, _, hu => by simp [trailAll] at hu
  | skip + 1, n :: ns, scene, u, hu => by
    rw [trailAll] at hu
    obtain ⟨m, hm, h⟩ := exists_of_mem_preorderAll rule skip ns scene hu
    exact ⟨m, List.mem_append_right _ hm, h⟩
  | 0, n :: ns, scene, u, hu => by
    have hfirst : u ∈ (n.trail scene).preorder → ∃ m ∈ (n :: ns).flatMap subtree, ∃ scene', u = m.trail scene' := by
      intro hu
      obtain ⟨m, hm, h⟩ := exists_of_mem_preorder n scene hu
      exact ⟨m, List.mem_append_left _ hm, h⟩
    by_cases honward : (n.trail scene).status = rule.onward
    · rw [trailAll_of_onward honward, List.flatMap_cons] at hu
      rcases List.mem_append.1 hu with hu | hu
      · exact hfirst hu
      · obtain ⟨m, hm, h⟩ := exists_of_mem_preorderAll rule 0 ns _ hu
        exact ⟨m, List.mem_append_right _ hm, h⟩
    · rw [trailAll_of_ne_onward honward, List.flatMap_singleton] at hu
      exact hfirst hu
end

/-- Children are visited in their order. -/
theorem map_label_trailAll_sublist (rule : Rule) : ∀ (skip : Nat) (ns : List (Node κ σ)) (scene : Scene κ σ),
    ((trailAll rule skip ns scene).map Trail.label).Sublist (ns.map label)
  | _, [], _ => by simp [trailAll]
  | skip + 1, n :: ns, scene => by
    rw [trailAll]
    exact (map_label_trailAll_sublist rule skip ns scene).cons _
  | 0, n :: ns, scene => by
    by_cases honward : (n.trail scene).status = rule.onward
    · rw [trailAll_of_onward honward, List.map_cons, List.map_cons, label_trail]
      exact (map_label_trailAll_sublist rule 0 ns _).cons_cons _
    · rw [trailAll_of_ne_onward honward, List.map_singleton, List.map_cons, label_trail]
      exact (List.nil_sublist _).cons_cons _

theorem map_label_inner_sublist (n : Node κ σ) (scene : Scene κ σ) :
    ((n.trail scene).inner.map Trail.label).Sublist (n.children.map label) := by
  cases n with
  | leaf => exact .refl _
  | composite label rule keep cursor ns => exact map_label_trailAll_sublist rule (startPlace keep cursor) ns scene
  | decorator label wrap memory n => simp [trail, children]

/-! ## Nodes that a trail does not meet -/

/-- What has become of a node of a subtree in a visit: either it was not met and is as it was, or it is what a visit
that was met has left. -/
def Kept (before : List (Node κ σ)) (met : List (Trail κ σ)) (x : Node κ σ) : Prop :=
  ((∀ t ∈ met, t.label.handle ≠ x.label.handle) ∧ x ∈ before) ∨
    ∃ m ∈ before, ∃ scene, m.trail scene ∈ met ∧ x = (m.visit scene).node

/-- It does not matter what else is visited, if it is visited elsewhere. -/
theorem Kept.mono {before before' : List (Node κ σ)} {met met' : List (Trail κ σ)} {x : Node κ σ}
    (h : Kept before met x) (hbefore : before ⊆ before') (hmet : met ⊆ met')
    (helse : ∀ t ∈ met', ∀ m ∈ before, t.label.handle = m.label.handle → t ∈ met) : Kept before' met' x := by
  rcases h with ⟨hnot, hx⟩ | ⟨m, hm, scene, ht, rfl⟩
  · left
    exact ⟨fun t ht heq => hnot t (helse t ht x hx heq) heq, hbefore hx⟩
  · right
    exact ⟨m, hbefore hm, scene, hmet ht, rfl⟩

theorem handle_mem_of_mem_preorder {n : Node κ σ} {scene : Scene κ σ} {t : Trail κ σ}
    (ht : t ∈ (n.trail scene).preorder) : t.label.handle ∈ n.handles :=
  (handles_trail_sublist n scene).subset (List.mem_map_of_mem ht)

theorem handle_mem_of_mem_preorderAll {rule : Rule} {skip : Nat} {ns : List (Node κ σ)} {scene : Scene κ σ}
    {t : Trail κ σ} (ht : t ∈ (trailAll rule skip ns scene).flatMap Trail.preorder) :
    t.label.handle ∈ ns.flatMap handles := by
  refine (handles_trailAll_sublist rule skip ns scene).subset ?_
  obtain ⟨u, hu, ht⟩ := List.mem_flatMap.1 ht
  exact List.mem_flatMap.2 ⟨u, hu, List.mem_map_of_mem ht⟩

theorem handle_mem_of_mem_subtrees {ns : List (Node κ σ)} {m : Node κ σ} (hm : m ∈ ns.flatMap subtree) :
    m.label.handle ∈ ns.flatMap handles := by
  obtain ⟨n, hn, hm⟩ := List.mem_flatMap.1 hm
  exact List.mem_flatMap.2 ⟨n, hn, List.mem_map_of_mem hm⟩

mutual
/-- A visit leaves every node as it was that it does not meet. -/
theorem kept_of_mem_subtree_visit : ∀ {n : Node κ σ} (scene : Scene κ σ), n.handles.Nodup → ∀ {x : Node κ σ},
    x ∈ (n.visit scene).node.subtree → Kept n.subtree (n.trail scene).preorder x
  | leaf label act, scene, _, x, hx => by
    right
    refine ⟨_, List.mem_singleton_self _, scene, ?_, List.mem_singleton.1 hx⟩
    rw [Trail.preorder_eq]
    exact List.mem_cons_self
  | composite label rule keep cursor ns, scene, hnodup, x, hx => by
    rw [handles_eq] at hnodup
    obtain ⟨hfresh, hnodup⟩ := List.nodup_cons.1 hnodup
    rw [subtree_eq] at hx
    rw [Trail.preorder_eq, subtree_eq]
    rcases List.mem_cons.1 hx with rfl | hx
    · exact .inr ⟨_, List.mem_cons_self, scene, List.mem_cons_self, rfl⟩
    · refine (kept_of_mem_subtrees_scan rule (startPlace keep cursor) scene hnodup hx).mono
        (List.subset_cons_self _ _) (List.subset_cons_self _ _) fun t ht m hm heq => ?_
      rcases List.mem_cons.1 ht with rfl | ht
      · exact absurd (heq ▸ handle_mem_of_mem_subtrees hm) hfresh
      · exact ht
  | decorator label wrap memory n, scene, hnodup, x, hx => by
    rw [handles_eq] at hnodup
    obtain ⟨hfresh, hnodup⟩ := List.nodup_cons.1 hnodup
    rw [children, List.flatMap_singleton] at hfresh hnodup
    rw [subtree_eq] at hx
    rw [Trail.preorder_eq, subtree_eq, children, List.flatMap_singleton]
    rcases List.mem_cons.1 hx with rfl | hx
    · exact .inr ⟨_, List.mem_cons_self, scene, List.mem_cons_self, rfl⟩
    · have hx' : x ∈ (n.visit (wrap.enter label memory scene).scene).node.subtree := by
        simpa [visit, Visit.finish, children] using hx
      refine (kept_of_mem_subtree_visit _ hnodup hx').mono (List.subset_cons_self _ _) ?_ fun t ht m hm heq => ?_
      · rw [trail, List.flatMap_singleton]
        exact List.subset_cons_self _ _
      · rcases List.mem_cons.1 ht with rfl | ht
        · exact absurd (heq ▸ List.mem_map_of_mem hm) hfresh
        · rwa [trail, List.flatMap_singleton] at ht

theorem kept_of_mem_subtrees_scan (rule : Rule) : ∀ (skip : Nat) {ns : List (Node κ σ)} (scene : Scene κ σ),
    (ns.flatMap handles).Nodup → ∀ {x : Node κ σ}, x ∈ (scan rule skip ns scene).children.flatMap subtree →
      Kept (ns.flatMap subtree) ((trailAll rule skip ns scene).flatMap Trail.preorder) x
  | _, [], _, _, _, hx => by simp [scan] at hx
  | skip + 1, n :: ns, scene, hnodup, x, hx => by
    rw [List.flatMap_cons] at hnodup
    obtain ⟨-, hns, hdisj⟩ := List.nodup_append.1 hnodup
    rw [scan, List.flatMap_cons] at hx
    rw [trailAll, List.flatMap_cons]
    rcases List.mem_append.1 hx with hx | hx
    · left
      refine ⟨fun t ht heq => ?_, List.mem_append_left _ hx⟩
      exact hdisj _ (List.mem_map_of_mem hx) _ (handle_mem_of_mem_preorderAll ht) heq.symm
    · exact (kept_of_mem_subtrees_scan rule skip scene hns hx).mono (List.subset_append_right _ _) (fun _ h => h)
        fun t ht _ _ _ => ht
  | 0, n :: ns, scene, hnodup, x, hx => by
    rw [List.flatMap_cons] at hnodup
    obtain ⟨hn, hns, hdisj⟩ := List.nodup_append.1 hnodup
    obtain ⟨hstatus, hscene, -⟩ := visit_eq_trail n scene
    rw [List.flatMap_cons]
    by_cases honward : (n.visit scene).status = rule.onward
    · rw [scan_of_onward honward, List.flatMap_cons] at hx
      rw [trailAll_of_onward (hstatus.symm.trans honward), List.flatMap_cons]
      rcases List.mem_append.1 hx with hx | hx
      · refine (kept_of_mem_subtree_visit scene hn hx).mono (List.subset_append_left _ _)
          (List.subset_append_left _ _) fun t ht m hm heq => ?_
        rcases List.mem_append.1 ht with ht | ht
        · exact ht
        · exact absurd heq.symm (hdisj _ (List.mem_map_of_mem hm) _ (handle_mem_of_mem_preorderAll ht))
      · rw [hscene] at hx
        refine (kept_of_mem_subtrees_scan rule 0 _ hns hx).mono (List.subset_append_right _ _)
          (List.subset_append_right _ _) fun t ht m hm heq => ?_
        rcases List.mem_append.1 ht with ht | ht
        · exact absurd heq (hdisj _ (handle_mem_of_mem_preorder ht) _ (handle_mem_of_mem_subtrees hm))
        · exact ht
    · rw [scan_of_ne_onward honward, List.flatMap_cons] at hx
      rw [trailAll_of_ne_onward fun h => honward (hstatus.trans h), List.flatMap_singleton]
      rcases List.mem_append.1 hx with hx | hx
      · exact (kept_of_mem_subtree_visit scene hn hx).mono (List.subset_append_left _ _) (fun _ h => h)
          fun t ht _ _ _ => ht
      · left
        refine ⟨fun t ht heq => ?_, List.mem_append_right _ hx⟩
        exact hdisj _ (handle_mem_of_mem_preorder ht) _ (handle_mem_of_mem_subtrees hx) heq
end

end Node

end Behaviour
