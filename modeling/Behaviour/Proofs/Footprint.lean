import Behaviour.Proofs.Account

/-!
# What a turn leaves alone

A tick changes no draft, and only slots whose nodes it visits. What a visit changes in the slot of its node depends on
the role of the node (`Slot.Alters`): a composite moves its cursor, a delay writes what it holds back, an await writes
whether its test has held, and a custom decorator has the memory that its hooks make of the old one (`hooked`); a leaf
and a negating decorator change nothing.

`Slot.Shows.alters` is one visit, `Node.mem_subtree_visit` finds what it leaves in the visited tree, and
`tick_footprint` says what comes of every tick in every session.
-/

namespace Behaviour

variable {κ σ : Type}

open Play

/-! ## Which nodes were visited -/

/-- The node whose visit ended with an event. -/
def Event.ended? : Event κ σ → Option Nat
  | finished label _ _ _ => some label.handle
  | acted _ _ | tested _ _ | derived _ | judged _ _ => none

/-- The nodes whose visits end in a log, in order. -/
def ended (log : List (Event κ σ)) : List Nat := log.filterMap Event.ended?

/-- The visits that end in the log of a trail are those on the trail. -/
theorem Trail.mem_ended_log {t : Trail κ σ} (h : ∀ u ∈ t.preorder, u.Sober) (x : Nat) :
    x ∈ ended t.log ↔ x ∈ t.handles := by
  have hended : ended t.log = t.postorder.map fun u => u.label.handle := by
    rw [ended, filterMap_log_of_isEnding (by simp [Event.forall_isEnding_false, Event.ended?]) h,
      ← List.filterMap_eq_map]
    rfl
  rw [hended, handles]
  exact (t.postorder_perm.map _).mem_iff

/-! ## What a visit changes in a slot -/

/-- What the hooks of a decorator make of its memory, given its scene, the status of its child and the scene that the
child left. -/
def hooked (before : Option (Before κ σ)) (after : Option (After κ σ)) (memory : Memory) (given : Scene κ σ)
    (raw : Status) (left : Scene κ σ) : Memory :=
  let opened := before.elim memory fun f => (f given memory).2
  let own := if before.isSome then given.keepContext left else left
  after.elim opened fun f => (f raw own opened).2.2

/-- What a visit changes in the slot of its node. -/
def Slot.Alters (u : Trail κ σ) (s s' : Slot κ σ) : Prop :=
  match s.draft.role with
  | .leaf _ => s' = s
  | .composite _ _ => ∃ c, s' = { s with cursor := some c }
  | .decorator none => False
  | .decorator (some .negate) => s' = s
  | .decorator (some .delay) =>
    ∃ pending hasPending, s' = { s with memory := { s.memory with pending, hasPending } }
  | .decorator (some (.await _)) => ∃ done, s' = { s with memory := { s.memory with done } }
  | .decorator (some (.custom before after)) =>
    ∃ v, u.inner = [v] ∧ s' = { s with memory := hooked before after s.memory u.given v.status v.left }

/-- Without hooks, a custom decorator keeps its memory. -/
@[simp] theorem hooked_none (memory : Memory) (given : Scene κ σ) (raw : Status) (left : Scene κ σ) :
    hooked none none memory given raw left = memory := rfl

theorem Decorator.memory_leave_custom (before : Option (Before κ σ)) (after : Option (After κ σ)) (l : Label)
    (memory : Memory) (scene : Scene κ σ) (raw : Status) (left : Scene κ σ) :
    ((custom before after).leave l ((custom before after).enter l memory scene).memory raw
      ((custom before after).restore scene left)).memory = hooked before after memory scene raw left := by
  cases before <;> cases after <;> rfl

/-- A delay changes what it holds back and whether it does. -/
theorem Decorator.memory_leave_delay (l : Label) (memory : Memory) (raw : Status) (scene : Scene κ σ) :
    ∃ pending hasPending, (delay.leave l memory raw scene).memory = { memory with pending, hasPending } := by
  cases hp : memory.hasPending with
  | true => exact ⟨memory.pending, false, by simp [leave, hp]⟩
  | false => exact ⟨raw, true, by simp [leave, hp]⟩

/-- An await changes whether its test has held. -/
theorem Decorator.memory_leave_await (test : Test κ σ) (l : Label) (memory : Memory) (given : Scene κ σ)
    (raw : Status) (left : Scene κ σ) :
    ∃ done, ((await test).leave l ((await test).enter l memory given).memory raw left).memory =
      { memory with done } := by
  have henter : ∃ done, ((await test).enter l memory given).memory = { memory with done } := by
    cases hd : memory.done with
    | true => exact ⟨memory.done, congrArg Opening.memory (if_pos hd)⟩
    | false => exact ⟨(test given).1, by simp [enter, hd]⟩
  obtain ⟨done, hdone⟩ := henter
  rw [hdone]
  by_cases hraw : raw = .failure
  · exact ⟨done, by simp [leave, hraw]⟩
  · cases done with
    | true => exact ⟨false, by simp [leave, hraw]⟩
    | false => exact ⟨false, by simp [leave, hraw]⟩

namespace Slot

/-- Where its cursor stands at one of its children, a slot is determined by its draft and its progress. -/
theorem eq_of_progress_eq {s s' : Slot κ σ} (hdraft : s'.draft = s.draft) (hprogress : s'.progress = s.progress)
    (h : s.Placed) (h' : s'.Placed) : s' = s := by
  obtain ⟨draft, cursor, memory⟩ := s
  obtain ⟨draft', cursor', memory'⟩ := s'
  obtain rfl : draft' = draft := hdraft
  have hplace := congrArg Progress.cursor hprogress
  obtain rfl : memory' = memory := congrArg Progress.memory hprogress
  cases cursor with
  | none =>
    cases cursor' with
    | none => rfl
    | some c' => simp [progress] at hplace
  | some c =>
    cases cursor' with
    | none => simp [progress] at hplace
    | some c' =>
      obtain ⟨items, index⟩ := c
      obtain ⟨items', index'⟩ := c'
      have hindex : index' = index := UInt16.toNat_inj.1 (by simpa [progress] using hplace)
      have hitems : items' = items := (h' _ rfl).1.trans (h _ rfl).1.symm
      rw [hindex, hitems]

namespace Shows

variable {s s' : Slot κ σ} {m : Node κ σ}

theorem kind (h : s.Shows m) : s.draft.role.kind = m.kind := by
  have hrole := h.role
  cases m with
  | leaf => rw [show s.draft.role = _ from hrole]; rfl
  | composite => rw [hrole.1]; rfl
  | decorator => rw [show s.draft.role = _ from hrole]; rfl

/-- Only composites have cursors. -/
theorem cursor_eq_none (h : s.Shows m) (hkind : m.kind.isComposite = false) : s.cursor = none := by
  have hcursor := congrArg Progress.cursor h.progress
  cases m with
  | leaf => simpa [Slot.progress, Node.progress] using hcursor
  | composite l rule => simp [Node.kind] at hkind
  | decorator => simpa [Slot.progress, Node.progress] using hcursor

/-- What a visit changes in the slot that shows its node. -/
theorem alters {scene : Scene κ σ} (h : s.Shows m) (h' : s'.Shows (m.visit scene).node)
    (hdraft : s'.draft = s.draft) : s.Alters (m.trail scene) s' := by
  unfold Alters
  cases m with
  | leaf l act =>
    rw [show s.draft.role = .leaf (some act) from h.role]
    exact eq_of_progress_eq hdraft (h'.progress.trans h.progress.symm) h.placed h'.placed
  | composite l rule keep cursor ns =>
    rw [show s.draft.role = .composite rule keep from h.role.1]
    have hmemory : s.memory = {} := congrArg Progress.memory h.progress
    have hmemory' : s'.memory = {} := congrArg Progress.memory h'.progress
    have hcursor := congrArg Progress.cursor h'.progress
    obtain ⟨draft', cursor', memory'⟩ := s'
    cases cursor' with
    | none => simp [Slot.progress, Node.visit, Visit.finish, Node.progress] at hcursor
    | some c => exact ⟨c, by rw [← hdraft, hmemory, ← hmemory']⟩
  | decorator l wrap memory n =>
    obtain rfl : s.memory = memory := congrArg Progress.memory h.progress
    have hrole : s.draft.role = .decorator (some wrap) := h.role
    obtain ⟨hstatus, hscene, -⟩ := n.visit_eq_trail (wrap.enter l s.memory scene).scene
    -- Only the memory changes, to that with which the decorator closes.
    have hself : ∀ memory', s'.memory = memory' → s' = { s with memory := memory' } := by
      intro memory' hmemory'
      obtain ⟨draft', cursor', memory''⟩ := s'
      obtain rfl : draft' = s.draft := hdraft
      obtain rfl : memory'' = memory' := hmemory'
      obtain rfl : cursor' = none := h'.cursor_eq_none rfl
      rw [h.cursor_eq_none rfl]
    have hmemory' : s'.memory = (wrap.leave l (wrap.enter l s.memory scene).memory
        (n.trail (wrap.enter l s.memory scene).scene).status
        (wrap.restore scene (n.trail (wrap.enter l s.memory scene).scene).left)).memory := by
      rw [← hstatus, ← hscene]
      exact congrArg Progress.memory h'.progress
    rw [hrole]
    cases wrap with
    | negate => exact hself _ hmemory'
    | delay =>
      obtain ⟨pending, hasPending, hdelay⟩ := Decorator.memory_leave_delay l _ _ _
      exact ⟨pending, hasPending, hself _ (hmemory'.trans hdelay)⟩
    | await test =>
      obtain ⟨done, hawait⟩ := Decorator.memory_leave_await test l s.memory scene _ _
      exact ⟨done, hself _ (hmemory'.trans hawait)⟩
    | custom before after =>
      exact ⟨_, rfl, hself _ (hmemory'.trans (Decorator.memory_leave_custom before after l _ _ _ _))⟩

end Shows

end Slot

/-- What a visit of a node leaves is found in the visited tree. -/
theorem Node.mem_subtree_visit {n m : Node κ σ} {scene given : Scene κ σ} (hnodup : n.handles.Nodup)
    (hm : m ∈ n.subtree) (hmet : m.trail given ∈ (n.trail scene).preorder) :
    (m.visit given).node ∈ (n.visit scene).node.subtree := by
  have hhandle : m.label.handle ∈ (n.visit scene).node.handles := by
    rw [handles_visit]
    exact List.mem_map_of_mem hm
  obtain ⟨x, hx, hsame⟩ := List.mem_map.1 hhandle
  rcases kept_of_mem_subtree_visit scene hnodup hx with ⟨hnot, -⟩ | ⟨m', hm', given', hmet', rfl⟩
  · refine absurd ?_ (hnot _ hmet)
    rw [label_trail]
    exact hsame.symm
  · -- No handle occurs twice, neither in the tree nor on the trail: it is the same node and the same visit.
    obtain rfl : m' = m := List.inj_on_of_nodup_map hnodup hm' hm (by simpa using hsame)
    have htrail : m'.trail given' = m'.trail given :=
      List.inj_on_of_nodup_map (hnodup.sublist (n.handles_trail_sublist scene)) hmet' hmet (by simp)
    obtain rfl : given' = given := by simpa using congrArg Trail.given htrail
    exact hx

/-- A visit leaves the slots alone whose nodes it does not meet. -/
theorem Node.HeldIn.slot_of_not_met {n : Node κ σ} {scene : Scene κ σ} {slots slots' : List (Slot κ σ)}
    (h : n.HeldIn slots) (h' : (n.visit scene).node.HeldIn slots') (hframe : Frame n.handles slots slots')
    (hnodup : n.handles.Nodup) {x : Nat} (hnot : x ∉ (n.trail scene).handles) : slots'[x]? = slots[x]? := by
  by_cases hmem : x ∈ n.handles
  · obtain ⟨y, hy, rfl⟩ := List.mem_map.1 (show x ∈ (n.visit scene).node.handles by rwa [Node.handles_visit])
    rcases Node.kept_of_mem_subtree_visit scene hnodup hy with ⟨-, hold⟩ | ⟨m, -, given, hmet, rfl⟩
    · obtain ⟨s, hs, hshow⟩ := h y hold
      obtain ⟨s', hs', hshow'⟩ := h' y hy
      have hdraft := congrArg (fun ds : List (Draft κ σ) => ds[y.label.handle]?) hframe.1
      simp only [List.getElem?_map, hs, hs', Option.map_some, Option.some.injEq] at hdraft
      rw [hs, hs', Slot.eq_of_progress_eq hdraft (hshow'.progress.trans hshow.progress.symm) hshow.placed
        hshow'.placed]
    · refine absurd (List.mem_map.2 ⟨_, hmet, ?_⟩) hnot
      rw [Node.label_trail, Node.label_visit]
  · exact hframe.2 x hmem

/-! ## What a tick changes in an arena -/

namespace Mirrors

variable {a a' : Arena κ σ} {t t' : Tree κ σ} {n : Node κ σ} {scene : Scene κ σ}

/-- No cursor but those of composites is ever started. -/
theorem unstarted (h : Mirrors a t n) : ∀ s ∈ a.slots, s.draft.role.kind.isComposite = false → s.cursor = none := by
  intro s hs hkind
  obtain ⟨x, hx⟩ := List.mem_iff_getElem?.1 hs
  by_cases hmem : x ∈ n.handles
  · obtain ⟨m, hm, rfl⟩ := List.mem_map.1 hmem
    obtain ⟨s', hs', hshow⟩ := h.held m hm
    obtain rfl : s' = s := Option.some.inj (hs'.symm.trans hx)
    exact hshow.cursor_eq_none (hshow.kind ▸ hkind)
  · have hprogress := congrArg Progress.cursor (h.aside x hmem s hx)
    simpa [Slot.progress] using hprogress

section Tick

variable (h : Mirrors a t n) (h' : Mirrors a' t' (n.visit scene).node)
  (hdrafts : a'.slots.map Slot.draft = a.slots.map Slot.draft)
include h h' hdrafts

/-- A visit on the trail changes in the slot of its node what a visit changes. -/
theorem alters_of_met {u : Trail κ σ} (hu : u ∈ (n.trail scene).preorder) :
    ∃ s s', a.slots[u.label.handle]? = some s ∧ a'.slots[u.label.handle]? = some s' ∧ s.Alters u s' := by
  obtain ⟨m, hm, given, rfl⟩ := n.exists_of_mem_preorder scene hu
  obtain ⟨s, hs, hshow⟩ := h.held m hm
  obtain ⟨s', hs', hshow'⟩ := h'.held _ (Node.mem_subtree_visit h.nodup hm hu)
  rw [Node.label_visit] at hs'
  have hdraft := congrArg (fun ds : List (Draft κ σ) => ds[m.label.handle]?) hdrafts
  simp only [List.getElem?_map, hs, hs', Option.map_some, Option.some.injEq] at hdraft
  refine ⟨s, s', ?_, ?_, hshow.alters hshow' hdraft⟩ <;> rwa [Node.label_trail]

end Tick

end Mirrors

/-- What a tick comes to in an arena and on a tree, given the trail of the visit of the root. -/
structure Footprint (a a' : Arena κ σ) (t : Tree κ σ) (turn : Turn κ σ) (u : Trail κ σ) : Prop where
  /-- Beside the slots, an arena has a new status, one more tick as a 32-bit word counts, and a longer log. -/
  arena : a' = { a with
    slots := a'.slots, lastStatus := turn.status, ticks := a.ticks + 1, log := a.log ++ turn.log }
  tree : turn.tree = { t with plan := turn.tree.plan, lastStatus := turn.status, ticks := t.ticks + 1 }
  /-- Drafts have everything but progress: names, roles, parents and children. -/
  drafts : a'.slots.map Slot.draft = a.slots.map Slot.draft
  log : turn.log = u.log
  /-- The log tells which nodes the trail meets. -/
  met : ∀ x, x ∈ ended turn.log ↔ x ∈ u.handles
  spared : ∀ x, x ∉ ended turn.log → a'.slots[x]? = a.slots[x]?
  altered : ∀ v ∈ u.preorder, ∃ s s', a.slots[v.label.handle]? = some s ∧ a'.slots[v.label.handle]? = some s' ∧
    s.Alters v s'
  unstarted : ∀ s ∈ a'.slots, s.draft.role.kind.isComposite = false → s.cursor = none
  /-- Inspection of the tree shows the same progress. -/
  progress : ∀ x, a'.progressOf x = turn.tree.progressOf x

/-- A tick of a tree that an arena mirrors. -/
theorem Mirrors.footprint {a : Arena κ σ} {t : Tree κ σ} {n : Node κ σ} (h : Mirrors a t n) (scene : Scene κ σ) :
    ∃ (turn : Turn κ σ) (a' : Arena κ σ), t.tick scene = .ok turn ∧
      (Arena.tick scene).Yields a (turn.status, turn.scene) a' ∧ Footprint a a' t turn (n.trail scene) := by
  obtain ⟨turn, a', hturn, hyield, -, hdrafts, h'⟩ := h.tick scene
  obtain ⟨slots, hyield', -, hframe⟩ := yields_tick view_shows h.defect h.root_nonneg h.root h.held h.nodup scene
  rw [Tree.tick_of_plan h.plan] at hturn
  obtain rfl := Except.ok.inj hturn
  obtain ⟨-, harena⟩ := hyield.unique hyield'
  have hlog : (n.visit scene).log = (n.trail scene).log := (n.visit_eq_trail scene).2.2
  have hmet : ∀ x, x ∈ ended (n.visit scene).log ↔ x ∈ (n.trail scene).handles := fun x => by
    rw [hlog]
    exact Trail.mem_ended_log (fun u hu => Node.sober_of_mem_preorder hu) x
  refine ⟨_, a', Tree.tick_of_plan h.plan scene, hyield, ?_⟩
  constructor
  case arena => rw [harena]
  case tree => rfl
  case drafts => exact hdrafts
  case log => exact hlog
  case met => exact hmet
  case spared =>
    intro x hx
    rw [harena] at h' ⊢
    exact h.held.slot_of_not_met h'.held hframe h.nodup (mt (hmet x).2 hx)
  case altered => exact fun v hv => h.alters_of_met h' hdrafts hv
  case unstarted => exact h'.unstarted
  case progress => exact h'.progressOf

/-! ## Every tick of every session -/

/-- Below a root, after these requests, in place and on the tree: whatever scene the next tick is given, it leaves
nothing but the footprint of the visit of the root. -/
def Builder.TreadsLightly (b : Builder κ σ) (root : Int) (requests : List (Request κ σ)) : Prop :=
  ∃ (replies : List (Reply κ σ)) (a : Arena κ σ) (t : Tree κ σ) (n : Node κ σ),
    (Arena.serve false requests).Yields (Arena.freeze b root) replies a ∧
    (Tree.freeze b root).serve requests = .ok (replies, t) ∧ t.plan = .ok n ∧
    ∀ scene : Scene κ σ, ∃ (turn : Turn κ σ) (a' : Arena κ σ), t.tick scene = .ok turn ∧
      (Arena.tick scene).Yields a (turn.status, turn.scene) a' ∧ Footprint a a' t turn (n.trail scene)

/-- Below every checked root of every builder, whatever was asked before, a tick changes nothing but the progress of the
nodes that it visits, each as its role has it. -/
theorem tick_footprint (capacity : Nat) (cs : List (Call κ σ)) (root : Int) (requests : List (Request κ σ))
    (hcheck : (Builder.built capacity cs).check root = none) :
    (Builder.built capacity cs).TreadsLightly root requests := by
  obtain ⟨n, hfresh⟩ := Mirrors.freeze (Builder.forest_built capacity cs) hcheck
  obtain ⟨a, t, hserve, hyields, h, -⟩ := hfresh.serve requests
  exact ⟨_, a, t, _, hyields, hserve, h.plan, h.footprint⟩

/-- A sentry listens, and answers for it one turn later; then waits for a light, and counts the reports that are made.
Aside stands a relief who is never called. -/
def sentry : List (Call Nat Nat) :=
  [.composite .sequence "post" true, .leaf "listen" (some fun s => (.success, s)), .delayed 1, .attach 0 2,
    .leaf "watch" (some fun s => (.success, { s with world := s.world + 1 })),
    .awaited 3 (some fun s => (s.world == 2, s)), .attach 0 4,
    .leaf "report" (some fun s => (.failure, s)), .negated 5,
    .custom "count" (some fun s m => ({ s with context := 0 }, { m with counter := m.counter + 1 })) none,
    .decorate 7 6, .attach 0 7, .leaf "relief" none]

/-- The sentry is interrupted with a result held back, and again while waiting. -/
theorem tick_footprint_sentry : (Builder.built 9 sentry).check 0 = none ∧
    (Builder.built 9 sentry).TreadsLightly 0 [.tick ⟨7, 0⟩, .list, .tick ⟨7, 0⟩] :=
  ⟨rfl, tick_footprint 9 sentry 0 _ rfl⟩

end Behaviour
