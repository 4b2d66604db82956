import Mathlib.Data.List.Flatten
import Behaviour.Proofs.Arena
import Behaviour.Proofs.Subtree

/-!
# Visits in place

An arena *holds* a node if the slots under its labels show the node and all nodes below it (`Node.HeldIn`). A visit in
place of a node that is held yields what the visit of the node yields, leaves an arena that holds the visited node,
and changes no slot of another node (`visitsInPlace`). For a composite this takes a scan in place for each place at
which its cursor can stand (`AtChild`, `scansTo_scan`).

Not all of a slot matters to this, only that it has the structure of its node and that the two open, start and close
alike. A way to see slots as nodes that ensures it is a `View`; what holds of visits is said for every view
(`visitsAs`), and that a slot shows all progress of its node is one of them (`view_shows`).
-/

namespace Behaviour

variable {κ σ : Type}

open Play

/-! ## Slots that do not change -/

/-- Drafts are as they were, and so are the slots of all other handles. -/
def Frame (hs : List Nat) (slots slots' : List (Slot κ σ)) : Prop :=
  slots'.map Slot.draft = slots.map Slot.draft ∧ ∀ h ∉ hs, slots'[h]? = slots[h]?

namespace Frame

variable {hs hs' : List Nat} {s₁ s₂ s₃ : List (Slot κ σ)}

theorem refl (hs : List Nat) (s₁ : List (Slot κ σ)) : Frame hs s₁ s₁ := ⟨rfl, fun _ _ => rfl⟩

theorem trans (h : Frame hs s₁ s₂) (h' : Frame hs s₂ s₃) : Frame hs s₁ s₃ :=
  ⟨h'.1.trans h.1, fun x hx => (h'.2 x hx).trans (h.2 x hx)⟩

theorem mono (h : Frame hs s₁ s₂) (hsub : ∀ x ∈ hs, x ∈ hs') : Frame hs' s₁ s₂ :=
  ⟨h.1, fun x hx => h.2 x fun hm => hx (hsub x hm)⟩

/-- A change of one slot that keeps its draft. -/
theorem modify {h : Nat} {f : Slot κ σ → Slot κ σ} (hh : h ∈ hs) (hf : ∀ s, (f s).draft = s.draft) :
    Frame hs s₁ (s₁.modify h f) := by
  refine ⟨List.ext_getElem? fun i => ?_, fun x hx => ?_⟩
  · rw [List.getElem?_map, List.getElem?_map, List.getElem?_modify]
    cases s₁[i]? with
    | none => rfl
    | some s => by_cases hi : h = i <;> simp [hi, hf]
  · rw [List.getElem?_modify]
    have hne : h ≠ x := fun he => hx (he ▸ hh)
    simp [hne]

end Frame

theorem getElem?_modify_self {slots : List (Slot κ σ)} {h : Nat} {s : Slot κ σ} (hs : slots[h]? = some s)
    (f : Slot κ σ → Slot κ σ) : (slots.modify h f)[h]? = some (f s) := by
  simp [hs]

/-- Only the slot at the handle matters to a change of it. -/
theorem modify_congr {slots : List (Slot κ σ)} {h : Nat} {s : Slot κ σ} (hs : slots[h]? = some s)
    {f g : Slot κ σ → Slot κ σ} (hfg : f s = g s) : slots.modify h f = slots.modify h g := by
  refine List.ext_getElem? fun i => ?_
  rw [List.getElem?_modify, List.getElem?_modify]
  by_cases hi : h = i
  · subst hi
    simp [hs, hfg]
  · simp [hi]

theorem modify_eq_self {slots : List (Slot κ σ)} {h : Nat} {s : Slot κ σ} (hs : slots[h]? = some s)
    {f : Slot κ σ → Slot κ σ} (hf : f s = s) : slots.modify h f = slots := by
  rw [modify_congr (g := id) hs hf, List.modify_id]

/-! ## Slots that show nodes -/

/-- The cursor of a slot, if there is one, stands at a place of the list of children. -/
def Slot.Placed (s : Slot κ σ) : Prop :=
  ∀ c, s.cursor = some c → c.items = s.draft.children.toArray ∧ c.index.toNat < s.draft.children.length

/-- What the nodes of a role are like. -/
def Node.Plays : Node κ σ → Role κ σ → Prop
  | .leaf _ act, r => r = .leaf (some act)
  | .composite _ rule keep _ ns, r => r = .composite rule keep ∧ ns ≠ []
  | .decorator _ wrap _ _, r => r = .decorator (some wrap)

/-- Only a composite plays the role of one. -/
theorem Node.Plays.exists_composite {n : Node κ σ} {rule : Rule} {keep : Bool} (h : n.Plays (.composite rule keep)) :
    ∃ l cursor ns, n = composite l rule keep cursor ns ∧ ns ≠ [] := by
  cases n with
  | leaf => cases h
  | decorator => cases h
  | composite l rule' keep' cursor ns =>
    obtain ⟨heq, hne⟩ := h
    cases heq
    exact ⟨l, cursor, ns, rfl, hne⟩

/-- Only a decorator plays the role of one. -/
theorem Node.Plays.exists_decorator {n : Node κ σ} {wrap : Decorator κ σ} (h : n.Plays (.decorator (some wrap))) :
    ∃ l memory m, n = decorator l wrap memory m := by
  cases n with
  | leaf => cases h
  | composite => cases h.1
  | decorator l wrap' memory m =>
    cases h
    exact ⟨l, memory, m, rfl⟩

/-- A slot shows a node: it has the name of the node, its role, the handles of its children, and its progress. -/
structure Slot.Shows (s : Slot κ σ) (n : Node κ σ) : Prop where
  name : s.draft.name = n.label.name
  children : s.draft.children = n.children.map fun m => m.label.handle
  progress : s.progress = n.progress
  placed : s.Placed
  fits : s.draft.Fits
  role : n.Plays s.draft.role

/-- The slots under the labels of a node and of all nodes below it show these nodes. -/
def Node.HeldIn (n : Node κ σ) (slots : List (Slot κ σ)) : Prop :=
  n.All fun m => ∃ s, slots[m.label.handle]? = some s ∧ s.Shows m

theorem Node.HeldIn.child {slots : List (Slot κ σ)} {n m : Node κ σ} (h : n.HeldIn slots) (hm : m ∈ n.children) :
    m.HeldIn slots := All.child h hm

/-! ## Views of slots -/

/-- The slots under the labels of a node and of all nodes below it are seen as these nodes. -/
def Node.HeldAs (V : Slot κ σ → Node κ σ → Prop) (n : Node κ σ) (slots : List (Slot κ σ)) : Prop :=
  n.All fun m => ∃ s, slots[m.label.handle]? = some s ∧ V s m

namespace Node.HeldAs

variable {V : Slot κ σ → Node κ σ → Prop} {slots slots' : List (Slot κ σ)}

theorem child {n m : Node κ σ} (h : n.HeldAs V slots) (hm : m ∈ n.children) : m.HeldAs V slots := All.child h hm

/-- What the slots of a node are seen as does not change if the slots do not. -/
theorem congr {n : Node κ σ} (h : n.HeldAs V slots) (heq : ∀ x ∈ n.handles, slots'[x]? = slots[x]?) :
    n.HeldAs V slots' := by
  intro m hm
  obtain ⟨s, hs, hview⟩ := h m hm
  exact ⟨s, by rw [heq _ (List.mem_map.2 ⟨m, hm, rfl⟩)]; exact hs, hview⟩

/-- A change of a slot that is not under a node's labels does not matter to it. -/
theorem modify {n : Node κ σ} {x : Nat} {f : Slot κ σ → Slot κ σ} (h : n.HeldAs V slots) (hx : x ∉ n.handles) :
    n.HeldAs V (slots.modify x f) := by
  refine h.congr fun y hy => ?_
  have hne : x ≠ y := fun he => hx (he ▸ hy)
  simp [hne]

end Node.HeldAs

/-- A way to see slots as nodes that is good enough for play: a slot has the structure of the node that it is seen as;
a composite starts at the same place in both and is seen alike wherever its cursor is moved; a decorator opens and
closes alike with the memory of the slot and with that of the node, and is seen alike afterwards. -/
structure View (V : Slot κ σ → Node κ σ → Prop) : Prop where
  name : ∀ {s n}, V s n → s.draft.name = n.label.name
  children : ∀ {s n}, V s n → s.draft.children = n.children.map fun m => m.label.handle
  fits : ∀ {s n}, V s n → s.draft.Fits
  role : ∀ {s n}, V s n → n.Plays s.draft.role
  placed : ∀ {s l rule cursor ns}, V s (.composite l rule true cursor ns) → s.Placed
  start : ∀ {s l rule keep cursor ns}, V s (.composite l rule keep cursor ns) →
    startPlace keep (s.cursor.map fun c => c.index.toNat) = startPlace keep cursor
  moved : ∀ {s l rule keep cursor} {ns ms : List (Node κ σ)} {c : Cursor Nat}, V s (.composite l rule keep cursor ns) →
    c.items = s.draft.children.toArray → c.index.toNat < ns.length →
    (ms.map fun n => n.label.handle) = (ns.map fun n => n.label.handle) →
    V { s with cursor := some c } (.composite l rule keep (some c.index.toNat) ms)
  opened : ∀ {s l wrap memory n}, V s (.decorator l wrap memory n) → ∀ scene,
    wrap.enter l s.memory scene =
      { wrap.enter l memory scene with memory := (wrap.enter l s.memory scene).memory }
  closed : ∀ {s l wrap memory n}, V s (.decorator l wrap memory n) → ∀ scene raw inner,
    let c := wrap.leave l (wrap.enter l s.memory scene).memory raw inner
    let c' := wrap.leave l (wrap.enter l memory scene).memory raw inner
    c = { c' with memory := c.memory } ∧
      ∀ m, m.label.handle = n.label.handle → V { s with memory := c.memory } (.decorator l wrap c'.memory m)

/-! ## The operations on a cursor -/

section Cursors

variable {a : Arena κ σ} {s : Slot κ σ} {c : Cursor Nat} {h : Nat} (hs : a.slots[h]? = some s)
include hs

theorem yields_prepare (keep : Bool) (hne : s.draft.children ≠ []) (hplaced : keep = true → s.Placed) :
    ∃ c : Cursor Nat, (Arena.prepare h keep).Yields a ()
      { a with slots := a.slots.modify h fun s => { s with cursor := some c } } ∧
    c.items = s.draft.children.toArray ∧ c.index.toNat = startPlace keep (s.cursor.map fun c => c.index.toNat) := by
  have hempty : s.draft.children.isEmpty = false := by simpa using hne
  cases hc : s.cursor with
  | none =>
    refine ⟨{ items := s.draft.children.toArray }, (yields_fetch hs).bind ?_, rfl, by cases keep <;> rfl⟩
    simp only [hempty, hc, Option.isNone_none, Bool.true_or, Bool.false_eq_true, if_true, if_false]
    exact yields_adjust _ _ _
  | some c =>
    cases keep with
    | false =>
      refine ⟨{ items := s.draft.children.toArray }, (yields_fetch hs).bind ?_, rfl, rfl⟩
      simp only [hempty, Bool.not_false, Bool.or_true, Bool.false_eq_true, if_true, if_false]
      exact yields_adjust _ _ _
    | true =>
      refine ⟨c, (yields_fetch hs).bind ?_, (hplaced rfl c hc).1, rfl⟩
      -- The cursor is left where it is.
      have hsame : a.slots.modify h (fun s => { s with cursor := some c }) = a.slots :=
        modify_eq_self hs (by rw [← hc])
      simp only [hempty, hc, hsame]
      exact yields_pure _ _

theorem yields_currentChild {x : Nat} (hc : s.cursor = some c) (hx : c.current = .ok x) :
    (Arena.currentChild h).Yields a x a := by
  refine (yields_fetch hs).bind ?_
  simp only [hc, Option.map_some, hx]
  exact yields_pure _ _

theorem yields_advance (hc : s.cursor = some c) : (Arena.advance h).Yields a c.advance.1
    { a with slots := a.slots.modify h fun s => { s with cursor := some c.advance.2 } } := by
  refine (yields_fetch hs).bind ?_
  simp only [hc]
  exact (yields_adjust _ _ _).bind (yields_pure _ _)

theorem yields_rewind (hc : s.cursor = some c) : (Arena.rewind h).Yields a ()
    { a with slots := a.slots.modify h fun s => { s with cursor := some c.reset } } := by
  have hsame : (a.slots.modify h fun s => { s with cursor := s.cursor.map Cursor.reset }) =
      a.slots.modify h fun s => { s with cursor := some c.reset } :=
    modify_congr hs (by rw [hc]; rfl)
  rw [← hsame]
  exact yields_adjust _ _ _

end Cursors

/-! ## Visits in place -/

/-- A visit in place yields what the visit of the node yields, where the slots are seen as the node and no handle
occurs twice. -/
def VisitsAs (V : Slot κ σ → Node κ σ → Prop) (n : Node κ σ) : Prop :=
  ∀ (scene : Scene κ σ) (a : Arena κ σ), n.HeldAs V a.slots → n.handles.Nodup → ∃ slots,
    (Scene.visit n.label.handle scene).Yields a ((n.visit scene).status, (n.visit scene).scene)
      { a with slots, log := a.log ++ (n.visit scene).log } ∧
    (n.visit scene).node.HeldAs V slots ∧ Frame n.handles a.slots slots

section Visits

variable {V : Slot κ σ → Node κ σ → Prop} (hV : View V)
include hV

theorem visitsAs_leaf (l : Label) (act : Act κ σ) : VisitsAs V (.leaf l act) := by
  intro scene a hn _
  obtain ⟨s, hs, hview⟩ := Node.All.self hn
  have hrole : s.draft.role = .leaf (some act) := hV.role hview
  have hname : s.draft.name = l.name := hV.name hview
  refine ⟨a.slots, ?_, hn, .refl _ _⟩
  have hact : (Arena.perform l (some act) scene).Yields a (act scene)
      { a with log := a.log ++ [.acted l (act scene).1] } := (yields_note _ _).bind (yields_pure _ _)
  rw [Scene.visit.eq_def]
  refine (yields_fetch hs).bind ?_
  simp only [hrole, hname, Role.kind]
  refine hact.bind ((yields_note _ _).bind ?_)
  simp only [Node.visit, Visit.finish, List.append_assoc]
  exact yields_pure _ _

theorem visitsAs_decorator {l : Label} {wrap : Decorator κ σ} {memory : Memory} {n : Node κ σ}
    (hvisit : VisitsAs V n) : VisitsAs V (.decorator l wrap memory n) := by
  intro scene a hn hnodup
  obtain ⟨s, hs, hview⟩ := Node.All.self hn
  have hrole : s.draft.role = .decorator (some wrap) := hV.role hview
  have hname : s.draft.name = l.name := hV.name hview
  have hchildren : s.draft.children = [n.label.handle] := hV.children hview
  have hhandles : (Node.decorator l wrap memory n).handles = l.handle :: n.handles := by
    simp [Node.handles_eq (.decorator l wrap memory n), Node.children, Node.label]
  rw [hhandles] at hnodup ⊢
  obtain ⟨hfresh, hnodup⟩ := List.nodup_cons.1 hnodup
  -- The decorator opens: its memory changes, the slots of the child do not.
  let o := wrap.enter l s.memory scene
  have hscene : o.scene = (wrap.enter l memory scene).scene := (congrArg Opening.scene (hV.opened hview scene) :)
  have hlog : o.log = (wrap.enter l memory scene).log := (congrArg Opening.log (hV.opened hview scene) :)
  let a₁ : Arena κ σ :=
    { a with slots := a.slots.modify l.handle fun s => { s with memory := o.memory }, log := a.log ++ o.log }
  have hs₁ : a₁.slots[l.handle]? = some { s with memory := o.memory } := getElem?_modify_self hs _
  have hframe₁ : Frame [l.handle] a.slots a₁.slots := .modify (by simp) fun _ => rfl
  have hn₁ : n.HeldAs V a₁.slots := (hn.child List.mem_cons_self).congr fun x hx => hframe₁.2 x fun hm =>
    hfresh (by rwa [List.mem_singleton.1 hm] at hx)
  obtain ⟨slots₂, hyield, hheld₂, hframe₂⟩ := hvisit o.scene a₁ hn₁ hnodup
  -- It closes over the memory that it opened with.
  have hs₂ : slots₂[l.handle]? = some { s with memory := o.memory } := by rw [hframe₂.2 _ hfresh]; exact hs₁
  let v := n.visit o.scene
  let c := wrap.leave l o.memory v.status (wrap.restore scene v.scene)
  obtain ⟨hclosed, hlater⟩ := hV.closed hview scene v.status (wrap.restore scene v.scene)
  have hframe₃ : Frame [l.handle] slots₂ (slots₂.modify l.handle fun s => { s with memory := c.memory }) :=
    .modify (by simp) fun _ => rfl
  have hvisited : (Node.decorator l wrap memory n).visit scene = Visit.finish ⟨c.status,
      .decorator l wrap (wrap.leave l (wrap.enter l memory scene).memory v.status (wrap.restore scene v.scene)).memory
        v.node, c.scene, o.log ++ v.log ++ c.log⟩ := by
    rw [show c = _ from hclosed, Node.visit, hlog]
    simp only [v, hscene]
  rw [hvisited]
  refine ⟨slots₂.modify l.handle fun s => { s with memory := c.memory }, ?_, ?_, ?_⟩
  · rw [Scene.visit.eq_def]
    refine (yields_fetch hs).bind ?_
    have hchild : (Arena.onlyChild s).Yields a n.label.handle a := by
      unfold Arena.onlyChild
      rw [hchildren]
      exact yields_pure _ _
    have henter : (Arena.enter l.handle wrap scene).Yields a o.scene a₁ := by
      refine (yields_fetch hs).bind ?_
      rw [hname]
      exact (yields_adjust _ _ _).bind ((yields_note _ _).bind (yields_pure _ _))
    have hleave : (Arena.leave l.handle wrap scene (v.status, v.scene)).Yields
        { a₁ with slots := slots₂, log := a₁.log ++ v.log } (c.status, c.scene)
        { a₁ with
          slots := slots₂.modify l.handle fun s => { s with memory := c.memory }
          log := (a₁.log ++ v.log) ++ c.log } := by
      refine (yields_fetch hs₂).bind ?_
      simp only [hname]
      exact (yields_adjust _ _ _).bind ((yields_note _ _).bind (yields_pure _ _))
    simp only [hrole, hname, Role.kind]
    refine (hchild.bind (henter.bind (hyield.bind hleave))).bind ((yields_note _ _).bind ?_)
    simp only [Visit.finish, List.append_assoc, a₁]
    exact yields_pure _ _
  · have hs₃ := getElem?_modify_self hs₂ fun s => { s with memory := c.memory }
    refine Node.All.of_children ⟨_, hs₃, hlater v.node ?_⟩ fun m hm => ?_
    · rw [Node.label_visit]
    · obtain rfl := List.mem_singleton.1 hm
      exact hheld₂.congr fun x hx => hframe₃.2 x fun hm =>
        hfresh (by rwa [List.mem_singleton.1 hm, Node.handles_visit] at hx)
  · exact ((hframe₁.mono (by simp)).trans (hframe₂.mono (by simp +contextual))).trans (hframe₃.mono (by simp))

end Visits

/-- The cursor of a slot stands at the first of several children that are held. -/
structure AtChild (V : Slot κ σ → Node κ σ → Prop) (slots : List (Slot κ σ)) (h : Nat) (s : Slot κ σ) (c : Cursor Nat)
    (passed : List Nat) (rest : List (Node κ σ)) : Prop where
  slot : slots[h]? = some s
  cursor : s.cursor = some c
  items : c.items = (passed ++ rest.map fun n => n.label.handle).toArray
  index : c.index.toNat = passed.length
  size : c.items.size ≤ maxChildren
  held : ∀ n ∈ rest, n.HeldAs V slots
  nodup : (h :: rest.flatMap Node.handles).Nodup

namespace AtChild

variable {V : Slot κ σ → Node κ σ → Prop} {slots slots₁ : List (Slot κ σ)} {h : Nat} {s : Slot κ σ} {c : Cursor Nat}
  {passed : List Nat} {n : Node κ σ} {ns : List (Node κ σ)} (hat : AtChild V slots h s c passed (n :: ns))
include hat

theorem count : c.items.size = passed.length + (ns.length + 1) := by simp [hat.items]

theorem bounded : c.Bounded := by
  have hsize := hat.size
  have hcount := hat.count
  have hindex := hat.index
  have hword : UInt16.size = 65536 := rfl
  simp only [maxChildren] at hsize
  exact ⟨by omega, by omega⟩

theorem current : c.current = .ok n.label.handle :=
  Cursor.current_eq_ok hat.bounded.size_lt (by simp [hat.items, hat.index])

theorem nodup_child : n.handles.Nodup := by
  have := hat.nodup
  rw [List.flatMap_cons] at this
  exact (List.nodup_append.1 (List.nodup_cons.1 this).2).1

theorem not_mem_child : h ∉ n.handles := fun hm =>
  (List.nodup_cons.1 hat.nodup).1 (List.mem_flatMap.2 ⟨n, List.mem_cons_self, hm⟩)

theorem apart {x : Nat} (hx : x ∈ n.handles) : x ∉ h :: ns.flatMap Node.handles := by
  have hnodup := hat.nodup
  rw [List.flatMap_cons] at hnodup
  intro hm
  rcases List.mem_cons.1 hm with rfl | hm
  · exact hat.not_mem_child hx
  · exact (List.nodup_append.1 (List.nodup_cons.1 hnodup).2).2.2 x hx x hm rfl

theorem not_mem_rest {m : Node κ σ} (hm : m ∈ ns) : h ∉ m.handles := fun hx =>
  (List.nodup_cons.1 hat.nodup).1 (List.mem_flatMap.2 ⟨m, List.mem_cons_of_mem _ hm, hx⟩)

/-- While a child is visited, the slot of its composite and those of its siblings do not change. -/
theorem slot_of_frame (hframe : Frame n.handles slots slots₁) : slots₁[h]? = some s := by
  rw [hframe.2 h hat.not_mem_child]
  exact hat.slot

theorem held_of_frame (hframe : Frame n.handles slots slots₁) {m : Node κ σ} (hm : m ∈ ns) : m.HeldAs V slots₁ := by
  refine (hat.held m (List.mem_cons_of_mem _ hm)).congr fun x hx => hframe.2 x fun hx' => ?_
  exact hat.apart hx' (List.mem_cons_of_mem _ (List.mem_flatMap.2 ⟨m, hm, hx⟩))

end AtChild

/-- Past a child that was visited, the cursor stands at the next one. -/
theorem AtChild.next {V : Slot κ σ → Node κ σ → Prop} {slots slots₁ : List (Slot κ σ)} {h : Nat} {s : Slot κ σ}
    {c : Cursor Nat} {passed : List Nat} {n m : Node κ σ} {ns : List (Node κ σ)}
    (hat : AtChild V slots h s c passed (n :: m :: ns)) (hframe : Frame n.handles slots slots₁) : c.advance.1 = true ∧
      AtChild V (slots₁.modify h fun s => { s with cursor := some c.advance.2 }) h
        { s with cursor := some c.advance.2 } c.advance.2 (passed ++ [n.label.handle]) (m :: ns) := by
  have hindex := hat.index
  have hcount := hat.count
  rw [List.length_cons] at hcount
  obtain ⟨hmoved, hplace⟩ := Cursor.advance_of_next hat.bounded (by omega)
  refine ⟨hmoved, getElem?_modify_self (hat.slot_of_frame hframe) _, rfl, ?_, ?_, ?_, fun x hx => ?_, ?_⟩
  · simp [hat.items]
  · rw [hplace, hindex, List.length_append, List.length_singleton]
  · rw [Cursor.items_advance]
    exact hat.size
  · exact (hat.held_of_frame hframe hx).modify (hat.not_mem_rest hx)
  · have := hat.nodup
    rw [List.flatMap_cons] at this
    obtain ⟨hh, hrest⟩ := List.nodup_cons.1 this
    exact List.nodup_cons.2 ⟨fun hm => hh (List.mem_append_right _ hm), (List.nodup_append.1 hrest).2.1⟩

/-- A scan in place yields a scan of the children that its cursor has not passed yet. Afterwards these children are
held, and the cursor stands at the one that is still running, or at the first of all. -/
def ScansTo (V : Slot κ σ → Node κ σ → Prop) (rule : Rule) (h : Nat) (scene : Scene κ σ) (a : Arena κ σ)
    (s : Slot κ σ) (c : Cursor Nat) (passed : List Nat) (rest : List (Node κ σ)) (r : Scan κ σ) : Prop :=
  ∃ (slots : List (Slot κ σ)) (c' : Cursor Nat),
    (Scene.scan rule h scene).Yields a (r.status, r.scene) { a with slots, log := a.log ++ r.log } ∧
    (∀ n ∈ r.children, n.HeldAs V slots) ∧ Frame (h :: rest.flatMap Node.handles) a.slots slots ∧
    slots[h]? = some { s with cursor := some c' } ∧ c'.items = c.items ∧
    c'.index.toNat = if r.status = .running then passed.length + r.stop else 0

theorem Frame.child {slots slots₁ : List (Slot κ σ)} {n : Node κ σ} (hframe : Frame n.handles slots slots₁) (h : Nat)
    (ns : List (Node κ σ)) : Frame (h :: (n :: ns).flatMap Node.handles) slots slots₁ :=
  hframe.mono fun _ hx => List.mem_cons_of_mem _ (List.mem_flatMap.2 ⟨n, List.mem_cons_self, hx⟩)

section FirstChild

variable {V : Slot κ σ → Node κ σ → Prop} {rule : Rule} {h : Nat} {scene : Scene κ σ} {a : Arena κ σ} {s : Slot κ σ}
  {c : Cursor Nat} {passed : List Nat} {n : Node κ σ} {ns : List (Node κ σ)} {slots₁ : List (Slot κ σ)}
  (hat : AtChild V a.slots h s c passed (n :: ns))
  (hyield : (Scene.visit n.label.handle scene).Yields a ((n.visit scene).status, (n.visit scene).scene)
    { a with slots := slots₁, log := a.log ++ (n.visit scene).log })
  (hheld : (n.visit scene).node.HeldAs V slots₁) (hframe : Frame n.handles a.slots slots₁)
include hat hheld hframe

theorem held_child : ∀ m ∈ (n.visit scene).node :: ns, m.HeldAs V slots₁ ∧ h ∉ m.handles := by
  intro m hm
  rcases List.mem_cons.1 hm with rfl | hm
  · exact ⟨hheld, (Node.handles_visit n scene).symm ▸ hat.not_mem_child⟩
  · exact ⟨hat.held_of_frame hframe hm, hat.not_mem_rest hm⟩

/-- A scan that goes back to the first child after its visit of this one has moved its own cursor only. -/
theorem scansTo_rewound (hstatus : (n.visit scene).status ≠ .running) (stop : Nat)
    (hscan : (Scene.scan rule h scene).Yields a ((n.visit scene).status, (n.visit scene).scene)
      { a with
        slots := slots₁.modify h fun s => { s with cursor := some c.reset }
        log := a.log ++ (n.visit scene).log }) :
    ScansTo V rule h scene a s c passed (n :: ns)
      ⟨(n.visit scene).status, stop, (n.visit scene).node :: ns, (n.visit scene).scene, (n.visit scene).log⟩ := by
  have hkept := held_child hat hheld hframe
  refine ⟨_, c.reset, hscan, fun m hm => (hkept m hm).1.modify (hkept m hm).2,
    (hframe.child h _).trans (.modify List.mem_cons_self fun _ => rfl),
    getElem?_modify_self (hat.slot_of_frame hframe) _, rfl, ?_⟩
  rw [if_neg hstatus]
  rfl

include hyield

/-- A child that is running stops the scan, and the cursor stays. -/
theorem scansTo_of_running (hstatus : (n.visit scene).status = .running) :
    ScansTo V rule h scene a s c passed (n :: ns) (Node.scan rule 0 (n :: ns) scene) := by
  have honward : (n.visit scene).status ≠ rule.onward := fun he => rule.onward_ne_running (he ▸ hstatus)
  rw [Node.scan_of_ne_onward honward]
  refine ⟨slots₁, c, ?_, fun m hm => (held_child hat hheld hframe m hm).1, hframe.child h _,
    by rw [hat.slot_of_frame hframe, ← hat.cursor], rfl, ?_⟩
  · rw [Scene.scan.eq_def]
    refine (yields_currentChild hat.slot hat.cursor hat.current).bind (hyield.bind ?_)
    simp only [if_neg honward, if_pos hstatus]
    exact yields_pure _ _
  · rw [if_pos hstatus, hat.index, Nat.add_zero]

/-- A child that settles it ends the scan. -/
theorem scansTo_of_settled (hstatus : (n.visit scene).status ≠ .running)
    (honward : (n.visit scene).status ≠ rule.onward) :
    ScansTo V rule h scene a s c passed (n :: ns) (Node.scan rule 0 (n :: ns) scene) := by
  rw [Node.scan_of_ne_onward honward]
  refine scansTo_rewound hat hheld hframe hstatus 0 ?_
  rw [Scene.scan.eq_def]
  refine (yields_currentChild hat.slot hat.cursor hat.current).bind (hyield.bind ?_)
  simp only [if_neg honward, if_neg hstatus]
  exact (yields_rewind (hat.slot_of_frame hframe) hat.cursor).bind (yields_pure _ _)

end FirstChild

section NextChild

variable {V : Slot κ σ → Node κ σ → Prop} {rule : Rule} {h : Nat} {scene : Scene κ σ} {a : Arena κ σ} {s : Slot κ σ}
  {c : Cursor Nat} {passed : List Nat} {n m : Node κ σ} {ns : List (Node κ σ)} {slots₁ : List (Slot κ σ)}

/-- The last child ends the scan: the cursor cannot advance. -/
theorem scansTo_of_last (hat : AtChild V a.slots h s c passed [n])
    (hyield : (Scene.visit n.label.handle scene).Yields a ((n.visit scene).status, (n.visit scene).scene)
      { a with slots := slots₁, log := a.log ++ (n.visit scene).log })
    (hheld : (n.visit scene).node.HeldAs V slots₁) (hframe : Frame n.handles a.slots slots₁)
    (honward : (n.visit scene).status = rule.onward) :
    ScansTo V rule h scene a s c passed [n] (Node.scan rule 0 [n] scene) := by
  have hs₁ := hat.slot_of_frame hframe
  have hlast : c.advance = (false, c) := Cursor.advance_of_last hat.bounded (by
    rw [hat.count, hat.index]
    exact Nat.le_refl _)
  have hstay : (Arena.advance h).Yields { a with slots := slots₁, log := a.log ++ (n.visit scene).log } false
      { a with slots := slots₁, log := a.log ++ (n.visit scene).log } := by
    have := yields_advance (a := { a with slots := slots₁, log := a.log ++ (n.visit scene).log }) hs₁ hat.cursor
    rwa [hlast, modify_eq_self hs₁ (by rw [← hat.cursor])] at this
  have hscan : Node.scan rule 0 [n] scene =
      ⟨(n.visit scene).status, 1, [(n.visit scene).node], (n.visit scene).scene, (n.visit scene).log⟩ := by
    rw [Node.scan_of_onward honward, honward]
    simp only [Node.scan, List.append_nil]
  rw [hscan]
  refine scansTo_rewound hat hheld hframe (honward ▸ rule.onward_ne_running) 1 ?_
  rw [Scene.scan.eq_def]
  refine (yields_currentChild hat.slot hat.cursor hat.current).bind (hyield.bind ?_)
  rw [if_pos honward]
  refine hstay.bind ?_
  rw [if_neg Bool.false_ne_true]
  exact (yields_rewind hs₁ hat.cursor).bind (yields_pure _ _)

/-- Past a child that is not the last one, the scan goes on with the next one. -/
theorem scansTo_of_next (hat : AtChild V a.slots h s c passed (n :: m :: ns))
    (hyield : (Scene.visit n.label.handle scene).Yields a ((n.visit scene).status, (n.visit scene).scene)
      { a with slots := slots₁, log := a.log ++ (n.visit scene).log })
    (hheld : (n.visit scene).node.HeldAs V slots₁) (hframe : Frame n.handles a.slots slots₁)
    (honward : (n.visit scene).status = rule.onward)
    (hnext : ScansTo V rule h (n.visit scene).scene
      { a with
        slots := slots₁.modify h fun s => { s with cursor := some c.advance.2 }
        log := a.log ++ (n.visit scene).log }
      { s with cursor := some c.advance.2 } c.advance.2 (passed ++ [n.label.handle]) (m :: ns)
      (Node.scan rule 0 (m :: ns) (n.visit scene).scene)) :
    ScansTo V rule h scene a s c passed (n :: m :: ns) (Node.scan rule 0 (n :: m :: ns) scene) := by
  obtain ⟨slots₂, c', hscan, hheld₂, hframe₂, hs₂, hitems, hindex⟩ := hnext
  rw [Node.scan_of_onward honward]
  refine ⟨slots₂, c', ?_, fun x hx => ?_, ?_, hs₂, hitems.trans (Cursor.items_advance _), ?_⟩
  · rw [Scene.scan.eq_def]
    refine (yields_currentChild hat.slot hat.cursor hat.current).bind (hyield.bind ?_)
    rw [if_pos honward]
    refine (yields_advance (hat.slot_of_frame hframe) hat.cursor).bind ?_
    rw [if_pos (hat.next hframe).1]
    simpa only [List.append_assoc] using hscan
  · rcases List.mem_cons.1 hx with rfl | hx
    · -- What is visited later leaves this child alone.
      have hkept := hheld.modify (f := fun s => { s with cursor := some c.advance.2 })
        (held_child hat hheld hframe _ List.mem_cons_self).2
      refine hkept.congr fun y hy => hframe₂.2 y (hat.apart ?_)
      rwa [Node.handles_visit] at hy
    · exact hheld₂ x hx
  · have hmoved : Frame (h :: (n :: m :: ns).flatMap Node.handles) slots₁
        (slots₁.modify h fun s => { s with cursor := some c.advance.2 }) := .modify List.mem_cons_self fun _ => rfl
    refine ((hframe.child h _).trans hmoved).trans (hframe₂.mono fun x hx => ?_)
    rcases List.mem_cons.1 hx with rfl | hx
    · exact List.mem_cons_self
    · exact List.mem_cons_of_mem _ (List.mem_append_right _ hx)
  · rw [hindex, List.length_append, List.length_singleton]
    by_cases hrunning : (Node.scan rule 0 (m :: ns) (n.visit scene).scene).status = .running
    · rw [if_pos hrunning, if_pos hrunning]
      exact Nat.add_right_comm _ 1 _
    · rw [if_neg hrunning, if_neg hrunning]

end NextChild

/-- A scan in place, from any child on, yields the scan of the nodes. -/
theorem scansTo_scan {V : Slot κ σ → Node κ σ → Prop} (rule : Rule) {h : Nat} : ∀ (rest : List (Node κ σ))
    (passed : List Nat) (scene : Scene κ σ) (a : Arena κ σ) (s : Slot κ σ) (c : Cursor Nat),
    (∀ n ∈ rest, VisitsAs V n) → rest ≠ [] →
    AtChild V a.slots h s c passed rest → ScansTo V rule h scene a s c passed rest (Node.scan rule 0 rest scene)
  | [], _, _, _, _, _, _, hne, _ => absurd rfl hne
  | n :: ns, passed, scene, a, s, c, hvisit, _, hat => by
    obtain ⟨slots₁, hyield, hheld, hframe⟩ :=
      hvisit n List.mem_cons_self scene a (hat.held n List.mem_cons_self) hat.nodup_child
    by_cases honward : (n.visit scene).status = rule.onward
    · cases ns with
      | nil => exact scansTo_of_last hat hyield hheld hframe honward
      | cons m ms =>
        refine scansTo_of_next hat hyield hheld hframe honward ?_
        exact scansTo_scan rule (m :: ms) _ _ _ _ _ (fun x hx => hvisit x (List.mem_cons_of_mem _ hx)) (by simp)
          (hat.next hframe).2
    · by_cases hstatus : (n.visit scene).status = .running
      · exact scansTo_of_running hat hyield hheld hframe hstatus
      · exact scansTo_of_settled hat hyield hheld hframe hstatus honward

section Composite

variable {V : Slot κ σ → Node κ σ → Prop} (hV : View V) {l : Label} {rule : Rule} {keep : Bool} {cursor : Option Nat}
  {ns : List (Node κ σ)} {s : Slot κ σ} (hview : V s (.composite l rule keep cursor ns))
include hV hview

namespace View

theorem count : s.draft.children.length = ns.length := by
  have hchildren : s.draft.children = ns.map fun n => n.label.handle := hV.children hview
  rw [hchildren, List.length_map]

theorem count_le : ns.length ≤ maxChildren := by
  have hrole : s.draft.role = .composite rule keep := (hV.role hview).1
  have hroom : s.draft.children.length ≤ s.draft.role.room := hV.fits hview
  rwa [hV.count hview, hrole] at hroom

theorem count_pos : 0 < ns.length := List.length_pos_iff.2 (hV.role hview).2

/-- A composite starts at the place of a child. -/
theorem startPlace_lt : startPlace keep cursor < ns.length := by
  rw [← hV.start hview]
  unfold startPlace
  cases keep with
  | false => exact hV.count_pos hview
  | true =>
    cases hc : s.cursor with
    | none => exact hV.count_pos hview
    | some c =>
      rw [← hV.count hview]
      exact (hV.placed hview c hc).2

end View

/-- Where a composite is held, its cursor can be set to any of its children. -/
theorem atChild_of_view {slots : List (Slot κ σ)} (hs : slots[l.handle]? = some s)
    (hheld : ∀ n ∈ ns, n.HeldAs V slots) (hnodup : (l.handle :: ns.flatMap Node.handles).Nodup) {c : Cursor Nat}
    {k : Nat} (hk : k < ns.length) (hitems : c.items = s.draft.children.toArray) (hindex : c.index.toNat = k) :
    AtChild V (slots.modify l.handle fun s => { s with cursor := some c }) l.handle { s with cursor := some c } c
      ((ns.take k).map fun n => n.label.handle) (ns.drop k) := by
  have hchildren : s.draft.children = ns.map fun n => n.label.handle := hV.children hview
  refine ⟨getElem?_modify_self hs _, rfl, ?_, ?_, ?_, fun n hn => ?_, ?_⟩
  · rw [hitems, hchildren, ← List.map_append, List.take_append_drop]
  · rw [hindex, List.length_map, List.length_take, Nat.min_eq_left (Nat.le_of_lt hk)]
  · rw [hitems, List.size_toArray, hV.count hview]
    exact hV.count_le hview
  · have hmem := List.mem_of_mem_drop hn
    exact (hheld n hmem).modify fun hm => (List.nodup_cons.1 hnodup).1 (List.mem_flatMap.2 ⟨n, hmem, hm⟩)
  · exact hnodup.sublist (((List.drop_sublist k ns).flatMap Node.handles).cons_cons _)

end Composite

/-- Children that are left out of a scan have no handle in common with those that are not. -/
theorem not_mem_drop {h k x : Nat} {ns : List (Node κ σ)} (hnodup : (h :: ns.flatMap Node.handles).Nodup)
    {n : Node κ σ} (hn : n ∈ ns.take k) (hx : x ∈ n.handles) : x ∉ h :: (ns.drop k).flatMap Node.handles := by
  obtain ⟨hfresh, hall⟩ := List.nodup_cons.1 hnodup
  intro hm
  rcases List.mem_cons.1 hm with rfl | hm
  · exact hfresh (List.mem_flatMap.2 ⟨n, List.mem_of_mem_take hn, hx⟩)
  · rw [← List.take_append_drop k ns, List.flatMap_append] at hall
    exact (List.nodup_append.1 hall).2.2 x (List.mem_flatMap.2 ⟨n, hn, hx⟩) x hm rfl

theorem visitsAs_composite {V : Slot κ σ → Node κ σ → Prop} (hV : View V) {l : Label} {rule : Rule} {keep : Bool}
    {cursor : Option Nat} {ns : List (Node κ σ)} (hvisit : ∀ n ∈ ns, VisitsAs V n) :
    VisitsAs V (.composite l rule keep cursor ns) := by
  intro scene a hn hnodup
  obtain ⟨s, hs, hview⟩ := Node.All.self hn
  have hrole : s.draft.role = .composite rule keep := (hV.role hview).1
  have hname : s.draft.name = l.name := hV.name hview
  have hne : s.draft.children ≠ [] := List.length_pos_iff.1 (hV.count hview ▸ hV.count_pos hview)
  have hplaced : keep = true → s.Placed := by
    rintro rfl
    exact hV.placed hview
  rw [Node.handles_eq] at hnodup ⊢
  simp only [Node.children, Node.label] at hnodup ⊢
  -- The composite prepares its cursor; the slots of its children do not change.
  obtain ⟨k, hk⟩ : ∃ k, k = startPlace keep cursor := ⟨_, rfl⟩
  have hklt : k < ns.length := hk ▸ hV.startPlace_lt hview
  obtain ⟨c, hprepare, hitems, hindex⟩ := yields_prepare hs keep hne hplaced
  rw [hV.start hview, ← hk] at hindex
  have hframe₁ : Frame [l.handle] a.slots (a.slots.modify l.handle fun s => { s with cursor := some c }) :=
    .modify (by simp) fun _ => rfl
  -- It scans from there on.
  have hat := atChild_of_view hV hview hs (fun n hn' => hn.child hn') hnodup hklt hitems hindex
  have hdrop : ns.drop k ≠ [] := by simpa [List.drop_eq_nil_iff] using hklt
  obtain ⟨slots₂, c', hscan, hheld, hframe₂, hs₂, hitems', hindex'⟩ := scansTo_scan rule (ns.drop k) _ scene
    { a with slots := a.slots.modify l.handle fun s => { s with cursor := some c } } _ _
    (fun n hn' => hvisit n (List.mem_of_mem_drop hn')) hdrop hat
  let r := Node.scan rule 0 (ns.drop k) scene
  have hplace : c'.index.toNat = if r.status = .running then k + r.stop else 0 := by
    rw [hindex', List.length_map, List.length_take, Nat.min_eq_left (Nat.le_of_lt hklt)]
  have hvisited : (Node.composite l rule keep cursor ns).visit scene = Visit.finish ⟨r.status,
      .composite l rule keep (some c'.index.toNat) (ns.take k ++ r.children), r.scene, r.log⟩ := by
    rw [hplace, Node.visit, ← hk, Node.scan_eq_drop rule k ns scene (Nat.le_of_lt hklt)]
  have hlt : c'.index.toNat < ns.length := by
    rw [hplace]
    split
    · rename_i hrunning
      have hstop : r.stop < (ns.drop k).length := Node.stop_scan_lt hrunning
      rw [List.length_drop] at hstop
      omega
    · exact hV.count_pos hview
  have hmoved : V { s with cursor := some c' }
      (.composite l rule keep (some c'.index.toNat) (ns.take k ++ r.children)) := by
    refine hV.moved hview (hitems'.trans hitems) hlt ?_
    rw [List.map_append, Node.map_handle_scan, ← List.map_append, List.take_append_drop]
  rw [hvisited]
  refine ⟨slots₂, ?_, Node.All.of_children ⟨_, hs₂, hmoved⟩ fun n hn' => ?_, ?_⟩
  · rw [Scene.visit.eq_def]
    refine (yields_fetch hs).bind ?_
    simp only [hrole, hname, Role.kind]
    refine (hprepare.bind hscan).bind ((yields_note _ _).bind ?_)
    simp only [Visit.finish, List.append_assoc]
    exact yields_pure _ _
  · rcases List.mem_append.1 hn' with hn' | hn'
    · have hkept := hn.child (List.mem_of_mem_take hn')
      exact (hkept.congr fun x hx => hframe₁.2 x fun hx' =>
          not_mem_drop hnodup hn' hx (List.mem_cons.2 (.inl (List.mem_singleton.1 hx')))).congr fun x hx =>
        hframe₂.2 x (not_mem_drop hnodup hn' hx)
    · exact hheld n hn'
  · refine (hframe₁.mono (by simp)).trans (hframe₂.mono fun x hx => ?_)
    rcases List.mem_cons.1 hx with rfl | hx
    · exact List.mem_cons_self
    · obtain ⟨n, hn', hx⟩ := List.mem_flatMap.1 hx
      exact List.mem_cons_of_mem _ (List.mem_flatMap.2 ⟨n, List.mem_of_mem_drop hn', hx⟩)

mutual
/-- Every node can be visited in place. -/
theorem visitsAs {V : Slot κ σ → Node κ σ → Prop} (hV : View V) : ∀ n : Node κ σ, VisitsAs V n
  | .leaf l act => visitsAs_leaf hV l act
  | .composite _ _ _ _ ns => visitsAs_composite hV (visitsAs_all hV ns)
  | .decorator _ _ _ n => visitsAs_decorator hV (visitsAs hV n)

theorem visitsAs_all {V : Slot κ σ → Node κ σ → Prop} (hV : View V) : ∀ ns : List (Node κ σ),
    ∀ n ∈ ns, VisitsAs V n
  | [] => List.forall_mem_nil _
  | n :: ns => List.forall_mem_cons.2 ⟨visitsAs hV n, visitsAs_all hV ns⟩
end

/-! ## The view of all progress -/

/-- A slot goes on showing its composite when the cursor is moved and the children have been visited. -/
theorem Slot.Shows.moved {l : Label} {rule : Rule} {keep : Bool} {cursor : Option Nat} {ns ms : List (Node κ σ)}
    {s : Slot κ σ} {c : Cursor Nat} (hshow : s.Shows (.composite l rule keep cursor ns))
    (hitems : c.items = s.draft.children.toArray) (hindex : c.index.toNat < ns.length)
    (hms : (ms.map fun n => n.label.handle) = ns.map fun n => n.label.handle) :
    Slot.Shows { s with cursor := some c } (.composite l rule keep (some c.index.toNat) ms) := by
  have hchildren : s.draft.children = ns.map fun n => n.label.handle := hshow.children
  refine ⟨hshow.name, hchildren.trans hms.symm, ?_, fun c' hc' => ?_, hshow.fits, hshow.role.1, fun hnil => ?_⟩
  · rw [Slot.progress, show s.memory = {} from congrArg Progress.memory hshow.progress]
    rfl
  · obtain rfl : c = c' := by simpa using hc'
    refine ⟨hitems, ?_⟩
    rw [hchildren, List.length_map]
    exact hindex
  · rw [hnil] at hms
    exact hshow.role.2 (List.map_eq_nil_iff.1 hms.symm)

/-- A slot goes on showing its decorator when the memory is changed and the child has been visited. -/
theorem Slot.Shows.remembering {l : Label} {wrap : Decorator κ σ} {memory memory' : Memory} {n m : Node κ σ}
    {s : Slot κ σ} (hshow : s.Shows (.decorator l wrap memory n)) (hm : m.label.handle = n.label.handle) :
    Slot.Shows { s with memory := memory' } (.decorator l wrap memory' m) := by
  have hcursor : s.cursor = none := by
    simpa [Slot.progress, Node.progress] using congrArg Progress.cursor hshow.progress
  refine ⟨hshow.name, ?_, ?_, fun c hc => ?_, hshow.fits, hshow.role⟩
  · have hchildren : s.draft.children = [n.label.handle] := hshow.children
    rw [hchildren, ← hm]
    rfl
  · simp [Slot.progress, Node.progress, hcursor]
  · simp [hcursor] at hc

theorem view_shows : View (Slot.Shows : Slot κ σ → Node κ σ → Prop) := by
  constructor
  case name => exact fun h => h.name
  case children => exact fun h => h.children
  case fits => exact fun h => h.fits
  case role => exact fun h => h.role
  case placed => exact fun h => h.placed
  case start =>
    intro s l rule keep cursor ns h
    exact congrArg (startPlace keep) (congrArg Progress.cursor h.progress)
  case moved => exact fun h => h.moved
  case opened =>
    intro s l wrap memory n h scene
    obtain rfl : s.memory = memory := congrArg Progress.memory h.progress
    rfl
  case closed =>
    intro s l wrap memory n h scene raw inner
    obtain rfl : s.memory = memory := congrArg Progress.memory h.progress
    exact ⟨rfl, fun m hm => h.remembering hm⟩

/-- A visit in place of a node that is held yields what the visit of the node yields. -/
theorem visitsInPlace (n : Node κ σ) : VisitsAs Slot.Shows n := visitsAs view_shows n

end Behaviour
