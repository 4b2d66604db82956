import Behaviour.Proofs.Essence
import Behaviour.Proofs.Renewal

/-!
# Nothing but declared memory is remembered

Two states of a tree *agree* if they have the same places of the composites that keep theirs, the same results held
back, the same tests that have held, and the same memory of hooks (`Role.Agree`). Whatever else is in the slots, stale
cursors, released results, memory that no decorator of the kind uses, or the progress of nodes that cannot be reached:
play goes on alike from both states, with the same replies to all requests but listings (`memory_suffices`).

The reason is that agreement makes for a `View` of slots (`view_suits`): a slot *suits* a node if the two have the same
structure and agree. The node recollected from one state (`Node.recollect`) is then one that the slots of either state
suit, and both play as this node does.
-/

namespace Behaviour

variable {κ σ : Type}

open Play

/-! ## Agreement -/

/-- What two states of the progress of a node have in common if play cannot tell them apart. -/
def Role.Agree : Role κ σ → Progress → Progress → Prop
  | .composite _ true, p, q => p.cursor.getD 0 = q.cursor.getD 0
  | .decorator (some .delay), p, q => p.memory.hasPending = q.memory.hasPending ∧
      (p.memory.hasPending = true → p.memory.pending = q.memory.pending)
  | .decorator (some (.await _)), p, q => p.memory.done = q.memory.done
  | .decorator (some (.custom _ _)), p, q => p.memory = q.memory
  | .leaf _, _, _ | .composite _ false, _, _ | .decorator none, _, _ | .decorator (some .negate), _, _ => True

/-- A node of the role has nothing to agree on. -/
def Role.Forgetful : Role κ σ → Prop
  | .leaf _ | .composite _ false | .decorator none | .decorator (some .negate) => True
  | .composite _ true | .decorator (some .delay) | .decorator (some (.await _)) | .decorator (some (.custom _ _)) =>
    False

namespace Role

theorem Agree.symm {r : Role κ σ} {p q : Progress} (h : r.Agree p q) : r.Agree q p := by
  cases r with
  | leaf act => trivial
  | composite rule keep =>
    cases keep with
    | false => trivial
    | true => exact Eq.symm h
  | decorator wrap =>
    cases wrap with
    | none => trivial
    | some wrap =>
      cases wrap with
      | negate => trivial
      | delay =>
        obtain ⟨hheld, hresult⟩ := h
        exact ⟨hheld.symm, fun hq => (hresult (hheld.trans hq)).symm⟩
      | await test => exact Eq.symm h
      | custom before after => exact Eq.symm h

theorem Agree.refl (r : Role κ σ) (p : Progress) : r.Agree p p := by
  cases r with
  | leaf act => trivial
  | composite rule keep => cases keep <;> trivial
  | decorator wrap =>
    cases wrap with
    | none => trivial
    | some wrap =>
      cases wrap with
      | negate | await | custom => trivial
      | delay => exact ⟨rfl, fun _ => rfl⟩

theorem Forgetful.agree {r : Role κ σ} (h : r.Forgetful) (p q : Progress) : r.Agree p q := by
  cases r with
  | leaf act => trivial
  | composite rule keep =>
    cases keep with
    | false => trivial
    | true => cases h
  | decorator wrap =>
    cases wrap with
    | none => trivial
    | some wrap =>
      cases wrap with
      | negate => trivial
      | delay | await | custom => cases h

/-- Decorators agree on memories with the same essence. -/
theorem agree_decorator_iff {w : Decorator κ σ} {p q : Progress} :
    (Role.decorator (some w)).Agree p q ↔ w.essential p.memory = w.essential q.memory := by
  cases w with
  | negate => exact ⟨fun _ => rfl, fun _ => trivial⟩
  | delay =>
    show _ ∧ _ ↔ _
    cases hp : p.memory.hasPending <;> cases hq : q.memory.hasPending <;> simp [Decorator.essential, hp, hq]
  | await test => simp [Role.Agree, Decorator.essential]
  | custom before after => exact Iff.rfl

end Role

/-! ## Slots that suit nodes -/

/-- A slot has the structure of a node and agrees with it. -/
structure Slot.Suits (s : Slot κ σ) (n : Node κ σ) : Prop where
  name : s.draft.name = n.label.name
  children : s.draft.children = n.children.map fun m => m.label.handle
  fits : s.draft.Fits
  role : n.Plays s.draft.role
  agree : s.draft.role.Agree s.progress n.progress
  placed : s.draft.role.keep = true → s.Placed

namespace Slot.Suits

/-- A slot goes on suiting its composite when the cursor is moved and the children have been visited. -/
theorem moved {l : Label} {rule : Rule} {keep : Bool} {cursor : Option Nat} {ns ms : List (Node κ σ)} {s : Slot κ σ}
    {c : Cursor Nat} (h : s.Suits (.composite l rule keep cursor ns)) (hitems : c.items = s.draft.children.toArray)
    (hindex : c.index.toNat < ns.length)
    (hms : (ms.map fun n => n.label.handle) = ns.map fun n => n.label.handle) :
    Slot.Suits { s with cursor := some c } (.composite l rule keep (some c.index.toNat) ms) := by
  have hchildren : s.draft.children = ns.map fun n => n.label.handle := h.children
  have hrole : s.draft.role = .composite rule keep := h.role.1
  constructor
  case name => exact h.name
  case children => exact hchildren.trans hms.symm
  case fits => exact h.fits
  case role =>
    refine ⟨hrole, ?_⟩
    intro hnil
    rw [hnil] at hms
    exact h.role.2 (List.map_eq_nil_iff.1 hms.symm)
  case agree =>
    rw [hrole]
    cases keep with
    | false => trivial
    | true => exact rfl
  case placed =>
    intro _ c' hc'
    obtain rfl : c = c' := Option.some.inj hc'
    refine ⟨hitems, ?_⟩
    rw [hchildren, List.length_map]
    exact hindex

/-- A slot goes on suiting its decorator when both have memories of the same essence and the child has been visited. -/
theorem remembering {l : Label} {wrap : Decorator κ σ} {memory m₁ m₂ : Memory} {n n' : Node κ σ} {s : Slot κ σ}
    (h : s.Suits (.decorator l wrap memory n)) (hm : wrap.essential m₁ = wrap.essential m₂)
    (hn : n'.label.handle = n.label.handle) :
    Slot.Suits { s with memory := m₁ } (.decorator l wrap m₂ n') := by
  have hchildren : s.draft.children = [n.label.handle] := h.children
  have hrole : s.draft.role = .decorator (some wrap) := h.role
  constructor
  case name => exact h.name
  case children =>
    rw [hchildren, ← hn]
    rfl
  case fits => exact h.fits
  case role => exact hrole
  case agree =>
    rw [hrole]
    exact Role.agree_decorator_iff.2 hm
  case placed =>
    intro hkeep
    rw [hrole] at hkeep
    cases hkeep

theorem reset {s : Slot κ σ} {n : Node κ σ} (h : s.Suits n) : s.reset.Suits n.reset := by
  constructor
  case name =>
    rw [Node.label_reset]
    exact h.name
  case children =>
    rw [Node.children_reset, List.map_map]
    refine h.children.trans (List.map_congr_left fun m _ => ?_)
    rw [Function.comp, Node.label_reset]
  case fits => exact h.fits
  case role => exact h.role.reset
  case agree =>
    rw [Node.progress_reset]
    exact .refl _ _
  case placed =>
    intro _ c hc
    cases hc

/-- The memories of a decorator and of a slot that suits it have the same essence. -/
theorem essential {l : Label} {wrap : Decorator κ σ} {memory : Memory} {n : Node κ σ} {s : Slot κ σ}
    (h : s.Suits (.decorator l wrap memory n)) : wrap.essential s.memory = wrap.essential memory := by
  have hagree := h.agree
  rw [show s.draft.role = .decorator (some wrap) from h.role] at hagree
  exact Role.agree_decorator_iff.1 hagree

end Slot.Suits

theorem view_suits : View (Slot.Suits : Slot κ σ → Node κ σ → Prop) := by
  constructor
  case name => exact fun h => h.name
  case children => exact fun h => h.children
  case fits => exact fun h => h.fits
  case role => exact fun h => h.role
  case placed =>
    intro s l rule cursor ns h
    refine h.placed ?_
    rw [show s.draft.role = .composite rule true from h.role.1]
    rfl
  case start =>
    intro s l rule keep cursor ns h
    have hagree := h.agree
    rw [show s.draft.role = .composite rule keep from h.role.1] at hagree
    cases keep with
    | false => rfl
    | true => exact hagree
  case moved => exact fun h => h.moved
  case opened =>
    intro s l wrap memory n h scene
    obtain ⟨hscene, hlog, -⟩ := Decorator.enter_congr h.essential l scene
    show wrap.enter l s.memory scene = ⟨(wrap.enter l s.memory scene).memory, _, _⟩
    rw [← hscene, ← hlog]
  case closed =>
    intro s l wrap memory n h scene raw inner
    obtain ⟨-, -, hopened⟩ := Decorator.enter_congr h.essential l scene
    obtain ⟨hstatus, hmemory, hscene, hlog⟩ := Decorator.leave_congr hopened l raw inner
    refine ⟨?_, fun m hm => h.remembering hmemory hm⟩
    show wrap.leave l _ raw inner = ⟨_, (wrap.leave l _ raw inner).memory, _, _⟩
    rw [← hstatus, ← hscene, ← hlog]

/-! ## What is recollected from a state -/

namespace Node

mutual
/-- The node with the progress that a state has for each handle. -/
def recollect (state : Nat → Progress) : Node κ σ → Node κ σ
  | leaf l a => leaf l a
  | composite l r k _ ns => composite l r k (state l.handle).cursor (recollectAll state ns)
  | decorator l w _ n => decorator l w (state l.handle).memory (n.recollect state)

/-- Several nodes with the progress that a state has for each handle. -/
def recollectAll (state : Nat → Progress) : List (Node κ σ) → List (Node κ σ)
  | [] => []
  | n :: ns => n.recollect state :: recollectAll state ns
end

variable (state : Nat → Progress)

@[simp] theorem recollectAll_eq_map (ns : List (Node κ σ)) : recollectAll state ns = ns.map (recollect state) := by
  induction ns with
  | nil => rfl
  | cons n ns ih => simp [recollectAll, ih]

@[simp] theorem label_recollect (n : Node κ σ) : (n.recollect state).label = n.label := by
  cases n <;> rfl

theorem children_recollect (n : Node κ σ) : (n.recollect state).children = n.children.map (recollect state) := by
  cases n <;> simp [recollect, children]

mutual
theorem subtree_recollect : ∀ n : Node κ σ, (n.recollect state).subtree = n.subtree.map (recollect state)
  | leaf _ _ => rfl
  | composite _ _ _ _ ns => by rw [recollect, subtree, subtree, forest_recollectAll ns]; rfl
  | decorator _ _ _ n => by rw [recollect, subtree, subtree, subtree_recollect n]; rfl

theorem forest_recollectAll : ∀ ns : List (Node κ σ), forest (recollectAll state ns) = (forest ns).map (recollect state)
  | [] => rfl
  | n :: ns => by rw [recollectAll, forest, forest, subtree_recollect n, forest_recollectAll ns, List.map_append]
end

theorem handles_recollect (n : Node κ σ) : (n.recollect state).handles = n.handles := by
  rw [handles, subtree_recollect, List.map_map]
  exact List.map_congr_left fun m _ => congrArg Label.handle (label_recollect state m)

theorem Plays.recollect {n : Node κ σ} {r : Role κ σ} (h : n.Plays r) : (n.recollect state).Plays r := by
  cases n with
  | leaf => exact h
  | composite => exact ⟨h.1, by simpa using h.2⟩
  | decorator => exact h

/-- To agree with what is recollected is to agree with the state. -/
theorem Plays.agree_recollect {n : Node κ σ} {r : Role κ σ} (h : n.Plays r) {p : Progress}
    (hagree : r.Agree p (state n.label.handle)) : r.Agree p (n.recollect state).progress := by
  cases n with
  | leaf l act =>
    obtain rfl : r = .leaf (some act) := h
    trivial
  | composite l rule keep cursor ns =>
    obtain ⟨rfl, -⟩ := h
    cases keep with
    | false => trivial
    | true => exact hagree
  | decorator l wrap memory n =>
    obtain rfl : r = .decorator (some wrap) := h
    have hessence := Role.agree_decorator_iff.1 hagree
    exact Role.agree_decorator_iff.2 hessence

end Node

/-! ## Arenas that play as a node does -/

/-- An arena plays as a node does: it has no defect, the node is its root, and its slots suit the nodes below. -/
structure Arena.PlaysAs (a : Arena κ σ) (n : Node κ σ) : Prop where
  defect : a.defect = none
  root_nonneg : 0 ≤ a.root
  root : a.root.toNat = n.label.handle
  held : n.HeldAs Slot.Suits a.slots
  nodup : n.handles.Nodup

namespace Arena.PlaysAs

variable {a : Arena κ σ} {n : Node κ σ}

theorem tick (h : a.PlaysAs n) (scene : Scene κ σ) : ∃ a' : Arena κ σ,
    (Arena.tick scene).Yields a ((n.visit scene).status, (n.visit scene).scene) a' ∧
      a'.log = a.log ++ (n.visit scene).log ∧ a'.PlaysAs (n.visit scene).node := by
  obtain ⟨slots, hyield, hheld, -⟩ := yields_tick view_suits h.defect h.root_nonneg h.root h.held h.nodup scene
  refine ⟨_, hyield, rfl, h.defect, h.root_nonneg, ?_, hheld, ?_⟩
  · rw [Node.label_visit]
    exact h.root
  · rw [Node.handles_visit]
    exact h.nodup

theorem reset (h : a.PlaysAs n) : a.reset.PlaysAs n.reset := by
  refine ⟨h.defect, h.root_nonneg, ?_, ?_, ?_⟩
  · rw [Node.label_reset]
    exact h.root
  · intro x hx
    rw [Node.subtree_reset] at hx
    obtain ⟨m, hm, rfl⟩ := List.mem_map.1 hx
    obtain ⟨s, hs, hsuits⟩ := h.held m hm
    refine ⟨s.reset, ?_, hsuits.reset⟩
    rw [Node.label_reset, Arena.reset, List.getElem?_map, hs]
    rfl
  · rw [Node.handles_reset]
    exact h.nodup

/-- All requests but listings are served as the node serves them. -/
theorem serve : ∀ (rs : List (Request κ σ)) (tracing : Bool) {a : Arena κ σ} {n : Node κ σ}, a.PlaysAs n →
    .list ∉ rs → ∃ a' : Arena κ σ, (Arena.serve tracing rs).Yields a (n.serve tracing rs).1 a' ∧
      a'.PlaysAs (n.serve tracing rs).2
  | [], _, a, _, h, _ => ⟨a, yields_pure _ _, h⟩
  | .tick scene :: rs, tracing, a, n, h, hlist => by
    obtain ⟨a₁, hyield, hlog, h₁⟩ := h.tick scene
    obtain ⟨a', hyields, h'⟩ := serve rs tracing h₁ fun hm => hlist (List.mem_cons_of_mem _ hm)
    refine ⟨a', ?_, h'⟩
    refine (yields_get a).bind (hyield.bind ((yields_get a₁).bind (hyields.bind ?_)))
    rw [hlog, List.drop_left]
    exact yields_pure _ _
  | .reset :: rs, tracing, a, n, h, hlist => by
    obtain ⟨a', hyields, h'⟩ := serve rs tracing h.reset fun hm => hlist (List.mem_cons_of_mem _ hm)
    exact ⟨a', (yields_modify _ _).bind (hyields.bind (yields_pure _ _)), h'⟩
  | .list :: rs, _, _, _, _, hlist => absurd List.mem_cons_self hlist
  | .watch tracing :: rs, _, a, n, h, hlist => by
    obtain ⟨a', hyields, h'⟩ := serve rs tracing h fun hm => hlist (List.mem_cons_of_mem _ hm)
    exact ⟨a', hyields.bind (yields_pure _ _), h'⟩

end Arena.PlaysAs

/-! ## States of one tree -/

/-- An arena is a state of the tree below a root, whatever has become of the progress of its nodes; only a composite
that keeps its place has it among its children. -/
structure Arena.StandsFor (a : Arena κ σ) (b : Builder κ σ) (root : Int) : Prop where
  drafts : a.slots.map Slot.draft = b.drafts
  root_eq : a.root = root
  defect : a.defect = none
  placed : ∀ h s, Reaches b.drafts root.toNat h → a.slots[h]? = some s → s.draft.role.keep = true → s.Placed

/-- Two states agree on all nodes that can be reached from a root. -/
def Builder.Agree (b : Builder κ σ) (root : Int) (p q : Nat → Progress) : Prop :=
  ∀ h d, Reaches b.drafts root.toNat h → b.drafts[h]? = some d → d.role.Agree (p h) (q h)

theorem Builder.Agree.symm {b : Builder κ σ} {root : Int} {p q : Nat → Progress} (h : b.Agree root p q) :
    b.Agree root q p := fun x d hreach hd => (h x d hreach hd).symm

theorem Arena.progressOf_of_slot {a : Arena κ σ} {h : Nat} {s : Slot κ σ} (hs : a.slots[h]? = some s) :
    a.progressOf h = s.progress := by
  rw [Arena.progressOf, hs]
  rfl

namespace Arena.StandsFor

variable {a : Arena κ σ} {b : Builder κ σ} {root : Int}

/-- A state plays as the node that is recollected from a state that it agrees with. -/
theorem playsAs_recollect (h : a.StandsFor b root) (hf : Forest b.drafts) {n : Node κ σ}
    (hfresh : Mirrors (Arena.freeze b root) (Tree.freeze b root) n) {state : Nat → Progress}
    (hagree : b.Agree root a.progressOf state) : a.PlaysAs (n.recollect state) := by
  have hroot : a.root = (Arena.freeze b root).root := h.root_eq
  refine ⟨h.defect, ?_, ?_, ?_, ?_⟩
  · rw [hroot]
    exact hfresh.root_nonneg
  · rw [hroot, Node.label_recollect]
    exact hfresh.root
  · intro x hx
    rw [Node.subtree_recollect] at hx
    obtain ⟨m, hm, rfl⟩ := List.mem_map.1 hx
    obtain ⟨d, hd, hname, hchildren, hfits, hplays⟩ := hfresh.held.exists_draft (Arena.map_draft_freeze b root) hm
    have hslot : (a.slots.map Slot.draft)[m.label.handle]? = some d := by
      rw [h.drafts]
      exact hd
    rw [List.getElem?_map] at hslot
    obtain ⟨s, hs, rfl⟩ := Option.map_eq_some_iff.1 hslot
    have hreach : Reaches b.drafts root.toNat m.label.handle :=
      (mem_handles_iff_reaches hf hfresh.plan _).1 (List.mem_map_of_mem hm)
    refine ⟨s, ?_, ?_⟩
    · rw [Node.label_recollect]
      exact hs
    · constructor
      case name =>
        rw [Node.label_recollect]
        exact hname
      case children =>
        rw [Node.children_recollect, List.map_map]
        refine hchildren.trans (List.map_congr_left fun c _ => ?_)
        rw [Function.comp, Node.label_recollect]
      case fits => exact hfits
      case role => exact hplays.recollect state
      case agree =>
        rw [← Arena.progressOf_of_slot hs]
        exact hplays.agree_recollect state (hagree _ _ hreach hd)
      case placed => exact h.placed _ s hreach hs
  · rw [Node.handles_recollect]
    exact hfresh.nodup

end Arena.StandsFor

/-- What a session in place leaves is a state of the tree. -/
theorem Mirrors.standsFor {a : Arena κ σ} {t : Tree κ σ} {n n₀ : Node κ σ} {b : Builder κ σ} {root : Int}
    (h : Mirrors a t n) (hfresh : Mirrors (Arena.freeze b root) (Tree.freeze b root) n₀) (hreset : n.reset = n₀.reset)
    (hdrafts : a.slots.map Slot.draft = b.drafts) : a.StandsFor b root where
  drafts := hdrafts
  root_eq := h.root_eq hfresh hreset
  defect := h.defect
  placed := fun _ s _ hs _ => h.placed s (List.mem_of_getElem? hs)

/-- No node that can be reached from a root has anything to agree on. -/
def Builder.Forgetful (b : Builder κ σ) (root : Int) : Prop :=
  ∀ h d, Reaches b.drafts root.toNat h → b.drafts[h]? = some d → d.role.Forgetful

theorem Builder.Forgetful.agree {b : Builder κ σ} {root : Int} (h : b.Forgetful root) (p q : Nat → Progress) :
    b.Agree root p q := fun x d hreach hd => (h x d hreach hd).agree _ _

/-- Below a root, progress that is not declared is not remembered. -/
structure Builder.RemembersDeclared (b : Builder κ σ) (root : Int) : Prop where
  /-- Any two states of the tree that agree serve all requests but listings alike, in place. -/
  states : ∀ a₁ a₂ : Arena κ σ, a₁.StandsFor b root → a₂.StandsFor b root →
    b.Agree root a₁.progressOf a₂.progressOf → ∀ (tracing : Bool) (rs : List (Request κ σ)), .list ∉ rs →
    ∃ (replies : List (Reply κ σ)) (a₁' a₂' : Arena κ σ), (Arena.serve tracing rs).Yields a₁ replies a₁' ∧
      (Arena.serve tracing rs).Yields a₂ replies a₂'
  /-- What a session in place leaves is a state of the tree. -/
  reached : ∀ (rs : List (Request κ σ)) (replies : List (Reply κ σ)) (a : Arena κ σ),
    (Arena.serve false rs).Yields (Arena.freeze b root) replies a → a.StandsFor b root
  /-- Two sessions with the tree that end in agreement can be continued alike. -/
  sessions : ∀ (rs₁ rs₂ : List (Request κ σ)) (replies₁ replies₂ : List (Reply κ σ)) (t₁ t₂ : Tree κ σ),
    (Tree.freeze b root).serve rs₁ = .ok (replies₁, t₁) → (Tree.freeze b root).serve rs₂ = .ok (replies₂, t₂) →
    b.Agree root t₁.progressOf t₂.progressOf → ∀ (tracing : Bool) (rs : List (Request κ σ)), .list ∉ rs →
    ∃ (replies : List (Reply κ σ)) (t₁' t₂' : Tree κ σ), (t₁.watch tracing).serve rs = .ok (replies, t₁') ∧
      (t₂.watch tracing).serve rs = .ok (replies, t₂')
  /-- If there is nothing to agree on, every state is as good as the frozen one. -/
  forgetful : b.Forgetful root → ∀ a : Arena κ σ, a.StandsFor b root → ∀ (tracing : Bool) (rs : List (Request κ σ)),
    .list ∉ rs → ∃ (replies : List (Reply κ σ)) (a₁ a₂ : Arena κ σ), (Arena.serve tracing rs).Yields a replies a₁ ∧
      (Arena.serve tracing rs).Yields (Arena.freeze b root) replies a₂
  /-- Then every session with the tree can be continued as one with the frozen tree. -/
  renewed : b.Forgetful root → ∀ (before : List (Request κ σ)) (replies : List (Reply κ σ)) (t : Tree κ σ),
    (Tree.freeze b root).serve before = .ok (replies, t) → ∀ (tracing : Bool) (rs : List (Request κ σ)), .list ∉ rs →
    ∃ (replies : List (Reply κ σ)) (t₁ t₂ : Tree κ σ), (t.watch tracing).serve rs = .ok (replies, t₁) ∧
      ((Tree.freeze b root).watch tracing).serve rs = .ok (replies, t₂)

section Alike

variable {b : Builder κ σ} {root : Int} {n : Node κ σ}
  (hfresh : Mirrors (Arena.freeze b root) (Tree.freeze b root) n)
include hfresh

/-- States that agree serve alike: both play as the node that is recollected from the first one. -/
theorem Mirrors.states_alike (hf : Forest b.drafts) {a₁ a₂ : Arena κ σ} (h₁ : a₁.StandsFor b root)
    (h₂ : a₂.StandsFor b root) (hagree : b.Agree root a₁.progressOf a₂.progressOf) (tracing : Bool)
    {rs : List (Request κ σ)} (hlist : .list ∉ rs) :
    ∃ (replies : List (Reply κ σ)) (a₁' a₂' : Arena κ σ), (Arena.serve tracing rs).Yields a₁ replies a₁' ∧
      (Arena.serve tracing rs).Yields a₂ replies a₂' := by
  have hself : b.Agree root a₁.progressOf a₁.progressOf := fun _ d _ _ => .refl d.role _
  obtain ⟨a₁', hyields₁, -⟩ := (h₁.playsAs_recollect hf hfresh hself).serve rs tracing hlist
  obtain ⟨a₂', hyields₂, -⟩ := (h₂.playsAs_recollect hf hfresh hagree.symm).serve rs tracing hlist
  exact ⟨_, a₁', a₂', hyields₁, hyields₂⟩

/-- A session with the frozen tree is mirrored in place, and leaves a state of the tree there. -/
theorem Mirrors.session_standsFor (rs : List (Request κ σ)) : ∃ (a : Arena κ σ) (t : Tree κ σ) (m : Node κ σ),
    (Tree.freeze b root).serve rs = .ok ((n.serve false rs).1, t) ∧
    (Arena.serve false rs).Yields (Arena.freeze b root) (n.serve false rs).1 a ∧ Mirrors a t m ∧
    a.StandsFor b root := by
  obtain ⟨a, t, hserve, hyields, h, hdrafts, -⟩ := hfresh.serve rs
  have hslots := hdrafts.trans (Arena.map_draft_freeze b root)
  exact ⟨a, t, _, hserve, hyields, h, h.standsFor hfresh (Node.reset_serve rs _ n) hslots⟩

/-- Trees that are mirrored by states of one tree and agree serve alike. -/
theorem Mirrors.trees_alike (hf : Forest b.drafts) {a₁ a₂ : Arena κ σ} {t₁ t₂ : Tree κ σ} {m₁ m₂ : Node κ σ}
    (h₁ : Mirrors a₁ t₁ m₁) (h₂ : Mirrors a₂ t₂ m₂) (hstands₁ : a₁.StandsFor b root) (hstands₂ : a₂.StandsFor b root)
    (hagree : b.Agree root t₁.progressOf t₂.progressOf) (tracing : Bool) {rs : List (Request κ σ)}
    (hlist : .list ∉ rs) :
    ∃ (replies : List (Reply κ σ)) (t₁' t₂' : Tree κ σ), (t₁.watch tracing).serve rs = .ok (replies, t₁') ∧
      (t₂.watch tracing).serve rs = .ok (replies, t₂') := by
  have hagree' : b.Agree root a₁.progressOf a₂.progressOf := by
    intro x d hreach hd
    rw [h₁.progressOf, h₂.progressOf]
    exact hagree x d hreach hd
  obtain ⟨replies, a₁', a₂', hyields₁, hyields₂⟩ := hfresh.states_alike hf hstands₁ hstands₂ hagree' tracing hlist
  -- The replies of the trees are those in place.
  obtain ⟨_, t₁', hlater₁, hyields₁', -⟩ := (h₁.watch tracing).serve rs
  obtain ⟨_, t₂', hlater₂, hyields₂', -⟩ := (h₂.watch tracing).serve rs
  obtain ⟨hreplies₁, -⟩ := hyields₁.unique hyields₁'
  obtain ⟨hreplies₂, -⟩ := hyields₂.unique hyields₂'
  rw [← hreplies₁] at hlater₁
  rw [← hreplies₂] at hlater₂
  exact ⟨replies, t₁', t₂', hlater₁, hlater₂⟩

/-- Sessions with the frozen tree that end in agreement can be continued alike. -/
theorem Mirrors.sessions_alike (hf : Forest b.drafts) {rs₁ rs₂ : List (Request κ σ)}
    {replies₁ replies₂ : List (Reply κ σ)} {t₁ t₂ : Tree κ σ}
    (hserve₁ : (Tree.freeze b root).serve rs₁ = .ok (replies₁, t₁))
    (hserve₂ : (Tree.freeze b root).serve rs₂ = .ok (replies₂, t₂))
    (hagree : b.Agree root t₁.progressOf t₂.progressOf) (tracing : Bool) {rs : List (Request κ σ)}
    (hlist : .list ∉ rs) :
    ∃ (replies : List (Reply κ σ)) (t₁' t₂' : Tree κ σ), (t₁.watch tracing).serve rs = .ok (replies, t₁') ∧
      (t₂.watch tracing).serve rs = .ok (replies, t₂') := by
  obtain ⟨a₁, t, m₁, hserve, -, h₁, hstands₁⟩ := hfresh.session_standsFor rs₁
  obtain rfl : t₁ = t := (Prod.mk.inj (Except.ok.inj (hserve₁.symm.trans hserve))).2
  obtain ⟨a₂, t, m₂, hserve, -, h₂, hstands₂⟩ := hfresh.session_standsFor rs₂
  obtain rfl : t₂ = t := (Prod.mk.inj (Except.ok.inj (hserve₂.symm.trans hserve))).2
  exact hfresh.trees_alike hf h₁ h₂ hstands₁ hstands₂ hagree tracing hlist

end Alike

/-- Below every checked root of every builder, progress that is not declared is not remembered. -/
theorem memory_suffices (capacity : Nat) (cs : List (Call κ σ)) (root : Int)
    (hcheck : (Builder.built capacity cs).check root = none) :
    (Builder.built capacity cs).RemembersDeclared root := by
  have hf : Forest (Builder.built capacity cs).drafts := Builder.forest_built capacity cs
  obtain ⟨n, hfresh⟩ := Mirrors.freeze hf hcheck
  constructor
  case states =>
    intro a₁ a₂ h₁ h₂ hagree tracing rs hlist
    exact hfresh.states_alike hf h₁ h₂ hagree tracing hlist
  case reached =>
    intro rs replies a hyields
    obtain ⟨a', _, _, -, hyields', -, hstands⟩ := hfresh.session_standsFor rs
    obtain ⟨-, rfl⟩ := hyields.unique hyields'
    exact hstands
  case sessions =>
    intro rs₁ rs₂ replies₁ replies₂ t₁ t₂ hserve₁ hserve₂ hagree tracing rs hlist
    exact hfresh.sessions_alike hf hserve₁ hserve₂ hagree tracing hlist
  case forgetful =>
    intro hforgetful a hstands tracing rs hlist
    have hfrozen := hfresh.standsFor hfresh rfl (Arena.map_draft_freeze _ root)
    exact hfresh.states_alike hf hstands hfrozen (hforgetful.agree _ _) tracing hlist
  case renewed =>
    intro hforgetful before replies t hserve tracing rs hlist
    have hnone : (Tree.freeze (Builder.built capacity cs) root).serve [] = .ok ([], Tree.freeze _ root) := rfl
    exact hfresh.sessions_alike hf hserve hnone (hforgetful.agree _ _) tracing hlist

/-- A loiterer looks around each time anew; that it was left lingering is seen in its cursor and makes no difference. -/
def loiter : List (Call Unit Nat) :=
  [.composite .sequence "loiter" false, .leaf "look" (some fun s => (.success, s)),
    .leaf "linger" (some fun s => (.running, s)), .attach 0 1, .attach 0 2]

theorem memory_suffices_loiter : (Builder.built 3 loiter).check 0 = none ∧
    (Builder.built 3 loiter).RemembersDeclared 0 ∧
    ∃ replies t, (Tree.freeze (Builder.built 3 loiter) 0).serve [.tick ⟨(), 0⟩] = .ok (replies, t) ∧
      (t.progressOf 0).cursor = some 1 :=
  ⟨rfl, memory_suffices 3 loiter 0 rfl, _, _, rfl, rfl⟩

end Behaviour
