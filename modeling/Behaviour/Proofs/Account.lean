import Behaviour.Proofs.Session
import Behaviour.Proofs.Trail

/-!
# What is told of a turn

A turn is accounted for by the trail of the visit of the root (`Account`): no node is visited twice, and none without
its parent; the log holds one ending for each visit, after those of all visits below it, with the status that whoever
made the visit was told; its endings of leaves are the acts of leaves, one for one. `turn_accounted` says so of every
turn of every session, and that an observer who is turned on and off during a session changes nothing of it
(`Tree.serve_unwatched`).
-/

namespace Behaviour

variable {κ σ : Type}

open Play

/-! ## What a log tells -/

/-- Whether a visit ended with it. -/
def Event.isEnding : Event κ σ → Bool
  | finished _ _ _ _ => true
  | acted _ _ | tested _ _ | derived _ | judged _ _ => false

/-- The leaf that acted, and what it answered. -/
def Event.act? : Event κ σ → Option (Label × Status)
  | acted label status => some (label, status)
  | tested _ _ | derived _ | judged _ _ | finished _ _ _ _ => none

/-- The leaf whose visit ended, and with what status. -/
def Event.leafEnding? : Event κ σ → Option (Label × Status)
  | finished label .leaf status _ => some (label, status)
  | finished _ _ _ _ | acted _ _ | tested _ _ | derived _ | judged _ _ => none

/-- What happens other than the end of a visit. -/
theorem Event.forall_isEnding_false {P : Event κ σ → Prop} : (∀ e, e.isEnding = false → P e) ↔
    (∀ label status, P (.acted label status)) ∧ (∀ label answer, P (.tested label answer)) ∧
      (∀ label, P (.derived label)) ∧ ∀ label raw, P (.judged label raw) := by
  constructor
  · intro h
    exact ⟨fun _ _ => h _ rfl, fun _ _ => h _ rfl, fun _ => h _ rfl, fun _ _ => h _ rfl⟩
  · rintro ⟨hacted, htested, hderived, hjudged⟩ e he
    cases e with
    | acted label status => exact hacted label status
    | tested label answer => exact htested label answer
    | derived label => exact hderived label
    | judged label raw => exact hjudged label raw
    | finished => cases he

/-- Whether a decorator did it. -/
def Event.ofDecorator : Event κ σ → Bool
  | tested _ _ | derived _ | judged _ _ => true
  | acted _ _ | finished _ _ _ _ => false

namespace Trail

/-- The act of a leaf that was visited. -/
def act? (t : Trail κ σ) : Option (Label × Status) := if t.kind = .leaf then some (t.label, t.status) else none

/-- A leaf does nothing but act; what other nodes do themselves is what decorators do. -/
def Sober (t : Trail κ σ) : Prop :=
  (t.kind = .leaf ∧ t.opened = [.acted t.label t.status] ∧ t.closed = [] ∧ t.inner = []) ∨
    (t.kind ≠ .leaf ∧ (∀ e ∈ t.opened, e.ofDecorator = true) ∧ ∀ e ∈ t.closed, e.ofDecorator = true)

variable {t : Trail κ σ}

theorem filterMap_eq_nil {β : Type} {f : Event κ σ → Option β} {es : List (Event κ σ)}
    (hf : ∀ e : Event κ σ, e.ofDecorator = true → f e = none) (hes : ∀ e ∈ es, e.ofDecorator = true) :
    es.filterMap f = [] :=
  List.filterMap_eq_nil_iff.2 fun e he => hf e (hes e he)

/-- The endings that a log tells are those of the visits, in the order in which they ended. -/
theorem filter_isEnding_log (h : ∀ u ∈ t.preorder, u.Sober) :
    t.log.filter Event.isEnding = t.postorder.map finish := by
  have hguard : t.log.filterMap (Option.guard Event.isEnding) = t.postorder.filterMap (some ∘ finish) := by
    refine filterMap_log t fun u hu => ?_
    have hdecorator : ∀ e : Event κ σ, e.ofDecorator = true → Option.guard Event.isEnding e = none := by
      intro e he
      cases e <;> simp_all [Event.ofDecorator, Option.guard, Event.isEnding]
    simp only [List.filterMap_append]
    rcases h u hu with ⟨-, hopened, hclosed, hinner⟩ | ⟨-, hopened, hclosed⟩
    · simp [hopened, hclosed, hinner, Option.guard, Event.isEnding, finish]
    · rw [filterMap_eq_nil hdecorator hopened, filterMap_eq_nil hdecorator hclosed]
      simp [Option.guard, Event.isEnding, finish]
  rwa [List.filterMap_eq_filter, List.filterMap_eq_map] at hguard

/-- The acts that a log tells are those of the leaves that were visited. -/
theorem filterMap_act?_log (h : ∀ u ∈ t.preorder, u.Sober) :
    t.log.filterMap Event.act? = t.postorder.filterMap act? := by
  refine filterMap_log t fun u hu => ?_
  have hdecorator : ∀ e : Event κ σ, e.ofDecorator = true → e.act? = none := by
    intro e he
    cases e <;> simp_all [Event.ofDecorator, Event.act?]
  simp only [List.filterMap_append]
  rcases h u hu with ⟨hkind, hopened, hclosed, hinner⟩ | ⟨hkind, hopened, hclosed⟩
  · simp [hopened, hclosed, hinner, hkind, Event.act?, act?, finish]
  · rw [filterMap_eq_nil hdecorator hopened, filterMap_eq_nil hdecorator hclosed]
    simp [Event.act?, act?, hkind, finish]

/-- What is read off endings only can be read off the visits, in the order in which they ended. -/
theorem filterMap_log_of_isEnding {β : Type} {f : Event κ σ → Option β} (hf : ∀ e, e.isEnding = false → f e = none)
    (h : ∀ u ∈ t.preorder, u.Sober) : t.log.filterMap f = t.postorder.filterMap fun u => f u.finish := by
  have hfilter : t.log.filterMap f = (t.log.filter Event.isEnding).filterMap f := by
    rw [List.filterMap_filter]
    refine List.filterMap_congr fun e _ => ?_
    cases he : e.isEnding with
    | true => rfl
    | false => exact hf e he
  rw [hfilter, filter_isEnding_log h, List.filterMap_map]
  rfl

mutual
/-- The endings of a visit and of all visits below it stand together. -/
theorem isInfix_postorder : ∀ (t : Trail κ σ) {u : Trail κ σ}, u ∈ t.preorder → u.postorder <:+: t.postorder
  | ⟨label, kind, given, status, left, opened, closed, inner⟩, u, hu => by
    rw [preorder] at hu
    rcases List.mem_cons.1 hu with rfl | hu
    · exact List.infix_rfl
    · rw [postorder]
      exact (isInfix_postorderAll inner hu).trans (List.prefix_append _ _).isInfix

theorem isInfix_postorderAll : ∀ (ts : List (Trail κ σ)) {u : Trail κ σ}, u ∈ preorderAll ts →
    u.postorder <:+: postorderAll ts
  | [], _, hu => by cases hu
  | t :: ts, u, hu => by
    rw [preorderAll] at hu
    rw [postorderAll]
    rcases List.mem_append.1 hu with hu | hu
    · exact (isInfix_postorder t hu).trans (List.prefix_append _ _).isInfix
    · exact (isInfix_postorderAll ts hu).trans (List.suffix_append _ _).isInfix
end

end Trail

/-- The visits on the trail of a node do what nodes of their kind do. -/
theorem Node.sober_trail (n : Node κ σ) (scene : Scene κ σ) : (n.trail scene).Sober := by
  cases n with
  | leaf => exact .inl ⟨rfl, rfl, rfl, rfl⟩
  | composite label rule => exact .inr ⟨by cases rule <;> simp [trail, Rule.kind], by simp [trail], by simp [trail]⟩
  | decorator label wrap memory n =>
    refine .inr ⟨by simp [trail], ?_, ?_⟩
    · simp only [trail]
      cases wrap with
      | negate | delay => simp [Decorator.enter]
      | await test => cases h : memory.done <;> simp [Decorator.enter, h, Event.ofDecorator]
      | custom before after => cases before <;> simp [Decorator.enter, Event.ofDecorator]
    · simp only [trail]
      cases wrap with
      | negate => simp [Decorator.leave]
      | delay =>
        intro e he
        simp only [Decorator.leave] at he
        split at he <;> cases he
      | await test =>
        intro e he
        simp only [Decorator.leave] at he
        split at he
        · cases he
        · split at he <;> cases he
      | custom before after => cases after <;> simp [Decorator.leave, Event.ofDecorator]

theorem Node.sober_of_mem_preorder {n : Node κ σ} {scene : Scene κ σ} {u : Trail κ σ}
    (hu : u ∈ (n.trail scene).preorder) : u.Sober := by
  obtain ⟨m, -, scene', rfl⟩ := n.exists_of_mem_preorder scene hu
  exact m.sober_trail scene'

/-! ## What a node makes of its children -/

/-- A visit is told by its node's role: a leaf acts; a composite goes on from each child but the last one, whose answer
is its own; a decorator makes its answer of the answer of its child. -/
def Trail.Answers (t : Trail κ σ) : Role κ σ → Prop
  | .leaf act => ∃ f, act = some f ∧ f t.given = (t.status, t.left)
  | .composite rule _ => (∀ v ∈ t.inner.dropLast, v.status = rule.onward) ∧
      (t.status, t.left) = rule.outcome t.given t.inner
  | .decorator wrap => ∃ w m v, wrap = some w ∧ t.inner = [v] ∧ v.given = (w.enter t.label m t.given).scene ∧
      let c := w.leave t.label (w.enter t.label m t.given).memory v.status (w.restore t.given v.left)
      (t.status, t.left) = (c.status, c.scene)

namespace Node

@[simp] theorem given_trail (n : Node κ σ) (scene : Scene κ σ) : (n.trail scene).given = scene := by
  cases n <;> rfl

/-- A composite that visits several children goes on from all of them but the last one. -/
theorem onward_of_mem_dropLast (rule : Rule) : ∀ (skip : Nat) (ns : List (Node κ σ)) (scene : Scene κ σ)
    {v : Trail κ σ}, v ∈ (trailAll rule skip ns scene).dropLast → v.status = rule.onward
  | _, [], _, _, hv => by simp [trailAll] at hv
  | skip + 1, n :: ns, scene, v, hv => by
    rw [trailAll] at hv
    exact onward_of_mem_dropLast rule skip ns scene hv
  | 0, n :: ns, scene, v, hv => by
    by_cases honward : (n.trail scene).status = rule.onward
    · rw [trailAll_of_onward honward] at hv
      cases hts : trailAll rule 0 ns (n.trail scene).left with
      | nil => simp [hts] at hv
      | cons t ts =>
        rw [hts, List.dropLast_cons_cons] at hv
        rcases List.mem_cons.1 hv with rfl | hv
        · exact honward
        · exact onward_of_mem_dropLast rule 0 ns _ (hts ▸ hv)
    · simp [trailAll_of_ne_onward honward] at hv

theorem answers_trail {m : Node κ σ} {r : Role κ σ} (h : m.Plays r) (scene : Scene κ σ) :
    (m.trail scene).Answers r := by
  cases m with
  | leaf label act =>
    obtain rfl : r = .leaf (some act) := h
    exact ⟨act, rfl, rfl⟩
  | composite label rule keep cursor ns =>
    obtain ⟨rfl, -⟩ := h
    exact ⟨fun v hv => onward_of_mem_dropLast rule _ ns scene hv, rfl⟩
  | decorator label wrap memory n =>
    obtain rfl : r = .decorator (some wrap) := h
    exact ⟨wrap, memory, _, rfl, rfl, given_trail n _, rfl⟩

end Node

/-! ## Accounts -/

/-- The trail of the visit of a root tells all that happened in a turn. -/
structure Account (b : Builder κ σ) (root : Int) (n : Node κ σ) (turn : Turn κ σ) (t : Trail κ σ) : Prop where
  /-- No node is visited twice. -/
  once : t.handles.Nodup
  first : t.label.handle = root.toNat
  /-- With each other node that is visited, its parent is. -/
  upward : ∀ h ∈ t.handles, h ≠ root.toNat →
    ∃ d p, b.drafts[h]? = some d ∧ d.parent = some p ∧ p ∈ t.handles
  /-- What is visited in the course of a visit are children of its node, in their order, and the node makes its answer
  of theirs. -/
  downward : ∀ u ∈ t.preorder, ∃ d, b.drafts[u.label.handle]? = some d ∧
    (u.inner.map fun v => v.label.handle).Sublist d.children ∧ u.Answers d.role
  /-- Each visit is one of a node as it stood before the turn, and it told its caller what the trail says. -/
  answered : ∀ u ∈ t.preorder, ∃ m ∈ n.subtree, u = m.trail u.given ∧ (m.visit u.given).status = u.status ∧
    (m.visit u.given).scene = u.left ∧ (m.visit u.given).log = u.log
  log : turn.log = t.log
  /-- The endings in the log are those of the visits. -/
  endings : turn.log.filter Event.isEnding = t.postorder.map Trail.finish
  /-- They are what an observer is told. -/
  seen : turn.sightings = if turn.tree.tracing then t.postorder.map Trail.sighting else []
  /-- Every visit has its ending, and just one. -/
  complete : t.postorder.Perm t.preorder
  /-- Right before the ending of a visit come the endings of what was visited in its course, child by child. -/
  below : ∀ u ∈ t.preorder, u.inner.flatMap Trail.postorder ++ [u] <:+: t.postorder
  /-- The endings of leaves are the acts. -/
  leaves : turn.log.filterMap Event.act? = turn.log.filterMap Event.leafEnding?
  /-- The root ends last, with the status and the scene of the turn. -/
  last : turn.log.getLast? = some (.finished n.label n.kind turn.status turn.scene)
  lastStatus : turn.tree.lastStatus = turn.status

/-- The node of a visit on the trail of a held node has a draft, whose children are those that the visit can meet. -/
theorem Mirrors.exists_draft_of_mem_preorder {ds : List (Draft κ σ)} {a : Arena κ σ} {t : Tree κ σ} {n : Node κ σ}
    (h : Mirrors a t n) (hdrafts : a.slots.map Slot.draft = ds) (scene : Scene κ σ) :
    ∀ u ∈ (n.trail scene).preorder, ∃ d, ds[u.label.handle]? = some d ∧
      (u.inner.map fun v => v.label.handle).Sublist d.children ∧ u.Answers d.role := by
  intro u hu
  obtain ⟨m, hm, scene', rfl⟩ := n.exists_of_mem_preorder scene hu
  obtain ⟨d, hd, -, hchildren, -, hplays⟩ := h.held.exists_draft hdrafts hm
  refine ⟨d, by rwa [Node.label_trail], ?_, Node.answers_trail hplays scene'⟩
  have hsub := (m.map_label_inner_sublist scene').map Label.handle
  rw [List.map_map, List.map_map] at hsub
  rw [hchildren]
  exact hsub

/-- The turn of a root that is held by the drafts of a forest is accounted for by its trail. -/
theorem Mirrors.account {b : Builder κ σ} {root : Int} {a : Arena κ σ} {t : Tree κ σ} {n : Node κ σ}
    (h : Mirrors a t n) (hf : Forest b.drafts) (hdrafts : a.slots.map Slot.draft = b.drafts)
    (hroot : n.label.handle = root.toNat) {scene : Scene κ σ} {turn : Turn κ σ} (hturn : t.tick scene = .ok turn) :
    Account b root n turn (n.trail scene) := by
  obtain ⟨hstatus, hscene, hlog⟩ := n.visit_eq_trail scene
  rw [Tree.tick_of_plan h.plan] at hturn
  cases hturn
  have hsober : ∀ u ∈ (n.trail scene).preorder, u.Sober := fun u hu => Node.sober_of_mem_preorder hu
  have hdownward := h.exists_draft_of_mem_preorder hdrafts scene
  constructor
  case once => exact h.nodup.sublist (n.handles_trail_sublist scene)
  case first =>
    rw [Node.label_trail]
    exact hroot
  case upward =>
    intro x hx hne
    obtain ⟨u, hu, rfl⟩ := List.mem_map.1 hx
    rcases (n.trail scene).exists_parent hu with rfl | ⟨p, hp, hin⟩
    · rw [Node.label_trail, hroot] at hne
      exact absurd rfl hne
    · obtain ⟨d, hd, hsub, -⟩ := hdownward p hp
      obtain ⟨e, he, hparent⟩ := hf.parent_of_child hd (hsub.subset (List.mem_map_of_mem hin))
      exact ⟨e, p.label.handle, he, hparent, List.mem_map_of_mem hp⟩
  case downward => exact hdownward
  case answered =>
    intro u hu
    obtain ⟨m, hm, scene', rfl⟩ := n.exists_of_mem_preorder scene hu
    rw [Node.given_trail]
    exact ⟨m, hm, rfl, m.visit_eq_trail scene'⟩
  case log => exact hlog
  case endings =>
    show (n.visit scene).log.filter Event.isEnding = _
    rw [hlog]
    exact Trail.filter_isEnding_log hsober
  case seen =>
    unfold Turn.sightings
    have htold : (n.visit scene).log.filterMap Event.sighting? = (n.trail scene).postorder.map Trail.sighting := by
      rw [hlog, Trail.filterMap_log_of_isEnding (by simp [Event.forall_isEnding_false, Event.sighting?]) hsober,
        ← List.filterMap_eq_map]
      rfl
    rw [htold]
  case complete => exact (n.trail scene).postorder_perm
  case below =>
    intro u hu
    rw [← Trail.postorder_eq]
    exact (n.trail scene).isInfix_postorder hu
  case leaves =>
    rw [hlog, Trail.filterMap_log_of_isEnding (f := Event.leafEnding?)
      (by simp [Event.forall_isEnding_false, Event.leafEnding?]) hsober, Trail.filterMap_act?_log hsober]
    refine List.filterMap_congr fun u _ => ?_
    cases hkind : u.kind <;> simp [Trail.act?, Trail.finish, Event.leafEnding?, hkind]
  case last =>
    obtain ⟨log, hlast⟩ := n.log_visit scene
    rw [Node.label_visit, Node.kind_visit] at hlast
    rw [hlast, List.getLast?_concat]
  case lastStatus => rfl

/-! ## The observer -/

/-- The request with the observer turned off where it turns it on. -/
def Request.unwatched : Request κ σ → Request κ σ
  | tick scene => tick scene
  | reset => reset
  | list => list
  | watch _ => watch false

/-- The reply without what the observer was told. -/
def Reply.unseen : Reply κ σ → Reply κ σ
  | turned status scene log _ => turned status scene log []
  | listed text => listed text
  | done => done

/-- In place, a session that is not observed is the same but for what the observer is told. -/
theorem Arena.serve_unwatched : ∀ (rs : List (Request κ σ)) {tracing : Bool} {a a' : Arena κ σ}
    {replies : List (Reply κ σ)}, (Arena.serve tracing rs).Yields a replies a' →
    (Arena.serve false (rs.map Request.unwatched)).Yields a (replies.map Reply.unseen) a'
  | [], _, _, _, _, h => by
    obtain ⟨rfl, rfl⟩ := (yields_pure _ _).unique h
    exact yields_pure _ _
  | .tick scene :: rs, tracing, a, a', replies, h => by
    obtain ⟨answer, a₁, htick, h⟩ := ((yields_get a).rest h).exists_of_bind
    obtain ⟨later, a₂, hlater, h⟩ := ((yields_get a₁).rest h).exists_of_bind
    obtain ⟨rfl, rfl⟩ := (yields_pure _ _).unique h
    exact (yields_get a).bind (htick.bind ((yields_get a₁).bind ((serve_unwatched rs hlater).bind (yields_pure _ _))))
  | .reset :: rs, tracing, a, a', replies, h => by
    obtain ⟨later, a₂, hlater, h⟩ := ((yields_modify _ _).rest h).exists_of_bind
    obtain ⟨rfl, rfl⟩ := (yields_pure _ _).unique h
    exact (yields_modify _ _).bind ((serve_unwatched rs hlater).bind (yields_pure _ _))
  | .list :: rs, tracing, a, a', replies, h => by
    obtain ⟨text, a₁, htext, h⟩ := h.exists_of_bind
    obtain ⟨later, a₂, hlater, h⟩ := h.exists_of_bind
    obtain ⟨rfl, rfl⟩ := (yields_pure _ _).unique h
    exact htext.bind ((serve_unwatched rs hlater).bind (yields_pure _ _))
  | .watch _ :: rs, tracing, a, a', replies, h => by
    obtain ⟨later, a₁, hlater, h⟩ := h.exists_of_bind
    obtain ⟨rfl, rfl⟩ := (yields_pure _ _).unique h
    exact (serve_unwatched rs hlater).bind (yields_pure _ _)

/-- The observer does not matter to a tick. -/
theorem Tree.tick_watch {t : Tree κ σ} {scene : Scene κ σ} {turn : Turn κ σ} (h : t.tick scene = .ok turn)
    (tracing : Bool) : (t.watch tracing).tick scene = .ok { turn with tree := turn.tree.watch tracing } := by
  cases hp : t.plan with
  | error d => simp [Tree.tick, hp] at h
  | ok root =>
    rw [Tree.tick_of_plan hp] at h
    cases h
    exact Tree.tick_of_plan (t := t.watch tracing) hp scene

/-- A session that is not observed is the same but for what the observer is told. -/
theorem Tree.serve_unwatched : ∀ (rs : List (Request κ σ)) {t t' : Tree κ σ} {replies : List (Reply κ σ)},
    t.serve rs = .ok (replies, t') →
    (t.watch false).serve (rs.map Request.unwatched) = .ok (replies.map Reply.unseen, t'.watch false)
  | [], t, _, _, h => by
    cases h
    rfl
  | .tick scene :: rs, t, t', replies, h => by
    rw [serve] at h
    cases htick : t.tick scene with
    | error e => rw [htick] at h; cases h
    | ok turn =>
      rw [htick] at h
      cases hserve : turn.tree.serve rs with
      | error e => simp only [bind, Except.bind, hserve] at h; cases h
      | ok r =>
        simp only [bind, Except.bind, hserve] at h
        cases h
        simp only [List.map_cons, Request.unwatched, serve, tick_watch htick false, bind, Except.bind,
          serve_unwatched rs hserve]
        rfl
  | .reset :: rs, t, t', replies, h => by
    rw [serve] at h
    cases hserve : t.reset.serve rs with
    | error e => rw [hserve] at h; cases h
    | ok r =>
      rw [hserve] at h
      cases h
      have hrest := serve_unwatched rs hserve
      simp only [List.map_cons, Request.unwatched, serve]
      rw [show (t.watch false).reset = t.reset.watch false from rfl, hrest]
      rfl
  | .list :: rs, t, t', replies, h => by
    rw [serve] at h
    cases hserve : t.serve rs with
    | error e => rw [hserve] at h; cases h
    | ok r =>
      rw [hserve] at h
      cases h
      simp only [List.map_cons, Request.unwatched, serve, serve_unwatched rs hserve]
      rfl
  | .watch tracing :: rs, t, t', replies, h => by
    rw [serve] at h
    cases hserve : (t.watch tracing).serve rs with
    | error e => rw [hserve] at h; cases h
    | ok r =>
      rw [hserve] at h
      cases h
      have hrest := serve_unwatched rs hserve
      simp only [List.map_cons, Request.unwatched, serve]
      rw [show (t.watch false).watch false = (t.watch tracing).watch false from rfl, hrest]
      rfl

/-! ## Every turn of every session -/

/-- Below a root, after these requests, in place and on the tree: had the observer been off all the time, the replies
would be the same but for what it was told, and so would be all slots and nodes; and whatever scene the next tick is
given, its turn is accounted for by the trail of the visit of the root. -/
def Builder.Accounts (b : Builder κ σ) (root : Int) (requests : List (Request κ σ)) : Prop :=
  ∃ (replies : List (Reply κ σ)) (a : Arena κ σ) (t : Tree κ σ) (n : Node κ σ),
    (Arena.serve false requests).Yields (Arena.freeze b root) replies a ∧
    (Tree.freeze b root).serve requests = .ok (replies, t) ∧ t.plan = .ok n ∧
    (Arena.serve false (requests.map Request.unwatched)).Yields (Arena.freeze b root) (replies.map Reply.unseen) a ∧
    (Tree.freeze b root).serve (requests.map Request.unwatched) = .ok (replies.map Reply.unseen, t.watch false) ∧
    ∀ scene : Scene κ σ, ∃ (turn : Turn κ σ) (a' : Arena κ σ), t.tick scene = .ok turn ∧
      (Arena.tick scene).Yields a (turn.status, turn.scene) a' ∧ a'.log = a.log ++ turn.log ∧
      a'.lastStatus = turn.status ∧ Account b root n turn (n.trail scene)

/-- Below every checked root of every builder, every turn is accounted for, whatever was asked before. -/
theorem turn_accounted (capacity : Nat) (cs : List (Call κ σ)) (root : Int) (requests : List (Request κ σ))
    (hcheck : (Builder.built capacity cs).check root = none) : (Builder.built capacity cs).Accounts root requests := by
  have hf := Builder.forest_built capacity cs
  obtain ⟨n₀, hfresh⟩ := Mirrors.freeze hf hcheck
  obtain ⟨a, t, hserve, hyields, h, hdrafts, -⟩ := hfresh.serve requests
  have hslots := hdrafts.trans (Arena.map_draft_freeze _ root)
  -- A session keeps the label of the root.
  have hlabel := Node.label_eq_of_reset_eq
    (Node.reset_serve requests (Tree.freeze (Builder.built capacity cs) root).tracing n₀)
  have hroot := (congrArg Label.handle hlabel).trans hfresh.root.symm
  refine ⟨_, a, t, _, hyields, hserve, h.plan, Arena.serve_unwatched requests hyields,
    Tree.serve_unwatched requests hserve, ?_⟩
  intro scene
  obtain ⟨turn, a', hturn, hyield, hlog, -, h'⟩ := h.tick scene
  have haccount := h.account hf hslots hroot hturn
  exact ⟨turn, a', hturn, hyield, hlog, h'.lastStatus.trans haccount.lastStatus, haccount⟩

/-- An observed errand is interrupted and taken up again; the next turn, too, is accounted for. -/
theorem turn_accounted_errand : (Builder.built 8 errand).check 0 = none ∧
    (Builder.built 8 errand).Accounts 0 [.watch true, .tick ⟨(), 0⟩, .list, .tick ⟨(), 0⟩] :=
  ⟨rfl, turn_accounted 8 errand 0 _ rfl⟩

end Behaviour
