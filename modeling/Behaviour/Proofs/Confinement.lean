import Behaviour.Proofs.Sweep

/-!
# Derived contexts do not leak

A decorator with a before hook gives its child a scene of its own making, and has its own context back when the child is
done; only the world is as the child has left it. Leaves and tests are the only ones who write to the context that they
are given. Where each of them is below such a decorator, the subtree is *shielded*: a visit of it leaves the context of
the caller as it was (`Node.context_visit`), whatever the callbacks do and however the decorators are nested. What is
done to the world stays.

The after hook of a decorator with a before hook, the observer, and whoever is visited later are given the decorator's
own context (`Node.derives_trail`, `Node.given_later`). So it is after every session, for every node that can be reached
and in the course of every tick (`context_confined`).
-/

namespace Behaviour

variable {κ σ : Type}

open Play

/-! ## Who writes to a context -/

/-- The decorator derives the scene of its child. -/
def Decorator.Derives : Decorator κ σ → Prop
  | custom (some _) _ => True
  | negate | delay | await _ | custom none _ => False

/-- The decorator asks a test, which may write to the context. -/
def Decorator.Asks : Decorator κ σ → Prop
  | await _ => True
  | negate | delay | custom _ _ => False

/-- A node of this role derives the scene of its child. -/
def Role.Derives : Role κ σ → Prop
  | decorator (some wrap) => wrap.Derives
  | leaf _ | composite _ _ | decorator none => False

/-- A node of this role calls something that may write to the context. -/
def Role.Writes : Role κ σ → Prop
  | leaf _ => True
  | decorator (some wrap) => wrap.Asks
  | composite _ _ | decorator none => False

/-- Every leaf and every await below a node is also below a decorator, at or below this node, that derives the scene of
its child. -/
def Builder.Shielded (b : Builder κ σ) (h : Nat) : Prop :=
  ∀ way g d, descend b.drafts h way = some g → b.drafts[g]? = some d → d.role.Writes →
    ∃ front p e, front <+: way ∧ descend b.drafts h front = some p ∧ b.drafts[p]? = some e ∧ e.role.Derives

namespace Decorator

/-- No decorator that closes writes to the context. -/
theorem context_leave (wrap : Decorator κ σ) (l : Label) (memory : Memory) (raw : Status) (scene : Scene κ σ) :
    (wrap.leave l memory raw scene).scene.context = scene.context := by
  cases wrap with
  | negate => rfl
  | delay => cases hpending : memory.hasPending <;> simp [leave, hpending]
  | await => cases raw <;> cases hdone : memory.done <;> simp [leave, hdone]
  | custom before after => cases after <;> rfl

/-- A decorator that derives the scene of its child has its own context back. -/
theorem context_restore {wrap : Decorator κ σ} (h : wrap.Derives) (outer inner : Scene κ σ) :
    (wrap.restore outer inner).context = outer.context := by
  cases wrap with
  | negate | delay | await => cases h
  | custom before =>
    cases before with
    | none => cases h
    | some => rfl

/-- Any other decorator goes on with the scene that the child has left. -/
theorem restore_of_not_derives {wrap : Decorator κ σ} (h : ¬wrap.Derives) (outer inner : Scene κ σ) :
    wrap.restore outer inner = inner := by
  cases wrap with
  | negate | delay | await => rfl
  | custom before =>
    cases before with
    | none => rfl
    | some => exact absurd trivial h

/-- A decorator that neither derives a scene nor asks a test hands its own scene down. -/
theorem enter_of_not_derives {wrap : Decorator κ σ} (h : ¬wrap.Derives) (hasks : ¬wrap.Asks) (l : Label)
    (memory : Memory) (scene : Scene κ σ) : (wrap.enter l memory scene).scene = scene := by
  cases wrap with
  | negate | delay => rfl
  | await => exact absurd trivial hasks
  | custom before =>
    cases before with
    | none => rfl
    | some => exact absurd trivial h

end Decorator

/-! ## Shielded nodes -/

mutual
/-- All leaves and awaits of the subtree are below decorators in it that derive the scene of their child. -/
def Node.Shielded : Node κ σ → Prop
  | .leaf _ _ => False
  | .composite _ _ _ _ ns => Node.ShieldedAll ns
  | .decorator _ wrap _ n => wrap.Derives ∨ ¬wrap.Asks ∧ Node.Shielded n

/-- So are those of several subtrees. -/
def Node.ShieldedAll : List (Node κ σ) → Prop
  | [] => True
  | n :: ns => Node.Shielded n ∧ Node.ShieldedAll ns
end

namespace Node

mutual
/-- A visit of a shielded node leaves the context as it was. -/
theorem context_visit : ∀ (n : Node κ σ) (scene : Scene κ σ), n.Shielded →
    (n.visit scene).scene.context = scene.context
  | leaf _ _, _, h => h.elim
  | composite _ rule keep cursor ns, scene, h => context_scan rule (startPlace keep cursor) ns scene h
  | decorator label wrap memory n, scene, h => by
    rw [visit, Visit.finish]
    refine (wrap.context_leave _ _ _ _).trans ?_
    by_cases hderives : wrap.Derives
    · exact Decorator.context_restore hderives _ _
    · obtain ⟨hasks, hn⟩ := h.resolve_left hderives
      rw [Decorator.restore_of_not_derives hderives, context_visit n _ hn,
        Decorator.enter_of_not_derives hderives hasks]

theorem context_scan (rule : Rule) : ∀ (skip : Nat) (ns : List (Node κ σ)) (scene : Scene κ σ), ShieldedAll ns →
    (scan rule skip ns scene).scene.context = scene.context
  | _, [], _, _ => by rw [scan]
  | skip + 1, n :: ns, scene, h => by
    rw [scan]
    exact context_scan rule skip ns scene h.2
  | 0, n :: ns, scene, h => by
    have hfirst := context_visit n scene h.1
    by_cases honward : (n.visit scene).status = rule.onward
    · rw [scan_of_onward honward]
      exact (context_scan rule 0 ns _ h.2).trans hfirst
    · rw [scan_of_ne_onward honward]
      exact hfirst
end

theorem context_trail {n : Node κ σ} (h : n.Shielded) (scene : Scene κ σ) :
    (n.trail scene).left.context = scene.context := by
  rw [← (n.visit_eq_trail scene).2.1]
  exact n.context_visit scene h

end Node

/-! ## Shielded nodes of a builder -/

section Drafts

variable {b : Builder κ σ} {h : Nat} (hshielded : b.Shielded h) {d : Draft κ σ} (hd : b.drafts[h]? = some d)
include hshielded hd

/-- A shielded node does not itself write to the context that it is given. -/
theorem Builder.Shielded.derives_of_writes (hwrites : d.role.Writes) : d.role.Derives := by
  obtain ⟨front, p, e, hfront, hp, he, hderives⟩ := hshielded [] h d rfl hd hwrites
  obtain rfl := List.prefix_nil.1 hfront
  cases hp
  rw [hd] at he
  cases he
  exact hderives

/-- If it derives no scene either, its children are shielded. -/
theorem Builder.Shielded.child (hnot : ¬d.role.Derives) {c : Nat} (hc : c ∈ d.children) : b.Shielded c := by
  intro way g e hw he hwrites
  obtain ⟨i, hi⟩ := List.mem_iff_getElem?.1 hc
  obtain ⟨front, p, e', hfront, hp, he', hderives⟩ :=
    hshielded (i :: way) g e (descend_cons.2 ⟨d, c, hd, hi, hw⟩) he hwrites
  cases front with
  | nil =>
    cases hp
    rw [hd] at he'
    cases he'
    exact absurd hderives hnot
  | cons j front =>
    obtain ⟨rfl, hrest⟩ := List.cons_prefix_cons.1 hfront
    obtain ⟨d', c', hd', hc', hp⟩ := descend_cons.1 hp
    rw [hd] at hd'
    cases hd'
    rw [hi] at hc'
    cases hc'
    exact ⟨front, p, e', hrest, hp, he', hderives⟩

end Drafts

mutual
/-- What the builder shields is shielded where it is held, whatever progress it has made. -/
theorem shielded_of_held {b : Builder κ σ} {slots : List (Slot κ σ)} (hdrafts : slots.map Slot.draft = b.drafts) :
    ∀ n : Node κ σ, n.HeldIn slots → b.Shielded n.label.handle → n.Shielded
  | .leaf label act, hheld, h => by
    obtain ⟨d, hd, -, -, -, hplays⟩ := hheld.exists_draft hdrafts (Node.mem_subtree_self _)
    have hrole : d.role = .leaf (some act) := hplays
    have hderives := h.derives_of_writes hd (by rw [hrole]; exact trivial)
    rw [hrole] at hderives
    exact hderives
  | .composite label rule keep cursor ns, hheld, h => by
    obtain ⟨d, hd, -, hchildren, -, hplays⟩ := hheld.exists_draft hdrafts (Node.mem_subtree_self _)
    have hrole : d.role = .composite rule keep := hplays.1
    refine shieldedAll_of_held hdrafts ns (fun m hm => hheld.child hm) fun m hm => ?_
    refine h.child hd (by rw [hrole]; exact id) ?_
    rw [hchildren]
    exact List.mem_map_of_mem hm
  | .decorator label wrap memory n, hheld, h => by
    obtain ⟨d, hd, -, hchildren, -, hplays⟩ := hheld.exists_draft hdrafts (Node.mem_subtree_self _)
    have hrole : d.role = .decorator (some wrap) := hplays
    rw [Node.Shielded]
    by_cases hderives : wrap.Derives
    · exact .inl hderives
    · have hnot : ¬d.role.Derives := by
        rw [hrole]
        exact hderives
      refine .inr ⟨fun hasks => hnot (h.derives_of_writes hd (by rw [hrole]; exact hasks)), ?_⟩
      refine shielded_of_held hdrafts n (hheld.child List.mem_cons_self) (h.child hd hnot ?_)
      rw [hchildren]
      exact List.mem_cons_self

theorem shieldedAll_of_held {b : Builder κ σ} {slots : List (Slot κ σ)} (hdrafts : slots.map Slot.draft = b.drafts) :
    ∀ ns : List (Node κ σ), (∀ n ∈ ns, n.HeldIn slots) → (∀ n ∈ ns, b.Shielded n.label.handle) → Node.ShieldedAll ns
  | [], _, _ => trivial
  | n :: ns, hheld, h => by
    refine ⟨shielded_of_held hdrafts n (hheld n List.mem_cons_self) (h n List.mem_cons_self), ?_⟩
    exact shieldedAll_of_held hdrafts ns (fun m hm => hheld m (List.mem_cons_of_mem n hm)) fun m hm =>
      h m (List.mem_cons_of_mem n hm)
end

/-! ## Who is given the own context of a decorator -/

/-- A visit of a decorator with a before hook, with the memory that it had, in the course of which its child is
visited. -/
structure Trail.Derives (u : Trail κ σ) (before : Before κ σ) (after : Option (After κ σ)) (memory : Memory)
    (v : Trail κ σ) : Prop where
  inner : u.inner = [v]
  given : v.given = (before u.given memory).1
  /-- The after hook is given the decorator's own context, with the world as the child has left it. -/
  judged : ∀ f, after = some f →
    (u.status, u.left.world) = ((f v.status (u.given.keepContext v.left) (before u.given memory).2).1,
      (f v.status (u.given.keepContext v.left) (before u.given memory).2).2.1)
  passed : after = none → u.status = v.status ∧ u.left.world = v.left.world
  /-- The decorator leaves the context that it was given. -/
  context : u.left.context = u.given.context

namespace Node

theorem derives_trail (l : Label) (before : Before κ σ) (after : Option (After κ σ)) (memory : Memory) (c : Node κ σ)
    (scene : Scene κ σ) : ((decorator l (.custom (some before) after) memory c).trail scene).Derives before after memory
      (c.trail (before scene memory).1) where
  inner := rfl
  given := c.given_trail _
  judged := by
    rintro f rfl
    rfl
  passed := by
    rintro rfl
    exact ⟨rfl, rfl⟩
  context := by
    refine context_trail ?_ scene
    exact .inl trivial

/-- Where each one is given what the one before has left, so are those who come later. -/
theorem map_given_of_append {u : Trail κ σ} {ys : List (Trail κ σ)} : ∀ {xs : List (Trail κ σ)} {scene : Scene κ σ},
    (xs ++ u :: ys).map Trail.given = (scene :: (xs ++ u :: ys).map Trail.left).dropLast →
      ys.map Trail.given = (u.left :: ys.map Trail.left).dropLast
  | [], _, h => (List.cons.inj h).2
  | _ :: _, _, h => map_given_of_append (List.cons.inj h).2

/-- Siblings that are visited later are given what the ones before them have left, beginning with this one. -/
theorem given_later (n : Node κ σ) (scene : Scene κ σ) {u : Trail κ σ} {xs ys : List (Trail κ σ)}
    (h : (n.trail scene).inner = xs ++ u :: ys) : ys.map Trail.given = (u.left :: ys.map Trail.left).dropLast := by
  cases n with
  | leaf =>
    rw [trail] at h
    simp at h
  | composite l rule keep cursor ns =>
    rw [inner_trail_composite] at h
    have hchain := map_given_trailAll rule (ns.drop (startPlace keep cursor)) scene
    rw [h] at hchain
    exact map_given_of_append hchain
  | decorator l wrap memory c =>
    have hlength := congrArg List.length h
    simp only [trail, List.length_append, List.length_cons, List.length_nil] at hlength
    have hnil : ys = [] := List.length_eq_zero_iff.1 (by omega)
    rw [hnil]
    rfl

end Node

/-! ## Every session -/

/-- Below a root, after these requests, in place and on the tree: a visit of a shielded node that can be reached leaves
the context of the caller as it was, whatever scene it is given. The next tick goes as its trail tells, and on it every
visit of a shielded node leaves the context that it was given. A decorator with a before hook goes on after its child
with its own context: its after hook is given it, the observer is, and so is whoever is visited next. -/
def Builder.Confines (b : Builder κ σ) (root : Int) (requests : List (Request κ σ)) : Prop :=
  ∃ (replies : List (Reply κ σ)) (a : Arena κ σ) (t : Tree κ σ) (n : Node κ σ),
    (Arena.serve false requests).Yields (Arena.freeze b root) replies a ∧
    (Tree.freeze b root).serve requests = .ok (replies, t) ∧ t.plan = .ok n ∧
    (∀ h, Reaches b.drafts root.toNat h → b.Shielded h → ∀ scene : Scene κ σ, ∃ status left a',
      (Scene.visit h scene).Yields a (status, left) a' ∧ left.context = scene.context) ∧
    ∀ scene : Scene κ σ, ∃ (turn : Turn κ σ) (a' : Arena κ σ), t.tick scene = .ok turn ∧
      (Arena.tick scene).Yields a (turn.status, turn.scene) a' ∧ Account b root n turn (n.trail scene) ∧
      (b.Shielded root.toNat → turn.scene.context = scene.context) ∧
      ∀ u ∈ (n.trail scene).preorder, a.Goes b.drafts u ∧
        (b.Shielded u.label.handle → u.left.context = u.given.context) ∧
        ∀ d before after, b.drafts[u.label.handle]? = some d →
          d.role = .decorator (some (.custom (some before) after)) →
          (∃ v, u.Derives before after (a.progressOf u.label.handle).memory v) ∧
          (turn.tree.tracing = true → u.sighting ∈ turn.sightings) ∧
          ∀ p ∈ (n.trail scene).preorder, ∀ xs ys, p.inner = xs ++ u :: ys →
            ys.map Trail.given = (u.left :: ys.map Trail.left).dropLast

/-- On the trail of a held node every visit goes in place as it does there, and keeps the context that it was given if
its node is shielded. -/
theorem Mirrors.confined {b : Builder κ σ} {a : Arena κ σ} {t : Tree κ σ} {n : Node κ σ} (h : Mirrors a t n)
    (hdrafts : a.slots.map Slot.draft = b.drafts) {scene : Scene κ σ} {u : Trail κ σ}
    (hu : u ∈ (n.trail scene).preorder) :
    a.Goes b.drafts u ∧ (b.Shielded u.label.handle → u.left.context = u.given.context) := by
  refine ⟨goes_of_mem_preorder hdrafts h.held h.nodup scene hu, fun hshielded => ?_⟩
  obtain ⟨m, hm, given, rfl⟩ := n.exists_of_mem_preorder scene hu
  rw [Node.label_trail] at hshielded
  rw [Node.given_trail]
  exact Node.context_trail (shielded_of_held hdrafts m (Node.All.of_mem h.held hm) hshielded) given

/-- A visit of a decorator with a before hook, on the trail of a held node. -/
theorem Mirrors.derives {b : Builder κ σ} {a : Arena κ σ} {t : Tree κ σ} {n : Node κ σ} (h : Mirrors a t n)
    (hdrafts : a.slots.map Slot.draft = b.drafts) {scene : Scene κ σ} {u : Trail κ σ}
    (hu : u ∈ (n.trail scene).preorder) {d : Draft κ σ} {before : Before κ σ} {after : Option (After κ σ)}
    (hd : b.drafts[u.label.handle]? = some d) (hrole : d.role = .decorator (some (.custom (some before) after))) :
    ∃ v, u.Derives before after (a.progressOf u.label.handle).memory v := by
  obtain ⟨m, hm, given, rfl⟩ := n.exists_of_mem_preorder scene hu
  rw [Node.label_trail] at hd ⊢
  obtain ⟨-, hplays⟩ := h.held.plays_of_draft hdrafts hm hd
  rw [hrole] at hplays
  rw [h.held.progressOf_eq hm]
  obtain ⟨l, memory, c, rfl⟩ := hplays.exists_decorator
  exact ⟨_, Node.derives_trail l before after memory c given⟩

/-- In place, too, a visit of a shielded node leaves the context as it was. -/
theorem Mirrors.visit_shielded {b : Builder κ σ} {a : Arena κ σ} {t : Tree κ σ} {n : Node κ σ} (h : Mirrors a t n)
    (hdrafts : a.slots.map Slot.draft = b.drafts) {x : Nat} (hx : x ∈ n.handles) (hshielded : b.Shielded x)
    (scene : Scene κ σ) : ∃ status left a', (Scene.visit x scene).Yields a (status, left) a' ∧
      left.context = scene.context := by
  obtain ⟨m, hm, rfl⟩ := List.mem_map.1 hx
  have hheld : m.HeldIn a.slots := Node.All.of_mem h.held hm
  obtain ⟨a', hyield, -⟩ :=
    exists_yields_of_alikeBelow hdrafts hheld (Node.nodup_of_mem h.nodup hm) scene fun _ _ => rfl
  exact ⟨_, _, a', hyield, Node.context_trail (shielded_of_held hdrafts m hheld hshielded) scene⟩

/-- Below every checked root of every builder, whatever was asked before. -/
theorem context_confined (capacity : Nat) (cs : List (Call κ σ)) (root : Int) (requests : List (Request κ σ))
    (hcheck : (Builder.built capacity cs).check root = none) : (Builder.built capacity cs).Confines root requests := by
  have hf := Builder.forest_built capacity cs
  obtain ⟨replies, a, t, n, hyields, hserve, h, hdrafts, hroot, hhandles⟩ := exists_session hf hcheck requests
  refine ⟨replies, a, t, n, hyields, hserve, h.plan, ?_, ?_⟩
  · exact fun x hreach hshielded => h.visit_shielded hdrafts ((hhandles x).2 hreach) hshielded
  · intro scene
    obtain ⟨turn, a', hturn, hyield, -⟩ := h.tick scene
    have haccount := h.account hf hdrafts hroot hturn
    refine ⟨turn, a', hturn, hyield, haccount, fun hshielded => ?_, fun u hu => ?_⟩
    · rw [← hroot] at hshielded
      have hscene : turn.scene = (n.visit scene).scene := by
        rw [Tree.tick_of_plan h.plan] at hturn
        cases hturn
        rfl
      rw [hscene]
      exact n.context_visit scene (shielded_of_held hdrafts n h.held hshielded)
    · obtain ⟨hgoes, hkeeps⟩ := h.confined hdrafts hu
      refine ⟨hgoes, hkeeps, fun d before after hd hrole => ⟨h.derives hdrafts hu hd hrole, fun htracing => ?_, ?_⟩⟩
      · rw [haccount.seen, if_pos htracing]
        exact List.mem_map_of_mem (haccount.complete.mem_iff.2 hu)
      · intro p hp xs ys hinner
        obtain ⟨m, -, given, rfl⟩ := n.exists_of_mem_preorder scene hp
        exact m.given_later given hinner

/-- A spy dreams of being somebody else, and dreams within the dream; when awake, the spy remembers nothing but what has
been done. -/
def spy : List (Call Nat Nat) :=
  [.custom "sleep" (some fun s m => ({ s with context := s.context + 1 }, m))
      (some fun raw s m => (raw, s.world + s.context, m)),
    .composite .sequence "dream" true, .decorate 0 1,
    .leaf "wander" (some fun s => (.success, ⟨s.context + 10, s.world + 1⟩)), .attach 1 2,
    .custom "dream on" (some fun s m => ({ s with context := 0 }, { m with counter := m.counter + 1 })) none,
    .leaf "fall" (some fun s => (.success, ⟨s.context + 100, s.world + 1⟩)), .decorate 3 4, .attach 1 3,
    .leaf "wake" (some fun s => (if s.context = 18 then .success else .running, s)), .attach 1 5]

/-- The spy is shielded as a whole, and watched from the second turn on. -/
theorem context_confined_spy : (Builder.built 6 spy).check 0 = none ∧ (Builder.built 6 spy).Shielded 0 ∧
    (Builder.built 6 spy).Confines 0 [.tick ⟨7, 0⟩, .watch true, .tick ⟨7, 0⟩] := by
  refine ⟨rfl, ?_, context_confined 6 spy 0 _ rfl⟩
  intro way g d _ _ _
  exact ⟨[], 0, _, List.nil_prefix, rfl, rfl, trivial⟩

end Behaviour
