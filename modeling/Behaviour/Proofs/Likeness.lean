import Behaviour.Proofs.Course
import Behaviour.Proofs.Renaming

/-!
# Trees that are played alike

Two trees can differ in how they are put together and still have the same leaves, tests and hooks called, in the same
order and in the same scenes. To see it one picks on each side the visits that are to be compared, the *parts* of a
trail: if the parts of the one trail are those of the other under other handles, and both visits answer alike, then the
trails are alike (`Trail.Like`), and the logs tell of the same calls (`Trail.Like.calls`).

A relation between nodes that visits and resets keep is a bisimulation (`Bisimulation`): what it says of one visit, it
says of every tick of a run (`Bisimulation.trails`). Below checked roots a bisimulation between the planned nodes
therefore decides all runs (`Bisimulation.exists_runs`). Where each node of a planned tree stands is said by the
unfolding of the builder (`Builder.Grows`).
-/

namespace Behaviour

variable {κ σ : Type}

open Play

/-! ## Trails under other handles -/

namespace Trail

mutual
/-- The trail with other handles. -/
def rename (f : Nat → Nat) : Trail κ σ → Trail κ σ
  | ⟨label, kind, given, status, left, opened, closed, inner⟩ => ⟨label.rename f, kind, given, status, left,
      opened.map (Event.rename f), closed.map (Event.rename f), renameAll f inner⟩

/-- Several trails with other handles. -/
def renameAll (f : Nat → Nat) : List (Trail κ σ) → List (Trail κ σ)
  | [] => []
  | t :: ts => t.rename f :: renameAll f ts
end

@[simp] theorem renameAll_eq_map (f : Nat → Nat) (ts : List (Trail κ σ)) : renameAll f ts = ts.map (rename f) := by
  induction ts with
  | nil => rfl
  | cons t ts ih => simp [renameAll, ih]

section Fields

variable (f : Nat → Nat) (t : Trail κ σ)

@[simp] theorem label_rename : (t.rename f).label = t.label.rename f := by
  cases t
  rfl

@[simp] theorem status_rename : (t.rename f).status = t.status := by
  cases t
  rfl

@[simp] theorem left_rename : (t.rename f).left = t.left := by
  cases t
  rfl

end Fields

mutual
theorem log_rename (f : Nat → Nat) : ∀ t : Trail κ σ, (t.rename f).log = t.log.map (Event.rename f)
  | ⟨label, kind, given, status, left, opened, closed, inner⟩ => by
    rw [rename, log, log, logAll_renameAll f inner]
    simp only [List.map_append, List.map_cons, List.map_nil, Event.rename]

theorem logAll_renameAll (f : Nat → Nat) : ∀ ts : List (Trail κ σ),
    logAll (renameAll f ts) = (logAll ts).map (Event.rename f)
  | [] => rfl
  | t :: ts => by rw [renameAll, logAll, logAll, log_rename f t, logAll_renameAll f ts, List.map_append]
end

end Trail

theorem Rule.outcome_renameAll (f : Nat → Nat) (rule : Rule) (scene : Scene κ σ) (ts : List (Trail κ σ)) :
    rule.outcome scene (Trail.renameAll f ts) = rule.outcome scene ts := by
  rw [outcome, outcome, Trail.renameAll_eq_map, List.getLast?_map, Option.map_map]
  have hsame : (fun t : Trail κ σ => (t.status, t.left)) ∘ Trail.rename f = fun t => (t.status, t.left) := by
    funext t
    simp
  rw [hsame]

namespace Node

mutual
/-- The trail of a visit does not use handles. -/
theorem trail_rename (f : Nat → Nat) : ∀ (n : Node κ σ) (scene : Scene κ σ),
    (n.rename f).trail scene = (n.trail scene).rename f
  | leaf l act, scene => by
    simp only [rename, trail, Trail.rename, Trail.renameAll, List.map_cons, List.map_nil, Event.rename]
  | composite l rule keep cursor ns, scene => by
    simp only [rename, trail, Trail.rename, trailAll_rename f rule (startPlace keep cursor) ns scene,
      Rule.outcome_renameAll, List.map_nil]
  | decorator l wrap memory n, scene => by
    simp only [rename, trail, Decorator.enter_rename, trail_rename f n (wrap.enter l memory scene).scene,
      Decorator.leave_rename, Trail.rename, Trail.renameAll, Trail.status_rename, Trail.left_rename]

theorem trailAll_rename (f : Nat → Nat) (rule : Rule) : ∀ (skip : Nat) (ns : List (Node κ σ)) (scene : Scene κ σ),
    trailAll rule skip (renameAll f ns) scene = Trail.renameAll f (trailAll rule skip ns scene)
  | _, [], _ => by simp [trailAll]
  | skip + 1, n :: ns, scene => by
    rw [renameAll, trailAll, trailAll, trailAll_rename f rule skip ns scene]
  | 0, n :: ns, scene => by
    have hself := trail_rename f n scene
    rw [renameAll]
    by_cases honward : (n.trail scene).status = rule.onward
    · have honward' : ((n.rename f).trail scene).status = rule.onward := by
        rw [hself, Trail.status_rename]
        exact honward
      rw [trailAll_of_onward honward, trailAll_of_onward honward', hself, Trail.left_rename,
        trailAll_rename f rule 0 ns (n.trail scene).left, Trail.renameAll]
    · have honward' : ((n.rename f).trail scene).status ≠ rule.onward := by
        rw [hself, Trail.status_rename]
        exact honward
      rw [trailAll_of_ne_onward honward, trailAll_of_ne_onward honward', hself]
      simp
end

/-- A composite visits its children. -/
theorem exists_of_mem_trailAll (rule : Rule) : ∀ {skip : Nat} {ns : List (Node κ σ)} {scene : Scene κ σ}
    {u : Trail κ σ}, u ∈ trailAll rule skip ns scene → ∃ n ∈ ns, ∃ scene', u = n.trail scene'
  | _, [], _, _, hu => by simp [trailAll] at hu
  | skip + 1, n :: ns, _, _, hu => by
    rw [trailAll] at hu
    obtain ⟨m, hm, h⟩ := exists_of_mem_trailAll rule hu
    exact ⟨m, List.mem_cons_of_mem _ hm, h⟩
  | 0, n :: ns, scene, u, hu => by
    have hself : u = n.trail scene → ∃ m ∈ n :: ns, ∃ scene', u = m.trail scene' := fun h =>
      ⟨n, List.mem_cons_self, scene, h⟩
    by_cases honward : (n.trail scene).status = rule.onward
    · rw [trailAll_of_onward honward] at hu
      rcases List.mem_cons.1 hu with h | hu
      · exact hself h
      · obtain ⟨m, hm, h⟩ := exists_of_mem_trailAll rule hu
        exact ⟨m, List.mem_cons_of_mem _ hm, h⟩
    · rw [trailAll_of_ne_onward honward] at hu
      exact hself (List.mem_singleton.1 hu)

end Node

/-! ## What is compared -/

/-- Which acts, tests and hooks were called, and what they answered, in order. -/
def callsIn (log : List (Event κ σ)) : List (Event κ σ) := log.filter fun e => !e.isEnding

theorem callsIn_map_rename (f : Nat → Nat) (log : List (Event κ σ)) :
    callsIn (log.map (Event.rename f)) = (callsIn log).map (Event.rename f) := by
  have hsame : ∀ e : Event κ σ, (e.rename f).isEnding = e.isEnding := by
    intro e
    cases e <;> rfl
  rw [callsIn, callsIn, List.filter_map]
  congr 2
  funext e
  simp [hsame]

namespace Trail

/-- The calls in a visit are those in some of the visits made in its course, its parts. -/
def ComposedOf (t : Trail κ σ) (parts : List (Trail κ σ)) : Prop :=
  callsIn t.log = parts.flatMap fun u => callsIn u.log

/-- A visit of a node that calls nothing itself is composed of the visits of its children. -/
theorem composedOf_inner {t : Trail κ σ} (hopened : t.opened = []) (hclosed : t.closed = []) :
    t.ComposedOf t.inner := by
  rw [ComposedOf, log_eq, hopened, hclosed]
  simp [callsIn, List.filter_append, List.filter_flatMap, finish, Event.isEnding]

theorem composedOf_self (t : Trail κ σ) : t.ComposedOf [t] := by
  rw [ComposedOf, List.flatMap_singleton]

/-- Parts may themselves be composed of others. -/
theorem ComposedOf.flatMap {t : Trail κ σ} {parts : List (Trail κ σ)} (h : t.ComposedOf parts)
    {split : Trail κ σ → List (Trail κ σ)} (hsplit : ∀ u ∈ parts, u.ComposedOf (split u)) :
    t.ComposedOf (parts.flatMap split) := by
  rw [ComposedOf] at h ⊢
  rw [h, List.flatMap_assoc]
  exact List.flatMap_congr hsplit

/-- The visits that children made. -/
def grandchildren (t : Trail κ σ) : List (Trail κ σ) := t.inner.flatMap inner

/-- The second visit answers as the first one does, and its parts are the same visits under other handles. -/
structure Like (f : Nat → Nat) (parts₁ parts₂ : Trail κ σ → List (Trail κ σ)) (t u : Trail κ σ) : Prop where
  status : u.status = t.status
  left : u.left = t.left
  /-- The same nodes are visited, are given the same scenes, do the same and leave the same scenes. -/
  parts : parts₂ u = (parts₁ t).map (rename f)
  composed₁ : t.ComposedOf (parts₁ t)
  composed₂ : u.ComposedOf (parts₂ u)

/-- Visits that are alike make the same calls in the same order. -/
theorem Like.calls {f : Nat → Nat} {parts₁ parts₂ : Trail κ σ → List (Trail κ σ)} {t u : Trail κ σ}
    (h : t.Like f parts₁ parts₂ u) : callsIn u.log = (callsIn t.log).map (Event.rename f) := by
  have h₁ : callsIn t.log = (parts₁ t).flatMap fun v => callsIn v.log := h.composed₁
  have h₂ : callsIn u.log = (parts₂ u).flatMap fun v => callsIn v.log := h.composed₂
  rw [h₂, h₁, h.parts, List.flatMap_map, List.map_flatMap]
  refine List.flatMap_congr fun v _ => ?_
  rw [log_rename, callsIn_map_rename]

end Trail

/-- The second turn has the status, the scene and the calls of the first one, under other handles. -/
structure Turn.Like (f : Nat → Nat) (turn turn' : Turn κ σ) : Prop where
  status : turn'.status = turn.status
  scene : turn'.scene = turn.scene
  calls : callsIn turn'.log = (callsIn turn.log).map (Event.rename f)

/-- Turns are alike if the trails that tell how they have gone are. -/
theorem turns_like {f : Nat → Nat} {parts₁ parts₂ : Trail κ σ → List (Trail κ σ)} {us vs : List (Trail κ σ)}
    (h : List.Forall₂ (Trail.Like f parts₁ parts₂) us vs) {turns turns' : List (Turn κ σ)}
    (hus : List.Forall₂ Trail.Tells us turns) (hvs : List.Forall₂ Trail.Tells vs turns') :
    List.Forall₂ (Turn.Like f) turns turns' := by
  induction h generalizing turns turns' with
  | nil =>
    cases hus
    cases hvs
    exact .nil
  | cons h _ ih =>
    cases hus with
    | cons hu hus =>
      cases hvs with
      | cons hv hvs =>
        refine .cons ⟨?_, ?_, ?_⟩ (ih hus hvs)
        · rw [hu.status, hv.status, h.status]
        · rw [hu.scene, hv.scene, h.left]
        · rw [hu.log, hv.log, h.calls]

/-! ## Bisimulations -/

/-- A relation between nodes that visits and resets keep, and what it says of a visit. -/
structure Bisimulation (R : Node κ σ → Node κ σ → Prop) (Q : Trail κ σ → Trail κ σ → Prop) : Prop where
  trail : ∀ n m scene, R n m → Q (n.trail scene) (m.trail scene)
  visit : ∀ n m scene, R n m → R (n.visit scene).node (m.visit scene).node
  reset : ∀ n m, R n m → R n.reset m.reset

namespace Bisimulation

variable {R : Node κ σ → Node κ σ → Prop} {Q : Trail κ σ → Trail κ σ → Prop} (h : Bisimulation R Q)
include h

/-- What a bisimulation says of a visit, it says of every tick of a run. -/
theorem trails : ∀ (cs : List (Command κ σ)) {n m : Node κ σ}, R n m → List.Forall₂ Q (n.trails cs) (m.trails cs)
  | [], _, _, _ => .nil
  | .tick scene :: cs, n, m, hR => .cons (h.trail n m scene hR) (trails cs (h.visit n m scene hR))
  | .reset :: cs, n, m, hR => trails cs (h.reset n m hR)

theorem course : ∀ (cs : List (Command κ σ)) (past past' : List (Trail κ σ)) {n m : Node κ σ}, R n m →
    R (n.course past cs).2 (m.course past' cs).2
  | [], _, _, _, _, hR => hR
  | .tick scene :: cs, _, _, n, m, hR => course cs _ _ (h.visit n m scene hR)
  | .reset :: cs, _, _, n, m, hR => course cs _ _ (h.reset n m hR)

end Bisimulation

/-- A run below two roots, in place and on the tree, turn by turn: the trails of the ticks are alike in their parts, and
so are the turns. At the end every node of the first tree but those of `glue` has the same progress as that node of the
second one which `f` makes of it. -/
def Builder.PlayAlike (b₁ : Builder κ σ) (root₁ : Int) (b₂ : Builder κ σ) (root₂ : Int) (f : Nat → Nat)
    (glue : List Nat) (parts₁ parts₂ : Trail κ σ → List (Trail κ σ)) (commands : List (Command κ σ)) : Prop :=
  ∃ (n₁ n₂ : Node κ σ) (turns₁ turns₂ : List (Turn κ σ)) (t₁ t₂ : Tree κ σ) (a₁ a₂ : Arena κ σ),
    b₁.Runs root₁ commands n₁ turns₁ t₁ a₁ ∧ b₂.Runs root₂ commands n₂ turns₂ t₂ a₂ ∧
    List.Forall₂ Trail.Tells (n₁.trails commands) turns₁ ∧ List.Forall₂ Trail.Tells (n₂.trails commands) turns₂ ∧
    List.Forall₂ (Trail.Like f parts₁ parts₂) (n₁.trails commands) (n₂.trails commands) ∧
    List.Forall₂ (Turn.Like f) turns₁ turns₂ ∧
    ∀ h, Reaches b₁.drafts root₁.toNat h → h ∉ glue → a₂.progressOf (f h) = a₁.progressOf h

/-- Below roots whose planned nodes a bisimulation relates, every run goes alike. -/
theorem Bisimulation.playAlike {R : Node κ σ → Node κ σ → Prop} {f : Nat → Nat} {glue : List Nat}
    {parts₁ parts₂ : Trail κ σ → List (Trail κ σ)} (h : Bisimulation R (Trail.Like f parts₁ parts₂))
    (hprogress : ∀ n m, R n m → ∀ x ∈ n.subtree, x.label.handle ∉ glue →
      ∃ y ∈ m.subtree, y.label.handle = f x.label.handle ∧ y.progress = x.progress)
    {b₁ b₂ : Builder κ σ} {root₁ root₂ : Int} (hf₁ : Forest b₁.drafts) (hf₂ : Forest b₂.drafts)
    (hcheck₁ : b₁.check root₁ = none) (hcheck₂ : b₂.check root₂ = none)
    (hplan : ∀ n m, b₁.plan root₁ = .ok n → b₂.plan root₂ = .ok m → R n m) (commands : List (Command κ σ)) :
    b₁.PlayAlike root₁ b₂ root₂ f glue parts₁ parts₂ commands := by
  obtain ⟨n, -, hruns₁⟩ := exists_runs hf₁ hcheck₁
  obtain ⟨m, -, hruns₂⟩ := exists_runs hf₂ hcheck₂
  obtain ⟨turns₁, t₁, a₁, hrun₁, htells₁, hmirrors₁, -⟩ := hruns₁ commands
  obtain ⟨turns₂, t₂, a₂, hrun₂, htells₂, hmirrors₂, -⟩ := hruns₂ commands
  have hR := hplan n m hrun₁.plan hrun₂.plan
  have hlike := h.trails commands hR
  refine ⟨n, m, turns₁, turns₂, t₁, t₂, a₁, a₂, hrun₁, hrun₂, htells₁, htells₂, hlike,
    turns_like hlike htells₁ htells₂, ?_⟩
  intro x hreach hglue
  have hx : x ∈ (n.course [] commands).2.handles := by
    rw [Node.handles_course]
    exact (mem_handles_iff_reaches hf₁ hrun₁.plan x).2 hreach
  obtain ⟨u, hu, rfl⟩ := List.mem_map.1 hx
  obtain ⟨v, hv, hhandle, hsame⟩ := hprogress _ _ (h.course commands [] [] hR) u hu hglue
  rw [hmirrors₁.held.progressOf_eq hu, ← hhandle, hmirrors₂.held.progressOf_eq hv, hsame]

/-! ## Where the nodes of a planned tree stand -/

/-- Lists are related if there are members at the same places and these are related. -/
theorem forall₂_of_getElem? {α β : Type} {R : α → β → Prop} : ∀ {xs : List α} {ys : List β},
    (∀ (i : Nat) x, xs[i]? = some x → ∃ y, ys[i]? = some y ∧ R x y) →
      (∀ (i : Nat) y, ys[i]? = some y → ∃ x, xs[i]? = some x) →
      List.Forall₂ R xs ys
  | [], [], _, _ => .nil
  | [], y :: ys, _, h => by
    obtain ⟨x, hx⟩ := h 0 y rfl
    cases hx
  | x :: xs, [], h, _ => by
    obtain ⟨y, hy, -⟩ := h 0 x rfl
    cases hy
  | x :: xs, y :: ys, h, h' => by
    obtain ⟨z, hz, hxz⟩ := h 0 x rfl
    cases hz
    exact .cons hxz (forall₂_of_getElem? (fun i => h (i + 1)) fun i => h' (i + 1))

theorem exists_of_mem_forall₂ {α β : Type} {R : α → β → Prop} {xs : List α} {ys : List β} (h : List.Forall₂ R xs ys)
    {x : α} (hx : x ∈ xs) : ∃ y ∈ ys, R x y := by
  induction h with
  | nil => cases hx
  | cons hxy _ ih =>
    rcases List.mem_cons.1 hx with rfl | hx
    · exact ⟨_, List.mem_cons_self, hxy⟩
    · obtain ⟨y, hy, h⟩ := ih hx
      exact ⟨y, List.mem_cons_of_mem _ hy, h⟩

/-- A node grows from the draft at the end of a way down from a root. -/
def Builder.Grows (b : Builder κ σ) (root : Int) (way : List Nat) (n : Node κ σ) : Prop :=
  ∃ h depth, descend b.drafts root.toNat way = some h ∧ grow b.drafts depth h = .ok n

/-- The node at the end of a way down from a root has this role. -/
def Builder.HasRole (b : Builder κ σ) (root : Int) (way : List Nat) (role : Role κ σ) : Prop :=
  ∃ name, b.unfolding root way = some (name, role)

theorem getElem?_of_mapM_grow {ds : List (Draft κ σ)} {depth : Nat} : ∀ {hs : List Nat} {ns : List (Node κ σ)},
    hs.mapM (grow ds depth) = .ok ns → ∀ {i : Nat} {n : Node κ σ}, ns[i]? = some n →
      ∃ h, hs[i]? = some h ∧ grow ds depth h = .ok n
  | [], _, hg, i, n, hn => by
    cases hg
    cases hn
  | h :: hs, _, hg, i, n, hn => by
    obtain ⟨m, rest, hm, hrest, rfl⟩ := mapM_cons_eq_ok.1 hg
    cases i with
    | zero =>
      cases hn
      exact ⟨h, rfl, hm⟩
    | succ i =>
      rw [List.getElem?_cons_succ] at hn ⊢
      exact getElem?_of_mapM_grow hrest hn

/-- Where the unfolding has a node, it has the nodes above. -/
theorem exists_unfolding_of_concat {b : Builder κ σ} {root : Int} {way : List Nat} {i : Nat} {x : String × Role κ σ}
    (h : b.unfolding root (way ++ [i]) = some x) : ∃ y, b.unfolding root way = some y := by
  obtain ⟨g, -, hg, -⟩ := exists_of_unfolding h
  obtain ⟨p, d, hp, hd, -⟩ := descend_concat.1 hg
  exact ⟨_, unfolding_eq hp hd⟩

/-- Below the end of a way the unfolding is that of the node there. -/
theorem Builder.unfolding_append {b : Builder κ σ} {root : Int} {v : List Nat} {h : Nat}
    (hv : descend b.drafts root.toNat v = some h) (way : List Nat) :
    b.unfolding root (v ++ way) = b.unfolding h way := by
  rw [unfolding, unfolding, descend_append, hv]
  rfl

namespace Builder.Grows

variable {b : Builder κ σ} {root : Int} {way : List Nat} {n : Node κ σ}

theorem root_of_plan (hplan : b.plan root = .ok n) : b.Grows root [] n := by
  obtain ⟨-, -, -, hgrow⟩ := Builder.grow_of_plan hplan
  exact ⟨root.toNat, _, rfl, hgrow⟩

variable (hf : Forest b.drafts) (h : b.Grows root way n)
include hf h

theorem descend_eq : descend b.drafts root.toNat way = some n.label.handle := by
  obtain ⟨x, depth, hx, hn⟩ := h
  obtain ⟨-, d, -, -, hlabel, -⟩ := grow_cases hf hn
  rw [hx, hlabel]

/-- The unfolding tells the role of the node, which has made no progress. -/
theorem plays : ∃ r, b.unfolding root way = some (n.label.name, r) ∧ n.Plays r ∧ n.progress = {} := by
  obtain ⟨x, depth, hx, hn⟩ := h
  obtain ⟨-, d, -, hd, hlabel, hplays, hprogress, -⟩ := grow_cases hf hn
  refine ⟨d.role, ?_, hplays, hprogress⟩
  rw [unfolding_eq hx hd, hlabel]

/-- A node that the unfolding has as a composite is one, and starts at its first child. -/
theorem eq_composite {rule : Rule} {keep : Bool} (hrole : b.HasRole root way (.composite rule keep)) :
    ∃ l ns, n = .composite l rule keep none ns := by
  obtain ⟨name, hname⟩ := hrole
  obtain ⟨r, hr, hplays, hprogress⟩ := h.plays hf
  rw [hname] at hr
  cases hr
  obtain ⟨l, cursor, ns, rfl, -⟩ := hplays.exists_composite
  have hcursor : cursor = none := congrArg Progress.cursor hprogress
  rw [hcursor]
  exact ⟨l, ns, rfl⟩

/-- A node that the unfolding has as a decorator is one, with a child. -/
theorem eq_decorator {wrap : Decorator κ σ} (hrole : b.HasRole root way (.decorator (some wrap))) :
    ∃ l memory c, n = .decorator l wrap memory c := by
  obtain ⟨name, hname⟩ := hrole
  obtain ⟨r, hr, hplays, -⟩ := h.plays hf
  rw [hname] at hr
  cases hr
  exact hplays.exists_decorator

theorem child {i : Nat} {c : Node κ σ} (hc : n.children[i]? = some c) : b.Grows root (way ++ [i]) c := by
  obtain ⟨x, depth, hx, hn⟩ := h
  obtain ⟨k, d, -, hd, -, -, -, hchildren⟩ := grow_cases hf hn
  obtain ⟨y, hy, hgrow⟩ := getElem?_of_mapM_grow hchildren hc
  exact ⟨y, k, descend_concat.2 ⟨x, d, hx, hd, hy⟩, hgrow⟩

/-- A node has a child where the unfolding has a node. -/
theorem exists_child_iff (i : Nat) :
    (∃ c, n.children[i]? = some c) ↔ ∃ x, b.unfolding root (way ++ [i]) = some x := by
  constructor
  · rintro ⟨c, hc⟩
    obtain ⟨r, hr, -⟩ := (h.child hf hc).plays hf
    exact ⟨_, hr⟩
  · rintro ⟨y, hy⟩
    obtain ⟨x, depth, hx, hn⟩ := h
    obtain ⟨k, d, -, hd, -, -, -, hchildren⟩ := grow_cases hf hn
    obtain ⟨g, -, hg, -⟩ := exists_of_unfolding hy
    obtain ⟨p, e, hp, he, hi⟩ := descend_concat.1 hg
    rw [hx] at hp
    cases hp
    rw [hd] at he
    cases he
    have hlength : n.children.length = d.children.length := by
      rw [← map_handle_of_mapM_grow hf hchildren, List.length_map]
    have hlt : i < n.children.length := hlength ▸ (List.getElem?_eq_some_iff.1 hi).1
    exact ⟨_, List.getElem?_eq_getElem hlt⟩

/-- At each place there is a child, and a node in the unfolding from which it grows, or neither. -/
theorem child_cases (i : Nat) : (∃ c, n.children[i]? = some c ∧ b.Grows root (way ++ [i]) c) ∨
    (n.children[i]? = none ∧ b.unfolding root (way ++ [i]) = none) := by
  cases hc : n.children[i]? with
  | some c => exact .inl ⟨c, rfl, h.child hf hc⟩
  | none =>
    refine .inr ⟨rfl, Option.eq_none_iff_forall_ne_some.2 fun x hx => ?_⟩
    obtain ⟨c, hc'⟩ := (h.exists_child_iff hf i).2 ⟨x, hx⟩
    rw [hc] at hc'
    cases hc'

end Builder.Grows

/-- Nodes below the ends of which the unfoldings are the same differ in handles only. -/
theorem Builder.Grows.eq_rename {b₁ b₂ : Builder κ σ} {root₁ root₂ : Int} {v w : List Nat} {n m : Node κ σ}
    {f : Nat → Nat} (hf₁ : Forest b₁.drafts) (hf₂ : Forest b₂.drafts) (hn : b₁.Grows root₁ v n)
    (hm : b₂.Grows root₂ w m)
    (hsame : ∀ way, b₁.unfolding root₁ (v ++ way) = b₂.unfolding root₂ (w ++ way))
    (hways : ∀ way h, descend b₁.drafts root₁.toNat (v ++ way) = some h →
      descend b₂.drafts root₂.toNat (w ++ way) = some (f h)) : m = n.rename f := by
  obtain ⟨x, depth₁, hx, hgrow₁⟩ := hn
  obtain ⟨y, depth₂, hy, hgrow₂⟩ := hm
  have hsame' : ∀ way, b₁.unfolding x way = b₂.unfolding y way := by
    intro way
    rw [← unfolding_append hx, ← unfolding_append hy, hsame]
  have hways' : ∀ way h, descend b₁.drafts (x : Int).toNat way = some h →
      descend b₂.drafts (y : Int).toNat way = some (f h) := by
    intro way h hw
    have hstep := hways way h
    rw [descend_append, hx, descend_append, hy] at hstep
    exact hstep hw
  have hroot : f x = y := (Option.some.inj (hways' [] x rfl)).symm
  have hself : descend b₁.drafts (x : Int).toNat [] = some x := rfl
  exact grow_rename hsame' hf₂ hways' hf₁ hself hgrow₁ (hroot ▸ hgrow₂)

namespace Node

mutual
/-- The nodes below a node with other handles are those below it, each with other handles. -/
theorem subtree_rename (f : Nat → Nat) : ∀ n : Node κ σ, (n.rename f).subtree = n.subtree.map (rename f)
  | leaf _ _ => rfl
  | composite _ _ _ _ ns => by rw [rename, subtree, subtree, forest_renameAll f ns]; rfl
  | decorator _ _ _ n => by rw [rename, subtree, subtree, subtree_rename f n]; rfl

theorem forest_renameAll (f : Nat → Nat) : ∀ ns : List (Node κ σ), forest (renameAll f ns) = (forest ns).map (rename f)
  | [] => rfl
  | n :: ns => by rw [renameAll, forest, forest, subtree_rename f n, forest_renameAll f ns, List.map_append]
end

end Node

end Behaviour
