import Behaviour.Assembly
import Behaviour.Proofs.Drive

/-!
# Play in a changed world

A `Symmetry` is a way to change worlds, with the worlds that it is meant for. If all acts, tests and hooks of a tree
*respect* it, that is, do the same in a changed world and leave what they would have left, changed, then so does every
visit of the tree (`Node.visit_mapWorld`) and every turn of a player whose snapshots respect it, too
(`Player.Respects.play_mapWorld`): the same statuses, the same snapshots, the same log but for the worlds in it, and
the same progress.

Which roles are in a tree is seen from the way in which it is assembled (`Assembly.Adds`, `Node.respects_of_grow`).
-/

namespace Behaviour

variable {κ σ : Type}

/-! ## Changed worlds -/

/-- A way to change worlds, and the worlds that it is meant for. -/
structure Symmetry (σ : Type) where
  change : σ → σ
  fits : σ → Prop

def Scene.mapWorld (f : σ → σ) (s : Scene κ σ) : Scene κ σ := { s with world := f s.world }

@[simp] theorem Scene.world_mapWorld (f : σ → σ) (s : Scene κ σ) : (s.mapWorld f).world = f s.world := rfl

def Event.mapWorld (f : σ → σ) : Event κ σ → Event κ σ
  | acted label status => acted label status
  | tested label answer => tested label answer
  | derived label => derived label
  | judged label raw => judged label raw
  | finished label kind status scene => finished label kind status (scene.mapWorld f)

def Visit.mapWorld (f : σ → σ) (v : Visit κ σ) : Visit κ σ :=
  { v with scene := v.scene.mapWorld f, log := v.log.map (Event.mapWorld f) }

def Scan.mapWorld (f : σ → σ) (s : Scan κ σ) : Scan κ σ :=
  { s with scene := s.scene.mapWorld f, log := s.log.map (Event.mapWorld f) }

def Opening.mapWorld (f : σ → σ) (o : Opening κ σ) : Opening κ σ :=
  { o with scene := o.scene.mapWorld f, log := o.log.map (Event.mapWorld f) }

def Closing.mapWorld (f : σ → σ) (c : Closing κ σ) : Closing κ σ :=
  { c with scene := c.scene.mapWorld f, log := c.log.map (Event.mapWorld f) }

def Sighting.mapWorld (f : σ → σ) (s : Sighting κ σ) : Sighting κ σ := { s with scene := s.scene.mapWorld f }

def Moment.mapWorld (f : σ → σ) : Moment κ σ → Moment κ σ
  | opened snapshot => opened snapshot
  | inside event => inside (event.mapWorld f)
  | closed snapshot => closed snapshot

/-- The same round in a changed world: the same status, the same player, and all worlds changed. -/
def Round.mapWorld (f : σ → σ) (r : Round κ σ) : Round κ σ :=
  { r with
    world := f r.world
    log := r.log.map (Moment.mapWorld f)
    sightings := r.sightings.map (Sighting.mapWorld f) }

theorem Visit.finish_mapWorld (f : σ → σ) (v : Visit κ σ) : (v.mapWorld f).finish = v.finish.mapWorld f := by
  simp [Visit.finish, Visit.mapWorld, Event.mapWorld]

/-! ## What respects a change -/

namespace Symmetry

variable (g : Symmetry σ)

/-- What finds out something about a scene finds out the same in the changed one and leaves it changed. -/
def Respects {α : Type} (act : Scene κ σ → α × Scene κ σ) : Prop := ∀ s : Scene κ σ, g.fits s.world →
  act (s.mapWorld g.change) = ((act s).1, (act s).2.mapWorld g.change) ∧ g.fits (act s).2.world

def RespectsBefore (before : Before κ σ) : Prop := ∀ (s : Scene κ σ) (memory : Memory), g.fits s.world →
  before (s.mapWorld g.change) memory = ((before s memory).1.mapWorld g.change, (before s memory).2) ∧
    g.fits (before s memory).1.world

def RespectsAfter (after : After κ σ) : Prop := ∀ (raw : Status) (s : Scene κ σ) (memory : Memory), g.fits s.world →
  after raw (s.mapWorld g.change) memory =
    ((after raw s memory).1, g.change (after raw s memory).2.1, (after raw s memory).2.2) ∧
    g.fits (after raw s memory).2.1

def RespectsCamera (camera : Camera κ σ) : Prop := ∀ w : σ, g.fits w →
  camera (g.change w) = ((camera w).1, g.change (camera w).2) ∧ g.fits (camera w).2

end Symmetry

/-- The test or the hooks of a decorator respect a change. -/
def Decorator.Respects (g : Symmetry σ) : Decorator κ σ → Prop
  | negate | delay => True
  | await test => g.Respects test
  | custom before after => (∀ b, before = some b → g.RespectsBefore b) ∧ ∀ a, after = some a → g.RespectsAfter a

/-- What a role brings with it respects a change. -/
def Role.Respects (g : Symmetry σ) : Role κ σ → Prop
  | leaf act => ∀ a, act = some a → g.Respects a
  | composite _ _ => True
  | decorator wrap => ∀ w, wrap = some w → w.Respects g

/-- What a node does itself respects a change. -/
def Node.Respects (g : Symmetry σ) : Node κ σ → Prop
  | leaf _ act => g.Respects act
  | composite _ _ _ _ _ => True
  | decorator _ wrap _ _ => wrap.Respects g

/-! ## Visits -/

variable {g : Symmetry σ}

namespace Decorator

theorem enter_mapWorld {wrap : Decorator κ σ} (h : wrap.Respects g) (label : Label) (memory : Memory) {s : Scene κ σ}
    (hs : g.fits s.world) : wrap.enter label memory (s.mapWorld g.change) =
      (wrap.enter label memory s).mapWorld g.change ∧ g.fits (wrap.enter label memory s).scene.world := by
  cases wrap with
  | negate => exact ⟨rfl, hs⟩
  | delay => exact ⟨rfl, hs⟩
  | await test =>
    obtain ⟨htest, hfits⟩ := h s hs
    simp only [enter]
    split
    · exact ⟨rfl, hs⟩
    · rw [htest]
      exact ⟨rfl, hfits⟩
  | custom before after =>
    cases before with
    | none => exact ⟨rfl, hs⟩
    | some before =>
      obtain ⟨hbefore, hfits⟩ := h.1 before rfl s memory hs
      simp only [enter]
      rw [hbefore]
      exact ⟨rfl, hfits⟩

theorem restore_mapWorld (wrap : Decorator κ σ) (f : σ → σ) (s t : Scene κ σ) :
    wrap.restore (s.mapWorld f) (t.mapWorld f) = (wrap.restore s t).mapWorld f := by
  unfold restore
  split <;> rfl

/-- Only the context of the child's scene is given back. -/
theorem world_restore (wrap : Decorator κ σ) (s t : Scene κ σ) : (wrap.restore s t).world = t.world := by
  unfold restore
  split <;> rfl

theorem leave_mapWorld {wrap : Decorator κ σ} (h : wrap.Respects g) (label : Label) (memory : Memory) (raw : Status)
    {s : Scene κ σ} (hs : g.fits s.world) : wrap.leave label memory raw (s.mapWorld g.change) =
      (wrap.leave label memory raw s).mapWorld g.change ∧ g.fits (wrap.leave label memory raw s).scene.world := by
  cases wrap with
  | negate => exact ⟨rfl, hs⟩
  | delay =>
    simp only [leave]
    split <;> exact ⟨rfl, hs⟩
  | await test =>
    simp only [leave]
    split
    · exact ⟨rfl, hs⟩
    · split <;> exact ⟨rfl, hs⟩
  | custom before after =>
    cases after with
    | none => exact ⟨rfl, hs⟩
    | some after =>
      obtain ⟨hafter, hfits⟩ := h.2 after rfl raw s memory hs
      simp only [leave]
      rw [hafter]
      exact ⟨rfl, hfits⟩

end Decorator

namespace Node

mutual
/-- A visit does the same in a changed world, and leaves what it would have left, changed. -/
theorem visit_mapWorld : ∀ {n : Node κ σ} {s : Scene κ σ}, n.All (Respects g) → g.fits s.world →
    n.visit (s.mapWorld g.change) = (n.visit s).mapWorld g.change ∧ g.fits (n.visit s).scene.world
  | leaf l act, s, h, hs => by
    obtain ⟨hact, hfits⟩ := h.self s hs
    simp only [visit]
    rw [hact]
    exact ⟨Visit.finish_mapWorld g.change ⟨_, _, _, [.acted l (act s).1]⟩, hfits⟩
  | composite l rule keep cursor ns, s, h, hs => by
    have hall : ∀ m ∈ ns, m.All (Respects g) := fun m hm => h.child hm
    obtain ⟨hscan, hfits⟩ := scan_mapWorld rule (startPlace keep cursor) hall hs
    simp only [visit]
    rw [hscan]
    exact ⟨Visit.finish_mapWorld g.change ⟨_, _, _, _⟩, hfits⟩
  | decorator l wrap memory n, s, h, hs => by
    obtain ⟨henter, hopen⟩ := Decorator.enter_mapWorld h.self l memory hs
    obtain ⟨hvisit, hinner⟩ := visit_mapWorld (h.child List.mem_cons_self) hopen
    have hback : g.fits (wrap.restore s (n.visit (wrap.enter l memory s).scene).scene).world := by
      rwa [Decorator.world_restore]
    obtain ⟨hleave, hclose⟩ := Decorator.leave_mapWorld h.self l (wrap.enter l memory s).memory
      (n.visit (wrap.enter l memory s).scene).status hback
    simp only [visit, henter, Opening.mapWorld, hvisit, Visit.mapWorld, Decorator.restore_mapWorld, hleave,
      Closing.mapWorld]
    refine ⟨?_, hclose⟩
    rw [← List.map_append, ← List.map_append]
    exact Visit.finish_mapWorld g.change ⟨_, _, _, _⟩

theorem scan_mapWorld (rule : Rule) : ∀ (skip : Nat) {ns : List (Node κ σ)} {s : Scene κ σ},
    (∀ n ∈ ns, n.All (Respects g)) → g.fits s.world →
    scan rule skip ns (s.mapWorld g.change) = (scan rule skip ns s).mapWorld g.change ∧
      g.fits (scan rule skip ns s).scene.world
  | _, [], s, _, hs => by
    simp only [scan]
    exact ⟨rfl, hs⟩
  | skip + 1, n :: ns, s, h, hs => by
    obtain ⟨hscan, hfits⟩ := scan_mapWorld rule skip (fun m hm => h m (List.mem_cons_of_mem n hm)) hs
    simp only [scan]
    rw [hscan]
    exact ⟨rfl, hfits⟩
  | 0, n :: ns, s, h, hs => by
    obtain ⟨hvisit, hfits⟩ := visit_mapWorld (h n List.mem_cons_self) hs
    obtain ⟨hscan, hfits'⟩ := scan_mapWorld rule 0 (fun m hm => h m (List.mem_cons_of_mem n hm)) hfits
    simp only [scan]
    rw [hvisit]
    by_cases honward : (n.visit s).status = rule.onward
    · simp only [Visit.mapWorld, honward, if_true, hscan, Scan.mapWorld, List.map_append]
      exact ⟨trivial, hfits'⟩
    · simp only [Visit.mapWorld, honward, if_false, Scan.mapWorld]
      exact ⟨trivial, hfits⟩
end

end Node

/-! ## Turns of a player -/

theorem Event.sighting?_mapWorld (f : σ → σ) (e : Event κ σ) :
    (e.mapWorld f).sighting? = e.sighting?.map (Sighting.mapWorld f) := by
  cases e <;> rfl

theorem Turn.sightings_mapWorld (f : σ → σ) (status : Status) (tree : Tree κ σ) (scene : Scene κ σ)
    (log : List (Event κ σ)) :
    (⟨status, tree, scene.mapWorld f, log.map (Event.mapWorld f)⟩ : Turn κ σ).sightings =
      (⟨status, tree, scene, log⟩ : Turn κ σ).sightings.map (Sighting.mapWorld f) := by
  unfold Turn.sightings
  split
  · rw [List.filterMap_map, List.map_filterMap]
    exact List.filterMap_congr fun e _ => Event.sighting?_mapWorld f e
  · rfl

/-- A player of a tree that can be played, all of which respects a change. -/
structure Player.Respects (g : Symmetry σ) (p : Player κ σ) : Prop where
  plan : ∃ n, p.tree.plan = .ok n ∧ n.All (Node.Respects g)
  init : g.RespectsCamera p.init
  save : g.RespectsCamera p.save

/-- What a node does itself does not depend on its progress. -/
theorem Node.respects_reset_iff (n : Node κ σ) : n.reset.Respects g ↔ n.Respects g := by
  cases n <;> rfl

theorem Node.all_respects_visit (n : Node κ σ) (scene : Scene κ σ) :
    (n.visit scene).node.All (Respects g) ↔ n.All (Respects g) := by
  rw [← all_reset_iff respects_reset_iff, reset_visit, all_reset_iff respects_reset_iff]

namespace Player.Respects

variable {p : Player κ σ} {w : σ}

theorem watch (h : p.Respects g) (tracing : Bool) : (p.watch tracing).Respects g := ⟨h.plan, h.init, h.save⟩

theorem reset (h : p.Respects g) : p.reset.Respects g := by
  obtain ⟨n, hn, hall⟩ := h.plan
  refine ⟨⟨n.reset, ?_, ?_⟩, h.init, h.save⟩
  · simp only [Player.reset, Tree.reset, hn, Except.map]
  · rwa [Node.all_reset_iff Node.respects_reset_iff]

/-- The player plays on as such, whatever the world is. -/
theorem play (h : p.Respects g) (w : σ) : ∃ round, p.play w = .ok round ∧ round.player.Respects g := by
  obtain ⟨n, hn, hall⟩ := h.plan
  exact ⟨_, p.play_of_plan hn w, ⟨_, rfl, (Node.all_respects_visit n _).2 hall⟩, h.init, h.save⟩

theorem drive : ∀ (orders : List (Order σ)) {p : Player κ σ}, p.Respects g →
    ∃ p', p.drive orders = .ok p' ∧ p'.Respects g
  | [], p, h => ⟨p, rfl, h⟩
  | .play w :: orders, p, h => by
    obtain ⟨round, hround, hplayer⟩ := h.play w
    obtain ⟨p', hdrive, h'⟩ := drive orders hplayer
    refine ⟨p', ?_, h'⟩
    simp only [Player.drive, hround, bind, Except.bind, hdrive]
  | .reset :: orders, _, h => drive orders h.reset

/-- The snapshot that a turn plays with is the same in a changed world. -/
theorem opening_mapWorld (h : p.Respects g) (hw : g.fits w) :
    p.opening (g.change w) = ((p.opening w).1, g.change (p.opening w).2.1, (p.opening w).2.2) ∧
      g.fits (p.opening w).2.1 := by
  unfold Player.opening
  split
  · exact ⟨rfl, hw⟩
  · obtain ⟨hinit, hfits⟩ := h.init w hw
    rw [hinit]
    exact ⟨rfl, hfits⟩

/-- Taking the first snapshot shows no world. -/
theorem map_log_opening (p : Player κ σ) (w : σ) (f : σ → σ) :
    (p.opening w).2.2.map (Moment.mapWorld f) = (p.opening w).2.2 := by
  unfold Player.opening
  split <;> rfl

/-- A turn of the player is the same in a changed world. -/
theorem play_mapWorld (h : p.Respects g) (hw : g.fits w) : ∃ round, p.play w = .ok round ∧
    p.play (g.change w) = .ok (round.mapWorld g.change) ∧ round.player.Respects g ∧ g.fits round.world := by
  obtain ⟨n, hn, hall⟩ := h.plan
  obtain ⟨hopening, hopen⟩ := h.opening_mapWorld hw
  have hscene : g.fits (⟨(p.opening w).1, (p.opening w).2.1⟩ : Scene κ σ).world := hopen
  obtain ⟨hvisit, hleft⟩ := Node.visit_mapWorld hall hscene
  obtain ⟨hsave, hsaved⟩ := h.save _ hleft
  refine ⟨_, p.play_of_plan hn w, ?_, ⟨⟨_, rfl, (Node.all_respects_visit n _).2 hall⟩, h.init, h.save⟩, hsaved⟩
  rw [p.play_of_plan hn (g.change w)]
  simp only [hopening]
  have hchanged : n.visit ⟨(p.opening w).1, g.change (p.opening w).2.1⟩ =
      (n.visit ⟨(p.opening w).1, (p.opening w).2.1⟩).mapWorld g.change := hvisit
  rw [hchanged]
  simp only [Visit.mapWorld, Scene.world_mapWorld, hsave, Round.mapWorld, Turn.sightings_mapWorld, List.map_append,
    map_log_opening, List.map_map, List.map_cons, List.map_nil]
  rfl

end Player.Respects

/-! ## Assembled trees -/

/-- The drafts of a builder are wired well, and their roles have a property. -/
structure Builder.MadeOf (P : Role κ σ → Prop) (b : Builder κ σ) : Prop where
  forest : Forest b.drafts
  roles : ∀ d ∈ b.drafts, P d.role

namespace Builder.MadeOf

variable {P : Role κ σ → Prop} {b : Builder κ σ}

theorem add (h : b.MadeOf P) (name : String) {role : Role κ σ} (hrole : P role) : (b.add name role).2.MadeOf P := by
  refine ⟨forest_add name role h.forest, ?_⟩
  intro d hd
  rw [drafts_add] at hd
  split at hd
  · rcases List.mem_append.1 hd with hd | hd
    · exact h.roles d hd
    · obtain rfl := List.mem_singleton.1 hd
      exact hrole
  · exact h.roles d hd

/-- Linking changes no role. -/
theorem roles_link (h : b.MadeOf P) (p c : Nat) : ∀ d ∈ (b.link p c).drafts, P d.role := by
  intro d hd
  obtain ⟨i, hi⟩ := List.getElem?_of_mem hd
  rw [getElem?_link] at hi
  obtain ⟨e, he, rfl⟩ := Option.map_eq_some_iff.1 hi
  exact h.roles e (List.mem_of_getElem? he)

theorem attach (h : b.MadeOf P) (p c : Int) : (b.attach p c).MadeOf P := by
  refine ⟨forest_attach p c h.forest, ?_⟩
  rcases b.attach_cases p c with ⟨d, hattach⟩ | ⟨-, hattach⟩ <;> rw [hattach]
  · exact h.roles
  · exact h.roles_link p.toNat c.toNat

theorem decorate (h : b.MadeOf P) (p c : Int) : (b.decorate p c).MadeOf P := by
  refine ⟨forest_decorate p c h.forest, ?_⟩
  rcases b.decorate_cases p c with ⟨d, hdecorate⟩ | ⟨-, -, hdecorate⟩ <;> rw [hdecorate]
  · exact h.roles
  · exact h.roles_link p.toNat c.toNat

end Builder.MadeOf

namespace Assembly

/-- An assembly adds nodes of roles with a property only. -/
def Adds {α : Type} (P : Role κ σ → Prop) (a : Assembly κ σ α) : Prop :=
  ∀ b : Builder κ σ, b.MadeOf P → (a.run b).2.MadeOf P

variable {P : Role κ σ → Prop} {α β : Type}

theorem Adds.pure (x : α) : Adds P (Pure.pure x : Assembly κ σ α) := fun _ h => h

theorem Adds.bind {a : Assembly κ σ α} {f : α → Assembly κ σ β} (ha : Adds P a) (hf : ∀ x, Adds P (f x)) :
    Adds P (a >>= f) := fun b h => hf _ _ (ha b h)

theorem Adds.leaf (name : String) {act : Act κ σ} (hact : P (.leaf (some act))) : Adds P (Assembly.leaf name act) :=
  fun _ h => h.add name hact

theorem Adds.attachParts (parent : Int) : ∀ {parts : List (Assembly κ σ Int)}, (∀ a ∈ parts, Adds P a) →
    Adds P (Assembly.attachParts parent parts)
  | [], _ => Adds.pure ()
  | part :: parts, h => by
    refine Adds.bind (h part List.mem_cons_self) fun child => ?_
    refine Adds.bind (fun b hb => hb.attach parent child) fun _ => ?_
    exact Adds.attachParts parent fun a ha => h a (List.mem_cons_of_mem part ha)

theorem Adds.composite {rule : Rule} (name : String) {keep : Bool} {parts : List (Assembly κ σ Int)}
    (hrole : P (.composite rule keep)) (h : ∀ a ∈ parts, Adds P a) :
    Adds P (Assembly.composite rule name keep parts) := by
  refine Adds.bind (fun b hb => hb.add name hrole) fun parent => ?_
  exact Adds.bind (Adds.attachParts parent h) fun _ => Adds.pure parent

theorem Adds.negated {part : Assembly κ σ Int} (hrole : P (.decorator (some .negate))) (h : Adds P part) :
    Adds P (Assembly.negated part) :=
  Adds.bind h fun child _ hb => (hb.add _ hrole).decorate _ child

theorem Adds.delayed {part : Assembly κ σ Int} (hrole : P (.decorator (some .delay))) (h : Adds P part) :
    Adds P (Assembly.delayed part) :=
  Adds.bind h fun child _ hb => (hb.add _ hrole).decorate _ child

theorem Adds.awaited (child : Int) {test : Test κ σ} (hrole : P (.decorator (some (.await test)))) :
    Adds P (Assembly.awaited child test) :=
  fun _ hb => (hb.add _ hrole).decorate _ child

/-- What an assembly builds in a new builder is made of what it adds. -/
theorem Adds.build {a : Assembly κ σ Int} (h : Adds P a) : (Assembly.build a).2.MadeOf P :=
  h _ ⟨Builder.forest_built usualCapacity [], nofun⟩

end Assembly

theorem Node.Plays.respects {n : Node κ σ} {r : Role κ σ} (h : n.Plays r) (hr : r.Respects g) : n.Respects g := by
  cases n with
  | leaf l act =>
    obtain rfl : r = .leaf (some act) := h
    exact hr act rfl
  | composite l rule keep cursor ns => trivial
  | decorator l wrap memory n =>
    obtain rfl : r = .decorator (some wrap) := h
    exact hr wrap rfl

/-- What grows from drafts whose roles respect a change respects it. -/
theorem Node.respects_of_grow {b : Builder κ σ} (h : b.MadeOf (Role.Respects g)) :
    ∀ {depth handle : Nat} {n : Node κ σ}, grow b.drafts depth handle = .ok n → n.All (Respects g)
  | 0, _, _, hg => by cases hg
  | depth + 1, handle, n, hg => by
    obtain ⟨k, d, hk, hd, -, hplays, -, hchildren⟩ := grow_cases h.forest hg
    obtain rfl : depth = k := Nat.succ.inj hk
    refine All.of_children (hplays.respects (h.roles d (List.mem_of_getElem? hd))) fun m hm => ?_
    obtain ⟨x, hx⟩ := exists_of_mapM_grow hchildren m hm
    exact respects_of_grow h hx

/-- The tree below a checked root of a builder whose roles respect a change respects it. -/
theorem Builder.MadeOf.exists_plan {b : Builder κ σ} (h : b.MadeOf (Role.Respects g)) {root : Int}
    (hcheck : b.check root = none) : ∃ n, (Tree.freeze b root).plan = .ok n ∧ n.All (Node.Respects g) := by
  obtain ⟨n, hn⟩ := (b.check_eq_none_iff root).1 hcheck
  refine ⟨n, hn, ?_⟩
  unfold plan at hn
  split at hn
  · cases hn
  · cases hn
  · split at hn
    · cases hn
    · exact Node.respects_of_grow h hn

end Behaviour
