import Behaviour.Proofs.Renewal
import Behaviour.Proofs.Account
import Behaviour.Proofs.Resumption

/-!
# Where cursors stand

The *course* of a run are the trails of the ticks since the last reset (`Node.course`). The cursor of each composite
agrees with the last visit of the composite on it (`Coherent`): it stands at the child that was visited last if the
composite was left running, and otherwise at the first child, however many ticks ago the visit was. One visit
establishes this for the nodes that it meets (`agrees_visit`) and leaves the others alone, hence a run keeps it
(`agrees_course`), as it keeps whatever visits keep of a node and its visits so far (`Recounts.course`).

Where decorators have neither memory nor hooks, the cursors therefore show who keeps a tree running: after a tick that
ends running, the way along them leads to the leaf that acted last (`leadsOn_of_bare`).
-/

namespace Behaviour

variable {κ σ : Type}

open Play

/-! ## What was visited since a reset -/

/-- The trails of the ticks since the last reset, after those of `past`, and the node that a run leaves. -/
def Node.course : List (Trail κ σ) → Node κ σ → List (Command κ σ) → List (Trail κ σ) × Node κ σ
  | past, n, [] => (past, n)
  | past, n, .tick scene :: cs => Node.course (past ++ [n.trail scene]) (n.visit scene).node cs
  | _, n, .reset :: cs => Node.course [] n.reset cs

/-- The visits of the node with a handle on several trails, in order. -/
def visitsOf (ts : List (Trail κ σ)) (h : Nat) : List (Trail κ σ) :=
  (ts.flatMap Trail.preorder).filter fun u => u.label.handle == h

/-- The last one of them. -/
def lastVisit? (ts : List (Trail κ σ)) (h : Nat) : Option (Trail κ σ) := (visitsOf ts h).getLast?

/-- How the place of a composite among its children agrees with its last visit since a reset, if there was one. -/
structure Coherent (last : Option (Trail κ σ)) (children : List Nat) (place : Nat) : Prop where
  unvisited : last = none → place = 0
  settled : ∀ u, last = some u → u.status ≠ .running → place = 0
  /-- The child at the place is the last one that was visited, and it is running as well. -/
  running : ∀ u, last = some u → u.status = .running →
    ∃ v, u.inner.getLast? = some v ∧ v.status = .running ∧ children[place]? = some v.label.handle

/-- A trail that does not meet a node adds no visit of it. -/
theorem visitsOf_of_not_met {ts : List (Trail κ σ)} {t : Trail κ σ} {h : Nat}
    (hnot : ∀ u ∈ t.preorder, u.label.handle ≠ h) : visitsOf (ts ++ [t]) h = visitsOf ts h := by
  have hnone : (t.preorder.filter fun u => u.label.handle == h) = [] := by
    rw [List.filter_eq_nil_iff]
    intro u hu
    simpa using hnot u hu
  rw [visitsOf, List.flatMap_append, List.filter_append, List.flatMap_singleton, hnone, List.append_nil, visitsOf]

/-- A trail that meets no node twice adds one visit of each node that it meets. -/
theorem visitsOf_of_met (ts : List (Trail κ σ)) {t u : Trail κ σ} (hnodup : t.handles.Nodup) (hu : u ∈ t.preorder) :
    visitsOf (ts ++ [t]) u.label.handle = visitsOf ts u.label.handle ++ [u] := by
  have hone : (t.preorder.filter fun v => v.label.handle == u.label.handle) = [u] := by
    have hall : ∀ v ∈ t.preorder.filter fun v => v.label.handle == u.label.handle, v = u := by
      intro v hv
      obtain ⟨hv, hsame⟩ := List.mem_filter.1 hv
      exact List.inj_on_of_nodup_map hnodup hv hu (by simpa using hsame)
    have hcount : (t.preorder.filter fun v => v.label.handle == u.label.handle).length = 1 := by
      rw [← List.countP_eq_length_filter]
      have := List.count_eq_one_of_mem hnodup (List.mem_map_of_mem hu)
      rwa [Trail.handles, List.count, List.countP_map] at this
    rw [List.eq_replicate_of_mem hall, hcount]
    rfl
  rw [visitsOf, List.flatMap_append, List.filter_append, List.flatMap_singleton, hone, visitsOf]

namespace Node

/-! ## What is true of a node and its visits -/

/-- A relation between the visits of a node since a reset and the node as it has become holds of all nodes of a
subtree, the visits being found on several trails. -/
def Recounts (R : List (Trail κ σ) → Node κ σ → Prop) (ts : List (Trail κ σ)) (n : Node κ σ) : Prop :=
  n.All fun m => R (visitsOf ts m.label.handle) m

section Recounts

variable {R : List (Trail κ σ) → Node κ σ → Prop}

/-- What is true of nodes without visits and progress. -/
theorem recounts_reset (hreset : ∀ m : Node κ σ, R [] m.reset) (n : Node κ σ) : n.reset.Recounts R [] := by
  intro x hx
  rw [subtree_reset] at hx
  obtain ⟨m, -, rfl⟩ := List.mem_map.1 hx
  exact hreset m

variable (hvisit : ∀ (us : List (Trail κ σ)) (m : Node κ σ) (scene : Scene κ σ), R us m →
  R (us ++ [m.trail scene]) (m.visit scene).node)
include hvisit

/-- What each visit keeps of the visited node, a visit keeps of all nodes: it adds one visit for each node that it
meets, and leaves the others alone. -/
theorem Recounts.visit {n : Node κ σ} {ts : List (Trail κ σ)} (h : n.Recounts R ts) (hnodup : n.handles.Nodup)
    (scene : Scene κ σ) : (n.visit scene).node.Recounts R (ts ++ [n.trail scene]) := by
  intro x hx
  rcases kept_of_mem_subtree_visit scene hnodup hx with ⟨hnot, hx⟩ | ⟨m, hm, scene', hmet, rfl⟩
  · rw [visitsOf_of_not_met hnot]
    exact h x hx
  · have hvisits := visitsOf_of_met ts (hnodup.sublist (n.handles_trail_sublist scene)) hmet
    rw [label_trail] at hvisits
    rw [label_visit, hvisits]
    exact hvisit _ m scene' (h m hm)

/-- So does a run. -/
theorem Recounts.course (hreset : ∀ m : Node κ σ, R [] m.reset) : ∀ (cs : List (Command κ σ))
    {past : List (Trail κ σ)} {n : Node κ σ}, n.Recounts R past → n.handles.Nodup →
    (n.course past cs).2.Recounts R (n.course past cs).1
  | [], _, _, h, _ => h
  | .tick scene :: cs, past, n, h, hnodup => by
    have hnodup' : (n.visit scene).node.handles.Nodup := by rwa [handles_visit]
    exact Recounts.course hreset cs (h.visit hvisit hnodup scene) hnodup'
  | .reset :: cs, past, n, _, hnodup => by
    have hnodup' : n.reset.handles.Nodup := by rwa [handles_reset]
    exact Recounts.course hreset cs (recounts_reset hreset n) hnodup'

end Recounts

/-! ## One visit -/

/-- A scan that ends running has stopped at a child that it visited last and that is running. -/
theorem exists_visit_of_running (rule : Rule) : ∀ (skip : Nat) (ns : List (Node κ σ)) (scene : Scene κ σ),
    (scan rule skip ns scene).status = .running → ∃ m ∈ ns, ∃ (scene' : Scene κ σ) (before : List (Event κ σ)),
      (scan rule skip ns scene).children[(scan rule skip ns scene).stop]? = some (m.visit scene').node ∧
      (m.visit scene').status = .running ∧ (trailAll rule skip ns scene).getLast? = some (m.trail scene') ∧
      (scan rule skip ns scene).log = before ++ (m.visit scene').log
  | _, [], _, h => by
    rw [scan] at h
    exact absurd h rule.onward_ne_running
  | skip + 1, n :: ns, scene, h => by
    rw [scan] at h
    obtain ⟨m, hm, scene', before, hchild, hstatus, hlast, hlog⟩ := exists_visit_of_running rule skip ns scene h
    refine ⟨m, List.mem_cons_of_mem _ hm, scene', before, ?_, hstatus, ?_, ?_⟩
    · rw [scan]
      exact hchild
    · rw [trailAll]
      exact hlast
    · rw [scan]
      exact hlog
  | 0, n :: ns, scene, h => by
    obtain ⟨hstatus, hscene, -⟩ := visit_eq_trail n scene
    by_cases honward : (n.visit scene).status = rule.onward
    · rw [scan_of_onward honward] at h ⊢
      obtain ⟨m, hm, scene', before, hchild, hrunning, hlast, hlog⟩ := exists_visit_of_running rule 0 ns _ h
      refine ⟨m, List.mem_cons_of_mem _ hm, scene', (n.visit scene).log ++ before, hchild, hrunning, ?_, ?_⟩
      · rw [trailAll_of_onward (hstatus.symm.trans honward), ← hscene, List.getLast?_cons, hlast]
        rfl
      · rw [hlog, List.append_assoc]
    · rw [scan_of_ne_onward honward] at h ⊢
      refine ⟨n, List.mem_cons_self, scene, [], rfl, h, ?_, rfl⟩
      rw [trailAll_of_ne_onward fun he => honward (hstatus.trans he)]
      rfl

/-- The cursor of a node agrees with the last of its visits. -/
def Agrees (us : List (Trail κ σ)) (m : Node κ σ) : Prop :=
  m.kind.isComposite = true →
    Coherent us.getLast? (m.children.map fun c => c.label.handle) (m.progress.cursor.getD 0)

/-- A visit leaves the cursor of the visited node in agreement with this visit. -/
theorem agrees_visit (us : List (Trail κ σ)) (m : Node κ σ) (scene : Scene κ σ) :
    (m.visit scene).node.Agrees (us ++ [m.trail scene]) := by
  intro hkind
  rw [kind_visit] at hkind
  rw [List.getLast?_concat]
  cases m with
  | leaf => cases hkind
  | decorator => cases hkind
  | composite label rule keep cursor ns =>
    have hstatus := (scan_eq_trailAll rule (startPlace keep cursor) ns scene).1
    constructor
    case unvisited => exact nofun
    case settled =>
      intro u hu hne
      cases hu
      show (if (scan rule (startPlace keep cursor) ns scene).status = .running then _ else 0) = 0
      rw [if_neg]
      rw [hstatus]
      exact hne
    case running =>
      intro u hu hrunning
      cases hu
      have hscan := hstatus.trans hrunning
      obtain ⟨c, -, scene', -, hchild, hc, htrail, -⟩ := exists_visit_of_running rule _ ns scene hscan
      refine ⟨c.trail scene', htrail, (visit_eq_trail c scene').1.symm.trans hc, ?_⟩
      simp only [visit, Visit.finish, children, progress, Option.getD_some, if_pos hscan, List.getElem?_map, hchild,
        Option.map_some, label_visit, label_trail]

/-- Without progress and visits, the cursor stands at the first child. -/
theorem agrees_reset (m : Node κ σ) : m.reset.Agrees [] := by
  intro _
  rw [progress_reset]
  constructor
  case unvisited => exact fun _ => rfl
  case settled => exact nofun
  case running => exact nofun

/-! ## Runs -/

/-- A run keeps the agreement of all cursors with what was visited last. -/
theorem agrees_course (cs : List (Command κ σ)) {past : List (Trail κ σ)} {n : Node κ σ} (hnodup : n.handles.Nodup)
    (h : n.Recounts Agrees past) : (course past n cs).2.Recounts Agrees (course past n cs).1 :=
  Recounts.course (fun us m scene _ => agrees_visit us m scene) agrees_reset cs h hnodup

theorem reset_course : ∀ (cs : List (Command κ σ)) (past : List (Trail κ σ)) (n : Node κ σ),
    (course past n cs).2.reset = n.reset
  | [], _, _ => rfl
  | .tick scene :: cs, past, n => by
    rw [course, reset_course cs, reset_visit]
  | .reset :: cs, past, n => by
    rw [course, reset_course cs, reset_reset]

theorem handles_course (cs : List (Command κ σ)) (past : List (Trail κ σ)) (n : Node κ σ) :
    (course past n cs).2.handles = n.handles := by
  rw [← handles_reset, reset_course, handles_reset]

end Node

/-- The trails of all ticks of a run. -/
def Node.trails : Node κ σ → List (Command κ σ) → List (Trail κ σ)
  | _, [] => []
  | n, .tick scene :: cs => n.trail scene :: Node.trails (n.visit scene).node cs
  | n, .reset :: cs => Node.trails n.reset cs

/-- The course of a run are the last ones of its trails. -/
theorem Node.course_suffix_trails : ∀ (cs : List (Command κ σ)) (past : List (Trail κ σ)) (n : Node κ σ),
    (n.course past cs).1 <:+ past ++ n.trails cs
  | [], past, n => by
    rw [course, trails, List.append_nil]
  | .tick scene :: cs, past, n => by
    have h := course_suffix_trails cs (past ++ [n.trail scene]) (n.visit scene).node
    rwa [List.append_assoc] at h
  | .reset :: cs, past, n => (course_suffix_trails cs [] n.reset).trans (List.suffix_append past _)

/-- A trail tells how a turn has gone. -/
structure Trail.Tells (u : Trail κ σ) (turn : Turn κ σ) : Prop where
  status : turn.status = u.status
  scene : turn.scene = u.left
  log : turn.log = u.log

/-- The turns of a run go as its trails tell. -/
theorem Tree.play_trails : ∀ (cs : List (Command κ σ)) (past : List (Trail κ σ)) {t : Tree κ σ} {n : Node κ σ},
    t.plan = .ok n → ∃ (turns : List (Turn κ σ)) (t' : Tree κ σ), t.play cs = .ok (turns, t') ∧
      t'.plan = .ok (n.course past cs).2 ∧ List.Forall₂ Trail.Tells (n.trails cs) turns
  | [], past, t, n, hplan => ⟨[], t, rfl, hplan, .nil⟩
  | .tick scene :: cs, past, t, n, hplan => by
    let turn : Turn κ σ := ⟨(n.visit scene).status,
      { t with plan := .ok (n.visit scene).node, lastStatus := (n.visit scene).status, ticks := t.ticks + 1 },
      (n.visit scene).scene, (n.visit scene).log⟩
    have hturn : t.tick scene = .ok turn := tick_of_plan hplan scene
    obtain ⟨turns, t', hplay, hplan', htells⟩ := play_trails cs (past ++ [n.trail scene]) (t := turn.tree) rfl
    obtain ⟨hstatus, hscene, hlog⟩ := n.visit_eq_trail scene
    refine ⟨turn :: turns, t', ?_, hplan', .cons ⟨hstatus, hscene, hlog⟩ htells⟩
    simp only [Tree.play, hturn, bind, Except.bind, hplay]
    rfl
  | .reset :: cs, past, t, n, hplan => by
    have hplan' : t.reset.plan = .ok n.reset := by simp only [Tree.reset, hplan, Except.map]
    exact play_trails cs [] hplan'

theorem map_log_of_tells {us : List (Trail κ σ)} {turns : List (Turn κ σ)} (h : List.Forall₂ Trail.Tells us turns) :
    turns.map Turn.log = us.map Trail.log := by
  induction h with
  | nil => rfl
  | cons htells _ ih => rw [List.map_cons, List.map_cons, htells.log, ih]

/-- The logs of the course of a run are those of its last turns. -/
theorem Tree.play_course (cs : List (Command κ σ)) (past : List (Trail κ σ)) {t : Tree κ σ} {n : Node κ σ}
    (hplan : t.plan = .ok n) : ∃ (turns : List (Turn κ σ)) (t' : Tree κ σ), t.play cs = .ok (turns, t') ∧
      t'.plan = .ok (n.course past cs).2 ∧
      (n.course past cs).1.map Trail.log <:+ past.map Trail.log ++ turns.map Turn.log := by
  obtain ⟨turns, t', hplay, hplan', htells⟩ := Tree.play_trails cs past hplan
  refine ⟨turns, t', hplay, hplan', ?_⟩
  rw [map_log_of_tells htells, ← List.map_append]
  exact (n.course_suffix_trails cs past).map _

/-- The scenes of the ticks since the last reset, after those of `past`. -/
def scenesSince : List (Scene κ σ) → List (Command κ σ) → List (Scene κ σ)
  | past, [] => past
  | past, .tick scene :: cs => scenesSince (past ++ [scene]) cs
  | _, .reset :: cs => scenesSince [] cs

/-- A course has one trail for each tick since the last reset, of a visit in the scene of this tick. -/
theorem Node.map_given_course : ∀ (cs : List (Command κ σ)) (past : List (Trail κ σ)) (n : Node κ σ),
    (n.course past cs).1.map Trail.given = scenesSince (past.map Trail.given) cs
  | [], _, _ => rfl
  | .tick scene :: cs, past, n => by
    rw [course, scenesSince, map_given_course cs, List.map_append, List.map_singleton, given_trail]
  | .reset :: cs, past, n => by
    rw [course, scenesSince, map_given_course cs, List.map_nil]

/-- A run below a root, in place and on the tree: the turns that it makes, and what it leaves. Its course is made of
the trails of the turns since the last reset. -/
structure Builder.Runs (b : Builder κ σ) (root : Int) (commands : List (Command κ σ)) (n : Node κ σ)
    (turns : List (Turn κ σ)) (t : Tree κ σ) (a : Arena κ σ) : Prop where
  plan : b.plan root = .ok n
  play : (Tree.freeze b root).play commands = .ok (turns, t)
  yields : (Arena.play commands).Yields (Arena.freeze b root) (turns.map fun u => (u.status, u.scene)) a
  log : a.log = turns.flatMap Turn.log
  progress : ∀ h, a.progressOf h = t.progressOf h
  scenes : (n.course [] commands).1.map Trail.given = scenesSince [] commands
  logs : (n.course [] commands).1.map Trail.log <:+ turns.map Turn.log

/-- Below a checked root every run goes to its end, as its trails tell, and leaves arena and tree at the same point. -/
theorem exists_runs {b : Builder κ σ} {root : Int} (hf : Forest b.drafts) (hcheck : b.check root = none) :
    ∃ n : Node κ σ, Mirrors (Arena.freeze b root) (Tree.freeze b root) n ∧ ∀ commands : List (Command κ σ),
      ∃ (turns : List (Turn κ σ)) (t : Tree κ σ) (a : Arena κ σ), b.Runs root commands n turns t a ∧
        List.Forall₂ Trail.Tells (n.trails commands) turns ∧ Mirrors a t (n.course [] commands).2 ∧
        a.slots.map Slot.draft = b.drafts := by
  obtain ⟨n, hfresh⟩ := Mirrors.freeze hf hcheck
  have hplan : b.plan root = .ok n := hfresh.plan
  refine ⟨n, hfresh, fun commands => ?_⟩
  obtain ⟨turns, t, a, n', hturns, hyields, hlog, hsame, h⟩ := hfresh.play commands
  obtain ⟨turns', t', hturns', hplan', htells⟩ := Tree.play_trails commands [] (t := Tree.freeze b root) hplan
  obtain ⟨rfl, rfl⟩ : turns = turns' ∧ t = t' := by simpa using hturns.symm.trans hturns'
  obtain rfl : n' = (n.course [] commands).2 := by simpa using h.plan.symm.trans hplan'
  have hlogs : (n.course [] commands).1.map Trail.log <:+ turns.map Turn.log := by
    rw [map_log_of_tells htells]
    exact (n.course_suffix_trails commands []).map _
  exact ⟨turns, t, a, ⟨hplan, hturns, hyields, hlog, h.progressOf, n.map_given_course commands [], hlogs⟩, htells, h,
    hsame.trans (Arena.map_draft_freeze b root)⟩

/-- Whatever visits keep of a node and its visits so far, every run keeps it, and it is true of every node that can be
reached and of its visits since the last reset. -/
theorem exists_runs_of_check {R : List (Trail κ σ) → Node κ σ → Prop}
    (hvisit : ∀ us m scene, R us m → R (us ++ [m.trail scene]) (m.visit scene).node)
    (hreset : ∀ m : Node κ σ, R [] m.reset) {b : Builder κ σ} {root : Int} (hf : Forest b.drafts)
    (hcheck : b.check root = none) (commands : List (Command κ σ)) :
    ∃ (n : Node κ σ) (turns : List (Turn κ σ)) (t : Tree κ σ) (a : Arena κ σ), b.Runs root commands n turns t a ∧
      ∀ h d, Reaches b.drafts root.toNat h → b.drafts[h]? = some d → ∃ m, m.label.handle = h ∧ m.Plays d.role ∧
        (d.children = m.children.map fun c => c.label.handle) ∧ a.progressOf h = m.progress ∧
        R (visitsOf (n.course [] commands).1 h) m := by
  obtain ⟨n, hfresh, hruns⟩ := exists_runs hf hcheck
  obtain ⟨turns, t, a, hrun, -, h, hdrafts⟩ := hruns commands
  have hplan : b.plan root = .ok n := hrun.plan
  -- The tree is frozen without progress, as after a reset.
  have hrecounts : (n.course [] commands).2.Recounts R (n.course [] commands).1 := by
    refine Node.Recounts.course hvisit hreset commands ?_ hfresh.nodup
    rw [← reset_plan hf hplan]
    exact Node.recounts_reset hreset n
  refine ⟨n, turns, t, a, hrun, ?_⟩
  intro x d hreach hd
  have hx : x ∈ (n.course [] commands).2.handles := by
    rw [Node.handles_course]
    exact (mem_handles_iff_reaches hf hplan x).2 hreach
  obtain ⟨m, hm, rfl⟩ := List.mem_map.1 hx
  obtain ⟨hchildren, hplays⟩ := h.held.plays_of_draft hdrafts hm hd
  exact ⟨m, rfl, hplays, hchildren, h.held.progressOf_eq hm, hrecounts m hm⟩

/-! ## The way along the cursors -/

/-- The way from a slot along the cursors of composites and the children of decorators ends at a leaf. -/
inductive Arena.LeadsTo (a : Arena κ σ) : Nat → Nat → Prop
  | leaf {h : Nat} {s : Slot κ σ} {act : Option (Act κ σ)} : a.slots[h]? = some s → s.draft.role = .leaf act →
      LeadsTo a h h
  | composite {h c l : Nat} {s : Slot κ σ} {rule : Rule} {keep : Bool} : a.slots[h]? = some s →
      s.draft.role = .composite rule keep → s.draft.children[s.progress.cursor.getD 0]? = some c → LeadsTo a c l →
      LeadsTo a h l
  | decorator {h c l : Nat} {s : Slot κ σ} {wrap : Option (Decorator κ σ)} : a.slots[h]? = some s →
      s.draft.role = .decorator wrap → s.draft.children = [c] → LeadsTo a c l → LeadsTo a h l

/-- If the node is a decorator, it has neither memory nor hooks. -/
def Node.Bare (n : Node κ σ) : Prop := n.kind = .decorator → n.Plain

/-- What was done in a visit last, apart from the ends of visits. -/
def lastDeed? (log : List (Event κ σ)) : Option (Event κ σ) := (log.filter fun e => !e.isEnding).getLast?

theorem lastDeed?_concat {log : List (Event κ σ)} {e : Event κ σ} (he : e.isEnding = true) :
    lastDeed? (log ++ [e]) = lastDeed? log := by
  simp [lastDeed?, he]

theorem lastDeed?_append {log log' : List (Event κ σ)} {e : Event κ σ} (h : lastDeed? log' = some e) :
    lastDeed? (log ++ log') = some e := by
  rw [lastDeed?] at h ⊢
  rw [List.filter_append, List.getLast?_append, h]
  rfl

/-- If a visit leaves the node running, then in an arena that holds what it has left the way along the cursors leads to
the leaf that acted last, and this leaf is running. -/
def Node.LeadsOn (n : Node κ σ) : Prop := ∀ (scene : Scene κ σ) (a : Arena κ σ), (n.visit scene).node.HeldIn a.slots →
  (n.visit scene).status = .running →
    ∃ l : Label, a.LeadsTo n.label.handle l.handle ∧ lastDeed? (n.visit scene).log = some (.acted l .running)

namespace Node

theorem leadsOn_leaf (label : Label) (act : Act κ σ) : (leaf label act).LeadsOn := by
  intro scene a hheld hrunning
  obtain ⟨s, hs, hshow⟩ := hheld.self
  have hrole : s.draft.role = .leaf (some act) := hshow.role
  have hact : (act scene).1 = .running := hrunning
  refine ⟨label, .leaf hs hrole, ?_⟩
  simp [visit, Visit.finish, lastDeed?, Event.isEnding, hact]

theorem leadsOn_composite {label : Label} {rule : Rule} {keep : Bool} {cursor : Option Nat} {ns : List (Node κ σ)}
    (h : ∀ m ∈ ns, m.LeadsOn) : (composite label rule keep cursor ns).LeadsOn := by
  intro scene a hheld hrunning
  obtain ⟨s, hs, hshow⟩ := hheld.self
  have hscan : (scan rule (startPlace keep cursor) ns scene).status = .running := hrunning
  -- The scan has stopped at a child that is running, and nothing was done after its visit.
  obtain ⟨m, hm, scene', before, hchild, hstatus, -, hlog⟩ := exists_visit_of_running rule _ ns scene hscan
  obtain ⟨l, hleads, hdeed⟩ := h m hm scene' a (hheld.child (List.mem_of_getElem? hchild)) hstatus
  have hplace : s.progress.cursor = some (scan rule (startPlace keep cursor) ns scene).stop := by
    have hcursor := congrArg Progress.cursor hshow.progress
    simpa only [visit, Visit.finish, progress, if_pos hscan] using hcursor
  have hnext : s.draft.children[s.progress.cursor.getD 0]? = some m.label.handle := by
    rw [hshow.children, hplace, List.getElem?_map, ← label_visit m scene']
    exact congrArg (Option.map _) hchild
  have hlast : lastDeed? (scan rule (startPlace keep cursor) ns scene).log = some (.acted l .running) := by
    rw [hlog]
    exact lastDeed?_append hdeed
  exact ⟨l, .composite hs hshow.role.1 hnext hleads, (lastDeed?_concat rfl).trans hlast⟩

theorem leadsOn_decorator {label : Label} {wrap : Decorator κ σ} {memory : Memory} {n : Node κ σ}
    (hplain : (decorator label wrap memory n).Plain) (h : n.LeadsOn) : (decorator label wrap memory n).LeadsOn := by
  intro scene a hheld hrunning
  rw [visit_plain_decorator hplain] at hheld hrunning ⊢
  obtain ⟨s, hs, hshow⟩ := hheld.self
  have hrole : s.draft.role = .decorator (some wrap) := hshow.role
  have hchildren : s.draft.children = [n.label.handle] := by
    have := hshow.children
    simpa [Visit.finish, children] using this
  obtain ⟨l, hleads, hdeed⟩ :=
    h scene a (hheld.child List.mem_cons_self) (Decorator.verdict_eq_running_iff.1 hrunning)
  exact ⟨l, .decorator hs hrole hchildren hleads, (lastDeed?_concat rfl).trans hdeed⟩

mutual
/-- Where decorators have neither memory nor hooks, the cursors show who keeps a node running. -/
theorem leadsOn_of_bare : ∀ n : Node κ σ, n.All Bare → n.LeadsOn
  | leaf label act, _ => leadsOn_leaf label act
  | composite _ _ _ _ ns, h => leadsOn_composite (leadsOn_of_bare_all ns fun _ hm => h.child hm)
  | decorator _ _ _ n, h => leadsOn_decorator (h.self rfl) (leadsOn_of_bare n (h.child List.mem_cons_self))

theorem leadsOn_of_bare_all : ∀ ns : List (Node κ σ), (∀ n ∈ ns, n.All Bare) → ∀ n ∈ ns, n.LeadsOn
  | [], _ => List.forall_mem_nil _
  | n :: ns, h => List.forall_mem_cons.2 ⟨leadsOn_of_bare n (h n List.mem_cons_self),
      leadsOn_of_bare_all ns fun m hm => h m (List.mem_cons_of_mem _ hm)⟩
end

end Node

/-! ## Every run -/

/-- No decorator below a root has memory or hooks. -/
def Builder.Bare (b : Builder κ σ) (root : Int) : Prop := ∀ (h : Nat) (d : Draft κ σ) (wrap : Decorator κ σ),
  Reaches b.drafts root.toNat h → b.drafts[h]? = some d → d.role = .decorator (some wrap) →
    wrap = .negate ∨ wrap = .custom none none

/-- In an arena that mirrors a node whose cursors agree with their last visits, so do the cursors in the slots. -/
theorem Mirrors.coherent {ds : List (Draft κ σ)} {a : Arena κ σ} {t : Tree κ σ} {n : Node κ σ} (h : Mirrors a t n)
    (hdrafts : a.slots.map Slot.draft = ds) {ts : List (Trail κ σ)} (hagrees : n.Recounts Node.Agrees ts) {x : Nat}
    (hx : x ∈ n.handles) {d : Draft κ σ} {rule : Rule} {keep : Bool} (hd : ds[x]? = some d)
    (hrole : d.role = .composite rule keep) :
    Coherent (lastVisit? ts x) d.children ((a.progressOf x).cursor.getD 0) := by
  obtain ⟨m, hm, rfl⟩ := List.mem_map.1 hx
  obtain ⟨hchildren, hplays⟩ := h.held.plays_of_draft hdrafts hm hd
  rw [h.held.progressOf_eq hm, hchildren]
  refine hagrees m hm ?_
  rw [hrole] at hplays
  obtain ⟨l, cursor, ns, rfl, -⟩ := hplays.exists_composite
  exact Kind.isComposite_kind rule

/-- If no decorator below a root has memory or hooks, this is true of the nodes that an arena mirrors. -/
theorem Builder.Bare.all {b : Builder κ σ} {root : Int} (hbare : b.Bare root) {a : Arena κ σ} {t : Tree κ σ}
    {n : Node κ σ} (h : Mirrors a t n) (hdrafts : a.slots.map Slot.draft = b.drafts)
    (hreach : ∀ x ∈ n.handles, Reaches b.drafts root.toNat x) : n.All Node.Bare := by
  intro m hm hkind
  obtain ⟨d, hd, -, -, -, hplays⟩ := h.held.exists_draft hdrafts hm
  cases m with
  | leaf => cases hkind
  | composite _ rule => cases rule <;> cases hkind
  | decorator label wrap memory c =>
    rcases hbare _ d wrap (hreach _ (List.mem_map_of_mem hm)) hd hplays with rfl | rfl
    · exact trivial
    · exact trivial

/-- Below a root, after these commands, in place and on the tree: the cursor of every composite that can be reached
agrees with its last visit since the last reset. Where decorators have neither memory nor hooks, after one more tick
that ends running the way along the cursors leads from the root to the leaf that acted last, and it is running. -/
def Builder.Coheres (b : Builder κ σ) (root : Int) (commands : List (Command κ σ)) : Prop :=
  ∃ (n : Node κ σ) (turns : List (Turn κ σ)) (t : Tree κ σ) (a : Arena κ σ), b.plan root = .ok n ∧
    (Tree.freeze b root).play commands = .ok (turns, t) ∧
    (Arena.play commands).Yields (Arena.freeze b root) (turns.map fun u => (u.status, u.scene)) a ∧
    (∀ h, a.progressOf h = t.progressOf h) ∧
    (n.course [] commands).1.map Trail.log <:+ turns.map Turn.log ∧
    (∀ h d rule keep, Reaches b.drafts root.toNat h → b.drafts[h]? = some d → d.role = .composite rule keep →
      Coherent (lastVisit? (n.course [] commands).1 h) d.children ((a.progressOf h).cursor.getD 0)) ∧
    ∀ scene : Scene κ σ, ∃ (turn : Turn κ σ) (a' : Arena κ σ), t.tick scene = .ok turn ∧
      (Arena.tick scene).Yields a (turn.status, turn.scene) a' ∧ a'.log = a.log ++ turn.log ∧
      (b.Bare root → turn.status = .running →
        ∃ l : Label, a'.LeadsTo root.toNat l.handle ∧ lastDeed? turn.log = some (.acted l .running))

/-- Below every checked root of every builder, in every run. -/
theorem cursors_cohere (capacity : Nat) (cs : List (Call κ σ)) (root : Int) (commands : List (Command κ σ))
    (hcheck : (Builder.built capacity cs).check root = none) : (Builder.built capacity cs).Coheres root commands := by
  have hf := Builder.forest_built capacity cs
  obtain ⟨n, hfresh⟩ := Mirrors.freeze hf hcheck
  have hplan : (Builder.built capacity cs).plan root = .ok n := hfresh.plan
  obtain ⟨turns, t, a, n', hturns, hyields, -, hdrafts, h⟩ := hfresh.play commands
  have hslots := hdrafts.trans (Arena.map_draft_freeze _ root)
  obtain ⟨turns', t', hturns', hplan', hlogs⟩ := Tree.play_course commands [] (t := Tree.freeze _ root) hplan
  obtain ⟨rfl, rfl⟩ : turns = turns' ∧ t = t' := by simpa using hturns.symm.trans hturns'
  obtain rfl : n' = (n.course [] commands).2 := by simpa using h.plan.symm.trans hplan'
  have hhandles : ∀ x, x ∈ (n.course [] commands).2.handles ↔
      Reaches (Builder.built capacity cs).drafts root.toNat x := by
    rw [Node.handles_course]
    exact mem_handles_iff_reaches hf hplan
  -- The tree is frozen without progress, hence in agreement with no visits at all.
  have hagrees : (n.course [] commands).2.Recounts Node.Agrees (n.course [] commands).1 := by
    refine Node.agrees_course commands hfresh.nodup ?_
    rw [← reset_plan hf hplan]
    exact Node.recounts_reset Node.agrees_reset n
  refine ⟨n, turns, t, a, hplan, hturns, hyields, h.progressOf, hlogs, ?_, ?_⟩
  · intro x d rule keep hreach hd hrole
    exact h.coherent hslots hagrees ((hhandles x).2 hreach) hd hrole
  · intro scene
    obtain ⟨turn, a', hturn, hyield, hlog, -, h'⟩ := h.tick scene
    refine ⟨turn, a', hturn, hyield, hlog, ?_⟩
    intro hbare hrunning
    rw [Tree.tick_of_plan h.plan] at hturn
    cases hturn
    have hall := hbare.all h hslots fun x hx => (hhandles x).1 hx
    obtain ⟨l, hleads, hdeed⟩ := Node.leadsOn_of_bare _ hall scene a' h'.held hrunning
    have hroot : (n.course [] commands).2.label.handle = root.toNat := by
      rw [Node.label_eq_of_reset_eq (Node.reset_course commands [] n)]
      exact hfresh.root.symm
    rw [hroot] at hleads
    exact ⟨l, hleads, hdeed⟩

/-- The errand is interrupted after its walk has begun; nothing in it has memory or hooks. -/
theorem cursors_cohere_errand : (Builder.built 8 errand).check 0 = none ∧
    (Builder.built 8 errand).Coheres 0 [.tick ⟨(), 0⟩, .reset, .tick ⟨(), 0⟩] :=
  ⟨rfl, cursors_cohere 8 errand 0 _ rfl⟩

end Behaviour
