import Behaviour.Proofs.Course
import Behaviour.Proofs.Footprint

/-!
# What a visit of a composite does

A visit of a composite *sweeps* its children (`Trail.Sweeps`): from its start place on it visits them one after another,
each in the scene that the one before has left, as long as the rule goes on; the child at which it stops makes its
answer. Which children are visited is said of the trail of a visit, child by child (`Node.exists_sweeps`).

In place, a visit goes as its trail says wherever the slots below its node are the same, whatever is in the others
(`Arena.Goes`). So it is for composites and their children in every arena that a session leads to, and for every visit
in the course of its next tick (`composite_sweeps`).
-/

namespace Behaviour

variable {κ σ : Type}

open Play

/-! ## The visits of children -/

/-- A visit of a composite with these children goes through them from `start` to `stop`. -/
structure Trail.Sweeps (u : Trail κ σ) (rule : Rule) (children : List Nat) (start stop : Nat) : Prop where
  start_le : start ≤ stop
  stop_lt : stop < children.length
  /-- Exactly the children at these places are visited, in order and each once. -/
  visited : (u.inner.map fun v => v.label.handle) = (children.drop start).take (stop + 1 - start)
  /-- The first one is given the scene of the composite, each other one what the one before has left. -/
  given : u.inner.map Trail.given = (u.given :: u.inner.map Trail.left).dropLast
  onward : ∀ v ∈ u.inner.dropLast, v.status = rule.onward
  /-- The visit ends as that of the last child does, which is the first one from which the rule does not go on; if there
  is none, it is the last of all. -/
  last : ∃ v, u.inner.getLast? = some v ∧ v.status = u.status ∧ v.left = u.left ∧
    (v.status = rule.onward → stop + 1 = children.length)

namespace Node

/-- A trail through children begins after those that are left out. -/
theorem trailAll_eq_drop (rule : Rule) : ∀ (skip : Nat) (ns : List (Node κ σ)) (scene : Scene κ σ),
    trailAll rule skip ns scene = trailAll rule 0 (ns.drop skip) scene
  | 0, _, _ => rfl
  | skip + 1, [], _ => by rw [trailAll, List.drop_nil, trailAll]
  | skip + 1, n :: ns, scene => by rw [trailAll, trailAll_eq_drop rule skip ns scene, List.drop_succ_cons]

variable (rule : Rule)

/-- The children that are visited are the first ones. -/
theorem prefix_of_trailAll : ∀ (ns : List (Node κ σ)) (scene : Scene κ σ),
    (trailAll rule 0 ns scene).map Trail.label <+: ns.map label
  | [], _ => by simp [trailAll]
  | n :: ns, scene => by
    by_cases honward : (n.trail scene).status = rule.onward
    · rw [trailAll_of_onward honward, List.map_cons, List.map_cons, label_trail]
      exact (List.prefix_cons_inj _).2 (prefix_of_trailAll ns _)
    · rw [trailAll_of_ne_onward honward, List.map_singleton, List.map_cons, label_trail]
      exact (List.prefix_cons_inj _).2 (List.nil_prefix)

/-- Each child is given what the one before it has left. -/
theorem map_given_trailAll : ∀ (ns : List (Node κ σ)) (scene : Scene κ σ),
    (trailAll rule 0 ns scene).map Trail.given = (scene :: (trailAll rule 0 ns scene).map Trail.left).dropLast
  | [], _ => by simp [trailAll]
  | n :: ns, scene => by
    by_cases honward : (n.trail scene).status = rule.onward
    · rw [trailAll_of_onward honward, List.map_cons, List.map_cons, List.dropLast_cons_cons, given_trail,
        map_given_trailAll ns]
    · rw [trailAll_of_ne_onward honward]
      simp

theorem trailAll_ne_nil {ns : List (Node κ σ)} (h : ns ≠ []) (scene : Scene κ σ) : trailAll rule 0 ns scene ≠ [] := by
  cases ns with
  | nil => exact absurd rfl h
  | cons n ns =>
    by_cases honward : (n.trail scene).status = rule.onward
    · rw [trailAll_of_onward honward]
      exact List.cons_ne_nil _ _
    · rw [trailAll_of_ne_onward honward]
      exact List.cons_ne_nil _ _

/-- Where the rule goes on from all children that are visited, these are all. -/
theorem length_trailAll_of_onward : ∀ (ns : List (Node κ σ)) (scene : Scene κ σ),
    (∀ t ∈ trailAll rule 0 ns scene, t.status = rule.onward) → (trailAll rule 0 ns scene).length = ns.length
  | [], _, _ => by simp [trailAll]
  | n :: ns, scene, h => by
    by_cases honward : (n.trail scene).status = rule.onward
    · rw [trailAll_of_onward honward] at h ⊢
      have hrest := length_trailAll_of_onward ns _ fun t ht => h t (List.mem_cons_of_mem _ ht)
      rw [List.length_cons, List.length_cons, hrest]
    · rw [trailAll_of_ne_onward honward] at h
      exact absurd (h _ (List.mem_singleton_self _)) honward

/-- A scan that ends running stops at the child that it visited last. -/
theorem stop_scan_of_running : ∀ (ns : List (Node κ σ)) (scene : Scene κ σ),
    (scan rule 0 ns scene).status = .running → (scan rule 0 ns scene).stop + 1 = (trailAll rule 0 ns scene).length
  | [], _, h => by
    rw [scan] at h
    exact absurd h (Rule.onward_ne_running _)
  | n :: ns, scene, h => by
    obtain ⟨hstatus, hscene, -⟩ := visit_eq_trail n scene
    by_cases honward : (n.visit scene).status = rule.onward
    · rw [scan_of_onward honward] at h ⊢
      rw [trailAll_of_onward (hstatus.symm.trans honward), ← hscene, List.length_cons]
      exact congrArg (· + 1) (stop_scan_of_running ns _ h)
    · rw [scan_of_ne_onward honward, trailAll_of_ne_onward fun he => honward (hstatus.trans he)]
      rfl

/-- A trail meets nodes below those children only that are visited. -/
theorem handles_trailAll_take : ∀ (ns : List (Node κ σ)) (scene : Scene κ σ),
    ((trailAll rule 0 ns scene).flatMap Trail.handles).Sublist
      ((ns.take (trailAll rule 0 ns scene).length).flatMap handles)
  | [], _ => by simp [trailAll]
  | n :: ns, scene => by
    have hn := handles_trail_sublist n scene
    by_cases honward : (n.trail scene).status = rule.onward
    · rw [trailAll_of_onward honward, List.flatMap_cons, List.length_cons, List.take_succ_cons, List.flatMap_cons]
      exact hn.append (handles_trailAll_take ns _)
    · rw [trailAll_of_ne_onward honward, List.flatMap_singleton, List.length_singleton, List.take_succ_cons,
        List.take_zero, List.flatMap_singleton]
      exact hn

/-- A node is below one of several siblings only. -/
theorem eq_of_mem_handles {ns : List (Node κ σ)} (hnodup : (ns.flatMap handles).Nodup) {i j x : Nat} {n m : Node κ σ}
    (hi : ns[i]? = some n) (hj : ns[j]? = some m) (hn : x ∈ n.handles) (hm : x ∈ m.handles) : i = j := by
  obtain ⟨hi', rfl⟩ := List.getElem?_eq_some_iff.1 hi
  obtain ⟨hj', rfl⟩ := List.getElem?_eq_some_iff.1 hj
  have hdisjoint := List.pairwise_iff_getElem.1 (List.nodup_flatMap.1 hnodup).2
  rcases Nat.lt_trichotomy i j with hlt | heq | hlt
  · exact absurd hm (hdisjoint i j hi' hj' hlt hn)
  · exact heq
  · exact absurd hn (hdisjoint j i hj' hi' hlt hm)

/-- Where a visit of a composite stops that starts at a place. -/
def stopPlace (start : Nat) (u : Trail κ σ) : Nat := start + u.inner.length - 1

section Composite

variable {l : Label} {rule : Rule} {keep : Bool} {cursor : Option Nat} {ns : List (Node κ σ)}

theorem inner_trail_composite (l : Label) (rule : Rule) (keep : Bool) (cursor : Option Nat) (ns : List (Node κ σ))
    (scene : Scene κ σ) : ((composite l rule keep cursor ns).trail scene).inner =
      trailAll rule 0 (ns.drop (startPlace keep cursor)) scene := by
  rw [trail]
  exact trailAll_eq_drop rule _ ns scene

/-- A visit of a composite visits at least one child, and not more than there are from its start place on. -/
theorem length_inner_composite (hstart : startPlace keep cursor < ns.length) (scene : Scene κ σ) :
    0 < ((composite l rule keep cursor ns).trail scene).inner.length ∧
      startPlace keep cursor + ((composite l rule keep cursor ns).trail scene).inner.length ≤ ns.length := by
  have hrest : ns.drop (startPlace keep cursor) ≠ [] := by
    rw [ne_eq, List.drop_eq_nil_iff]
    omega
  have hle := (prefix_of_trailAll rule (ns.drop (startPlace keep cursor)) scene).length_le
  rw [List.length_map, List.length_map, List.length_drop] at hle
  rw [inner_trail_composite]
  exact ⟨List.length_pos_iff.2 (trailAll_ne_nil rule hrest scene), by omega⟩

/-- A visit of a composite sweeps its children. -/
theorem sweeps_trail (hstart : startPlace keep cursor < ns.length) (scene : Scene κ σ) :
    let u := (composite l rule keep cursor ns).trail scene
    u.Sweeps rule (ns.map fun m => m.label.handle) (startPlace keep cursor) (stopPlace (startPlace keep cursor) u) := by
  intro u
  obtain ⟨hpos, hle⟩ : 0 < u.inner.length ∧ startPlace keep cursor + u.inner.length ≤ ns.length :=
    length_inner_composite hstart scene
  have hinner : u.inner = trailAll rule 0 (ns.drop (startPlace keep cursor)) scene := inner_trail_composite ..
  have honward : ∀ v ∈ u.inner.dropLast, v.status = rule.onward := fun v hv => by
    rw [hinner] at hv
    exact onward_of_mem_dropLast rule 0 _ scene hv
  unfold stopPlace
  constructor
  case start_le => omega
  case stop_lt =>
    rw [List.length_map]
    omega
  case visited =>
    have hprefix := (prefix_of_trailAll rule (ns.drop (startPlace keep cursor)) scene).map Label.handle
    rw [← hinner, List.map_map, List.map_map, List.map_drop] at hprefix
    have htake := List.prefix_iff_eq_take.1 hprefix
    rw [List.length_map] at htake
    have hcount : startPlace keep cursor + u.inner.length - 1 + 1 - startPlace keep cursor = u.inner.length := by omega
    rw [hcount]
    exact htake
  case given =>
    rw [hinner]
    exact map_given_trailAll rule _ scene
  case onward => exact honward
  case last =>
    have hne : u.inner ≠ [] := List.length_pos_iff.1 hpos
    have hlast := List.getLast?_eq_some_getLast hne
    have houtcome : (u.status, u.left) = rule.outcome scene u.inner := rfl
    rw [Rule.outcome, hlast] at houtcome
    refine ⟨_, hlast, (congrArg Prod.fst houtcome).symm, (congrArg Prod.snd houtcome).symm, ?_⟩
    intro hstatus
    have hall : ∀ t ∈ u.inner, t.status = rule.onward := by
      intro t ht
      rw [← List.dropLast_append_getLast hne] at ht
      rcases List.mem_append.1 ht with ht | ht
      · exact honward t ht
      · rw [List.mem_singleton.1 ht, hstatus]
    rw [hinner] at hall
    have hlength := length_trailAll_of_onward rule _ scene hall
    rw [← hinner, List.length_drop] at hlength
    rw [List.length_map]
    omega

/-- A composite that is left running stands at the child at which its visit stopped, and otherwise at the first one. -/
theorem cursor_visit_composite (hstart : startPlace keep cursor < ns.length) (scene : Scene κ σ) :
    let u := (composite l rule keep cursor ns).trail scene
    ((composite l rule keep cursor ns).visit scene).node.progress.cursor =
      some (if u.status = .running then stopPlace (startPlace keep cursor) u else 0) := by
  intro u
  have hstatus : (scan rule (startPlace keep cursor) ns scene).status = u.status :=
    (visit_eq_trail (composite l rule keep cursor ns) scene).1
  have hinner : u.inner = trailAll rule 0 (ns.drop (startPlace keep cursor)) scene := inner_trail_composite ..
  change some (if (scan rule (startPlace keep cursor) ns scene).status = .running then
    (scan rule (startPlace keep cursor) ns scene).stop else 0) = _
  rw [hstatus]
  by_cases hrunning : u.status = .running
  · rw [if_pos hrunning, if_pos hrunning]
    rw [scan_eq_drop rule _ ns scene (Nat.le_of_lt hstart)] at hstatus ⊢
    have hstop := stop_scan_of_running rule _ scene (hstatus.trans hrunning)
    rw [← hinner] at hstop
    simp only [stopPlace, Option.some.injEq]
    omega
  · rw [if_neg hrunning, if_neg hrunning]

/-- Nodes below the children that are left out, or come after the one at which the visit stops, are not met. -/
theorem not_met_of_aside (hnodup : (composite l rule keep cursor ns).handles.Nodup) (scene : Scene κ σ) {i : Nat}
    {c : Node κ σ} (hc : ns[i]? = some c) :
    let u := (composite l rule keep cursor ns).trail scene
    (i < startPlace keep cursor ∨ startPlace keep cursor + u.inner.length ≤ i) → ∀ x ∈ c.handles, x ∉ u.handles := by
  intro u haside x hx hmet
  rw [handles_eq] at hnodup
  obtain ⟨hfresh, hnodup⟩ := List.nodup_cons.1 hnodup
  rw [Trail.handles_eq] at hmet
  rcases List.mem_cons.1 hmet with rfl | hmet
  · exact hfresh (List.mem_flatMap.2 ⟨c, List.mem_of_getElem? hc, hx⟩)
  · have hinner : u.inner = trailAll rule 0 (ns.drop (startPlace keep cursor)) scene := inner_trail_composite ..
    rw [hinner] at hmet haside
    obtain ⟨m, hm, hxm⟩ := List.mem_flatMap.1 ((handles_trailAll_take rule _ scene).subset hmet)
    obtain ⟨j, hj, rfl⟩ := List.mem_take_iff_getElem.1 hm
    rw [List.getElem_drop] at hxm
    have heq := eq_of_mem_handles hnodup hc (List.getElem?_eq_getElem _) hx hxm
    omega

end Composite

end Node

/-! ## Held nodes and what is below them -/

section Held

variable {ds : List (Draft κ σ)} {slots : List (Slot κ σ)} (hdrafts : slots.map Slot.draft = ds)
include hdrafts

/-- A tour of what is below a held node and one of more nodes make one of all of them. -/
theorem tour_cons {n : Node κ σ} (h : n.HeldIn slots)
    (hbelow : Tour ds (n.children.map fun m => m.label.handle) (n.children.flatMap Node.handles)) {hs rest : List Nat}
    (hrest : Tour ds hs rest) : Tour ds (n.label.handle :: hs) (n.handles ++ rest) := by
  obtain ⟨d, hd, -, hchildren, -, -⟩ := h.exists_draft hdrafts n.mem_subtree_self
  rw [← hchildren] at hbelow
  rw [Node.handles_eq, List.cons_append]
  exact .cons hd hbelow hrest

mutual
/-- The handles below a held node are a tour of drafts. -/
theorem tour_children : ∀ n : Node κ σ, n.HeldIn slots →
    Tour ds (n.children.map fun m => m.label.handle) (n.children.flatMap Node.handles)
  | .leaf _ _, _ => .nil
  | .composite _ _ _ _ ns, h => tour_all ns fun _ hm => h.child hm
  | .decorator _ _ _ n, h => by
    have hchild := h.child List.mem_cons_self
    exact tour_cons hdrafts hchild (tour_children n hchild) .nil

theorem tour_all : ∀ ns : List (Node κ σ), (∀ n ∈ ns, n.HeldIn slots) →
    Tour ds (ns.map fun m => m.label.handle) (ns.flatMap Node.handles)
  | [], _ => .nil
  | n :: ns, h => by
    have hn := h n List.mem_cons_self
    exact tour_cons hdrafts hn (tour_children n hn) (tour_all ns fun m hm => h m (List.mem_cons_of_mem n hm))
end

/-- What can be reached from a held node is below it. -/
theorem mem_handles_iff_of_heldIn {n : Node κ σ} (h : n.HeldIn slots) (x : Nat) :
    x ∈ n.handles ↔ Reaches ds n.label.handle x := by
  have htour := tour_cons hdrafts h (tour_children hdrafts n h) .nil
  rw [List.append_nil] at htour
  rw [htour.mem_iff]
  simp

end Held

/-! ## Visits in an arena -/

namespace Arena

/-- Two arenas have the same slots under a handle and below. -/
def AlikeBelow (ds : List (Draft κ σ)) (h : Nat) (a a₁ : Arena κ σ) : Prop :=
  ∀ x, Reaches ds h x → a₁.slots[x]? = a.slots[x]?

/-- A visit goes as a trail says wherever the slots of its node and of those below it are as in an arena: it has the
answer and the log of the trail, and it changes slots of nodes only that the trail meets. -/
def Goes (ds : List (Draft κ σ)) (a : Arena κ σ) (u : Trail κ σ) : Prop :=
  ∀ a₁, a.AlikeBelow ds u.label.handle a₁ → ∃ a₂,
    (Scene.visit u.label.handle u.given).Yields a₁ (u.status, u.left) a₂ ∧ a₂.log = a₁.log ++ u.log ∧
      ∀ x, x ∉ u.handles → a₂.slots[x]? = a₁.slots[x]?

/-- The place at which the composite under a handle starts. -/
def startOf (a : Arena κ σ) (h : Nat) (keep : Bool) : Nat := startPlace keep (a.progressOf h).cursor

/-- How the composite of a draft is visited in an arena. -/
structure Swept (ds : List (Draft κ σ)) (a : Arena κ σ) (d : Draft κ σ) (rule : Rule) (keep : Bool) (u : Trail κ σ)
    (stop : Nat) : Prop where
  goes : a.Goes ds u
  /-- The visits of children are what comes of visiting them in the scenes that they are given. -/
  inner : ∀ v ∈ u.inner, a.Goes ds v
  sweeps : u.Sweeps rule d.children (a.startOf u.label.handle keep) stop
  /-- The cursor is left at the child that is still running, or at the first one. -/
  place : ∀ a₁ a₂, a.AlikeBelow ds u.label.handle a₁ →
    (Scene.visit u.label.handle u.given).Yields a₁ (u.status, u.left) a₂ →
    (a₂.progressOf u.label.handle).cursor = some (if u.status = .running then stop else 0)
  /-- Children before the start and after the end are not touched, and nothing below them is. -/
  aside : ∀ i c, d.children[i]? = some c → (i < a.startOf u.label.handle keep ∨ stop < i) →
    ∀ x, Reaches ds c x → x ∉ u.handles

end Arena

section Visits

variable {ds : List (Draft κ σ)} {a : Arena κ σ} (hdrafts : a.slots.map Slot.draft = ds) {m : Node κ σ}
  (h : m.HeldIn a.slots) (hnodup : m.handles.Nodup)
include hdrafts h hnodup

/-- A held node is visited as its trail says, and held with what the visit has left. -/
theorem exists_yields_of_alikeBelow (scene : Scene κ σ) {a₁ : Arena κ σ} (ha : a.AlikeBelow ds m.label.handle a₁) :
    ∃ a₂, (Scene.visit m.label.handle scene).Yields a₁ ((m.trail scene).status, (m.trail scene).left) a₂ ∧
      a₂.log = a₁.log ++ (m.trail scene).log ∧ (∀ x, x ∉ (m.trail scene).handles → a₂.slots[x]? = a₁.slots[x]?) ∧
      (m.visit scene).node.HeldIn a₂.slots := by
  have h₁ : m.HeldIn a₁.slots := Node.HeldAs.congr h fun x hx => ha x ((mem_handles_iff_of_heldIn hdrafts h x).1 hx)
  obtain ⟨slots, hyield, hheld, hframe⟩ := visitsInPlace m scene a₁ h₁ hnodup
  obtain ⟨hstatus, hscene, hlog⟩ := m.visit_eq_trail scene
  rw [hstatus, hscene, hlog] at hyield
  exact ⟨_, hyield, rfl, fun x hx => h₁.slot_of_not_met hheld hframe hnodup hx, hheld⟩

theorem goes_trail (scene : Scene κ σ) : a.Goes ds (m.trail scene) := by
  intro a₁ ha
  rw [Node.label_trail] at ha
  obtain ⟨a₂, hyield, hlog, hsame, -⟩ := exists_yields_of_alikeBelow hdrafts h hnodup scene ha
  refine ⟨a₂, ?_, hlog, hsame⟩
  rwa [Node.label_trail, Node.given_trail]

/-- All that is visited on the trail of a held node is visited so. -/
theorem goes_of_mem_preorder (scene : Scene κ σ) {u : Trail κ σ} (hu : u ∈ (m.trail scene).preorder) :
    a.Goes ds u := by
  obtain ⟨c, hc, given, rfl⟩ := m.exists_of_mem_preorder scene hu
  exact goes_trail hdrafts (Node.All.of_mem h hc) (Node.nodup_of_mem hnodup hc) given

end Visits

/-- A composite in an arena that mirrors a tree is swept by every visit. -/
theorem Mirrors.swept {ds : List (Draft κ σ)} {a : Arena κ σ} {t : Tree κ σ} {n m : Node κ σ} (h : Mirrors a t n)
    (hdrafts : a.slots.map Slot.draft = ds) (hm : m ∈ n.subtree) {d : Draft κ σ} {rule : Rule} {keep : Bool}
    (hd : ds[m.label.handle]? = some d) (hrole : d.role = .composite rule keep) (scene : Scene κ σ) :
    ∃ stop, a.Swept ds d rule keep (m.trail scene) stop ∧
      (m.visit scene).node.progress.cursor = some (if (m.trail scene).status = .running then stop else 0) := by
  have hheld : m.HeldIn a.slots := Node.All.of_mem h.held hm
  have hnodup := Node.nodup_of_mem h.nodup hm
  obtain ⟨s, -, hshow⟩ := hheld.self
  obtain ⟨hchildren, hplays⟩ := h.held.plays_of_draft hdrafts hm hd
  rw [hrole] at hplays
  obtain ⟨l, cursor, ns, rfl, -⟩ := hplays.exists_composite
  have hstart : startPlace keep cursor < ns.length := view_shows.startPlace_lt hshow
  have hstartOf : a.startOf l.handle keep = startPlace keep cursor :=
    congrArg (fun p : Progress => startPlace keep p.cursor) (h.held.progressOf_eq hm)
  let u := (Node.composite l rule keep cursor ns).trail scene
  have hcursor : ((Node.composite l rule keep cursor ns).visit scene).node.progress.cursor =
      some (if u.status = .running then Node.stopPlace (startPlace keep cursor) u else 0) :=
    Node.cursor_visit_composite hstart scene
  refine ⟨Node.stopPlace (startPlace keep cursor) u, ?_, hcursor⟩
  constructor
  case goes => exact goes_trail hdrafts hheld hnodup scene
  case inner =>
    intro v hv
    refine goes_of_mem_preorder hdrafts hheld hnodup scene ?_
    rw [Trail.preorder_eq]
    refine List.mem_cons_of_mem _ (List.mem_flatMap.2 ⟨v, hv, ?_⟩)
    rw [Trail.preorder_eq]
    exact List.mem_cons_self
  case sweeps =>
    rw [hchildren, Node.label_trail, Node.label, hstartOf]
    exact Node.sweeps_trail hstart scene
  case place =>
    intro a₁ a₂ ha hyield
    rw [Node.label_trail] at ha
    rw [Node.label_trail, Node.given_trail] at hyield
    obtain ⟨a₃, hyield', -, -, hheld'⟩ := exists_yields_of_alikeBelow hdrafts hheld hnodup scene ha
    obtain ⟨-, rfl⟩ := hyield.unique hyield'
    rw [Node.label_trail, ← Node.label_visit (.composite l rule keep cursor ns) scene,
      hheld'.progressOf_eq (Node.mem_subtree_self _)]
    exact hcursor
  case aside =>
    intro i c hc haside x hx
    rw [hchildren, Node.children, List.getElem?_map] at hc
    obtain ⟨child, hchild, rfl⟩ := Option.map_eq_some_iff.1 hc
    have hx' : x ∈ child.handles :=
      (mem_handles_iff_of_heldIn hdrafts (hheld.child (List.mem_of_getElem? hchild)) x).2 hx
    obtain ⟨hpos, -⟩ : 0 < u.inner.length ∧ _ := Node.length_inner_composite hstart scene
    rw [Node.label_trail, Node.label, hstartOf, Node.stopPlace] at haside
    have haside' : i < startPlace keep cursor ∨ startPlace keep cursor + u.inner.length ≤ i := by omega
    exact Node.not_met_of_aside hnodup scene hchild haside' x hx'

/-! ## Every session -/

/-- Below a root, after these requests, in place and on the tree: a visit of a composite that can be reached sweeps its
children, whatever scene it is given; and so does every visit of it in the course of the next tick, which leaves the
cursor where this visit does. -/
def Builder.Sweeps (b : Builder κ σ) (root : Int) (requests : List (Request κ σ)) : Prop :=
  ∃ (replies : List (Reply κ σ)) (a : Arena κ σ) (t : Tree κ σ) (n : Node κ σ),
    (Arena.serve false requests).Yields (Arena.freeze b root) replies a ∧
    (Tree.freeze b root).serve requests = .ok (replies, t) ∧ t.plan = .ok n ∧
    ∀ h d rule keep, Reaches b.drafts root.toNat h → b.drafts[h]? = some d → d.role = .composite rule keep →
      (∀ scene : Scene κ σ, ∃ u stop, u.label.handle = h ∧ u.given = scene ∧ a.Swept b.drafts d rule keep u stop) ∧
      ∀ scene : Scene κ σ, ∃ (turn : Turn κ σ) (a' : Arena κ σ), t.tick scene = .ok turn ∧
        (Arena.tick scene).Yields a (turn.status, turn.scene) a' ∧ turn.log = (n.trail scene).log ∧
        ∀ u ∈ (n.trail scene).preorder, u.label.handle = h → ∃ stop, a.Swept b.drafts d rule keep u stop ∧
          (a'.progressOf h).cursor = some (if u.status = .running then stop else 0)

/-- Below every checked root of every builder, whatever was asked before. -/
theorem composite_sweeps (capacity : Nat) (cs : List (Call κ σ)) (root : Int) (requests : List (Request κ σ))
    (hcheck : (Builder.built capacity cs).check root = none) : (Builder.built capacity cs).Sweeps root requests := by
  have hf := Builder.forest_built capacity cs
  obtain ⟨n₀, hfresh⟩ := Mirrors.freeze hf hcheck
  obtain ⟨a, t, hserve, hyields, h, hsame, -⟩ := hfresh.serve requests
  have hdrafts := hsame.trans (Arena.map_draft_freeze _ root)
  obtain ⟨n, hhandles, h⟩ : ∃ n, n.handles = n₀.handles ∧ Mirrors a t n := by
    refine ⟨_, ?_, h⟩
    rw [← Node.handles_reset, Node.reset_serve, Node.handles_reset]
  refine ⟨_, a, t, n, hyields, hserve, h.plan, ?_⟩
  intro x d rule keep hreach hd hrole
  have hx : x ∈ n.handles := by
    rw [hhandles]
    exact (mem_handles_iff_reaches hf hfresh.plan x).2 hreach
  obtain ⟨m, hm, rfl⟩ := List.mem_map.1 hx
  constructor
  · intro scene
    obtain ⟨stop, hswept, -⟩ := h.swept hdrafts hm hd hrole scene
    exact ⟨m.trail scene, stop, congrArg Label.handle (m.label_trail scene), m.given_trail scene, hswept⟩
  · intro scene
    obtain ⟨turn, a', hturn, hyield, -, -, h'⟩ := h.tick scene
    have hlog : turn.log = (n.trail scene).log := by
      rw [Tree.tick_of_plan h.plan] at hturn
      cases hturn
      exact (n.visit_eq_trail scene).2.2
    refine ⟨turn, a', hturn, hyield, hlog, ?_⟩
    intro u hu hhandle
    obtain ⟨m', hm', given, rfl⟩ := n.exists_of_mem_preorder scene hu
    rw [Node.label_trail] at hhandle
    rw [← hhandle] at hd ⊢
    obtain ⟨stop, hswept, hcursor⟩ := h.swept hdrafts hm' hd hrole given
    refine ⟨stop, hswept, ?_⟩
    rw [← Node.label_visit m' given, h'.held.progressOf_eq (Node.mem_subtree_visit h.nodup hm' hu)]
    exact hcursor

/-- The sentry goes on past a result that is held back, and is interrupted while waiting. -/
theorem composite_sweeps_sentry : (Builder.built 9 sentry).check 0 = none ∧
    (Builder.built 9 sentry).Sweeps 0 [.tick ⟨7, 0⟩, .list, .tick ⟨7, 0⟩] :=
  ⟨rfl, composite_sweeps 9 sentry 0 _ rfl⟩

end Behaviour
