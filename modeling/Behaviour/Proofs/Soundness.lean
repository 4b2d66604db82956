import Behaviour.Proofs.InPlace
import Behaviour.Proofs.Unfolding

/-!
# Play on a checked tree is never stopped

The tree that grows below a checked root is held by its drafts (`heldIn_of_grow`), and no handle occurs in it twice
(`nodup_handles_of_grow`). From then on an arena and a tree that are played by the same commands *mirror* each other:
each tick and each reset keeps it (`Mirrors.tick`, `Mirrors.reset`), so every run does (`Mirrors.play`). Play in
place therefore ends, is never stopped, and uses no handle or cursor out of range (`checked_play`); where the check
tells a defect, a tick changes nothing.
-/

namespace Behaviour

variable {κ σ : Type}

open Play

/-! ## Growth -/

section Growth

variable {ds : List (Draft κ σ)}

theorem mapM_cons_eq_ok {α : Type} {f : Nat → Except Defect α} {h : Nat} {hs : List Nat} {ns : List α} :
    (h :: hs).mapM f = .ok ns ↔ ∃ n rest, f h = .ok n ∧ hs.mapM f = .ok rest ∧ ns = n :: rest := by
  rw [List.mapM_cons]
  cases f h with
  | error => simp [bind, Except.bind]
  | ok n =>
    cases hs.mapM f with
    | error => simp [bind, Except.bind]
    | ok rest => simp [bind, Except.bind, pure, Except.pure, eq_comm]

/-- What a draft grows into: a node without progress, of its role, whose children grow from the draft's children. -/
theorem grow_succ_cases {depth h : Nat} {d : Draft κ σ} {n : Node κ σ} (hd : ds[h]? = some d) (hfit : d.Fits)
    (hg : grow ds (depth + 1) h = .ok n) : n.label = ⟨h, d.name⟩ ∧ n.Plays d.role ∧ n.progress = {} ∧
      d.children.mapM (grow ds depth) = .ok n.children := by
  obtain ⟨name, role, parent, children⟩ := d
  cases role with
  | leaf act =>
    obtain rfl : children = [] := List.eq_nil_of_length_eq_zero (Nat.le_zero.1 hfit)
    cases act with
    | none => simp [grow, hd] at hg
    | some act =>
      obtain rfl : Node.leaf ⟨h, name⟩ act = n := by simpa [grow, hd] using hg
      exact ⟨rfl, rfl, rfl, rfl⟩
  | composite rule keep =>
    cases children with
    | nil => simp [grow, hd] at hg
    | cons c cs =>
      simp only [grow, hd] at hg
      cases hns : (c :: cs).mapM (grow ds depth) with
      | error => rw [hns] at hg; cases hg
      | ok ns =>
        rw [hns] at hg
        cases hg
        obtain ⟨_, _, _, _, rfl⟩ := mapM_cons_eq_ok.1 hns
        exact ⟨rfl, ⟨rfl, List.cons_ne_nil _ _⟩, rfl, rfl⟩
  | decorator wrap =>
    rcases children with _ | ⟨c, _ | ⟨c', cs⟩⟩
    · cases wrap <;> simp [grow, hd] at hg
    · cases wrap with
      | none => simp [grow, hd] at hg
      | some wrap =>
        simp only [grow, hd] at hg
        cases hn : grow ds depth c with
        | error => rw [hn] at hg; cases hg
        | ok m =>
          rw [hn] at hg
          cases hg
          exact ⟨rfl, rfl, rfl, mapM_cons_eq_ok.2 ⟨m, [], hn, rfl, rfl⟩⟩
    · simp [Draft.Fits, Role.room] at hfit

theorem grow_cases (hf : Forest ds) : ∀ {depth h : Nat} {n : Node κ σ}, grow ds depth h = .ok n →
    ∃ k d, depth = k + 1 ∧ ds[h]? = some d ∧ n.label = ⟨h, d.name⟩ ∧ n.Plays d.role ∧ n.progress = {} ∧
      d.children.mapM (grow ds k) = .ok n.children
  | 0, _, _, hg => by cases hg
  | k + 1, h, n, hg => by
    cases hd : ds[h]? with
    | none => simp [grow, hd] at hg
    | some d => exact ⟨k, d, rfl, rfl, grow_succ_cases hd (hf.fits hd) hg⟩

theorem map_handle_of_mapM_grow (hf : Forest ds) {depth : Nat} : ∀ {hs : List Nat} {ns : List (Node κ σ)},
    hs.mapM (grow ds depth) = .ok ns → (ns.map fun n => n.label.handle) = hs
  | [], _, hg => by cases hg; rfl
  | h :: hs, _, hg => by
    obtain ⟨n, rest, hn, hrest, rfl⟩ := mapM_cons_eq_ok.1 hg
    obtain ⟨_, d, _, _, hlabel, _⟩ := grow_cases hf hn
    rw [List.map_cons, map_handle_of_mapM_grow hf hrest, hlabel]

theorem exists_of_mapM_grow {depth : Nat} : ∀ {hs : List Nat} {ns : List (Node κ σ)},
    hs.mapM (grow ds depth) = .ok ns → ∀ n ∈ ns, ∃ h, grow ds depth h = .ok n
  | [], _, hg, n, hn => by cases hg; cases hn
  | h :: hs, _, hg, n, hn => by
    obtain ⟨m, rest, hm, hrest, rfl⟩ := mapM_cons_eq_ok.1 hg
    rcases List.mem_cons.1 hn with rfl | hn
    · exact ⟨h, hm⟩
    · exact exists_of_mapM_grow hrest n hn

/-- Drafts that have not been played hold the node that grows from them. -/
theorem heldIn_of_grow (hf : Forest ds) : ∀ (depth : Nat) {h : Nat} {n : Node κ σ}, grow ds depth h = .ok n →
    n.HeldIn (ds.map fun d => { draft := d })
  | 0, _, _, hg => by cases hg
  | depth + 1, h, n, hg => by
    obtain ⟨k, d, hk, hd, hlabel, hplays, hprogress, hchildren⟩ := grow_cases hf hg
    obtain rfl : depth = k := Nat.succ.inj hk
    refine Node.All.of_children ⟨{ draft := d }, ?_, ?_, ?_, ?_, ?_, hf.fits hd, hplays⟩ fun m hm => ?_
    · rw [hlabel, List.getElem?_map, hd]
      rfl
    · rw [hlabel]
    · exact (map_handle_of_mapM_grow hf hchildren).symm
    · rw [hprogress]
      rfl
    · intro c hc
      cases hc
    · obtain ⟨x, hx⟩ := exists_of_mapM_grow hchildren m hm
      exact heldIn_of_grow hf depth hx

/-- The handles of grown nodes are those of the tour that they grow along. -/
theorem handles_of_mapM_grow (hf : Forest ds) {hs o : List Nat} (ho : Tour ds hs o) : ∀ {depth : Nat}
    {ns : List (Node κ σ)}, hs.mapM (grow ds depth) = .ok ns → ns.flatMap Node.handles = o := by
  induction ho with
  | nil => intro _ ns hg; cases hg; rfl
  | @cons h d hs below rest hd _ _ ihb ihr =>
    intro depth ns hg
    obtain ⟨n, rest, hn, hrest, rfl⟩ := mapM_cons_eq_ok.1 hg
    obtain ⟨k, e, rfl, he, hlabel, _, _, hchildren⟩ := grow_cases hf hn
    obtain rfl : d = e := Option.some.inj (hd.symm.trans he)
    rw [List.flatMap_cons, Node.handles_eq, ihb hchildren, ihr hrest, hlabel, List.cons_append]

theorem nodup_handles_of_grow (hf : Forest ds) {depth root : Nat} {r : Draft κ σ} {n : Node κ σ}
    (hr : ds[root]? = some r) (hp : r.parent = none) (hg : grow ds depth root = .ok n) : n.handles.Nodup := by
  obtain ⟨o, ho⟩ := exists_tour hf hr hp
  have hns : [root].mapM (grow ds depth) = .ok [n] := mapM_cons_eq_ok.2 ⟨n, [], hg, rfl, rfl⟩
  have := handles_of_mapM_grow hf ho hns
  rw [List.flatMap_singleton] at this
  rw [this]
  exact ho.nodup (apart_root hf hr hp)

end Growth

/-- What can be reached from a root are the nodes that grow below it. -/
theorem mem_handles_iff_reaches {b : Builder κ σ} {root : Int} {n : Node κ σ} (hf : Forest b.drafts)
    (hplan : b.plan root = .ok n) (h : Nat) : h ∈ n.handles ↔ Reaches b.drafts root.toNat h := by
  obtain ⟨-, r, hr, hp⟩ := Builder.parentless_of_check ((b.check_eq_none_iff root).2 ⟨n, hplan⟩)
  obtain ⟨-, -, -, hgrow⟩ := Builder.grow_of_plan hplan
  obtain ⟨order, ho⟩ := exists_tour hf (Builder.draft?_eq_some hr).2 hp
  have horder : [n].flatMap Node.handles = order :=
    handles_of_mapM_grow hf ho (mapM_cons_eq_ok.2 ⟨n, [], hgrow, rfl, rfl⟩)
  rw [List.flatMap_singleton] at horder
  rw [horder, ho.mem_iff]
  simp

/-- Drafts are what the slots of an arena show of its nodes. -/
theorem Node.HeldIn.exists_draft {ds : List (Draft κ σ)} {slots : List (Slot κ σ)} {n m : Node κ σ}
    (h : n.HeldIn slots) (hdrafts : slots.map Slot.draft = ds) (hm : m ∈ n.subtree) :
    ∃ d, ds[m.label.handle]? = some d ∧ d.name = m.label.name ∧ (d.children = m.children.map fun c => c.label.handle) ∧
      d.Fits ∧ m.Plays d.role := by
  obtain ⟨s, hs, hshow⟩ := h m hm
  refine ⟨s.draft, ?_, hshow.name, hshow.children, hshow.fits, hshow.role⟩
  rw [← hdrafts, List.getElem?_map, hs]
  rfl

/-- What the draft under the handle of a held node tells of it. -/
theorem Node.HeldIn.plays_of_draft {ds : List (Draft κ σ)} {slots : List (Slot κ σ)} {n m : Node κ σ} {d : Draft κ σ}
    (h : n.HeldIn slots) (hdrafts : slots.map Slot.draft = ds) (hm : m ∈ n.subtree)
    (hd : ds[m.label.handle]? = some d) : (d.children = m.children.map fun c => c.label.handle) ∧ m.Plays d.role := by
  obtain ⟨d', hd', -, hchildren, -, hplays⟩ := h.exists_draft hdrafts hm
  obtain rfl : d = d' := Option.some.inj (hd.symm.trans hd')
  exact ⟨hchildren, hplays⟩

/-- The progress of a held node is that of its slot. -/
theorem Node.HeldIn.progressOf_eq {a : Arena κ σ} {n m : Node κ σ} (h : n.HeldIn a.slots) (hm : m ∈ n.subtree) :
    a.progressOf m.label.handle = m.progress := by
  obtain ⟨s, hs, hshow⟩ := h m hm
  rw [Arena.progressOf, hs]
  exact hshow.progress

/-! ## Resets -/

theorem Node.Plays.reset {n : Node κ σ} {r : Role κ σ} (h : n.Plays r) : n.reset.Plays r := by
  cases n with
  | leaf => exact h
  | composite => exact ⟨h.1, by simpa using h.2⟩
  | decorator => exact h

theorem Slot.Shows.reset {s : Slot κ σ} {n : Node κ σ} (h : s.Shows n) : s.reset.Shows n.reset where
  name := by rw [Node.label_reset]; exact h.name
  children := by
    rw [Node.children_reset, List.map_map]
    refine h.children.trans (List.map_congr_left fun m _ => ?_)
    rw [Function.comp, Node.label_reset]
  progress := by rw [Node.progress_reset]; rfl
  placed := fun c hc => by cases hc
  fits := h.fits
  role := h.role.reset

/-- Slots that forget their progress hold a node that forgets its progress. -/
theorem Node.HeldIn.reset {slots : List (Slot κ σ)} {n : Node κ σ} (h : n.HeldIn slots) :
    n.reset.HeldIn (slots.map Slot.reset) := by
  intro x hx
  rw [Node.subtree_reset] at hx
  obtain ⟨m, hm, rfl⟩ := List.mem_map.1 hx
  obtain ⟨s, hs, hshow⟩ := h m hm
  refine ⟨s.reset, ?_, hshow.reset⟩
  rw [Node.label_reset, List.getElem?_map, hs]
  rfl

/-! ## Ticks -/

/-- A tick in place is a visit of the root, where the slots are seen as the nodes below it. -/
theorem yields_tick {V : Slot κ σ → Node κ σ → Prop} (hV : View V) {a : Arena κ σ} {n : Node κ σ}
    (hdefect : a.defect = none) (hpos : 0 ≤ a.root) (hroot : a.root.toNat = n.label.handle)
    (hheld : n.HeldAs V a.slots) (hnodup : n.handles.Nodup) (scene : Scene κ σ) : ∃ slots,
      (Arena.tick scene).Yields a ((n.visit scene).status, (n.visit scene).scene)
        { a with
          slots, lastStatus := (n.visit scene).status, ticks := a.ticks + 1, log := a.log ++ (n.visit scene).log } ∧
      (n.visit scene).node.HeldAs V slots ∧ Frame n.handles a.slots slots := by
  obtain ⟨slots, hyield, hheld', hframe⟩ := visitsAs hV n scene { a with ticks := a.ticks + 1 } hheld hnodup
  refine ⟨slots, ?_, hheld', hframe⟩
  have hsound : ¬ a.defect.isSome = true := by simp [hdefect]
  refine (yields_get a).bind ?_
  rw [if_neg hsound, if_neg (Int.not_lt.2 hpos), hroot]
  refine (yields_modify _ _).bind (hyield.bind ((yields_modify _ _).bind ?_))
  exact yields_pure ((n.visit scene).status, (n.visit scene).scene) _

/-! ## An arena and a tree -/

@[simp] theorem Arena.map_draft_freeze (b : Builder κ σ) (root : Int) :
    (freeze b root).slots.map Slot.draft = b.drafts := by
  rw [freeze, List.map_map]
  exact List.map_id _

/-- An arena and a tree are at the same point of play, with this root. -/
structure Mirrors (a : Arena κ σ) (t : Tree κ σ) (n : Node κ σ) : Prop where
  plan : t.plan = .ok n
  defect : a.defect = none
  root_nonneg : 0 ≤ a.root
  root : a.root.toNat = n.label.handle
  held : n.HeldIn a.slots
  nodup : n.handles.Nodup
  /-- What is not below the root is not played. -/
  aside : ∀ h ∉ n.handles, ∀ s, a.slots[h]? = some s → s.progress = {}
  ticks : a.ticks = t.ticks
  lastStatus : a.lastStatus = t.lastStatus

namespace Mirrors

variable {a : Arena κ σ} {t : Tree κ σ} {n : Node κ σ}

theorem freeze {b : Builder κ σ} {root : Int} (hf : Forest b.drafts) (h : b.check root = none) :
    ∃ n, Mirrors (Arena.freeze b root) (Tree.freeze b root) n := by
  obtain ⟨hb, r, hr, hp⟩ := Builder.parentless_of_check h
  obtain ⟨n, hn⟩ := (b.check_eq_none_iff root).1 h
  obtain ⟨hpos, hr'⟩ := Builder.draft?_eq_some hr
  have hgrow : grow b.drafts b.size root.toNat = .ok n := by simpa [Builder.plan, hb, hr, hp] using hn
  obtain ⟨_, d, _, _, hlabel, _⟩ := grow_cases hf hgrow
  refine ⟨n, hn, h, hpos, ?_, heldIn_of_grow hf _ hgrow, nodup_handles_of_grow hf hr' hp hgrow, ?_, rfl, rfl⟩
  · rw [hlabel]
    rfl
  · intro x _ s hs
    obtain ⟨d, _, rfl⟩ := List.mem_map.1 (List.mem_of_getElem? hs)
    rfl

/-- A tick is a visit of the root, in place and on the tree. -/
theorem tick (h : Mirrors a t n) (scene : Scene κ σ) : ∃ (turn : Turn κ σ) (a' : Arena κ σ),
    t.tick scene = .ok turn ∧ (Arena.tick scene).Yields a (turn.status, turn.scene) a' ∧
    a'.log = a.log ++ turn.log ∧ a'.slots.map Slot.draft = a.slots.map Slot.draft ∧
    Mirrors a' turn.tree (n.visit scene).node := by
  obtain ⟨slots, hyield, hheld, hframe⟩ :=
    yields_tick view_shows h.defect h.root_nonneg h.root h.held h.nodup scene
  let v := n.visit scene
  let turn : Turn κ σ :=
    ⟨v.status, { t with plan := .ok v.node, lastStatus := v.status, ticks := t.ticks + 1 }, v.scene, v.log⟩
  refine ⟨turn, _, Tree.tick_of_plan h.plan scene, hyield, rfl, hframe.1, ?_⟩
  refine ⟨rfl, h.defect, h.root_nonneg, ?_, hheld, ?_, fun x hx s hs => ?_, ?_, rfl⟩
  · rw [Node.label_visit]
    exact h.root
  · rw [Node.handles_visit]
    exact h.nodup
  · rw [Node.handles_visit] at hx
    exact h.aside x hx s ((hframe.2 x hx).symm.trans hs)
  · exact congrArg (· + 1) h.ticks

/-- A reset keeps the mirror. -/
theorem reset (h : Mirrors a t n) : Mirrors a.reset t.reset n.reset where
  plan := by simp only [Tree.reset, h.plan, Except.map]
  defect := h.defect
  root_nonneg := h.root_nonneg
  root := by rw [Node.label_reset]; exact h.root
  held := h.held.reset
  nodup := by rw [Node.handles_reset]; exact h.nodup
  aside := by
    intro x _ s hs
    obtain ⟨s, _, rfl⟩ := List.mem_map.1 (List.mem_of_getElem? hs)
    rfl
  ticks := h.ticks
  lastStatus := rfl

/-- Inspection of either shows the same progress. -/
theorem progressOf (h : Mirrors a t n) (x : Nat) : a.progressOf x = t.progressOf x := by
  simp only [Arena.progressOf, Tree.progressOf, h.plan, Node.progressOf]
  cases hm : n.subtree.find? fun m => m.label.handle == x with
  | some m =>
    obtain ⟨s, hs, hshow⟩ := h.held m (List.mem_of_find?_eq_some hm)
    have hx : m.label.handle = x := by simpa using List.find?_some hm
    rw [← hx, hs]
    exact hshow.progress
  | none =>
    cases hs : a.slots[x]? with
    | none => rfl
    | some s =>
      refine h.aside x (fun hx => ?_) s hs
      obtain ⟨m, hmem, hmx⟩ := List.mem_map.1 hx
      have := List.find?_eq_none.1 hm m hmem
      exact this (by simpa using hmx)

/-- Every cursor stands at a place of the list of children of its slot. -/
theorem placed (h : Mirrors a t n) : ∀ s ∈ a.slots, s.Placed := by
  intro s hs
  obtain ⟨x, hx⟩ := List.mem_iff_getElem?.1 hs
  by_cases hmem : x ∈ n.handles
  · obtain ⟨m, hm, rfl⟩ := List.mem_map.1 hmem
    obtain ⟨s', hs', hshow⟩ := h.held m hm
    obtain rfl : s' = s := Option.some.inj (hs'.symm.trans hx)
    exact hshow.placed
  · intro c hc
    have := congrArg Progress.cursor (h.aside x hmem s hx)
    rw [Slot.progress, hc] at this
    cases this

/-- Every run keeps the mirror, and both tell the same. -/
theorem play : ∀ (cs : List (Command κ σ)) {a : Arena κ σ} {t : Tree κ σ} {n : Node κ σ}, Mirrors a t n →
    ∃ (turns : List (Turn κ σ)) (t' : Tree κ σ) (a' : Arena κ σ) (n' : Node κ σ), t.play cs = .ok (turns, t') ∧
      (Arena.play cs).Yields a (turns.map fun u => (u.status, u.scene)) a' ∧
      a'.log = a.log ++ turns.flatMap Turn.log ∧ a'.slots.map Slot.draft = a.slots.map Slot.draft ∧ Mirrors a' t' n'
  | [], a, t, n, h => ⟨[], t, a, n, rfl, yields_pure _ _, by simp, rfl, h⟩
  | .tick scene :: cs, a, t, n, h => by
    obtain ⟨turn, a₁, hturn, hyield, hlog, hdrafts, h₁⟩ := h.tick scene
    obtain ⟨turns, t', a', n', hturns, hyields, hlogs, hdrafts', h'⟩ := play cs h₁
    refine ⟨turn :: turns, t', a', n', ?_, hyield.bind (hyields.bind (yields_pure _ _)), ?_, hdrafts'.trans hdrafts,
      h'⟩
    · simp only [Tree.play, hturn, hturns, bind, Except.bind, pure, Except.pure]
    · rw [hlogs, hlog, List.flatMap_cons, List.append_assoc]
  | .reset :: cs, a, t, n, h => by
    obtain ⟨turns, t', a', n', hturns, hyields, hlogs, hdrafts, h'⟩ := play cs h.reset
    refine ⟨turns, t', a', n', hturns, (yields_modify _ _).bind hyields, hlogs, hdrafts.trans ?_, h'⟩
    rw [Arena.reset, List.map_map]
    rfl

end Mirrors

/-! ## Runs -/

/-- No slot has more children than it has room for, each of them is a slot, and each cursor stands at one of them. -/
def Arena.InRange (a : Arena κ σ) : Prop :=
  ∀ s ∈ a.slots, s.draft.children.length ≤ maxChildren ∧ (∀ c ∈ s.draft.children, c < a.slots.length) ∧ s.Placed

/-- Commands are played to their end below a root: in place, where nothing stops play and all stays in range, they have
the answers, the log and the progress that they have on the tree. -/
def Builder.PlaysOut (b : Builder κ σ) (root : Int) (commands : List (Command κ σ)) : Prop :=
  ∃ (turns : List (Turn κ σ)) (t : Tree κ σ) (a : Arena κ σ),
    (Tree.freeze b root).play commands = .ok (turns, t) ∧
    (Arena.play commands).Yields (Arena.freeze b root) (turns.map fun u => (u.status, u.scene)) a ∧
    a.log = turns.flatMap Turn.log ∧ a.slots.map Slot.draft = b.drafts ∧ a.InRange ∧
    a.ticks = t.ticks ∧ a.lastStatus = t.lastStatus ∧ ∀ h, a.progressOf h = t.progressOf h

theorem Forest.length_children_le {ds : List (Draft κ σ)} (hf : Forest ds) {d : Draft κ σ} (hd : d ∈ ds) :
    d.children.length ≤ maxChildren := by
  obtain ⟨x, hx⟩ := List.mem_iff_getElem?.1 hd
  refine Nat.le_trans (hf.fits hx) ?_
  cases d.role <;> simp [Role.room, maxChildren]

theorem playsOut_of_check {b : Builder κ σ} {root : Int} (hf : Forest b.drafts) (h : b.check root = none)
    (commands : List (Command κ σ)) : b.PlaysOut root commands := by
  obtain ⟨n, hn⟩ := Mirrors.freeze hf h
  obtain ⟨turns, t, a, n', hturns, hyields, hlog, hdrafts, h'⟩ := hn.play commands
  have hdrafts' := hdrafts.trans (Arena.map_draft_freeze b root)
  refine ⟨turns, t, a, hturns, hyields, hlog, hdrafts', fun s hs => ?_, h'.ticks, h'.lastStatus, h'.progressOf⟩
  have hmem : s.draft ∈ b.drafts := by
    rw [← hdrafts']
    exact List.mem_map_of_mem hs
  obtain ⟨x, hx⟩ := List.mem_iff_getElem?.1 hmem
  refine ⟨hf.length_children_le hmem, fun c hc => ?_, h'.placed s hs⟩
  have hlt := hf.child_lt hx hc
  rwa [← hdrafts', List.length_map] at hlt

@[simp] theorem Arena.reset_freeze (b : Builder κ σ) (root : Int) : (freeze b root).reset = freeze b root := by
  simp only [Arena.reset, freeze, List.map_map]
  rfl

/-- Where there is a defect, a tick is stopped before anything happens; resets do not change that. -/
theorem stops_of_check {b : Builder κ σ} {root : Int} (h : b.check root ≠ none) (scene : Scene κ σ)
    (commands : List (Command κ σ)) : ∀ k : Nat,
      (Arena.play (List.replicate k .reset ++ .tick scene :: commands)).Stops (Arena.freeze b root) .invalidTree
        (Arena.freeze b root)
  | 0 => by
    have hdefect : (Arena.freeze b root).defect.isSome = true := Option.isSome_iff_ne_none.2 h
    have htick : (Arena.tick scene).Stops (Arena.freeze b root) .invalidTree (Arena.freeze b root) := by
      refine (yields_get _).bind_stops ?_
      rw [if_pos hdefect]
      rfl
    exact htick.bind
  | k + 1 => by
    refine (yields_modify _ _).bind_stops ?_
    rw [Arena.reset_freeze]
    exact stops_of_check h scene commands k

theorem play_of_check_ne_none {b : Builder κ σ} {root : Int} (h : b.check root ≠ none) (scene : Scene κ σ)
    (commands : List (Command κ σ)) : ∀ k : Nat,
      (Tree.freeze b root).play (List.replicate k .reset ++ .tick scene :: commands) = .error .invalidTree
  | 0 => by
    have htick := (Tree.tick_eq_error_iff (Tree.freeze b root) scene).2 h
    simp only [List.replicate_zero, List.nil_append, Tree.play, htick, bind, Except.bind]
  | k + 1 => by
    have hreset : (Tree.freeze b root).reset = Tree.freeze b root := by
      cases hp : b.plan root with
      | ok n => exact absurd ((b.check_eq_none_iff root).2 ⟨n, hp⟩) h
      | error d => simp [Tree.reset, Tree.freeze, hp, Except.map]
    simp only [List.replicate_succ, List.cons_append, Tree.play, hreset]
    exact play_of_check_ne_none h scene commands k

/-- Play below any root of any builder. If the check finds nothing wrong, every run of ticks and resets comes to its
end without a snag; if it tells a defect, the first tick is stopped, with the arena as it was. -/
theorem checked_play (capacity : Nat) (cs : List (Call κ σ)) (root : Int) (commands : List (Command κ σ)) :
    let b := Builder.built capacity cs
    (b.check root = none → b.PlaysOut root commands) ∧
    (b.check root ≠ none → ∀ k scene,
      (Arena.play (List.replicate k .reset ++ .tick scene :: commands)).Stops (Arena.freeze b root) .invalidTree
        (Arena.freeze b root) ∧
      (Tree.freeze b root).play (List.replicate k .reset ++ .tick scene :: commands) = .error .invalidTree) :=
  ⟨fun h => playsOut_of_check (Builder.forest_built capacity cs) h commands,
    fun h k scene => ⟨stops_of_check h scene commands k, play_of_check_ne_none h scene commands k⟩⟩

/-- An errand that takes two turns: a walk that needs one more turn, and a knock. Aside, two decorators are bound to
each other. -/
def errand : List (Call Unit Nat) :=
  [.composite .sequence "errand" true,
    .leaf "walk" (some fun s => if s.world = 0 then (.running, { s with world := 1 }) else (.success, s)),
    .leaf "knock" (some fun s => (.success, s)), .attach 0 1, .attach 0 2, .negate "left", .negate "right",
    .decorate 3 4, .decorate 4 3]

theorem checked_play_errand :
    let b := Builder.built 8 errand
    b.check 0 = none ∧ b.PlaysOut 0 [.tick ⟨(), 0⟩, .tick ⟨(), 1⟩, .reset, .tick ⟨(), 0⟩] ∧
      b.check 3 = some .ownedRoot ∧ (Arena.play [.reset, .tick ⟨(), 0⟩]).Stops (Arena.freeze b 3) .invalidTree
        (Arena.freeze b 3) :=
  ⟨rfl, (checked_play 8 errand 0 _).1 rfl, rfl, ((checked_play 8 errand 3 []).2 (by decide) 1 ⟨(), 0⟩).1⟩

end Behaviour
