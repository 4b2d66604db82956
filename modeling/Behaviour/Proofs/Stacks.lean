import Behaviour.Proofs.Delays
import Behaviour.Proofs.Likeness
import Behaviour.Proofs.Wrapping

/-!
# Delays around delays

A delay tells every other answer of its child. Where the child is itself a delay, the answers that it tells are those
that the inner one holds back, and of these there is none but "running". So two or more delays around each other never
come to an end, whatever the node below them answers (`Node.Stalls`), although it is visited in every tick and in the
scene of the tick (`stacked_delays_stall`). Such stacks are what one gets by wrapping the same list of nodes several
times (`stacks_of_rounds`).
-/

namespace Behaviour

variable {κ σ : Type}

open Play

/-! ## One visit -/

/-- A visit that ends running. Below it one node is visited, once, which is given the same scene, calls all that is
called and leaves the scene that is left. -/
structure Trail.StallsOn (t u : Trail κ σ) : Prop where
  status : t.status = .running
  once : visitsOf [t] u.label.handle = [u]
  given : u.given = t.given
  left : u.left = t.left
  calls : callsIn t.log = callsIn u.log

namespace Node

section Delay

variable (l : Label) (memory : Memory) (n : Node κ σ) (scene : Scene κ σ)

/-- A delay tells what it holds back, or else that it is running. -/
theorem status_trail_delay :
    ((decorator l .delay memory n).trail scene).status = if memory.hasPending then memory.pending else .running := by
  cases hp : memory.hasPending <;> simp [trail, Decorator.enter, Decorator.restore, Decorator.leave, hp]

/-- A delay calls nothing itself. -/
theorem callsIn_trail_delay :
    callsIn ((decorator l .delay memory n).trail scene).log = callsIn (n.trail scene).log := by
  have hclosed : ((decorator l .delay memory n).trail scene).closed = [] := by
    cases hp : memory.hasPending <;> simp [trail, Decorator.enter, Decorator.restore, Decorator.leave, hp]
  have hparts := Trail.composedOf_inner (t := (decorator l .delay memory n).trail scene) rfl hclosed
  rw [(passes_trail_delay l memory n scene).inner] at hparts
  exact hparts.trans (List.flatMap_singleton ..)

/-- What a delay holds back after a visit: what its child has answered, or nothing. -/
theorem visit_delay : ∃ memory', ((decorator l .delay memory n).visit scene).node =
      decorator l .delay memory' (n.visit scene).node ∧
    memory'.hasPending = !memory.hasPending ∧
    (memory'.hasPending = true → memory'.pending = (n.trail scene).status) := by
  have hraw := (n.visit_eq_trail scene).1
  cases hp : memory.hasPending with
  | false =>
    refine ⟨{ memory with pending := (n.visit scene).status, hasPending := true }, ?_, rfl, fun _ => hraw⟩
    simp [visit, Visit.finish, Decorator.enter, Decorator.restore, Decorator.leave, hp]
  | true =>
    refine ⟨{ memory with hasPending := false }, ?_, rfl, Bool.noConfusion⟩
    simp [visit, Visit.finish, Decorator.enter, Decorator.restore, Decorator.leave, hp]

end Delay

/-- The first node is a stack of `m` delays around the second one. The two innermost delays are in step, and all but
the innermost one hold back nothing but "running". -/
inductive Stalls : Nat → Node κ σ → Node κ σ → Prop
  | two {l l' : Label} {memory memory' : Memory} {c : Node κ σ} (hstep : memory.hasPending = memory'.hasPending)
      (hpending : memory.hasPending = true → memory.pending = .running) :
      Stalls 2 (decorator l .delay memory (decorator l' .delay memory' c)) c
  | more {l : Label} {memory : Memory} {m : Nat} {n c : Node κ σ}
      (hpending : memory.hasPending = true → memory.pending = .running) (h : Stalls m n c) :
      Stalls (m + 1) (decorator l .delay memory n) c

namespace Stalls

variable {m : Nat} {n c : Node κ σ}

/-- Whatever the innermost node answers, the stack is running. -/
theorem status_trail (h : Stalls m n c) (scene : Scene κ σ) : (n.trail scene).status = .running := by
  have hdelay : ∀ {l : Label} {memory : Memory} {n : Node κ σ},
      (memory.hasPending = true → memory.pending = .running) →
        ((decorator l .delay memory n).trail scene).status = .running := by
    intro l memory n hpending
    rw [status_trail_delay]
    split
    · exact hpending ‹_›
    · rfl
  cases h with
  | two _ hpending => exact hdelay hpending
  | more hpending _ => exact hdelay hpending

theorem visit (h : Stalls m n c) (scene : Scene κ σ) : Stalls m (n.visit scene).node (c.visit scene).node := by
  induction h with
  | @two l l' memory memory' c hstep hpending =>
    obtain ⟨inner, hinner, hbelow, -⟩ := visit_delay l' memory' c scene
    obtain ⟨outer, houter, habove, hheld⟩ := visit_delay l memory (decorator l' .delay memory' c) scene
    rw [houter, hinner]
    refine .two (by rw [habove, hbelow, hstep]) fun hp => ?_
    -- The outer delay holds something back now, so neither held anything back before.
    have hnone : memory'.hasPending = false := by
      rw [habove, hstep] at hp
      simpa using hp
    rw [hheld hp, status_trail_delay, hnone]
    rfl
  | @more l memory m n c hpending hbelow ih =>
    obtain ⟨outer, houter, -, hheld⟩ := visit_delay l memory n scene
    rw [houter]
    exact .more (fun hp => (hheld hp).trans (hbelow.status_trail scene)) ih

theorem reset (h : Stalls m n c) : Stalls m n.reset c.reset := by
  induction h with
  | two => exact .two rfl nofun
  | more _ _ ih => exact .more nofun ih

/-- The innermost node is visited in the scene that the stack is given, and leaves what the stack leaves. -/
theorem passes_trail (h : Stalls m n c) (scene : Scene κ σ) : c.trail scene ∈ (n.trail scene).preorder ∧
    (c.trail scene).left = (n.trail scene).left ∧ callsIn (n.trail scene).log = callsIn (c.trail scene).log := by
  have hdelay : ∀ (l : Label) (memory : Memory) {n : Node κ σ} {u : Trail κ σ}, u ∈ (n.trail scene).preorder →
      u ∈ ((decorator l .delay memory n).trail scene).preorder := by
    intro l memory n u hu
    rw [Trail.preorder_eq, (passes_trail_delay l memory n scene).inner, List.flatMap_singleton]
    exact List.mem_cons_of_mem _ hu
  induction h with
  | @two l l' memory memory' c =>
    have hself : c.trail scene ∈ (c.trail scene).preorder := by
      rw [Trail.preorder_eq]
      exact List.mem_cons_self
    refine ⟨hdelay l memory (hdelay l' memory' hself), ?_, ?_⟩
    · rw [(passes_trail_delay l' memory' c scene).left, (passes_trail_delay l memory _ scene).left]
    · rw [callsIn_trail_delay, callsIn_trail_delay]
  | @more l memory m n c _ _ ih =>
    obtain ⟨hmet, hleft, hcalls⟩ := ih
    refine ⟨hdelay l memory hmet, ?_, ?_⟩
    · rw [hleft, (passes_trail_delay l memory n scene).left]
    · rw [callsIn_trail_delay, hcalls]

theorem trail (h : Stalls m n c) (hnodup : n.handles.Nodup) (scene : Scene κ σ) :
    (n.trail scene).StallsOn (c.trail scene) := by
  obtain ⟨hmet, hleft, hcalls⟩ := h.passes_trail scene
  refine ⟨h.status_trail scene, ?_, by rw [given_trail, given_trail], hleft, hcalls⟩
  exact visitsOf_of_met [] (hnodup.sublist (n.handles_trail_sublist scene)) hmet

end Stalls

theorem bisimulation_stalls (m : Nat) :
    Bisimulation (fun n c : Node κ σ => Stalls m n c ∧ n.handles.Nodup) Trail.StallsOn where
  trail _ _ scene h := h.1.trail h.2 scene
  visit _ _ scene h := ⟨h.1.visit scene, by rw [handles_visit]; exact h.2⟩
  reset _ _ h := ⟨h.1.reset, by rw [handles_reset]; exact h.2⟩

end Node

/-! ## Every run -/

/-- At the top of a tree there are `m` delays, one below the other. -/
def Builder.Stacks (b : Builder κ σ) (root : Int) (m : Nat) : Prop :=
  ∀ k < m, b.HasRole root (List.replicate k 0) (.decorator (some .delay))

/-- Below a root, in this run, in place and on the tree: every tick ends running, while in every tick the node that is
`m` levels down is visited once and goes on as if it were played alone. -/
def Builder.Stalls (b : Builder κ σ) (root : Int) (m : Nat) (commands : List (Command κ σ)) : Prop :=
  ∃ (n c : Node κ σ) (turns : List (Turn κ σ)) (t : Tree κ σ) (a : Arena κ σ), b.Runs root commands n turns t a ∧
    b.Grows root (List.replicate m 0) c ∧ (∀ turn ∈ turns, turn.status = .running) ∧
    List.Forall₂ Trail.Tells (n.trails commands) turns ∧
    List.Forall₂ Trail.StallsOn (n.trails commands) (c.trails commands)

/-- A fresh delay holds nothing back. -/
theorem Builder.Grows.eq_delay {b : Builder κ σ} {root : Int} {way : List Nat} {n : Node κ σ} (hf : Forest b.drafts)
    (h : b.Grows root way n) (hrole : b.HasRole root way (.decorator (some .delay))) :
    ∃ l c, n = .decorator l .delay {} c ∧ b.Grows root (way ++ [0]) c := by
  obtain ⟨l, memory, c, rfl⟩ := h.eq_decorator hf hrole
  obtain ⟨-, -, -, hfresh⟩ := h.plays hf
  have hmemory : memory = {} := congrArg Progress.memory hfresh
  rw [hmemory] at h ⊢
  exact ⟨l, c, rfl, h.child hf rfl⟩

/-- Planned stacks stall. -/
theorem Builder.Grows.exists_stalls {b : Builder κ σ} {root : Int} (hf : Forest b.drafts) : ∀ (m : Nat) {way : List Nat}
    {n : Node κ σ}, b.Grows root way n →
    (∀ k < m + 2, b.HasRole root (way ++ List.replicate k 0) (.decorator (some .delay))) →
    ∃ c, b.Grows root (way ++ List.replicate (m + 2) 0) c ∧ n.Stalls (m + 2) c
  | 0, way, n, hn, hroles => by
    obtain ⟨l, n', rfl, hn'⟩ := hn.eq_delay hf (by simpa using hroles 0 (by omega))
    obtain ⟨l', c, rfl, hc⟩ := hn'.eq_delay hf (hroles 1 (by omega))
    rw [List.append_assoc] at hc
    exact ⟨c, hc, .two rfl nofun⟩
  | m + 1, way, n, hn, hroles => by
    obtain ⟨l, n', rfl, hn'⟩ := hn.eq_delay hf (by simpa using hroles 0 (by omega))
    have hnext : ∀ k, way ++ [0] ++ List.replicate k 0 = way ++ List.replicate (k + 1) 0 := fun k => by
      rw [List.append_assoc]
      rfl
    obtain ⟨c, hc, hstalls⟩ := exists_stalls hf m hn' fun k hk => by
      rw [hnext]
      exact hroles (k + 1) (by omega)
    rw [hnext] at hc
    exact ⟨c, hc, .more nofun hstalls⟩

/-- Two or more delays around each other never come to an end. -/
theorem Builder.stalls_of_stacks {b : Builder κ σ} {root : Int} {m : Nat} (hf : Forest b.drafts)
    (hcheck : b.check root = none) (hm : 2 ≤ m) (hstacks : b.Stacks root m) (commands : List (Command κ σ)) :
    b.Stalls root m commands := by
  obtain ⟨k, rfl⟩ : ∃ k, m = k + 2 := ⟨m - 2, by omega⟩
  obtain ⟨n, hfresh, hruns⟩ := exists_runs hf hcheck
  obtain ⟨turns, t, a, hrun, htells, -⟩ := hruns commands
  have hroot : b.Grows root [] n := Grows.root_of_plan hrun.plan
  obtain ⟨c, hc, hstalls⟩ := hroot.exists_stalls hf k hstacks
  have htrails := (Node.bisimulation_stalls (k + 2)).trails commands ⟨hstalls, hfresh.nodup⟩
  refine ⟨n, c, turns, t, a, hrun, hc, fun turn hturn => ?_, htells, htrails⟩
  obtain ⟨u, hu, hsame⟩ := exists_of_mem_forall₂ (R := flip Trail.Tells) htells.flip hturn
  obtain ⟨v, -, hv⟩ := exists_of_mem_forall₂ htrails hu
  rw [hsame.status, hv.status]

/-- Wherever two or more delays are around each other at the top of a tree, no tick of any run comes to an end, whatever
is below them and whatever it answers. It is nevertheless visited in every tick. -/
theorem stacked_delays_stall (capacity : Nat) (cs : List (Call κ σ)) (root : Int) (m : Nat)
    (commands : List (Command κ σ)) (hm : 2 ≤ m) (hcheck : (Builder.built capacity cs).check root = none)
    (hstacks : (Builder.built capacity cs).Stacks root m) : (Builder.built capacity cs).Stalls root m commands :=
  Builder.stalls_of_stacks (Builder.forest_built capacity cs) hcheck hm hstacks commands

/-- A swimmer who comes ashore at once, wrapped three times with what has become of him. -/
def swimmer : List (Call Nat Nat) :=
  [.leaf "swim" (some fun s => (if s.world = s.context then .success else .failure, { s with world := s.world + 1 })),
    .delayFirst 1 [0], .delayFirst 1 [1], .delayFirst 1 [2]]

/-- He is never told to have come ashore. -/
theorem stacked_delays_stall_swimmer : 2 ≤ 3 ∧ (Builder.built 4 swimmer).check 3 = none ∧
    (Builder.built 4 swimmer).Stacks 3 3 ∧
    (Builder.built 4 swimmer).Stalls 3 3 [.tick ⟨0, 0⟩, .tick ⟨0, 0⟩, .reset, .tick ⟨1, 0⟩, .tick ⟨0, 0⟩] := by
  have hstacks : (Builder.built 4 swimmer).Stacks 3 3 := by
    intro k hk
    match k with
    | 0 => exact ⟨_, rfl⟩
    | 1 => exact ⟨_, rfl⟩
    | 2 => exact ⟨_, rfl⟩
  exact ⟨by decide, rfl, hstacks, stacked_delays_stall 4 swimmer 3 3 _ (by decide) rfl hstacks⟩

/-! ## Wrapping several times -/

namespace Builder

variable {b b' : Builder κ σ}

section Wraps

variable {hs ws : List Int}

/-- Wrapping changes no more of the nodes that there are than their parents. -/
theorem Wraps.exists_draft (h : Wraps b hs ws b') {x : Nat} {d : Draft κ σ} (hd : b.drafts[x]? = some d) :
    ∃ parent, b'.drafts[x]? = some { d with parent } := by
  have hlt : (x : Int) < b.size := Int.ofNat_lt.2 (List.getElem?_eq_some_iff.1 hd).1
  rw [← draft?_natCast] at hd
  simp only [← draft?_natCast]
  by_cases hx : (x : Int) ∈ hs
  · obtain ⟨i, hi⟩ := List.mem_iff_getElem?.1 hx
    exact ⟨_, h.node hi hd⟩
  · exact ⟨_, (h.other hlt hx).trans hd⟩

/-- Below a node that there was, the ways lead where they led. -/
theorem Wraps.descend_eq (h : Wraps b hs ws b') (hf : Forest b.drafts) : ∀ (way : List Nat) {x : Nat} {d : Draft κ σ},
    b.drafts[x]? = some d → descend b'.drafts x way = descend b.drafts x way
  | [], _, _, _ => rfl
  | i :: way, x, d, hd => by
    obtain ⟨parent, hd'⟩ := h.exists_draft hd
    simp only [descend, hd, hd', Option.bind_some]
    cases hc : d.children[i]? with
    | none => rfl
    | some c =>
      have hlt := hf.child_lt hd (List.mem_of_getElem? hc)
      exact h.descend_eq hf way (List.getElem?_eq_getElem hlt)

/-- So the unfolding below it is the same. -/
theorem Wraps.unfolding_eq (h : Wraps b hs ws b') (hf : Forest b.drafts) {x : Nat} {d : Draft κ σ}
    (hd : b.drafts[x]? = some d) (way : List Nat) : b'.unfolding x way = b.unfolding x way := by
  unfold unfolding
  rw [Int.toNat_natCast, h.descend_eq hf way hd]
  cases hw : descend b.drafts x way with
  | none => rfl
  | some g =>
    have hg := List.getElem?_eq_getElem (descend_lt hf hd hw)
    obtain ⟨parent, hg'⟩ := h.exists_draft hg
    rw [Option.bind_some, Option.bind_some, hg, hg']
    rfl

/-- At a delay the unfolding has the delay, and below it what it had at the node. -/
theorem Wraps.unfolding_delay (h : Wraps b hs ws b') (hf : Forest b.drafts) {i : Nat} {x : Int} {d : Draft κ σ}
    (hx : hs[i]? = some x) (hd : b.draft? x = some d) :
    b'.unfolding (b.size + i) [] = some (delayName, .decorator (some .delay)) ∧
      ∀ way, b'.unfolding (b.size + i) (0 :: way) = b.unfolding x way := by
  have hdelay := (draft?_eq_some (h.delay hx)).2
  obtain ⟨hx0, hd⟩ := draft?_eq_some hd
  refine ⟨Behaviour.unfolding_eq rfl hdelay, fun way => ?_⟩
  have hstep : descend b'.drafts (b.size + i : Int).toNat [0] = some x.toNat :=
    descend_cons.2 ⟨_, _, hdelay, rfl, rfl⟩
  calc b'.unfolding (b.size + i) ([0] ++ way) = b'.unfolding x.toNat way := unfolding_append hstep way
    _ = b.unfolding x.toNat way := h.unfolding_eq hf hd way
    _ = b.unfolding x way := by rw [Int.toNat_of_nonneg hx0]

theorem Wraps.nodup (h : Wraps b hs ws b') : ws.Nodup := by
  rw [List.nodup_iff_getElem?_ne_getElem?]
  intro i j hij hj
  rw [h.length] at hj
  rw [h.handle (by omega), h.handle hj]
  simp only [ne_eq, Option.some.injEq]
  omega

end Wraps

/-- Nothing is wrong below a parentless root exactly if nothing is wrong with any node that can be reached. -/
theorem check_eq_none_iff_reaches {root : Int} {r : Draft κ σ} (hf : Forest b.drafts) (hdefect : b.defect = none)
    (hr : b.draft? root = some r) (hp : r.parent = none) :
    b.check root = none ↔ ∀ g, Reaches b.drafts root.toNat g → defectAt b.drafts g = none := by
  obtain ⟨order, ho⟩ := exists_tour hf (draft?_eq_some hr).2 hp
  rw [check_eq_findSome? hf hdefect hr hp ho, List.findSome?_eq_none_iff]
  refine forall_congr' fun g => ?_
  simp only [ho.mem_iff, List.mem_singleton, exists_eq_left]

/-- If nothing was wrong below a node, nothing is wrong below the delay around it. -/
theorem Wraps.check {hs ws : List Int} (h : Wraps b hs ws b') (hf : Forest b.drafts) (hf' : Forest b'.drafts) {i : Nat}
    {x : Int} (hx : hs[i]? = some x) (hcheck : b.check x = none) : b'.check (b.size + i : Int) = none := by
  obtain ⟨hdefect, d, hd, hp⟩ := parentless_of_check hcheck
  have hd' := (draft?_eq_some hd).2
  have hdelay := h.delay hx
  have hsound := (check_eq_none_iff_reaches hf hdefect hd hp).1 hcheck
  rw [check_eq_none_iff_reaches hf' (h.defect.trans hdefect) hdelay rfl]
  rintro g ⟨way, hg⟩
  have hroot := (draft?_eq_some hdelay).2
  cases way with
  | nil =>
    cases hg
    rw [defectAt, hroot]
    rfl
  | cons k way =>
    obtain ⟨e, c, he, hc, hg⟩ := descend_cons.1 hg
    rw [hroot] at he
    cases he
    obtain ⟨-, rfl⟩ : k = 0 ∧ x.toNat = c := by simpa [delayOf, List.getElem?_singleton] using hc
    rw [h.descend_eq hf way hd'] at hg
    -- Below the node there are the same nodes as before, and nothing is wrong with them.
    have hg₀ := List.getElem?_eq_getElem (descend_lt hf hd' hg)
    obtain ⟨parent, hg₁⟩ := h.exists_draft hg₀
    have hnone := hsound g ⟨way, hg⟩
    rw [defectAt, hg₀] at hnone
    rw [defectAt, hg₁]
    exact hnone

/-- Wraps the same nodes several times, each time with what has become of them. -/
def delayRounds (b : Builder κ σ) : Nat → List Int → List Int × Builder κ σ
  | 0, hs => (hs, b)
  | m + 1, hs =>
    let (ws, b) := b.delayFirst hs.length hs
    b.delayRounds m ws

/-- Where there is room for all of them, the delays form stacks around the nodes. -/
theorem stacks_of_rounds : ∀ (m : Nat) {b : Builder κ σ} {hs : List Int}, Forest b.drafts →
    b.size + m * hs.length ≤ b.capacity → (∀ h ∈ hs, b.check h = none) → hs.Nodup →
    Forest (b.delayRounds m hs).2.drafts ∧ ∀ (i : Nat) (h : Int), hs[i]? = some h →
      ∃ w, (b.delayRounds m hs).1[i]? = some w ∧ (b.delayRounds m hs).2.check w = none ∧
        (b.delayRounds m hs).2.Stacks w m ∧
        ∀ way, (b.delayRounds m hs).2.unfolding w (List.replicate m 0 ++ way) = b.unfolding h way
  | 0, b, hs, hf, _, hcheck, _ =>
    ⟨hf, fun i h hi => ⟨h, hi, hcheck h (List.mem_of_getElem? hi), nofun, fun _ => rfl⟩⟩
  | m + 1, b, hs, hf, hroom, hcheck, hdistinct => by
    have hround : b.delayRounds (m + 1) hs = (b.delayEach hs).2.delayRounds m (b.delayEach hs).1 := by
      simp [delayRounds, delayFirst]
    rw [Nat.succ_mul] at hroom
    have hfree : ∀ h ∈ hs, b.Holds h fun d => d.parent = none := fun h hh => (parentless_of_check (hcheck h hh)).2
    have hwraps := wraps_of_room hs b (by omega) hfree hdistinct
    have hf₁ : Forest (b.delayEach hs).2.drafts := delayEach_induction (P := fun b => Forest b.drafts)
      (fun _ name role => forest_add name role) (fun _ p c => forest_decorate p c) hs b hf
    generalize (b.delayEach hs).1 = ws at *
    generalize (b.delayEach hs).2 = b₁ at *
    have hroom₁ : b₁.size + m * ws.length ≤ b₁.capacity := by
      rw [hwraps.size, hwraps.length, hwraps.capacity]
      omega
    have hcheck₁ : ∀ w ∈ ws, b₁.check w = none := by
      intro w hw
      obtain ⟨i, hi⟩ := List.mem_iff_getElem?.1 hw
      have hlt : i < hs.length := hwraps.length ▸ (List.getElem?_eq_some_iff.1 hi).1
      have hx := List.getElem?_eq_getElem hlt
      rw [hwraps.handle hlt] at hi
      cases hi
      exact hwraps.check hf hf₁ hx (hcheck _ (List.mem_of_getElem? hx))
    obtain ⟨hf', hstacks⟩ := stacks_of_rounds m hf₁ hroom₁ hcheck₁ hwraps.nodup
    rw [hround]
    refine ⟨hf', fun i h hi => ?_⟩
    obtain ⟨-, d, hd, -⟩ := parentless_of_check (hcheck h (List.mem_of_getElem? hi))
    obtain ⟨hself, hbelow⟩ := hwraps.unfolding_delay hf hi hd
    obtain ⟨w, hw, hnone, hstack, hunfolding⟩ := hstacks i _ (hwraps.handle (List.getElem?_eq_some_iff.1 hi).1)
    refine ⟨w, hw, hnone, fun k hk => ?_, fun way => ?_⟩
    · -- The delay of the first round is the innermost one.
      rcases Nat.lt_or_eq_of_le (Nat.le_of_lt_succ hk) with hlt | rfl
      · exact hstack k hlt
      · exact ⟨delayName, by rw [← List.append_nil (List.replicate k 0), hunfolding, hself]⟩
    · rw [List.replicate_succ', List.append_assoc, hunfolding]
      exact hbelow way

end Builder

/-- So it goes for all nodes of a list, if the list is wrapped two or more times. -/
theorem stalls_of_rounds {capacity : Nat} {cs : List (Call κ σ)} {m : Nat} {hs : List Int} (hm : 2 ≤ m)
    (hroom : (Builder.built capacity cs).size + m * hs.length ≤ (Builder.built capacity cs).capacity)
    (hcheck : ∀ h ∈ hs, (Builder.built capacity cs).check h = none) (hdistinct : hs.Nodup) {i : Nat} {h : Int}
    (hi : hs[i]? = some h) :
    let b := Builder.built capacity cs
    ∃ w, (b.delayRounds m hs).1[i]? = some w ∧
      (∀ way, (b.delayRounds m hs).2.unfolding w (List.replicate m 0 ++ way) = b.unfolding h way) ∧
      ∀ commands : List (Command κ σ), (b.delayRounds m hs).2.Stalls w m commands := by
  have hf := Builder.forest_built capacity cs
  obtain ⟨hf', hstacks⟩ := Builder.stacks_of_rounds m hf hroom hcheck hdistinct
  obtain ⟨w, hw, hnone, hstack, hunfolding⟩ := hstacks i h hi
  exact ⟨w, hw, hunfolding, Builder.stalls_of_stacks hf' hnone hm hstack⟩

end Behaviour
