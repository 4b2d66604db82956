import Behaviour.Proofs.Likeness

/-!
# Sequences and selectors are dual

To negate a sequence is to have a selector of the negated children, and the other way round. While such a pair is
visited, the children are visited alike: they are given the same scenes, they act, and they leave the same scenes; the
scan of the negated children under the dual rule stops at the same place and answers the opposite (`Node.scan_dual`).
So the relation between the two trees is a bisimulation (`Node.bisimulation_dual`), in which the cursors of both
composites are equal, and every run below two such roots goes alike (`de_morgan`).
-/

namespace Behaviour

variable {κ σ : Type}

open Play

/-- A rule goes on from the opposite of what the dual rule goes on from. -/
theorem Rule.negate_eq_onward_dual_iff {rule : Rule} {s : Status} : s.negate = rule.dual.onward ↔ s = rule.onward := by
  rw [onward_dual]
  constructor
  · intro h
    rw [← Status.negate_negate s, h, Status.negate_negate]
  · exact congrArg Status.negate

namespace Node

/-! ## Negated children -/

/-- The second node negates the first one, which has other handles there. -/
def Negates (f : Nat → Nat) (c d : Node κ σ) : Prop := ∃ l memory, d = decorator l .negate memory (c.rename f)

section Negates

variable {f : Nat → Nat} {c d : Node κ σ} (h : Negates f c d) (scene : Scene κ σ)
include h

theorem Negates.visit : (d.visit scene).status = (c.visit scene).status.negate ∧
    (d.visit scene).scene = (c.visit scene).scene ∧ Negates f (c.visit scene).node (d.visit scene).node := by
  obtain ⟨l, memory, rfl⟩ := h
  simp only [Node.visit, Visit.finish, Decorator.enter, Decorator.restore, Decorator.leave, visit_rename, Visit.rename]
  exact ⟨trivial, trivial, l, memory, rfl⟩

/-- The negated node is visited alike. -/
theorem Negates.inner_trail : (d.trail scene).inner = [(c.trail scene).rename f] := by
  obtain ⟨l, memory, rfl⟩ := h
  rw [trail, ← trail_rename]
  rfl

theorem Negates.composedOf_trail : (d.trail scene).ComposedOf (d.trail scene).inner := by
  obtain ⟨l, memory, rfl⟩ := h
  exact Trail.composedOf_inner rfl rfl

omit scene in
theorem Negates.reset : Negates f c.reset d.reset := by
  obtain ⟨l, memory, rfl⟩ := h
  exact ⟨l, {}, by rw [Node.reset, reset_rename]⟩

end Negates

section Dual

variable {f : Nat → Nat} (rule : Rule)

/-- Under the dual rule negated children are visited as the children are, and answer the opposite. -/
theorem scan_dual {ns ms : List (Node κ σ)} (h : List.Forall₂ (Negates f) ns ms) : ∀ (skip : Nat) (scene : Scene κ σ),
    (scan rule.dual skip ms scene).status = (scan rule skip ns scene).status.negate ∧
    (scan rule.dual skip ms scene).stop = (scan rule skip ns scene).stop ∧
    (scan rule.dual skip ms scene).scene = (scan rule skip ns scene).scene ∧
    List.Forall₂ (Negates f) (scan rule skip ns scene).children (scan rule.dual skip ms scene).children := by
  induction h with
  | nil =>
    intro skip scene
    simp only [scan, Rule.onward_dual]
    exact ⟨trivial, trivial, trivial, .nil⟩
  | @cons n m ns ms hm hms ih =>
    intro skip scene
    cases skip with
    | succ skip =>
      obtain ⟨hstatus, hstop, hscene, hchildren⟩ := ih skip scene
      rw [scan, scan]
      exact ⟨hstatus, congrArg (· + 1) hstop, hscene, .cons hm hchildren⟩
    | zero =>
      obtain ⟨hstatus, hscene, hnode⟩ := hm.visit scene
      by_cases honward : (n.visit scene).status = rule.onward
      · have honward' : (m.visit scene).status = rule.dual.onward := by
          rw [hstatus]
          exact Rule.negate_eq_onward_dual_iff.2 honward
        rw [scan_of_onward honward, scan_of_onward honward', hscene]
        obtain ⟨hstatus', hstop', hscene', hchildren'⟩ := ih 0 (n.visit scene).scene
        exact ⟨hstatus', congrArg (· + 1) hstop', hscene', .cons hnode hchildren'⟩
      · have honward' : (m.visit scene).status ≠ rule.dual.onward := by
          rw [hstatus]
          exact fun h => honward (Rule.negate_eq_onward_dual_iff.1 h)
        rw [scan_of_ne_onward honward, scan_of_ne_onward honward']
        exact ⟨hstatus, rfl, hscene, .cons hnode hms⟩

/-- The children that are negated are visited alike. -/
theorem inner_trailAll_dual {ns ms : List (Node κ σ)} (h : List.Forall₂ (Negates f) ns ms) :
    ∀ (skip : Nat) (scene : Scene κ σ), (trailAll rule.dual skip ms scene).flatMap Trail.inner =
      (trailAll rule skip ns scene).map (Trail.rename f) := by
  induction h with
  | nil =>
    intro skip scene
    simp [trailAll]
  | @cons n m ns ms hm hms ih =>
    intro skip scene
    cases skip with
    | succ skip =>
      rw [trailAll, trailAll]
      exact ih skip scene
    | zero =>
      obtain ⟨hstatus, hscene, -⟩ := hm.visit scene
      rw [(visit_eq_trail m scene).1, (visit_eq_trail n scene).1] at hstatus
      rw [(visit_eq_trail m scene).2.1, (visit_eq_trail n scene).2.1] at hscene
      by_cases honward : (n.trail scene).status = rule.onward
      · have honward' : (m.trail scene).status = rule.dual.onward := by
          rw [hstatus]
          exact Rule.negate_eq_onward_dual_iff.2 honward
        rw [trailAll_of_onward honward, trailAll_of_onward honward', List.flatMap_cons, List.map_cons,
          hm.inner_trail scene, hscene, ih 0 (n.trail scene).left]
        rfl
      · have honward' : (m.trail scene).status ≠ rule.dual.onward := by
          rw [hstatus]
          exact fun h => honward (Rule.negate_eq_onward_dual_iff.1 h)
        rw [trailAll_of_ne_onward honward, trailAll_of_ne_onward honward', List.flatMap_singleton, List.map_singleton,
          hm.inner_trail scene]

end Dual

/-! ## The negated composite -/

/-- The first node is a decorator with the handle `root` that negates a composite; the second one is a composite of the
dual rule whose children negate those of the first. Both composites have the same cursor. -/
inductive Dual (f : Nat → Nat) (root : Nat) : Node κ σ → Node κ σ → Prop
  | intro {l₁ l₂ l : Label} {memory : Memory} {rule : Rule} {keep : Bool} {cursor : Option Nat}
    {ns ms : List (Node κ σ)} (hroot : l₁.handle = root) (hhandle : l.handle = f l₂.handle)
    (hnegates : List.Forall₂ (Negates f) ns ms) :
    Dual f root (decorator l₁ .negate memory (composite l₂ rule keep cursor ns)) (composite l rule.dual keep cursor ms)

section Bisimulation

variable {f : Nat → Nat} {root : Nat} {n m : Node κ σ} (h : Dual f root n m)
include h

theorem Dual.visit (scene : Scene κ σ) : Dual f root (n.visit scene).node (m.visit scene).node := by
  obtain @⟨l₁, l₂, l, memory, rule, keep, cursor, ns, ms, hroot, hhandle, hnegates⟩ := h
  obtain ⟨hstatus, hstop, -, hchildren⟩ := scan_dual rule hnegates (startPlace keep cursor) scene
  simp only [Node.visit, Visit.finish, Decorator.enter, Decorator.restore, Decorator.leave, hstatus, hstop,
    Status.negate_eq_running_iff]
  exact .intro hroot hhandle hchildren

theorem Dual.reset : Dual f root n.reset m.reset := by
  obtain ⟨hroot, hhandle, hnegates⟩ := h
  simp only [Node.reset, resetAll_eq_map]
  refine .intro hroot hhandle ?_
  exact List.forall₂_map_left_iff.2 (List.forall₂_map_right_iff.2 (hnegates.imp fun _ _ h => h.reset))

/-- Both visits answer alike, and visit the same nodes below the composite. -/
theorem Dual.trail (scene : Scene κ σ) :
    (n.trail scene).Like f Trail.grandchildren Trail.grandchildren (m.trail scene) := by
  obtain @⟨l₁, l₂, l, memory, rule, keep, cursor, ns, ms, hroot, hhandle, hnegates⟩ := h
  obtain ⟨hstatus, -, hscene, -⟩ := scan_dual rule hnegates (startPlace keep cursor) scene
  rw [(scan_eq_trailAll _ _ _ _).1, (scan_eq_trailAll _ _ _ _).1] at hstatus
  rw [(scan_eq_trailAll _ _ _ _).2.1, (scan_eq_trailAll _ _ _ _).2.1] at hscene
  have hcomposite : ∀ (l : Label) (rule : Rule) (ns : List (Node κ σ)) (scene : Scene κ σ),
      ((composite l rule keep cursor ns).trail scene).ComposedOf
        (trailAll rule (startPlace keep cursor) ns scene) := fun _ _ _ _ => Trail.composedOf_inner rfl rfl
  constructor
  case status => exact hstatus
  case left => exact hscene
  case parts =>
    simp only [Trail.grandchildren, Node.trail, List.flatMap_singleton, Decorator.enter]
    exact inner_trailAll_dual rule hnegates _ scene
  case composed₁ =>
    refine Trail.ComposedOf.flatMap (Trail.composedOf_inner rfl rfl) fun u hu => ?_
    rw [List.mem_singleton.1 hu]
    exact hcomposite l₂ rule ns scene
  case composed₂ =>
    refine (hcomposite l rule.dual ms scene).flatMap fun u hu => ?_
    obtain ⟨d, hd, scene', rfl⟩ := exists_of_mem_trailAll rule.dual hu
    obtain ⟨c, -, hcd⟩ := exists_of_mem_forall₂ (R := flip (Negates f)) hnegates.flip hd
    exact hcd.composedOf_trail scene'

/-- Apart from the negation at the top, all nodes of the first tree have made the same progress in the second one. -/
theorem Dual.exists_same {x : Node κ σ} (hx : x ∈ n.subtree) (hne : x.label.handle ∉ [root]) :
    ∃ y ∈ m.subtree, y.label.handle = f x.label.handle ∧ y.progress = x.progress := by
  obtain @⟨l₁, l₂, l, memory, rule, keep, cursor, ns, ms, hroot, hhandle, hnegates⟩ := h
  rw [subtree_eq] at hx
  rcases List.mem_cons.1 hx with rfl | hx
  · exact absurd (List.mem_singleton.2 hroot) hne
  · rw [children, List.flatMap_singleton, subtree_eq] at hx
    rcases List.mem_cons.1 hx with rfl | hx
    · exact ⟨_, mem_subtree_self _, hhandle, rfl⟩
    · obtain ⟨c, hc, hx⟩ := List.mem_flatMap.1 hx
      obtain ⟨d, hd, l', memory', rfl⟩ := exists_of_mem_forall₂ hnegates hc
      refine ⟨x.rename f, ?_, by rw [label_rename]; rfl, progress_rename f x⟩
      rw [subtree_eq]
      refine List.mem_cons_of_mem _ (List.mem_flatMap.2 ⟨_, hd, ?_⟩)
      rw [subtree, subtree_rename]
      exact List.mem_cons_of_mem _ (List.mem_map_of_mem hx)

end Bisimulation

theorem bisimulation_dual (f : Nat → Nat) (root : Nat) :
    Bisimulation (Dual f root : Node κ σ → Node κ σ → Prop)
      (Trail.Like f Trail.grandchildren Trail.grandchildren) where
  trail _ _ scene h := h.trail scene
  visit _ _ scene h := h.visit scene
  reset _ _ h := h.reset

end Node

/-! ## Every run -/

/-- Below the first root a composite is negated; below the second one the children of the dual composite are negations,
and below these there is the same as below the first composite. -/
structure Builder.Dual (b₁ : Builder κ σ) (root₁ : Int) (b₂ : Builder κ σ) (root₂ : Int) (rule : Rule) (keep : Bool) :
    Prop where
  negation : b₁.HasRole root₁ [] (.decorator (some .negate))
  composite : b₁.HasRole root₁ [0] (.composite rule keep)
  dual : b₂.HasRole root₂ [] (.composite rule.dual keep)
  negations : ∀ i x, b₂.unfolding root₂ [i] = some x → x.2 = .decorator (some .negate)
  parts : ∀ i way, b₂.unfolding root₂ (i :: 0 :: way) = b₁.unfolding root₁ (0 :: i :: way)

/-- Where a way below the negated composite leads in the dual tree. -/
def dualWay : List Nat → List Nat
  | _ :: i :: way => i :: 0 :: way
  | _ => []

/-- Every run below the two roots goes alike, in place and on the tree: the statuses, the scenes that are left and the
calls are the same, the visits below the two composites are the same but for handles, and the nodes of both trees have
made the same progress, the two composites included. -/
def Builder.DeMorgan (b₁ : Builder κ σ) (root₁ : Int) (b₂ : Builder κ σ) (root₂ : Int) : Prop :=
  ∃ f : Nat → Nat,
    (∀ h, descend b₁.drafts root₁.toNat [0] = some h → f h = root₂.toNat) ∧
    (∀ i way h, descend b₁.drafts root₁.toNat (0 :: i :: way) = some h →
      descend b₂.drafts root₂.toNat (i :: 0 :: way) = some (f h)) ∧
    ∀ commands : List (Command κ σ), b₁.PlayAlike root₁ b₂ root₂ f [root₁.toNat] Trail.grandchildren
      Trail.grandchildren commands

namespace Builder.Dual

variable {b₁ b₂ : Builder κ σ} {root₁ root₂ : Int} {rule : Rule} {keep : Bool}
  (h : b₁.Dual root₁ b₂ root₂ rule keep) (hf₁ : Forest b₁.drafts) (hf₂ : Forest b₂.drafts)
include h hf₁

/-- Handles at the ends of corresponding ways correspond. -/
theorem exists_handles {r : Draft κ σ} (hr : b₁.drafts[root₁.toNat]? = some r) (hp : r.parent = none) :
    ∃ f : Nat → Nat, (∀ x, descend b₁.drafts root₁.toNat [0] = some x → f x = root₂.toNat) ∧
      ∀ i way x, descend b₁.drafts root₁.toNat (0 :: i :: way) = some x →
        descend b₂.drafts root₂.toNat (i :: 0 :: way) = some (f x) := by
  obtain ⟨f, hf⟩ := exists_handles_of_ways hf₁ hr hp fun way => descend b₂.drafts root₂.toNat (dualWay way)
  refine ⟨f, fun x hx => hf [0] x _ hx rfl, fun i way x hx => ?_⟩
  obtain ⟨g, hg⟩ := exists_descend_of_unfolding_eq (h.parts i way) hf₁ hr hx
  rw [hf _ x g hx hg]
  exact hg

include hf₂

/-- The planned nodes are duals. -/
theorem dual_of_plan {f : Nat → Nat} (hcomposite : ∀ x, descend b₁.drafts root₁.toNat [0] = some x → f x = root₂.toNat)
    (hways : ∀ i way x, descend b₁.drafts root₁.toNat (0 :: i :: way) = some x →
      descend b₂.drafts root₂.toNat (i :: 0 :: way) = some (f x))
    {n m : Node κ σ} (hn : b₁.plan root₁ = .ok n) (hm : b₂.plan root₂ = .ok m) : Node.Dual f root₁.toNat n m := by
  have hgrows₁ := Grows.root_of_plan hn
  have hgrows₂ := Grows.root_of_plan hm
  obtain ⟨l₁, memory, p, rfl⟩ := hgrows₁.eq_decorator hf₁ h.negation
  have hgrows : b₁.Grows root₁ [0] p := hgrows₁.child hf₁ rfl
  obtain ⟨l₂, ns, rfl⟩ := hgrows.eq_composite hf₁ h.composite
  obtain ⟨l, ms, rfl⟩ := hgrows₂.eq_composite hf₂ h.dual
  refine .intro ?_ ?_ (forall₂_of_getElem? ?_ ?_)
  · exact (Option.some.inj (hgrows₁.descend_eq hf₁)).symm
  · have hroot₂ : root₂.toNat = l.handle := Option.some.inj (hgrows₂.descend_eq hf₂)
    rw [← hroot₂]
    exact (hcomposite _ (hgrows.descend_eq hf₁)).symm
  · intro i c hc
    have hgrowsc : b₁.Grows root₁ [0, i] c := hgrows.child hf₁ hc
    obtain ⟨r, hr, -⟩ := hgrowsc.plays hf₁
    have hbelow : b₂.unfolding root₂ ([i] ++ [0]) = some (c.label.name, r) := (h.parts i []).trans hr
    obtain ⟨x, hx⟩ := exists_unfolding_of_concat hbelow
    obtain ⟨d, hd⟩ := (hgrows₂.exists_child_iff hf₂ i).2 ⟨x, hx⟩
    have hgrowsd : b₂.Grows root₂ [i] d := hgrows₂.child hf₂ hd
    have hrole : x.2 = .decorator (some .negate) := h.negations i x hx
    obtain ⟨l', memory', c', rfl⟩ := hgrowsd.eq_decorator hf₂ ⟨x.1, by rw [← hrole]; exact hx⟩
    have hgrowsc' : b₂.Grows root₂ [i, 0] c' := hgrowsd.child hf₂ rfl
    have hsame := hgrowsc.eq_rename hf₁ hf₂ hgrowsc' (fun way => (h.parts i way).symm) (fun way => hways i way)
    exact ⟨_, hd, l', memory', by rw [hsame]⟩
  · intro i d hd
    have hgrowsd : b₂.Grows root₂ [i] d := hgrows₂.child hf₂ hd
    obtain ⟨r, hr, -⟩ := hgrowsd.plays hf₂
    obtain ⟨l', memory', c', rfl⟩ := hgrowsd.eq_decorator hf₂ ⟨_, by rw [← h.negations i _ hr]; exact hr⟩
    have hgrowsc' : b₂.Grows root₂ [i, 0] c' := hgrowsd.child hf₂ rfl
    obtain ⟨r', hr', -⟩ := hgrowsc'.plays hf₂
    exact (hgrows.exists_child_iff hf₁ i).2 ⟨_, (h.parts i []).symm.trans hr'⟩

end Builder.Dual

/-- Negating a composite is the same as negating its children and exchanging its rule, for sequences and selectors, with
and without kept places, for all children. -/
theorem de_morgan (capacity₁ capacity₂ : Nat) (cs₁ cs₂ : List (Call κ σ)) (root₁ root₂ : Int) (rule : Rule)
    (keep : Bool) (hcheck₁ : (Builder.built capacity₁ cs₁).check root₁ = none)
    (hcheck₂ : (Builder.built capacity₂ cs₂).check root₂ = none)
    (hdual : (Builder.built capacity₁ cs₁).Dual root₁ (Builder.built capacity₂ cs₂) root₂ rule keep) :
    (Builder.built capacity₁ cs₁).DeMorgan root₁ (Builder.built capacity₂ cs₂) root₂ := by
  have hf₁ := Builder.forest_built capacity₁ cs₁
  have hf₂ := Builder.forest_built capacity₂ cs₂
  obtain ⟨-, r, hr, hp⟩ := Builder.parentless_of_check hcheck₁
  obtain ⟨-, hr'⟩ := Builder.draft?_eq_some hr
  obtain ⟨f, hcomposite, hways⟩ := hdual.exists_handles hf₁ hr' hp
  refine ⟨f, hcomposite, hways, fun commands => ?_⟩
  refine (Node.bisimulation_dual f root₁.toNat).playAlike (fun n m h x hx hne => h.exists_same hx hne) hf₁ hf₂ hcheck₁
    hcheck₂ ?_ commands
  exact fun n m hn hm => hdual.dual_of_plan hf₁ hf₂ hcomposite hways hn hm

/-- An ambush waits until somebody comes and then strikes; it is betrayed if either fails. -/
def ambush : List (Call Nat Nat) :=
  [.leaf "wait" (some fun s => (if s.context = 0 then .running else .success, s)),
    .leaf "strike" (some fun s => (if s.context < s.world then .success else .failure, { s with world := 0 })),
    .composite .sequence "ambush" true, .attach 2 0, .attach 2 1, .negated 2]

/-- The same, betrayal by betrayal. -/
def betrayal : List (Call Nat Nat) :=
  [.composite .selector "betrayal" true, .negate "not wait",
    .leaf "wait" (some fun s => (if s.context = 0 then .running else .success, s)), .decorate 1 2, .attach 0 1,
    .leaf "strike" (some fun s => (if s.context < s.world then .success else .failure, { s with world := 0 })),
    .negated 3, .attach 0 4]

/-- Both trees keep their places, and no node but one has the same handle in both. -/
theorem de_morgan_ambush : (Builder.built 4 ambush).check 3 = none ∧ (Builder.built 5 betrayal).check 0 = none ∧
    (Builder.built 4 ambush).Dual 3 (Builder.built 5 betrayal) 0 .sequence true ∧
    (Builder.built 4 ambush).DeMorgan 3 (Builder.built 5 betrayal) 0 := by
  have hdual : (Builder.built 4 ambush).Dual 3 (Builder.built 5 betrayal) 0 .sequence true := by
    refine ⟨⟨_, rfl⟩, ⟨_, rfl⟩, ⟨_, rfl⟩, ?_, ?_⟩
    · rintro (_ | _ | i) x hx
      · cases hx
        rfl
      · cases hx
        rfl
      · cases hx
    · rintro (_ | _ | i) (_ | ⟨j, way⟩)
      all_goals rfl
  exact ⟨rfl, rfl, hdual, de_morgan 4 5 ambush betrayal 3 0 .sequence true rfl rfl hdual⟩

end Behaviour
