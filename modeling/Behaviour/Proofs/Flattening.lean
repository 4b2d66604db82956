import Behaviour.Proofs.Likeness

/-!
# Nesting is flattening

A composite may have more children than there is room for if some of them are put below a composite of the same rule.
The flat composite has the children of both in one list (`Splits`), and its one place stands for two: before the nested
composite and after it the places differ by a constant, and inside it the inner one is added to the outer one, which
stays (`Steers`). Only then is the inner place not the first one.

A scan of the nested lists answers as a scan of the flat one does, visits the same children, and leaves places that
stand for each other again (`Splits.scan`, `Splits.dissolve_trailAll`). So nested and flat composite are bisimilar
(`bisimulation_nests`), and every run below two such roots goes alike (`nesting_flattens`).
-/

namespace Behaviour

variable {κ σ : Type}

open Play

namespace Node

/-! ## Scans of lists in two parts -/

section Append

variable (rule : Rule)

/-- If the rule goes on from the first part, the second one is scanned as well. -/
theorem scan_append_of_onward : ∀ {skip : Nat} {xs : List (Node κ σ)} {scene : Scene κ σ}, skip ≤ xs.length →
    (scan rule skip xs scene).status = rule.onward → ∀ ys : List (Node κ σ), scan rule skip (xs ++ ys) scene =
      ⟨(scan rule 0 ys (scan rule skip xs scene).scene).status,
        xs.length + (scan rule 0 ys (scan rule skip xs scene).scene).stop,
        (scan rule skip xs scene).children ++ (scan rule 0 ys (scan rule skip xs scene).scene).children,
        (scan rule 0 ys (scan rule skip xs scene).scene).scene,
        (scan rule skip xs scene).log ++ (scan rule 0 ys (scan rule skip xs scene).scene).log⟩
  | 0, [], scene, _, _, ys => by simp [scan]
  | skip + 1, [], _, hskip, _, _ => by simp at hskip
  | skip + 1, x :: xs, scene, hskip, h, ys => by
    rw [scan] at h
    rw [List.cons_append, scan, scan, scan_append_of_onward (Nat.le_of_succ_le_succ hskip) h ys]
    simp only [List.length_cons, List.cons_append, Nat.add_right_comm]
  | 0, x :: xs, scene, _, h, ys => by
    by_cases honward : (x.visit scene).status = rule.onward
    · rw [scan_of_onward honward] at h
      rw [List.cons_append, scan_of_onward honward, scan_of_onward honward,
        scan_append_of_onward (Nat.zero_le _) h ys]
      simp only [List.length_cons, List.cons_append, List.append_assoc, Nat.add_right_comm]
    · rw [scan_of_ne_onward honward] at h
      exact absurd h honward

/-- If the scan stops in the first part, the second one is left alone. -/
theorem scan_append_of_ne_onward : ∀ {skip : Nat} {xs : List (Node κ σ)} {scene : Scene κ σ}, skip ≤ xs.length →
    (scan rule skip xs scene).status ≠ rule.onward → ∀ ys : List (Node κ σ), scan rule skip (xs ++ ys) scene =
      { scan rule skip xs scene with children := (scan rule skip xs scene).children ++ ys }
  | skip, [], scene, _, h, _ => by
    rw [scan] at h
    exact absurd rfl h
  | skip + 1, x :: xs, scene, hskip, h, ys => by
    rw [scan] at h
    rw [List.cons_append, scan, scan, scan_append_of_ne_onward (Nat.le_of_succ_le_succ hskip) h ys]
    simp only [List.cons_append]
  | 0, x :: xs, scene, _, h, ys => by
    by_cases honward : (x.visit scene).status = rule.onward
    · rw [scan_of_onward honward] at h
      rw [List.cons_append, scan_of_onward honward, scan_of_onward honward,
        scan_append_of_ne_onward (Nat.zero_le _) h ys]
      simp only [List.cons_append]
    · rw [List.cons_append, scan_of_ne_onward honward, scan_of_ne_onward honward]
      simp only [List.cons_append]

/-- A scan that leaves out the first part is one of the second part. -/
theorem scan_append_right (skip : Nat) (xs ys : List (Node κ σ)) (scene : Scene κ σ) :
    scan rule (xs.length + skip) (xs ++ ys) scene =
      { scan rule skip ys scene with
        stop := xs.length + (scan rule skip ys scene).stop
        children := xs ++ (scan rule skip ys scene).children } := by
  induction xs with
  | nil => simp
  | cons x xs ih =>
    rw [List.length_cons, Nat.add_right_comm, List.cons_append, scan, ih]
    simp only [List.cons_append, Nat.add_right_comm]

theorem trailAll_append_of_onward : ∀ {skip : Nat} {xs : List (Node κ σ)} {scene : Scene κ σ}, skip ≤ xs.length →
    (scan rule skip xs scene).status = rule.onward → ∀ ys : List (Node κ σ), trailAll rule skip (xs ++ ys) scene =
      trailAll rule skip xs scene ++ trailAll rule 0 ys (scan rule skip xs scene).scene
  | 0, [], scene, _, _, ys => by simp [scan, trailAll]
  | skip + 1, [], _, hskip, _, _ => by simp at hskip
  | skip + 1, x :: xs, scene, hskip, h, ys => by
    rw [scan] at h
    rw [List.cons_append, trailAll, trailAll, scan, trailAll_append_of_onward (Nat.le_of_succ_le_succ hskip) h ys]
  | 0, x :: xs, scene, _, h, ys => by
    obtain ⟨hstatus, hscene, -⟩ := x.visit_eq_trail scene
    by_cases honward : (x.visit scene).status = rule.onward
    · have honward' := hstatus.symm.trans honward
      rw [scan_of_onward honward] at h
      have hrest := trailAll_append_of_onward (Nat.zero_le _) h ys
      rw [hscene] at hrest
      rw [List.cons_append, trailAll_of_onward honward', trailAll_of_onward honward', scan_of_onward honward, hrest,
        hscene, List.cons_append]
    · rw [scan_of_ne_onward honward] at h
      exact absurd h honward

theorem trailAll_append_of_ne_onward : ∀ {skip : Nat} {xs : List (Node κ σ)} {scene : Scene κ σ}, skip ≤ xs.length →
    (scan rule skip xs scene).status ≠ rule.onward → ∀ ys : List (Node κ σ), trailAll rule skip (xs ++ ys) scene =
      trailAll rule skip xs scene
  | skip, [], scene, _, h, _ => by
    rw [scan] at h
    exact absurd rfl h
  | skip + 1, x :: xs, scene, hskip, h, ys => by
    rw [scan] at h
    rw [List.cons_append, trailAll, trailAll, trailAll_append_of_ne_onward (Nat.le_of_succ_le_succ hskip) h ys]
  | 0, x :: xs, scene, _, h, ys => by
    obtain ⟨hstatus, hscene, -⟩ := x.visit_eq_trail scene
    by_cases honward : (x.visit scene).status = rule.onward
    · have honward' := hstatus.symm.trans honward
      rw [scan_of_onward honward, hscene] at h
      rw [List.cons_append, trailAll_of_onward honward', trailAll_of_onward honward',
        trailAll_append_of_ne_onward (Nat.zero_le _) h ys]
    · have honward' : (x.trail scene).status ≠ rule.onward := fun he => honward (hstatus.trans he)
      rw [List.cons_append, trailAll_of_ne_onward honward', trailAll_of_ne_onward honward']

theorem trailAll_append_right (skip : Nat) (xs ys : List (Node κ σ)) (scene : Scene κ σ) :
    trailAll rule (xs.length + skip) (xs ++ ys) scene = trailAll rule skip ys scene := by
  induction xs with
  | nil => simp
  | cons x xs ih => rw [List.length_cons, Nat.add_right_comm, List.cons_append, trailAll, ih]

end Append

/-- A scan that ends with a running child stops at one of the children, wherever it started. -/
theorem stop_scan_lt_length {rule : Rule} {skip : Nat} {ns : List (Node κ σ)} {scene : Scene κ σ}
    (hskip : skip ≤ ns.length) (h : (scan rule skip ns scene).status = .running) :
    (scan rule skip ns scene).stop < ns.length := by
  rw [scan_eq_drop rule skip ns scene hskip] at h ⊢
  have hlt := stop_scan_lt h
  rw [List.length_drop] at hlt
  simp only
  omega

theorem length_scan (rule : Rule) (skip : Nat) (ns : List (Node κ σ)) (scene : Scene κ σ) :
    (scan rule skip ns scene).children.length = ns.length := by
  have h := congrArg List.length (map_handle_scan rule skip ns scene)
  simpa using h

/-- A scan gives no child a handle that none of them had. -/
theorem handle_ne_of_mem_scan {h : Nat} {rule : Rule} {skip : Nat} {ns : List (Node κ σ)} {scene : Scene κ σ}
    (hne : ∀ c ∈ ns, c.label.handle ≠ h) : ∀ c ∈ (scan rule skip ns scene).children, c.label.handle ≠ h := by
  intro c hc
  have hmem := List.mem_map_of_mem (f := fun m : Node κ σ => m.label.handle) hc
  rw [map_handle_scan] at hmem
  obtain ⟨m, hm, hsame⟩ := List.mem_map.1 hmem
  rw [← hsame]
  exact hne m hm

end Node

/-! ## One place for two -/

/-- What the place of a flat composite tells of those of two nested ones, if the inner one is the child at the place `x`
of the outer one and has `y` children itself. -/
structure Steers (x y outer inner flat : Nat) : Prop where
  inner_lt : inner < y
  /-- The inner place is not the first one only while the outer place is that of the inner composite. -/
  rests : outer ≠ x → inner = 0
  flat_eq : flat = if outer ≤ x then outer + inner else outer + y - 1

namespace Steers

variable {x y outer inner flat : Nat}

theorem start (x : Nat) (h : 0 < y) : Steers x y 0 0 0 := ⟨h, fun _ => rfl, by simp⟩

/-- One more child before the inner composite moves the outer and the flat place. -/
theorem succ (h : Steers x y outer inner flat) : Steers (x + 1) y (outer + 1) inner (flat + 1) := by
  obtain ⟨hlt, hrests, rfl⟩ := h
  refine ⟨hlt, fun hne => hrests (by omega), ?_⟩
  split <;> split <;> omega

/-- At the inner composite the flat place is the inner one. -/
theorem flat_eq_inner (h : Steers 0 y 0 inner flat) : flat = inner := by
  simpa using h.flat_eq

/-- After the inner composite the flat place has passed all its children. -/
theorem of_past {k : Nat} (h : Steers 0 y (k + 1) inner flat) : inner = 0 ∧ flat = y + k := by
  obtain ⟨hlt, hrests, rfl⟩ := h
  refine ⟨hrests (Nat.succ_ne_zero k), ?_⟩
  rw [if_neg (Nat.not_succ_le_zero k)]
  omega

theorem past (k : Nat) (h : 0 < y) : Steers 0 y (k + 1) 0 (y + k) := by
  refine ⟨h, fun _ => rfl, ?_⟩
  rw [if_neg (Nat.not_succ_le_zero k)]
  omega

/-- Before the inner composite all places are the same. -/
theorem of_zero (h : Steers (x + 1) y 0 inner flat) : inner = 0 ∧ flat = 0 := by
  obtain ⟨-, hrests, rfl⟩ := h
  obtain rfl := hrests (by omega)
  exact ⟨rfl, by simp⟩

theorem of_succ (h : Steers (x + 1) y (outer + 1) inner flat) : ∃ k, flat = k + 1 ∧ Steers x y outer inner k := by
  obtain ⟨hlt, hrests, rfl⟩ := h
  refine ⟨if outer ≤ x then outer + inner else outer + y - 1, ?_, hlt, fun hne => hrests (by omega), rfl⟩
  split <;> split <;> omega

end Steers

/-- The visit itself, or, if it is one of the node with this handle, the visits that were made in its course. -/
def Trail.dissolve (h : Nat) (u : Trail κ σ) : List (Trail κ σ) := if u.label.handle = h then u.inner else [u]

/-- The visits of children, those of the node with this handle dissolved. -/
def Trail.dissolveInner (h : Nat) (t : Trail κ σ) : List (Trail κ σ) := t.inner.flatMap (dissolve h)

namespace Node

/-- The children of the outer one of two nested composites, and those of the flat one. The inner composite has the label
`l`, is the child at the place `x`, has `y` children and starts at `inner`; no other child has its handle. -/
inductive Splits (rule : Rule) (keep : Bool) (l : Label) (y : Nat) :
    (x inner : Nat) → List (Node κ σ) → List (Node κ σ) → Prop
  | here {cursor : Option Nat} {ys zs : List (Node κ σ)} (hlength : ys.length = y)
    (hapart : ∀ c ∈ zs, c.label.handle ≠ l.handle) :
    Splits rule keep l y 0 (startPlace keep cursor) (composite l rule keep cursor ys :: zs) (ys ++ zs)
  | there {x inner : Nat} {c : Node κ σ} {ns ms : List (Node κ σ)} (hc : c.label.handle ≠ l.handle)
    (h : Splits rule keep l y x inner ns ms) : Splits rule keep l y (x + 1) inner (c :: ns) (c :: ms)

/-- Two scans answer alike, and leave children of which the one list is split as the other one is not. If they end
running, the places at which they have stopped stand for each other, and otherwise the inner composite is at its start
again. -/
structure Flattened (rule : Rule) (keep : Bool) (l : Label) (x y : Nat) (s s' : Scan κ σ) : Prop where
  status : s'.status = s.status
  scene : s'.scene = s.scene
  children : ∃ inner, Splits rule keep l y x inner s.children s'.children ∧
    (s.status = .running → keep = true → Steers x y s.stop inner s'.stop) ∧ (s.status ≠ .running → inner = 0)

section Scan

variable {rule : Rule} {keep : Bool} {l : Label} {x y inner : Nat} {ns ms : List (Node κ σ)}

theorem startPlace_none (keep : Bool) : startPlace keep none = 0 := by
  cases keep <;> rfl

theorem startPlace_zero (keep : Bool) : startPlace keep (some 0) = 0 := by
  cases keep <;> rfl

theorem Splits.rewound {ys zs : List (Node κ σ)} (hlength : ys.length = y)
    (hapart : ∀ c ∈ zs, c.label.handle ≠ l.handle) :
    Splits rule keep l y 0 0 (composite l rule keep (some 0) ys :: zs) (ys ++ zs) := by
  have h : Splits rule keep l y 0 (startPlace keep (some 0)) (composite l rule keep (some 0) ys :: zs) (ys ++ zs) :=
    .here hlength hapart
  rwa [startPlace_zero] at h

/-- A child before the inner composite is no obstacle. -/
theorem Flattened.cons {s s' : Scan κ σ} (h : Flattened rule keep l x y s s') {c : Node κ σ}
    (hc : c.label.handle ≠ l.handle) (log log' : List (Event κ σ)) : Flattened rule keep l (x + 1) y
      ⟨s.status, s.stop + 1, c :: s.children, s.scene, log⟩
      ⟨s'.status, s'.stop + 1, c :: s'.children, s'.scene, log'⟩ := by
  obtain ⟨inner, hsplits, hrunning, hsettled⟩ := h.children
  exact ⟨h.status, h.scene, inner, .there hc hsplits, fun hs hkeep => (hrunning hs hkeep).succ, hsettled⟩

/-- From the inner composite on, its children and those after it are scanned as one list. -/
theorem flattened_here (cursor : Option Nat) {ys zs : List (Node κ σ)} (hapart : ∀ c ∈ zs, c.label.handle ≠ l.handle)
    (hlt : startPlace keep cursor < ys.length) (scene : Scene κ σ) : Flattened rule keep l 0 ys.length
      (scan rule 0 (composite l rule keep cursor ys :: zs) scene)
      (scan rule (startPlace keep cursor) (ys ++ zs) scene) := by
  have hle := Nat.le_of_lt hlt
  by_cases honward : (scan rule (startPlace keep cursor) ys scene).status = rule.onward
  · have hsettled : (scan rule (startPlace keep cursor) ys scene).status ≠ .running := by
      rw [honward]
      exact rule.onward_ne_running
    have hvisit : ((composite l rule keep cursor ys).visit scene).status = rule.onward := honward
    rw [scan_of_onward hvisit, scan_append_of_onward rule hle honward]
    simp only [visit, Visit.finish, if_neg hsettled]
    refine ⟨rfl, rfl, 0, ?_, fun _ _ => ?_, fun _ => rfl⟩
    · exact .rewound (length_scan rule _ ys scene) (handle_ne_of_mem_scan hapart)
    · exact .past _ (Nat.zero_lt_of_lt hlt)
  · have hvisit : ((composite l rule keep cursor ys).visit scene).status ≠ rule.onward := honward
    rw [scan_of_ne_onward hvisit, scan_append_of_ne_onward rule hle honward]
    simp only [visit, Visit.finish]
    refine ⟨rfl, rfl, _, .here (length_scan rule _ ys scene) hapart, fun hrunning hkeep => ?_, fun hsettled => ?_⟩
    · have hrunning' : (scan rule (startPlace keep cursor) ys scene).status = .running := hrunning
      have hstop := stop_scan_lt_length hle hrunning'
      have hplace : startPlace keep (some (scan rule (startPlace keep cursor) ys scene).stop) =
          (scan rule (startPlace keep cursor) ys scene).stop := if_pos hkeep
      rw [if_pos hrunning', hplace]
      exact ⟨hstop, fun h => absurd rfl h, by simp⟩
    · rw [if_neg hsettled, startPlace_zero]

/-- A scan of the split list answers as one of the flat list does. -/
theorem Splits.scan (h : Splits rule keep l y x inner ns ms) : ∀ {outer flat : Nat} (scene : Scene κ σ),
    Steers x y outer inner flat →
      Flattened rule keep l x y (Node.scan rule outer ns scene) (Node.scan rule flat ms scene) := by
  induction h with
  | @here cursor ys zs hlength hapart =>
    intro outer flat scene hsteers
    obtain rfl := hlength
    cases outer with
    | zero =>
      rw [hsteers.flat_eq_inner]
      exact flattened_here cursor hapart hsteers.inner_lt scene
    | succ k =>
      obtain ⟨hinner, rfl⟩ := hsteers.of_past
      have hlt := Nat.zero_lt_of_lt hsteers.inner_lt
      rw [scan_append_right, Node.scan]
      refine ⟨rfl, rfl, _, .here rfl (handle_ne_of_mem_scan hapart), fun _ _ => ?_, fun _ => hinner⟩
      rw [hinner]
      exact .past _ hlt
  | @there x inner c ns ms hc h ih =>
    intro outer flat scene hsteers
    cases outer with
    | zero =>
      obtain ⟨rfl, rfl⟩ := hsteers.of_zero
      have hpos := hsteers.inner_lt
      have hc' : (c.visit scene).node.label.handle ≠ l.handle := by rwa [label_visit]
      by_cases honward : (c.visit scene).status = rule.onward
      · rw [scan_of_onward honward, scan_of_onward honward]
        exact (ih (c.visit scene).scene (.start x hpos)).cons hc' _ _
      · rw [scan_of_ne_onward honward, scan_of_ne_onward honward]
        exact ⟨rfl, rfl, 0, .there hc' h, fun _ _ => .start _ hpos, fun _ => rfl⟩
    | succ k =>
      obtain ⟨j, rfl, hsteers'⟩ := hsteers.of_succ
      rw [Node.scan, Node.scan]
      exact (ih scene hsteers').cons hc _ _

/-- A visit is kept as it is, unless it is one of the inner composite: then its children are put in its place. -/
theorem dissolve_trailAll_of_ne {outer : Nat} {h : Nat} (hne : ∀ c ∈ ns, c.label.handle ≠ h) (scene : Scene κ σ) :
    (trailAll rule outer ns scene).flatMap (Trail.dissolve h) = trailAll rule outer ns scene := by
  have hself : ∀ u ∈ trailAll rule outer ns scene, u.dissolve h = [u] := by
    intro u hu
    obtain ⟨c, hc, scene', rfl⟩ := exists_of_mem_trailAll rule hu
    exact if_neg (by rw [label_trail]; exact hne c hc)
  rw [List.flatMap_congr hself, List.flatMap_singleton']

/-- From the inner composite on, its children are visited in the course of its visit, and then those after it. -/
theorem dissolve_trailAll_here (cursor : Option Nat) {ys zs : List (Node κ σ)}
    (hapart : ∀ c ∈ zs, c.label.handle ≠ l.handle) (hle : startPlace keep cursor ≤ ys.length) (scene : Scene κ σ) :
    (trailAll rule 0 (composite l rule keep cursor ys :: zs) scene).flatMap (Trail.dissolve l.handle) =
      trailAll rule (startPlace keep cursor) (ys ++ zs) scene := by
  have hinner : ((composite l rule keep cursor ys).trail scene).dissolve l.handle =
      trailAll rule (startPlace keep cursor) ys scene := by
    rw [Trail.dissolve, label_trail]
    exact if_pos rfl
  obtain ⟨hstatus, hscene, -⟩ := (composite l rule keep cursor ys).visit_eq_trail scene
  have hscan : (Node.scan rule (startPlace keep cursor) ys scene).status =
      ((composite l rule keep cursor ys).trail scene).status := hstatus
  have hleft : (Node.scan rule (startPlace keep cursor) ys scene).scene =
      ((composite l rule keep cursor ys).trail scene).left := hscene
  by_cases honward : (Node.scan rule (startPlace keep cursor) ys scene).status = rule.onward
  · rw [trailAll_of_onward (hscan.symm.trans honward), trailAll_append_of_onward rule hle honward,
      List.flatMap_cons, hinner, hleft, dissolve_trailAll_of_ne hapart]
  · rw [trailAll_of_ne_onward fun he => honward (hscan.trans he), trailAll_append_of_ne_onward rule hle honward,
      List.flatMap_singleton, hinner]

/-- The same children are visited, those of the inner composite in the course of its visit. -/
theorem Splits.dissolve_trailAll (h : Splits rule keep l y x inner ns ms) : ∀ {outer flat : Nat} (scene : Scene κ σ),
    Steers x y outer inner flat →
      (trailAll rule outer ns scene).flatMap (Trail.dissolve l.handle) = trailAll rule flat ms scene := by
  induction h with
  | @here cursor ys zs hlength hapart =>
    intro outer flat scene hsteers
    obtain rfl := hlength
    cases outer with
    | zero =>
      rw [hsteers.flat_eq_inner]
      exact dissolve_trailAll_here cursor hapart (Nat.le_of_lt hsteers.inner_lt) scene
    | succ k =>
      obtain ⟨-, rfl⟩ := hsteers.of_past
      rw [trailAll_append_right, trailAll, dissolve_trailAll_of_ne hapart]
  | @there x inner c ns ms hc h ih =>
    intro outer flat scene hsteers
    cases outer with
    | zero =>
      obtain ⟨rfl, rfl⟩ := hsteers.of_zero
      have hself : (c.trail scene).dissolve l.handle = [c.trail scene] := if_neg (by rwa [label_trail])
      by_cases honward : (c.trail scene).status = rule.onward
      · rw [trailAll_of_onward honward, trailAll_of_onward honward, List.flatMap_cons, hself,
          ih (c.trail scene).left (.start x hsteers.inner_lt)]
        rfl
      · rw [trailAll_of_ne_onward honward, trailAll_of_ne_onward honward, List.flatMap_singleton, hself]
    | succ k =>
      obtain ⟨j, rfl, hsteers'⟩ := hsteers.of_succ
      rw [trailAll, trailAll]
      exact ih scene hsteers'

end Scan

section Splits

variable {rule : Rule} {keep : Bool} {l : Label} {x y inner : Nat} {ns ms : List (Node κ σ)}

theorem Splits.of_append (cursor : Option Nat) {ys zs : List (Node κ σ)} (hzs : ∀ c ∈ zs, c.label.handle ≠ l.handle) :
    ∀ {xs : List (Node κ σ)}, (∀ c ∈ xs, c.label.handle ≠ l.handle) →
      Splits rule keep l ys.length xs.length (startPlace keep cursor) (xs ++ composite l rule keep cursor ys :: zs)
        (xs ++ (ys ++ zs))
  | [], _ => .here rfl hzs
  | c :: _, hxs => .there (hxs c List.mem_cons_self) (of_append cursor hzs fun d hd => hxs d (List.mem_cons_of_mem _ hd))

variable (h : Splits rule keep l y x inner ns ms)
include h

theorem Splits.reset : Splits rule keep l y x 0 (ns.map Node.reset) (ms.map Node.reset) := by
  induction h with
  | @here cursor ys zs hlength hapart =>
    have hapart' : ∀ c ∈ zs.map Node.reset, c.label.handle ≠ l.handle := by
      intro c hc
      obtain ⟨d, hd, rfl⟩ := List.mem_map.1 hc
      rw [label_reset]
      exact hapart d hd
    have hlength' : (ys.map Node.reset).length = y := by rw [List.length_map, hlength]
    have hsplits : Splits rule keep l y 0 (startPlace keep none)
        (composite l rule keep none (ys.map Node.reset) :: zs.map Node.reset) _ := .here hlength' hapart'
    rw [startPlace_none] at hsplits
    rw [List.map_cons, List.map_append, Node.reset, resetAll_eq_map]
    exact hsplits
  | there hc _ ih => exact .there (by rwa [label_reset]) ih

omit h in
/-- Where places are not kept, the inner composite starts at its first child. -/
theorem Splits.eq_zero (h : Splits rule false l y x inner ns ms) : inner = 0 := by
  induction h with
  | here => rfl
  | there _ _ ih => exact ih

/-- Only the inner composite has its handle. -/
theorem Splits.eq_composite {c : Node κ σ} (hc : c ∈ ns) (hhandle : c.label.handle = l.handle) :
    ∃ cursor ys, c = composite l rule keep cursor ys := by
  induction h with
  | here _ hapart =>
    rcases List.mem_cons.1 hc with rfl | hc
    · exact ⟨_, _, rfl⟩
    · exact absurd hhandle (hapart c hc)
  | there hd _ ih =>
    rcases List.mem_cons.1 hc with rfl | hc
    · exact absurd hhandle hd
    · exact ih hc

/-- All other nodes are below the flat composite as well. -/
theorem Splits.mem_subtree {u : Node κ σ} (hu : u ∈ ns.flatMap subtree) (hne : u.label.handle ≠ l.handle) :
    u ∈ ms.flatMap subtree := by
  induction h with
  | here _ _ =>
    rw [List.flatMap_cons, subtree_eq, List.cons_append] at hu
    rw [List.flatMap_append]
    rcases List.mem_cons.1 hu with rfl | hu
    · exact absurd rfl hne
    · exact hu
  | there _ _ ih =>
    rw [List.flatMap_cons] at hu ⊢
    rcases List.mem_append.1 hu with hu | hu
    · exact List.mem_append_left _ hu
    · exact List.mem_append_right _ (ih hu)

end Splits

/-! ## The nested composite -/

/-- The first node is a composite with the handle `root` that has a composite of the same rule with the handle `h` as its
child at the place `x`; the second one is the flat composite. The places of all three stand for each other. -/
inductive Nests (f : Nat → Nat) (root h : Nat) : Node κ σ → Node κ σ → Prop
  | intro {l₁ l₂ l : Label} {rule : Rule} {keep : Bool} {outer flat : Option Nat} {x y inner : Nat}
    {ns ms : List (Node κ σ)} (hroot : l₁.handle = root) (hinner : l.handle = h)
    (hsplits : Splits rule keep l y x inner ns ms)
    (hsteers : Steers x y (startPlace keep outer) inner (startPlace keep flat)) :
    Nests f root h (composite l₁ rule keep outer ns) (composite l₂ rule keep flat (renameAll f ms))

section Bisimulation

variable {f : Nat → Nat} {root h : Nat} {n m : Node κ σ} (hnests : Nests f root h n m)
include hnests

theorem Nests.visit (scene : Scene κ σ) : Nests f root h (n.visit scene).node (m.visit scene).node := by
  obtain @⟨l₁, l₂, l, rule, keep, outer, flat, x, y, inner, ns, ms, hroot, hinner, hsplits, hsteers⟩ := hnests
  obtain ⟨hstatus, -, inner', hsplits', hrunning, hsettled⟩ := hsplits.scan scene hsteers
  have hpos := Nat.zero_lt_of_lt hsteers.inner_lt
  rw [Node.visit, Node.visit, scan_rename]
  refine .intro hroot hinner hsplits' ?_
  simp only [Scan.rename, hstatus]
  by_cases hstop : (Node.scan rule (startPlace keep outer) ns scene).status = .running
  · rw [if_pos hstop, if_pos hstop]
    cases keep with
    | true => exact hrunning hstop rfl
    | false =>
      rw [hsplits'.eq_zero]
      exact .start x hpos
  · rw [if_neg hstop, if_neg hstop, startPlace_zero, hsettled hstop]
    exact .start x hpos

theorem Nests.reset : Nests f root h n.reset m.reset := by
  obtain @⟨l₁, l₂, l, rule, keep, outer, flat, x, y, inner, ns, ms, hroot, hinner, hsplits, hsteers⟩ := hnests
  rw [Node.reset, Node.reset, resetAll_renameAll, resetAll_eq_map, resetAll_eq_map]
  refine .intro hroot hinner hsplits.reset ?_
  rw [startPlace_none]
  exact .start x (Nat.zero_lt_of_lt hsteers.inner_lt)

/-- Both visits answer alike, and visit the same nodes below the composites. -/
theorem Nests.trail (scene : Scene κ σ) : (n.trail scene).Like f (Trail.dissolveInner h) Trail.inner (m.trail scene) := by
  obtain @⟨l₁, l₂, l, rule, keep, outer, flat, x, y, inner, ns, ms, hroot, hinner, hsplits, hsteers⟩ := hnests
  obtain ⟨hstatus, hscene, -⟩ := hsplits.scan scene hsteers
  rw [(scan_eq_trailAll _ _ _ _).1, (scan_eq_trailAll _ _ _ _).1] at hstatus
  rw [(scan_eq_trailAll _ _ _ _).2.1, (scan_eq_trailAll _ _ _ _).2.1] at hscene
  have hparts := hsplits.dissolve_trailAll scene hsteers
  constructor
  case status =>
    simp only [Node.trail, trailAll_rename, Rule.outcome_renameAll]
    exact hstatus
  case left =>
    simp only [Node.trail, trailAll_rename, Rule.outcome_renameAll]
    exact hscene
  case parts =>
    rw [← hinner]
    simp only [Trail.dissolveInner, Node.trail, trailAll_rename, Trail.renameAll_eq_map, hparts]
  case composed₁ =>
    refine Trail.ComposedOf.flatMap (Trail.composedOf_inner rfl rfl) fun u hu => ?_
    obtain ⟨c, hc, scene', rfl⟩ := exists_of_mem_trailAll rule hu
    rw [Trail.dissolve]
    split_ifs with hhandle
    · rw [label_trail, ← hinner] at hhandle
      obtain ⟨cursor, ys, rfl⟩ := hsplits.eq_composite hc hhandle
      exact Trail.composedOf_inner rfl rfl
    · exact Trail.composedOf_self _
  case composed₂ => exact Trail.composedOf_inner rfl rfl

/-- Apart from the two composites, all nodes of the first tree have made the same progress in the second one. -/
theorem Nests.exists_same {u : Node κ σ} (hu : u ∈ n.subtree) (hne : u.label.handle ∉ [root, h]) :
    ∃ v ∈ m.subtree, v.label.handle = f u.label.handle ∧ v.progress = u.progress := by
  obtain @⟨l₁, l₂, l, rule, keep, outer, flat, x, y, inner, ns, ms, hroot, hinner, hsplits, hsteers⟩ := hnests
  rw [subtree_eq] at hu
  rcases List.mem_cons.1 hu with rfl | hu
  · exact absurd (List.mem_cons.2 (.inl hroot)) hne
  · have hother : u.label.handle ≠ l.handle := by
      rw [hinner]
      exact fun heq => hne (List.mem_cons_of_mem _ (List.mem_singleton.2 heq))
    refine ⟨u.rename f, ?_, by rw [label_rename]; rfl, progress_rename f u⟩
    rw [subtree, forest_renameAll, forest_eq_flatMap]
    exact List.mem_cons_of_mem _ (List.mem_map_of_mem (hsplits.mem_subtree hu hother))

end Bisimulation

theorem bisimulation_nests (f : Nat → Nat) (root h : Nat) : Bisimulation (Nests f root h : Node κ σ → Node κ σ → Prop)
    (Trail.Like f (Trail.dissolveInner h) Trail.inner) where
  trail _ _ scene hnests := hnests.trail scene
  visit _ _ scene hnests := hnests.visit scene
  reset _ _ hnests := hnests.reset

end Node

/-! ## Every run -/

/-- Where the child at a place of the flat composite is found below the nested ones. -/
def nestedPlace (x y i : Nat) : List Nat := if i < x then [i] else if i < x + y then [x, i - x] else [i - y + 1]

/-- Where a way below the nested composites leads below the flat one. -/
def flatWay (x y : Nat) : List Nat → List Nat
  | [] => []
  | i :: way =>
    if i < x then i :: way
    else if i = x then way.head?.elim [] fun j => (x + j) :: way.tail
    else (i + y - 1) :: way

theorem flatWay_nestedPlace (x y i : Nat) (way : List Nat) : flatWay x y (nestedPlace x y i ++ way) = i :: way := by
  unfold nestedPlace
  split_ifs with hbefore hinside
  · simp [flatWay, hbefore]
  · have hsum : x + (i - x) = i := by omega
    simp [flatWay, hsum]
  · have hlt : ¬i - y + 1 < x := by omega
    have hne : ¬i - y + 1 = x := by omega
    have hsum : i - y + 1 + y - 1 = i := by omega
    simp [flatWay, hlt, hne, hsum]

/-- Below the first root a composite has a composite of the same rule at the place `x`, which has `y` children; below the
second one a composite has all these children in one list. -/
structure Builder.Nests (b₁ : Builder κ σ) (root₁ : Int) (b₂ : Builder κ σ) (root₂ : Int) (rule : Rule) (keep : Bool)
    (x y : Nat) : Prop where
  outer : b₁.HasRole root₁ [] (.composite rule keep)
  inner : b₁.HasRole root₁ [x] (.composite rule keep)
  flat : b₂.HasRole root₂ [] (.composite rule keep)
  count : ∀ j, (∃ z, b₁.unfolding root₁ [x, j] = some z) ↔ j < y
  parts : ∀ i way, b₂.unfolding root₂ (i :: way) = b₁.unfolding root₁ (nestedPlace x y i ++ way)

/-- Every run below the two roots goes alike, in place and on the tree: the statuses, the scenes that are left and the
calls are the same, the visits below the composites are the same but for handles, and so is the progress that was made
there. -/
def Builder.Flattens (b₁ : Builder κ σ) (root₁ : Int) (b₂ : Builder κ σ) (root₂ : Int) (x y : Nat) : Prop :=
  ∃ (f : Nat → Nat) (h : Nat), descend b₁.drafts root₁.toNat [x] = some h ∧
    (∀ i way g, descend b₁.drafts root₁.toNat (nestedPlace x y i ++ way) = some g →
      descend b₂.drafts root₂.toNat (i :: way) = some (f g)) ∧
    ∀ commands : List (Command κ σ), b₁.PlayAlike root₁ b₂ root₂ f [root₁.toNat, h] (Trail.dissolveInner h)
      Trail.inner commands

namespace Builder.Nests

variable {b₁ b₂ : Builder κ σ} {root₁ root₂ : Int} {rule : Rule} {keep : Bool} {x y : Nat}
  (h : b₁.Nests root₁ b₂ root₂ rule keep x y) (hf₁ : Forest b₁.drafts) {r : Draft κ σ}
  (hr : b₁.drafts[root₁.toNat]? = some r) (hp : r.parent = none)
include h hf₁ hr hp

/-- Handles at the ends of corresponding ways correspond. -/
theorem exists_handles : ∃ f : Nat → Nat, ∀ i way g,
    descend b₁.drafts root₁.toNat (nestedPlace x y i ++ way) = some g →
      descend b₂.drafts root₂.toNat (i :: way) = some (f g) := by
  obtain ⟨f, hf⟩ := exists_handles_of_ways hf₁ hr hp fun way => descend b₂.drafts root₂.toNat (flatWay x y way)
  refine ⟨f, fun i way g hg => ?_⟩
  obtain ⟨g', hg'⟩ := exists_descend_of_unfolding_eq (h.parts i way) hf₁ hr hg
  rw [hf _ g g' hg (by rw [flatWay_nestedPlace]; exact hg')]
  exact hg'

end Builder.Nests

section Parts

variable {b₁ b₂ : Builder κ σ} {root₁ root₂ : Int} {rule : Rule} {keep : Bool} {l₁ l₂ l : Label}
  {xs ys zs ms : List (Node κ σ)} (hf₁ : Forest b₁.drafts)
  (houter : b₁.Grows root₁ [] (.composite l₁ rule keep none (xs ++ .composite l rule keep none ys :: zs)))
  (hinner : b₁.Grows root₁ [xs.length] (.composite l rule keep none ys))
include hf₁ houter hinner

/-- No child before or after the inner composite has its handle. -/
theorem handle_ne_inner {r : Draft κ σ} (hr : b₁.drafts[root₁.toNat]? = some r) (hp : r.parent = none) :
    (∀ c ∈ xs, c.label.handle ≠ l.handle) ∧ ∀ c ∈ zs, c.label.handle ≠ l.handle := by
  have hother : ∀ i c, (xs ++ .composite l rule keep none ys :: zs)[i]? = some c → c.label.handle = l.handle →
      i = xs.length := by
    intro i c hc heq
    have hi : descend b₁.drafts root₁.toNat [i] = some c.label.handle := (houter.child hf₁ hc).descend_eq hf₁
    rw [heq] at hi
    exact (List.cons.inj (way_unique hf₁ hr hp hi (hinner.descend_eq hf₁))).1
  constructor
  · intro c hc heq
    obtain ⟨i, hi⟩ := List.mem_iff_getElem?.1 hc
    have hlt := (List.getElem?_eq_some_iff.1 hi).1
    have := hother i c (by rw [List.getElem?_append_left hlt, hi]) heq
    omega
  · intro c hc heq
    obtain ⟨i, hi⟩ := List.mem_iff_getElem?.1 hc
    have := hother (xs.length + (i + 1)) c (by rw [List.getElem?_append_right (by omega), Nat.add_sub_cancel_left,
      List.getElem?_cons_succ, hi]) heq
    omega

/-- The children of both composites in one list grow where they are found below the nested ones. -/
theorem flat_cases (i : Nat) :
    (∃ c, (xs ++ (ys ++ zs))[i]? = some c ∧ b₁.Grows root₁ (nestedPlace xs.length ys.length i) c) ∨
      ((xs ++ (ys ++ zs))[i]? = none ∧ b₁.unfolding root₁ (nestedPlace xs.length ys.length i) = none) := by
  rw [nestedPlace]
  split_ifs with hbefore hinside
  · have hplace : (xs ++ (ys ++ zs))[i]? = (xs ++ Node.composite l rule keep none ys :: zs)[i]? := by
      rw [List.getElem?_append_left hbefore, List.getElem?_append_left hbefore]
    rw [hplace]
    exact houter.child_cases hf₁ i
  · have hplace : (xs ++ (ys ++ zs))[i]? = ys[i - xs.length]? := by
      rw [List.getElem?_append_right (by omega), List.getElem?_append_left (by omega)]
    rw [hplace]
    exact hinner.child_cases hf₁ (i - xs.length)
  · have hplace : (xs ++ (ys ++ zs))[i]? = (xs ++ Node.composite l rule keep none ys :: zs)[i - ys.length + 1]? := by
      have hnext : i - ys.length + 1 - xs.length = i - xs.length - ys.length + 1 := by omega
      rw [List.getElem?_append_right (by omega), List.getElem?_append_right (by omega),
        List.getElem?_append_right (by omega), hnext, List.getElem?_cons_succ]
    rw [hplace]
    exact houter.child_cases hf₁ (i - ys.length + 1)

/-- The children of the flat composite are those of both under other handles. -/
theorem flat_eq_renameAll (hf₂ : Forest b₂.drafts) (hflat : b₂.Grows root₂ [] (.composite l₂ rule keep none ms))
    {f : Nat → Nat} (hparts : ∀ i way, b₂.unfolding root₂ (i :: way) =
      b₁.unfolding root₁ (nestedPlace xs.length ys.length i ++ way))
    (hways : ∀ i way g, descend b₁.drafts root₁.toNat (nestedPlace xs.length ys.length i ++ way) = some g →
      descend b₂.drafts root₂.toNat (i :: way) = some (f g)) : ms = Node.renameAll f (xs ++ (ys ++ zs)) := by
  rw [Node.renameAll_eq_map]
  refine List.ext_getElem? fun i => ?_
  rw [List.getElem?_map]
  have hplace := hparts i []
  rw [List.append_nil] at hplace
  rcases flat_cases hf₁ houter hinner i with ⟨c, hc, hgrowsc⟩ | ⟨hnone, hunfolding⟩
  · obtain ⟨r, hr, -⟩ := hgrowsc.plays hf₁
    obtain ⟨d, hd⟩ := (hflat.exists_child_iff hf₂ i).2 ⟨_, hplace.trans hr⟩
    have hsame := hgrowsc.eq_rename hf₁ hf₂ (hflat.child hf₂ hd) (fun way => (hparts i way).symm) (hways i)
    rw [hc, Option.map_some, ← hsame]
    exact hd
  · rw [hnone]
    rcases hflat.child_cases hf₂ i with ⟨d, -, hgrowsd⟩ | ⟨hd, -⟩
    · obtain ⟨r, hr, -⟩ := hgrowsd.plays hf₂
      exact absurd (hr.symm.trans (hplace.trans hunfolding)) (Option.some_ne_none _)
    · exact hd

end Parts

/-- The planned nodes are the nested composites and the flat one. -/
theorem Builder.Nests.nests_of_plan {b₁ b₂ : Builder κ σ} {root₁ root₂ : Int} {rule : Rule} {keep : Bool} {x y : Nat}
    (h : b₁.Nests root₁ b₂ root₂ rule keep x y) (hf₁ : Forest b₁.drafts) (hf₂ : Forest b₂.drafts) {r : Draft κ σ}
    (hr : b₁.drafts[root₁.toNat]? = some r) (hp : r.parent = none) {f : Nat → Nat} {g : Nat}
    (hg : descend b₁.drafts root₁.toNat [x] = some g)
    (hways : ∀ i way g, descend b₁.drafts root₁.toNat (nestedPlace x y i ++ way) = some g →
      descend b₂.drafts root₂.toNat (i :: way) = some (f g))
    {n m : Node κ σ} (hn : b₁.plan root₁ = .ok n) (hm : b₂.plan root₂ = .ok m) : Node.Nests f root₁.toNat g n m := by
  have houter := Grows.root_of_plan hn
  have hflat := Grows.root_of_plan hm
  obtain ⟨l₁, ns, rfl⟩ := houter.eq_composite hf₁ h.outer
  obtain ⟨l₂, ms, rfl⟩ := hflat.eq_composite hf₂ h.flat
  obtain ⟨name, hname⟩ := h.inner
  obtain ⟨p, hp'⟩ := (houter.exists_child_iff hf₁ x).2 ⟨_, hname⟩
  have hinner : b₁.Grows root₁ [x] p := houter.child hf₁ hp'
  obtain ⟨l, ys, rfl⟩ := hinner.eq_composite hf₁ ⟨name, hname⟩
  have hhandle : l.handle = g := Option.some.inj ((hinner.descend_eq hf₁).symm.trans hg)
  -- The inner composite has as many children as are counted, hence at least one.
  obtain rfl : ys.length = y := by
    refine eq_of_forall_lt_iff fun j => ?_
    rw [← h.count j]
    refine Iff.trans ⟨fun hj => ?_, fun ⟨c, hc⟩ => ?_⟩ (hinner.exists_child_iff hf₁ j)
    · exact ⟨_, List.getElem?_eq_getElem hj⟩
    · exact (List.getElem?_eq_some_iff.1 hc).1
  have hpos : 0 < ys.length := by
    obtain ⟨r', -, hplays, -⟩ := hinner.plays hf₁
    exact List.length_pos_iff.2 hplays.2
  obtain ⟨xs, zs, rfl, rfl⟩ : ∃ xs zs, ns = xs ++ .composite l rule keep none ys :: zs ∧ xs.length = x := by
    obtain ⟨hx, hxp⟩ := List.getElem?_eq_some_iff.1 hp'
    refine ⟨ns.take x, ns.drop (x + 1), ?_, List.length_take_of_le (Nat.le_of_lt hx)⟩
    rw [← hxp]
    exact (List.take_append_drop x ns).symm.trans (congrArg _ (List.drop_eq_getElem_cons hx))
  obtain ⟨hbefore, hafter⟩ := handle_ne_inner hf₁ houter hinner hr hp
  rw [flat_eq_renameAll hf₁ houter hinner hf₂ hflat h.parts hways]
  refine .intro (Option.some.inj (houter.descend_eq hf₁)).symm hhandle (.of_append none hafter hbefore) ?_
  rw [Node.startPlace_none]
  exact .start _ hpos

/-- A composite below a composite of the same rule can be left out, with and without kept places, whatever its children
are and wherever it stands among others. -/
theorem nesting_flattens (capacity₁ capacity₂ : Nat) (cs₁ cs₂ : List (Call κ σ)) (root₁ root₂ : Int) (rule : Rule)
    (keep : Bool) (x y : Nat) (hcheck₁ : (Builder.built capacity₁ cs₁).check root₁ = none)
    (hcheck₂ : (Builder.built capacity₂ cs₂).check root₂ = none)
    (hnests : (Builder.built capacity₁ cs₁).Nests root₁ (Builder.built capacity₂ cs₂) root₂ rule keep x y) :
    (Builder.built capacity₁ cs₁).Flattens root₁ (Builder.built capacity₂ cs₂) root₂ x y := by
  have hf₁ := Builder.forest_built capacity₁ cs₁
  have hf₂ := Builder.forest_built capacity₂ cs₂
  obtain ⟨-, r, hr, hp⟩ := Builder.parentless_of_check hcheck₁
  obtain ⟨-, hr'⟩ := Builder.draft?_eq_some hr
  obtain ⟨name, hname⟩ := hnests.inner
  obtain ⟨g, -, hg, -⟩ := exists_of_unfolding hname
  obtain ⟨f, hways⟩ := hnests.exists_handles hf₁ hr' hp
  refine ⟨f, g, hg, hways, fun commands => ?_⟩
  refine (Node.bisimulation_nests f root₁.toNat g).playAlike (fun n m h u hu hne => h.exists_same hu hne) hf₁ hf₂
    hcheck₁ hcheck₂ ?_ commands
  exact fun n m hn hm => hnests.nests_of_plan hf₁ hf₂ hr' hp hg hways hn hm

/-- A leaf of a journey goes on for a while. -/
def leg (name : String) (miles : Nat) : Call Unit Nat :=
  .leaf name (some fun s => (if s.world < miles then .running else .success, { s with world := s.world + 1 }))

/-- A journey on foot and then on the water, where one rows before one sails. -/
def journey : List (Call Unit Nat) :=
  [leg "walk" 1, leg "row" 3, leg "sail" 5, .composite .sequence "journey" true, .composite .sequence "water" true,
    .attach 3 0, .attach 4 1, .attach 4 2, .attach 3 4]

/-- The same journey without a break. -/
def passage : List (Call Unit Nat) :=
  [leg "sail" 5, leg "row" 3, leg "walk" 1, .composite .sequence "passage" true, .attach 3 2, .attach 3 1, .attach 3 0]

theorem nesting_flattens_journey : (Builder.built 5 journey).check 3 = none ∧
    (Builder.built 4 passage).check 3 = none ∧
    (Builder.built 5 journey).Nests 3 (Builder.built 4 passage) 3 .sequence true 1 2 ∧
    (Builder.built 5 journey).Flattens 3 (Builder.built 4 passage) 3 1 2 := by
  have hnests : (Builder.built 5 journey).Nests 3 (Builder.built 4 passage) 3 .sequence true 1 2 := by
    refine ⟨⟨_, rfl⟩, ⟨_, rfl⟩, ⟨_, rfl⟩, ?_, ?_⟩
    · rintro (_ | _ | j)
      · exact iff_of_true ⟨_, rfl⟩ (by omega)
      · exact iff_of_true ⟨_, rfl⟩ (by omega)
      · exact iff_of_false (by rintro ⟨z, hz⟩; cases hz) (by omega)
    · rintro (_ | _ | _ | i) (_ | ⟨j, way⟩)
      all_goals rfl
  exact ⟨rfl, rfl, hnests, nesting_flattens 5 4 journey passage 3 3 .sequence true 1 2 rfl rfl hnests⟩

end Behaviour
