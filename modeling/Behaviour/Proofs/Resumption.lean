import Behaviour.Proofs.Subtree
import Behaviour.Proofs.Wiring
import Behaviour.Tree

/-!
# Play goes on where it stopped

A tree whose composites keep their places can be evaluated in one go, if a leaf that is still running may be called
again as soon as the caller has made the next change to the scene: `Node.complete` does so, and looks at no cursor.
Ticks do the same in several turns. Between two turns the cursors off the first child lead to the leaf that was
running, and all others are at rest (`Node.Ready`). From there evaluation goes on (`Node.resume`): a visit that ends
running has done the part of it up to that leaf (`resume_of_running`), and the visit that does not has done the rest
(`resume_of_done`). So consecutive ticks make one evaluation (`pursue_completes`).
-/

namespace Behaviour

variable {κ σ : Type}

/-! ## Evaluation in one go -/

/-- Whether a leaf did it. -/
def Event.ofLeaf : Event κ σ → Bool
  | acted _ _ => true
  | finished _ kind _ _ => kind = .leaf
  | tested _ _ | derived _ | judged _ _ => false

/-- What the caller does to the scene between two turns. -/
abbrev Change (κ σ : Type) := Scene κ σ → Scene κ σ

/-- What comes out of an evaluation in one go: the changes that were not needed are left. -/
structure Outcome (κ σ : Type) where
  status : Status
  scene : Scene κ σ
  changes : List (Change κ σ)
  log : List (Event κ σ)

/-- The outcome with what had happened before. -/
def Outcome.after (log : List (Event κ σ)) (o : Outcome κ σ) : Outcome κ σ := { o with log := log ++ o.log }

theorem map_after_map_after (log before : List (Event κ σ)) (o : Option (Outcome κ σ)) :
    (o.map (Outcome.after log)).map (Outcome.after before) = o.map (Outcome.after (before ++ log)) := by
  cases o with
  | none => rfl
  | some o => simp [Outcome.after]

/-- What a decorator without memory and hooks makes of a status. -/
def Decorator.verdict : Decorator κ σ → Status → Status
  | negate => Status.negate
  | delay | await _ | custom _ _ => id

/-- A leaf is called until it is no longer running, each time after the next change; without an answer if the changes
run out. -/
def callUntilDone (label : Label) (act : Act κ σ) : Scene κ σ → List (Change κ σ) → Option (Outcome κ σ)
  | scene, [] =>
    let (status, scene) := act scene
    if status = .running then none
    else some ⟨status, scene, [], [.acted label status, .finished label .leaf status scene]⟩
  | scene, change :: changes =>
    let (status, scene) := act scene
    let log := [.acted label status, .finished label .leaf status scene]
    if status = .running then (callUntilDone label act (change scene) changes).map (Outcome.after log)
    else some ⟨status, scene, change :: changes, log⟩

mutual
/-- The evaluation of a node from the start. -/
def Node.complete : Node κ σ → Scene κ σ → List (Change κ σ) → Option (Outcome κ σ)
  | .leaf label act, scene, changes => callUntilDone label act scene changes
  | .composite _ rule _ _ ns, scene, changes => Node.completeAll rule ns scene changes
  | .decorator _ wrap _ n, scene, changes =>
    (n.complete scene changes).map fun o => { o with status := wrap.verdict o.status }

/-- The evaluation of nodes one after another, as long as the rule goes on. -/
def Node.completeAll (rule : Rule) : List (Node κ σ) → Scene κ σ → List (Change κ σ) → Option (Outcome κ σ)
  | [], scene, changes => some ⟨rule.onward, scene, changes, []⟩
  | n :: ns, scene, changes =>
    (n.complete scene changes).bind fun o =>
      if o.status = rule.onward then (Node.completeAll rule ns o.scene o.changes).map (Outcome.after o.log)
      else some o
end

mutual
/-- The evaluation of a node from the leaf on to which its cursors lead. -/
def Node.resume : Node κ σ → Scene κ σ → List (Change κ σ) → Option (Outcome κ σ)
  | .leaf label act, scene, changes => callUntilDone label act scene changes
  | .composite _ rule keep cursor ns, scene, changes =>
    Node.resumeAll rule (startPlace keep cursor) ns scene changes
  | .decorator _ wrap _ n, scene, changes =>
    (n.resume scene changes).map fun o => { o with status := wrap.verdict o.status }

/-- The evaluation of nodes one after another, after leaving out the first `skip`, as long as the rule goes on. -/
def Node.resumeAll (rule : Rule) : Nat → List (Node κ σ) → Scene κ σ → List (Change κ σ) → Option (Outcome κ σ)
  | _, [], scene, changes => some ⟨rule.onward, scene, changes, []⟩
  | skip + 1, _ :: ns, scene, changes => Node.resumeAll rule skip ns scene changes
  | 0, n :: ns, scene, changes =>
    (n.resume scene changes).bind fun o =>
      if o.status = rule.onward then (Node.resumeAll rule 0 ns o.scene o.changes).map (Outcome.after o.log)
      else some o
end

/-! ## Trees that can be evaluated in one go -/

/-- A leaf, a composite that keeps its place, or a decorator without memory and hooks. -/
def Node.Plain : Node κ σ → Prop
  | .leaf _ _ => True
  | .composite _ _ keep _ _ => keep = true
  | .decorator _ .negate _ _ | .decorator _ (.custom none none) _ _ => True
  | .decorator _ _ _ _ => False

/-- All cursors are fresh or at the first child. -/
def Node.AtRest (n : Node κ σ) : Prop := n.All fun m => m.progress.cursor.getD 0 = 0

mutual
/-- All cursors are at rest but those on the way to one leaf. -/
def Node.Ready : Node κ σ → Prop
  | .leaf _ _ => True
  | .composite _ _ keep cursor ns => Node.ReadyAll (startPlace keep cursor) ns
  | .decorator _ _ _ n => n.Ready

/-- One node, after the first `skip`, is ready; all others are at rest. -/
def Node.ReadyAll : Nat → List (Node κ σ) → Prop
  | _, [] => True
  | skip + 1, n :: ns => n.AtRest ∧ Node.ReadyAll skip ns
  | 0, n :: ns => n.Ready ∧ ∀ m ∈ ns, m.AtRest
end

namespace Node

theorem plain_reset_iff (n : Node κ σ) : n.reset.Plain ↔ n.Plain := by
  cases n with
  | leaf => rfl
  | composite => rfl
  | decorator _ wrap _ _ =>
    cases wrap with
    | negate | delay | await => rfl
    | custom before after => cases before <;> cases after <;> rfl

/-- A visit of a tree that can be evaluated in one go leaves such a tree. -/
theorem plain_visit {n : Node κ σ} (h : n.All Plain) (scene : Scene κ σ) : (n.visit scene).node.All Plain := by
  rw [← all_reset_iff plain_reset_iff, reset_visit, all_reset_iff plain_reset_iff]
  exact h

theorem startPlace_of_atRest {l : Label} {rule : Rule} {keep : Bool} {cursor : Option Nat} {ns : List (Node κ σ)}
    (h : (composite l rule keep cursor ns).AtRest) : startPlace keep cursor = 0 := by
  have hcursor : cursor.getD 0 = 0 := h.self
  cases keep with
  | false => rfl
  | true => exact hcursor

mutual
theorem AtRest.ready : ∀ {n : Node κ σ}, n.AtRest → n.Ready
  | .leaf _ _, _ => by rw [Ready]; trivial
  | .composite _ _ _ _ _, h => by
    rw [Ready, startPlace_of_atRest h]
    exact readyAll_of_atRest fun _ hm => All.child h hm
  | .decorator _ _ _ _, h => by
    rw [Ready]
    exact AtRest.ready (All.child h List.mem_cons_self)

theorem readyAll_of_atRest : ∀ {ns : List (Node κ σ)}, (∀ n ∈ ns, n.AtRest) → ReadyAll 0 ns
  | [], _ => by rw [ReadyAll]; trivial
  | n :: ns, h => by
    rw [ReadyAll]
    exact ⟨(h n List.mem_cons_self).ready, fun m hm => h m (List.mem_cons_of_mem _ hm)⟩
end

mutual
/-- From a node at rest, evaluation goes on from the start. -/
theorem resume_of_atRest : ∀ {n : Node κ σ}, n.AtRest → ∀ scene changes,
    n.resume scene changes = n.complete scene changes
  | .leaf _ _, _, _, _ => by rw [resume, complete]
  | .composite _ _ _ _ _, h, scene, changes => by
    rw [resume, complete, startPlace_of_atRest h]
    exact resumeAll_of_atRest (fun _ hm => All.child h hm) scene changes
  | .decorator _ _ _ _, h, scene, changes => by
    rw [resume, complete, resume_of_atRest (All.child h List.mem_cons_self)]

theorem resumeAll_of_atRest {rule : Rule} : ∀ {ns : List (Node κ σ)}, (∀ n ∈ ns, n.AtRest) → ∀ scene changes,
    resumeAll rule 0 ns scene changes = completeAll rule ns scene changes
  | [], _, _, _ => by rw [resumeAll, completeAll]
  | n :: ns, h, scene, changes => by
    rw [resumeAll, completeAll, resume_of_atRest (h n List.mem_cons_self)]
    simp only [resumeAll_of_atRest fun m hm => h m (List.mem_cons_of_mem _ hm)]
end

/-- A decorator without memory and hooks does nothing but judge the status of its child. -/
theorem visit_plain_decorator {l : Label} {wrap : Decorator κ σ} {m : Memory} {n : Node κ σ}
    (h : (decorator l wrap m n).Plain) (scene : Scene κ σ) : (decorator l wrap m n).visit scene =
      Visit.finish ⟨wrap.verdict (n.visit scene).status, decorator l wrap m (n.visit scene).node,
        (n.visit scene).scene, (n.visit scene).log⟩ := by
  cases wrap with
  | negate => simp [visit, Decorator.enter, Decorator.restore, Decorator.leave, Decorator.verdict]
  | delay => cases h
  | await => cases h
  | custom before after =>
    cases before with
    | some => cases h
    | none =>
      cases after with
      | some => cases h
      | none => simp [visit, Decorator.enter, Decorator.restore, Decorator.leave, Decorator.verdict]

end Node

theorem Decorator.verdict_eq_running_iff {wrap : Decorator κ σ} {s : Status} :
    wrap.verdict s = .running ↔ s = .running := by
  cases wrap <;> simp [verdict]

/-- The end of the visit of a composite or a decorator is no doing of a leaf. -/
theorem filter_finish {v : Visit κ σ} (h : v.node.kind ≠ .leaf) :
    v.finish.log.filter Event.ofLeaf = v.log.filter Event.ofLeaf := by
  simp [Visit.finish, Event.ofLeaf, h]

theorem Rule.kind_ne_leaf : ∀ r : Rule, r.kind ≠ .leaf
  | sequence | selector => by simp [kind]

/-- Evaluation waits for the next change and then goes on; it has no answer if there is no change. -/
def wait (log : List (Event κ σ)) (scene : Scene κ σ)
    (next : Scene κ σ → List (Change κ σ) → Option (Outcome κ σ)) : List (Change κ σ) → Option (Outcome κ σ)
  | [] => none
  | change :: changes => (next (change scene) changes).map (Outcome.after log)

section Waiting

variable {log : List (Event κ σ)} {scene : Scene κ σ}
  {next : Scene κ σ → List (Change κ σ) → Option (Outcome κ σ)}

theorem map_after_wait (before : List (Event κ σ)) (changes : List (Change κ σ)) :
    (wait log scene next changes).map (Outcome.after before) = wait (before ++ log) scene next changes := by
  cases changes with
  | nil => rfl
  | cons change changes => exact map_after_map_after _ _ _

/-- What follows an evaluation follows its part after a change. -/
theorem wait_bind {g : Outcome κ σ → Option (Outcome κ σ)}
    (hg : ∀ o : Outcome κ σ, g (o.after log) = (g o).map (Outcome.after log)) (changes : List (Change κ σ)) :
    (wait log scene next changes).bind g = wait log scene (fun s cs => (next s cs).bind g) changes := by
  cases changes with
  | nil => rfl
  | cons change changes =>
    simp only [wait]
    cases next (change scene) changes with
    | none => rfl
    | some o => exact hg o

end Waiting

namespace Node

/-! ## The last turn -/

theorem callUntilDone_of_done {label : Label} {act : Act κ σ} {scene : Scene κ σ}
    (h : (act scene).1 ≠ .running) (changes : List (Change κ σ)) : callUntilDone label act scene changes =
      some ⟨(act scene).1, (act scene).2, changes,
        [.acted label (act scene).1, .finished label .leaf (act scene).1 (act scene).2]⟩ := by
  cases changes <;> simp [callUntilDone, h]

mutual
/-- A visit that does not end running is all that is left of the evaluation, and leaves the node at rest. -/
theorem resume_of_done : ∀ {n : Node κ σ} {scene : Scene κ σ}, n.All Plain → n.Ready →
    (n.visit scene).status ≠ .running → (n.visit scene).node.AtRest ∧ ∀ changes, n.resume scene changes =
      some ⟨(n.visit scene).status, (n.visit scene).scene, changes, (n.visit scene).log.filter Event.ofLeaf⟩
  | .leaf l act, scene, _, _, hdone => by
    refine ⟨All.of_children rfl fun _ hm => (nomatch hm), fun changes => ?_⟩
    rw [resume, callUntilDone_of_done hdone]
    rfl
  | .composite l rule keep cursor ns, scene, hplain, hready, hdone => by
    rw [Ready] at hready
    have hns : ∀ m ∈ ns, m.All Plain := fun _ hm => hplain.child hm
    obtain ⟨hrest, hresume⟩ := resumeAll_of_done hns hready hdone
    refine ⟨All.of_children ?_ hrest, fun changes => ?_⟩
    · exact congrArg (fun i => (some i).getD 0) (if_neg hdone)
    · rw [resume, hresume, visit, filter_finish (by exact rule.kind_ne_leaf)]
      rfl
  | .decorator l wrap m n, scene, hplain, hready, hdone => by
    rw [Ready] at hready
    rw [visit_plain_decorator hplain.self] at hdone ⊢
    obtain ⟨hrest, hresume⟩ := resume_of_done (hplain.child List.mem_cons_self) hready
      (fun h => hdone (Decorator.verdict_eq_running_iff.2 h))
    refine ⟨All.of_children rfl fun _ hm => List.mem_singleton.1 hm ▸ hrest, fun changes => ?_⟩
    rw [resume, hresume, filter_finish (by simp [kind])]
    rfl

theorem resumeAll_of_done {rule : Rule} : ∀ {skip : Nat} {ns : List (Node κ σ)} {scene : Scene κ σ},
    (∀ n ∈ ns, n.All Plain) → ReadyAll skip ns → (scan rule skip ns scene).status ≠ .running →
      (∀ n ∈ (scan rule skip ns scene).children, n.AtRest) ∧ ∀ changes, resumeAll rule skip ns scene changes =
        some ⟨(scan rule skip ns scene).status, (scan rule skip ns scene).scene, changes,
          (scan rule skip ns scene).log.filter Event.ofLeaf⟩
  | _, [], _, _, _, _ => by simp [scan, resumeAll]
  | skip + 1, n :: ns, scene, hplain, hready, hdone => by
    rw [ReadyAll] at hready
    obtain ⟨hrest, hresume⟩ := resumeAll_of_done (fun m hm => hplain m (List.mem_cons_of_mem _ hm)) hready.2 hdone
    exact ⟨List.forall_mem_cons.2 ⟨hready.1, hrest⟩, hresume⟩
  | 0, n :: ns, scene, hplain, hready, hdone => by
    rw [ReadyAll] at hready
    by_cases honward : (n.visit scene).status = rule.onward
    · rw [scan_of_onward honward] at hdone ⊢
      obtain ⟨hn, hresume⟩ := resume_of_done (hplain n List.mem_cons_self) hready.1 (honward ▸ rule.onward_ne_running)
      obtain ⟨hns, hresumes⟩ := resumeAll_of_done (fun m hm => hplain m (List.mem_cons_of_mem _ hm))
        (readyAll_of_atRest hready.2) hdone
      refine ⟨List.forall_mem_cons.2 ⟨hn, hns⟩, fun changes => ?_⟩
      rw [resumeAll, hresume]
      simp only [Option.bind_some, if_pos honward, hresumes, Option.map_some, Outcome.after, List.filter_append]
    · rw [scan_of_ne_onward honward] at hdone ⊢
      obtain ⟨hn, hresume⟩ := resume_of_done (hplain n List.mem_cons_self) hready.1 hdone
      refine ⟨List.forall_mem_cons.2 ⟨hn, hready.2⟩, fun changes => ?_⟩
      rw [resumeAll, hresume]
      exact if_neg honward
end

/-! ## The turns before -/

theorem callUntilDone_of_running {label : Label} {act : Act κ σ} {scene : Scene κ σ} (h : (act scene).1 = .running)
    (changes : List (Change κ σ)) : callUntilDone label act scene changes =
      wait [.acted label (act scene).1, .finished label .leaf (act scene).1 (act scene).2] (act scene).2
        (callUntilDone label act) changes := by
  cases changes <;> simp [callUntilDone, wait, h]

mutual
/-- A visit that ends running is the part of the evaluation up to the leaf that is running; the node that it leaves is
ready for the rest. -/
theorem resume_of_running : ∀ {n : Node κ σ} {scene : Scene κ σ}, n.All Plain → n.Ready →
    (n.visit scene).status = .running → (n.visit scene).node.Ready ∧ ∀ changes, n.resume scene changes =
      wait ((n.visit scene).log.filter Event.ofLeaf) (n.visit scene).scene (n.visit scene).node.resume changes
  | .leaf l act, scene, _, hready, hrun => by
    have hact : (act scene).1 = .running := hrun
    refine ⟨hready, fun changes => ?_⟩
    rw [resume, callUntilDone_of_running hact]
    cases changes <;> rfl
  | .composite l rule keep cursor ns, scene, hplain, hready, hrun => by
    rw [Ready] at hready
    have hns : ∀ m ∈ ns, m.All Plain := fun _ hm => hplain.child hm
    obtain rfl : keep = true := hplain.self
    obtain ⟨hready', hresume⟩ := resumeAll_of_running hns hready hrun
    let r := scan rule (startPlace true cursor) ns scene
    have hvisit : (composite l rule true cursor ns).visit scene =
        Visit.finish ⟨r.status, composite l rule true (some r.stop) r.children, r.scene, r.log⟩ := by
      rw [visit, if_pos (by exact hrun)]
    refine ⟨?_, fun changes => ?_⟩
    · rw [hvisit, Visit.finish, Ready]
      exact hready'
    · rw [resume, hresume, hvisit, filter_finish (by exact rule.kind_ne_leaf)]
      cases changes <;> rfl
  | .decorator l wrap m n, scene, hplain, hready, hrun => by
    rw [Ready] at hready
    rw [visit_plain_decorator hplain.self] at hrun ⊢
    obtain ⟨hready', hresume⟩ := resume_of_running (hplain.child List.mem_cons_self) hready
      (Decorator.verdict_eq_running_iff.1 hrun)
    refine ⟨?_, fun changes => ?_⟩
    · rw [Visit.finish, Ready]
      exact hready'
    · rw [resume, hresume, filter_finish (by simp [kind]), Option.map_eq_bind, wait_bind fun o => rfl]
      cases changes with
      | nil => rfl
      | cons change changes =>
        simp only [wait, Visit.finish, resume, Option.map_eq_bind]

theorem resumeAll_of_running {rule : Rule} : ∀ {skip : Nat} {ns : List (Node κ σ)} {scene : Scene κ σ},
    (∀ n ∈ ns, n.All Plain) → ReadyAll skip ns → (scan rule skip ns scene).status = .running →
      ReadyAll (scan rule skip ns scene).stop (scan rule skip ns scene).children ∧
      ∀ changes, resumeAll rule skip ns scene changes =
        wait ((scan rule skip ns scene).log.filter Event.ofLeaf) (scan rule skip ns scene).scene
          (resumeAll rule (scan rule skip ns scene).stop (scan rule skip ns scene).children) changes
  | _, [], _, _, _, hrun => by
    rw [scan] at hrun
    exact absurd hrun rule.onward_ne_running
  | skip + 1, n :: ns, scene, hplain, hready, hrun => by
    rw [ReadyAll] at hready
    -- What is left out is at rest, and stays left out.
    obtain ⟨hready', hresume⟩ := resumeAll_of_running (fun m hm => hplain m (List.mem_cons_of_mem _ hm)) hready.2 hrun
    rw [scan]
    exact ⟨⟨hready.1, hready'⟩, hresume⟩
  | 0, n :: ns, scene, hplain, hready, hrun => by
    rw [ReadyAll] at hready
    by_cases honward : (n.visit scene).status = rule.onward
    · -- The first node has finished and is passed for good; the one that is running comes after it.
      rw [scan_of_onward honward] at hrun ⊢
      obtain ⟨hn, hresume⟩ := resume_of_done (hplain n List.mem_cons_self) hready.1 (honward ▸ rule.onward_ne_running)
      obtain ⟨hns, hresumes⟩ := resumeAll_of_running (fun m hm => hplain m (List.mem_cons_of_mem _ hm))
        (readyAll_of_atRest hready.2) hrun
      refine ⟨⟨hn, hns⟩, fun changes => ?_⟩
      rw [resumeAll, hresume, List.filter_append, ← map_after_wait]
      refine (if_pos honward).trans ?_
      rw [hresumes]
      cases changes <;> rfl
    · -- The first node is running, and the nodes after it wait with it.
      rw [scan_of_ne_onward honward] at hrun ⊢
      obtain ⟨hn, hresume⟩ := resume_of_running (hplain n List.mem_cons_self) hready.1 hrun
      refine ⟨⟨hn, hready.2⟩, fun changes => ?_⟩
      rw [resumeAll, hresume, wait_bind]
      · cases changes <;> rfl
      · intro o
        by_cases ho : o.status = rule.onward
        · rw [if_pos ho, map_after_map_after]
          exact if_pos ho
        · rw [if_neg ho]
          exact if_neg ho
end

end Node

/-! ## Consecutive ticks -/

/-- Consecutive ticks, with one change to the scene between two of them. -/
def Tree.pursue (t : Tree κ σ) (scene : Scene κ σ) : List (Change κ σ) → Except Fault (List (Turn κ σ))
  | [] => do return [← t.tick scene]
  | change :: changes => do
    let turn ← t.tick scene
    return turn :: (← turn.tree.pursue (change turn.scene) changes)

/-- Consecutive ticks from a tree that is ready do what is left of the evaluation. -/
theorem resume_of_pursue : ∀ (changes : List (Change κ σ)) {t : Tree κ σ} {n : Node κ σ} (scene : Scene κ σ),
    t.plan = .ok n → n.All Node.Plain → n.Ready → ∃ (turns : List (Turn κ σ)) (last : Turn κ σ),
      t.pursue scene changes = .ok (turns ++ [last]) ∧ turns.length = changes.length ∧
      ((∀ u ∈ turns, u.status = .running) → last.status ≠ .running →
        n.resume scene changes =
          some ⟨last.status, last.scene, [], ((turns ++ [last]).flatMap Turn.log).filter Event.ofLeaf⟩ ∧
        ∃ n', last.tree.plan = .ok n' ∧ n'.AtRest)
  | [], t, n, scene, hplan, hplain, hready => by
    refine ⟨[], _, by rw [Tree.pursue, Tree.tick_of_plan hplan]; rfl, rfl, fun _ hdone => ?_⟩
    obtain ⟨hrest, hresume⟩ := Node.resume_of_done hplain hready hdone
    refine ⟨?_, _, rfl, hrest⟩
    rw [hresume, List.nil_append, List.flatMap_singleton]
  | change :: changes, t, n, scene, hplan, hplain, hready => by
    let v := n.visit scene
    let t' : Tree κ σ := { t with plan := .ok v.node, lastStatus := v.status, ticks := t.ticks + 1 }
    -- However the first turn ends, the tree is ready for the next one.
    have hready' : v.node.Ready := by
      by_cases hrun : v.status = .running
      · exact (Node.resume_of_running hplain hready hrun).1
      · exact (Node.resume_of_done hplain hready hrun).1.ready
    obtain ⟨turns, last, hpursue, hlength, hends⟩ := resume_of_pursue changes (t := t') (change v.scene) rfl
      (Node.plain_visit hplain scene) hready'
    refine ⟨⟨v.status, t', v.scene, v.log⟩ :: turns, last, ?_, by rw [List.length_cons, List.length_cons, hlength],
      fun hrun hdone => ?_⟩
    · rw [Tree.pursue, Tree.tick_of_plan hplan]
      change (do return _ :: (← t'.pursue (change v.scene) changes)) = _
      rw [hpursue]
      rfl
    · obtain ⟨hv, hrun⟩ := List.forall_mem_cons.1 hrun
      obtain ⟨hresume, hplan'⟩ := hends hrun hdone
      refine ⟨?_, hplan'⟩
      rw [(Node.resume_of_running hplain hready hv).2, wait, hresume, List.cons_append, List.flatMap_cons,
        List.filter_append]
      rfl

/-- Ticks of a tree whose composites keep their places and whose decorators have neither memory nor hooks, from a point
where all cursors are at rest, with any change of the scene between two of them. If all ticks but the last one answer
that the tree is running, then together they are one evaluation of the tree that waits for a change whenever a leaf is
running: they have its leaf calls, its status and its scene, and all cursors are at rest again. -/
theorem pursue_completes {t : Tree κ σ} {n : Node κ σ} (hplan : t.plan = .ok n) (hplain : n.All Node.Plain)
    (hrest : n.AtRest) (scene : Scene κ σ) (changes : List (Change κ σ)) :
    ∃ (turns : List (Turn κ σ)) (last : Turn κ σ),
      t.pursue scene changes = .ok (turns ++ [last]) ∧ turns.length = changes.length ∧
      ((∀ u ∈ turns, u.status = .running) → last.status ≠ .running →
        n.complete scene changes =
          some ⟨last.status, last.scene, [], ((turns ++ [last]).flatMap Turn.log).filter Event.ofLeaf⟩ ∧
        ∃ n', last.tree.plan = .ok n' ∧ n'.AtRest) := by
  rw [← Node.resume_of_atRest hrest]
  exact resume_of_pursue changes scene hplan hplain hrest.ready

/-- A guard listens for as long as it takes, and sleeps if all is quiet. -/
def guardCalls : List (Call Unit Nat) :=
  [.composite .selector "guard" true, .leaf "listen" (some fun s => (if s.world < 2 then .running else .success, s)),
    .negate "alarm", .leaf "sleep" (some fun s => (.success, s)), .decorate 2 1, .attach 0 2, .attach 0 3]

/-- The tree that these calls build. -/
def guardNode : Node Unit Nat :=
  .composite ⟨0, "guard"⟩ .selector true none
    [.decorator ⟨2, "alarm"⟩ .negate {} (.leaf ⟨1, "listen"⟩ fun s => (if s.world < 2 then .running else .success, s)),
      .leaf ⟨3, "sleep"⟩ fun s => (.success, s)]

theorem pursue_completes_guard :
    let t := Tree.freeze (Builder.built 4 guardCalls) 0
    let changes : List (Change Unit Nat) := [fun s => { s with world := 1 }, fun s => { s with world := 2 }]
    (t.pursue ⟨(), 0⟩ changes).map (List.map Turn.status) = .ok [.running, .running, .success] ∧
    (guardNode.complete ⟨(), 0⟩ changes).map Outcome.status = some .success ∧
    ∃ (turns : List (Turn Unit Nat)) (last : Turn Unit Nat),
      t.pursue ⟨(), 0⟩ changes = .ok (turns ++ [last]) ∧ turns.length = changes.length ∧
      ((∀ u ∈ turns, u.status = .running) → last.status ≠ .running →
        guardNode.complete ⟨(), 0⟩ changes =
          some ⟨last.status, last.scene, [], ((turns ++ [last]).flatMap Turn.log).filter Event.ofLeaf⟩ ∧
        ∃ n', last.tree.plan = .ok n' ∧ n'.AtRest) := by
  have hplain : guardNode.All Node.Plain := by
    simp [guardNode, Node.All, Node.subtree, Node.Plain]
  have hrest : guardNode.AtRest := by
    simp [guardNode, Node.AtRest, Node.All, Node.subtree, Node.progress]
  exact ⟨rfl, rfl, pursue_completes rfl hplain hrest _ _⟩

end Behaviour
