import Mathlib.Data.List.Forall2
import Behaviour.Proofs.Essence
import Behaviour.Corridor.Warrior

/-!
# What nodes do in a corridor

`Does stats w n status actions next` says all that a caller can tell of a visit of `n` in the world `w`: it answers
`status`, takes exactly these actions, of which the world that it leaves is what has become, and goes on as `next`, but
for progress that no later visit reads. `Scans` says the same of children that are visited in order.

There is one rule for each kind of node (`Does.act`, `Asks.leaf`, `Does.composite`, …). From them come the two shapes
that subtrees of the warrior have: an action behind several questions (`does_guarded`) and a question with several
alternatives (`asks_any`).
-/

namespace Behaviour.Corridor

/-! ## Deeds -/

/-- The world after several actions in order. -/
def World.after (w : World) (actions : List Action) : World := actions.foldl World.act w

@[simp] theorem World.after_nil (w : World) : w.after [] = w := rfl

@[simp] theorem World.after_cons (w : World) (a : Action) (actions : List Action) :
    w.after (a :: actions) = (w.act a).after actions := rfl

theorem World.after_append (w : World) (as bs : List Action) : w.after (as ++ bs) = (w.after as).after bs :=
  List.foldl_append

/-- The action that a leaf of the warrior takes, told by its name. -/
def Action.ofName? : String → Option Action
  | "walk" => some (.walk .forward)
  | "walk_backward" => some (.walk .backward)
  | "fight" => some (.attack .forward)
  | "shoot" => some (.shoot .forward)
  | "turn_around" => some .pivot
  | "rest" => some .rest
  | "rescue" => some (.rescue .forward)
  | _ => none

/-- The action that was taken with an event, if it is that a leaf acted. -/
def deed? : Event Stats World → Option Action
  | .acted label _ => Action.ofName? label.name
  | .tested _ _ | .derived _ | .judged _ _ | .finished _ _ _ _ => none

/-- The actions that were taken, in order. -/
def deeds (log : List (Event Stats World)) : List Action := log.filterMap deed?

@[simp] theorem deeds_nil : deeds [] = [] := rfl

@[simp] theorem deeds_cons (e : Event Stats World) (es : List (Event Stats World)) :
    deeds (e :: es) = (deed? e).toList ++ deeds es := by
  cases h : deed? e <;> simp [deeds, h]

@[simp] theorem deeds_append (as bs : List (Event Stats World)) : deeds (as ++ bs) = deeds as ++ deeds bs :=
  List.filterMap_append

/-! ## What a visit comes to -/

/-- What comes of a visit of a node in a world. -/
structure Does (stats : Stats) (w : World) (n : Node Stats World) (status : Status) (actions : List Action)
    (next : Node Stats World) : Prop where
  status_eq : (n.visit ⟨stats, w⟩).status = status
  deeds_eq : deeds (n.visit ⟨stats, w⟩).log = actions
  scene_eq : (n.visit ⟨stats, w⟩).scene = ⟨stats, w.after actions⟩
  next_equiv : (n.visit ⟨stats, w⟩).node ≈ next

/-- What comes of visiting children in order, after leaving out the first ones. -/
structure Scans (stats : Stats) (w : World) (rule : Rule) (skip : Nat) (ns : List (Node Stats World)) (status : Status)
    (stop : Nat) (actions : List Action) (nexts : List (Node Stats World)) : Prop where
  status_eq : (Node.scan rule skip ns ⟨stats, w⟩).status = status
  stop_eq : (Node.scan rule skip ns ⟨stats, w⟩).stop = stop
  deeds_eq : deeds (Node.scan rule skip ns ⟨stats, w⟩).log = actions
  scene_eq : (Node.scan rule skip ns ⟨stats, w⟩).scene = ⟨stats, w.after actions⟩
  nexts_equiv : (Node.scan rule skip ns ⟨stats, w⟩).children.map Node.essence = nexts.map Node.essence

/-- The node tells whether something holds, and nothing comes of asking it. -/
def Asks (stats : Stats) (w : World) (n : Node Stats World) (answer : Bool) : Prop :=
  Does stats w n (statusOf answer) [] n

variable {stats : Stats} {w : World} {n m : Node Stats World} {ns ms : List (Node Stats World)} {r : Rule}
  {left stop : Nat} {status : Status} {actions more : List Action} {label : Label}

/-! ## Children in order -/

theorem Scans.nil : Scans stats w r 0 [] r.onward 0 [] [] := ⟨rfl, rfl, rfl, rfl, rfl⟩

/-- The first child is left out. -/
theorem Scans.leave (h : Scans stats w r left ns status stop actions ms) :
    Scans stats w r (left + 1) (n :: ns) status (stop + 1) actions (n :: ms) := by
  have hscan : Node.scan r (left + 1) (n :: ns) ⟨stats, w⟩ =
      let s := Node.scan r left ns ⟨stats, w⟩
      { s with stop := s.stop + 1, children := n :: s.children } := by rw [Node.scan]
  refine ⟨?_, ?_, ?_, ?_, ?_⟩ <;> rw [hscan]
  · exact h.status_eq
  · exact congrArg (· + 1) h.stop_eq
  · exact h.deeds_eq
  · exact h.scene_eq
  · exact congrArg (n.essence :: ·) h.nexts_equiv

/-- The rule goes on from the first child. -/
theorem Scans.go (hn : Does stats w n r.onward actions m)
    (hns : Scans stats (w.after actions) r 0 ns status stop more ms) :
    Scans stats w r 0 (n :: ns) status (stop + 1) (actions ++ more) (m :: ms) := by
  have hscan := Node.scan_of_onward hn.status_eq ns
  rw [hn.scene_eq] at hscan
  refine ⟨?_, ?_, ?_, ?_, ?_⟩ <;> rw [hscan]
  · exact hns.status_eq
  · exact congrArg (· + 1) hns.stop_eq
  · rw [deeds_append, hn.deeds_eq, hns.deeds_eq]
  · rw [World.after_append]
    exact hns.scene_eq
  · rw [List.map_cons, List.map_cons, hns.nexts_equiv, Node.equiv_iff.1 hn.next_equiv]

theorem Scans.last (hn : Does stats w n r.onward actions m) : Scans stats w r 0 [n] r.onward 1 actions [m] := by
  simpa using Scans.go hn Scans.nil

/-- The first child settles it. -/
theorem Scans.halt (hn : Does stats w n status actions m) (hstatus : status ≠ r.onward) :
    Scans stats w r 0 (n :: ns) status 0 actions (m :: ns) := by
  have hne : (n.visit ⟨stats, w⟩).status ≠ r.onward := fun h => hstatus (hn.status_eq.symm.trans h)
  have hscan := Node.scan_of_ne_onward hne ns
  refine ⟨?_, ?_, ?_, ?_, ?_⟩ <;> rw [hscan]
  · exact hn.status_eq
  · exact hn.deeds_eq
  · exact hn.scene_eq
  · rw [List.map_cons, List.map_cons, Node.equiv_iff.1 hn.next_equiv]

/-! ## Leaves and composites -/

theorem Does.act {a : Action} (h : Action.ofName? label.name = some a) :
    Does stats w (.leaf label a.leaf) .success [a] (.leaf label a.leaf) := by
  refine ⟨rfl, ?_, rfl, Setoid.refl _⟩
  simp [Node.visit, Visit.finish, Action.leaf, deed?, h]

theorem Asks.leaf {c : Condition} (h : Action.ofName? label.name = none) :
    Asks stats w (.leaf label c.leaf) (c.holds stats w) := by
  refine ⟨rfl, ?_, rfl, Setoid.refl _⟩
  simp [Node.visit, Visit.finish, Condition.leaf, deed?, h]

theorem Does.composite {keep : Bool} {cursor : Option Nat}
    (h : Scans stats w r (startPlace keep cursor) ns status stop actions ms) :
    Does stats w (.composite label r keep cursor ns) status actions
      (.composite label r keep (some (if status = .running then stop else 0)) ms) := by
  refine ⟨h.status_eq, ?_, h.scene_eq, ?_⟩
  · simpa [Node.visit, Visit.finish, deed?] using h.deeds_eq
  · simp only [Node.visit, Visit.finish, h.status_eq, h.stop_eq]
    exact Node.equiv_composite rfl h.nexts_equiv

/-! ## Decorators -/

section Decorators

variable {memory : Memory}

/-- A decorator that takes no action itself and leaves the scene alone. -/
theorem Does.decorator {wrap : Decorator Stats World} {o : Opening Stats World} {c : Closing Stats World} {s : Status}
    (hn : Does stats w n s actions m) (henter : wrap.enter label memory ⟨stats, w⟩ = o) (hopen : o.scene = ⟨stats, w⟩)
    (hquiet : deeds o.log = [])
    (hleave : wrap.leave label o.memory s (wrap.restore ⟨stats, w⟩ ⟨stats, w.after actions⟩) = c)
    (hclose : c.scene = ⟨stats, w.after actions⟩) (hquiet' : deeds c.log = []) :
    Does stats w (.decorator label wrap memory n) c.status actions (.decorator label wrap c.memory m) := by
  have hvisit : Node.visit (.decorator label wrap memory n) ⟨stats, w⟩ =
      Visit.finish ⟨c.status, .decorator label wrap c.memory (n.visit ⟨stats, w⟩).node, c.scene,
        o.log ++ (n.visit ⟨stats, w⟩).log ++ c.log⟩ := by
    rw [Node.visit]
    simp only [henter, hopen, hn.status_eq, hn.scene_eq, hleave]
  refine ⟨?_, ?_, ?_, ?_⟩ <;> rw [hvisit]
  · rfl
  · simp [Visit.finish, hquiet, hquiet', hn.deeds_eq, deed?]
  · exact hclose
  · rw [Visit.finish, Node.equiv_iff, Node.essence, Node.essence, Node.equiv_iff.1 hn.next_equiv]

theorem Asks.negate {answer : Bool} (h : Asks stats w n answer) :
    Asks stats w (.decorator label .negate memory n) (!answer) := by
  have hstatus : (statusOf answer).negate = statusOf !answer := by cases answer <;> rfl
  rw [Asks, ← hstatus]
  exact Does.decorator (c := ⟨_, memory, _, []⟩) h rfl rfl rfl rfl rfl rfl

/-- A result is held back. -/
theorem Does.hold {s : Status} (h : Does stats w n s actions m) (hp : memory.hasPending = false) :
    Does stats w (.decorator label .delay memory n) .running actions
      (.decorator label .delay { memory with pending := s, hasPending := true } m) := by
  refine h.decorator (c := ⟨_, _, _, []⟩) rfl rfl rfl ?_ rfl rfl
  simp [Decorator.leave, Decorator.enter, Decorator.restore, hp]

/-- The result that is held back is released, and that of the new visit is lost. -/
theorem Does.release {s : Status} (h : Does stats w n s actions m) (hp : memory.hasPending = true) :
    Does stats w (.decorator label .delay memory n) memory.pending actions
      (.decorator label .delay { memory with hasPending := false } m) := by
  refine h.decorator (c := ⟨_, _, _, []⟩) rfl rfl rfl ?_ rfl rfl
  simp [Decorator.leave, Decorator.enter, Decorator.restore, hp]

/-- A child that succeeds is kept going until the test holds. -/
theorem Does.await {test : Test Stats World} {answer : Bool} (h : Does stats w n .success actions m)
    (htest : test ⟨stats, w⟩ = (answer, ⟨stats, w⟩)) (hd : memory.done = false) :
    Does stats w (.decorator label (.await test) memory n) (if answer then .success else .running) actions
      (.decorator label (.await test) memory m) := by
  have henter : (Decorator.await test).enter label memory ⟨stats, w⟩ =
      ⟨{ memory with done := answer }, ⟨stats, w⟩, [.tested label answer]⟩ := by
    simp [Decorator.enter, hd, htest]
  have hleave : (Decorator.await test).leave label { memory with done := answer } .success
      ⟨stats, w.after actions⟩ = ⟨if answer then .success else .running, memory, ⟨stats, w.after actions⟩, []⟩ := by
    obtain ⟨pending, hasPending, done, counter⟩ := memory
    obtain rfl : done = false := hd
    cases answer <;> rfl
  exact h.decorator henter rfl rfl hleave rfl rfl

end Decorators

/-! ## Equivalent nodes -/

/-- A visit of an equivalent node comes to the same. -/
theorem Does.of_equiv (h : Does stats w n status actions m) {n' : Node Stats World} (hn : n' ≈ n) :
    Does stats w n' status actions m := by
  obtain ⟨hstatus, hnode, hscene, hlog⟩ := Node.visit_congr hn ⟨stats, w⟩
  exact ⟨hstatus.trans h.status_eq, hlog ▸ h.deeds_eq, hscene.trans h.scene_eq, Setoid.trans hnode h.next_equiv⟩

theorem Does.next (h : Does stats w n status actions m) {m' : Node Stats World} (hm : m ≈ m') :
    Does stats w n status actions m' :=
  ⟨h.status_eq, h.deeds_eq, h.scene_eq, Setoid.trans h.next_equiv hm⟩

/-! ## Questions -/

section Questions

variable {qs : List (Node Stats World)} {answers : List Bool} {cursor : Option Nat}

/-- Behind questions that are all answered with yes, the rest is visited. -/
theorem Scans.asks (hqs : List.Forall₂ (Asks stats w) qs answers) (hall : answers.all id = true)
    (hns : Scans stats w .sequence 0 ns status stop actions ms) :
    Scans stats w .sequence 0 (qs ++ ns) status (qs.length + stop) actions (qs ++ ms) := by
  induction hqs with
  | nil => simpa using hns
  | @cons q answer qs answers hq _ ih =>
    cases answer with
    | true => simpa [Nat.add_right_comm] using Scans.go (r := .sequence) hq (ih hall)
    | false => cases hall

/-- A question that is answered with no ends it. -/
theorem Scans.asks_no (hqs : List.Forall₂ (Asks stats w) qs answers) (hall : answers.all id = false) :
    ∃ stop, Scans stats w .sequence 0 (qs ++ ns) .failure stop [] (qs ++ ns) := by
  induction hqs with
  | nil => cases hall
  | @cons q answer qs answers hq _ ih =>
    cases answer with
    | true =>
      obtain ⟨stop, hstop⟩ := ih hall
      exact ⟨stop + 1, Scans.go (r := .sequence) hq hstop⟩
    | false => exact ⟨0, Scans.halt hq nofun⟩

/-- An action behind questions is taken if all of them are answered with yes. -/
theorem does_guarded (hqs : List.Forall₂ (Asks stats w) qs answers) (hn : Does stats w n .success actions n) :
    Does stats w (.composite label .sequence false cursor (qs ++ [n])) (statusOf (answers.all id))
      (if answers.all id then actions else []) (.composite label .sequence false cursor (qs ++ [n])) := by
  have hnext : ∀ c, Node.composite label .sequence false c (qs ++ [n]) ≈
      .composite label .sequence false cursor (qs ++ [n]) := fun _ => Node.equiv_composite rfl rfl
  cases hall : answers.all id with
  | true =>
    exact (Does.composite (Scans.asks hqs hall (Scans.last hn))).next (hnext _)
  | false =>
    obtain ⟨stop, hstop⟩ := Scans.asks_no hqs hall
    exact (Does.composite hstop).next (hnext _)

/-- A question with alternatives is answered with yes if one of them is. -/
theorem asks_any (hqs : List.Forall₂ (Asks stats w) qs answers) :
    Asks stats w (.composite label .selector false cursor qs) (answers.any id) := by
  have hscan : ∃ stop, Scans stats w .selector 0 qs (statusOf (answers.any id)) stop [] qs := by
    induction hqs with
    | nil => exact ⟨0, Scans.nil⟩
    | @cons q answer qs answers hq _ ih =>
      cases answer with
      | true => exact ⟨0, Scans.halt hq nofun⟩
      | false =>
        obtain ⟨stop, hstop⟩ := ih
        exact ⟨stop + 1, Scans.go (r := .selector) hq hstop⟩
  obtain ⟨stop, hstop⟩ := hscan
  exact (Does.composite hstop).next (Node.equiv_composite rfl rfl)

end Questions

end Behaviour.Corridor
