import Behaviour.Proofs.Sight

/-!
# One action a turn

Only the first action of a turn counts. A sequence of actions, questions and ends of turns comes to the same as the
sequence without its *belated* actions (`punctual`), those that come after another action of the same turn: the
corridor and the warrior are the same, all questions are answered in the same way, and only the count of rejected
actions tells the difference (`World.runs_punctual`). What is rejected depends on the sequence alone, since the turn is
used up as soon as an action was taken (`World.acted_run`), even one in vain (`World.act_of_idle`).

The same is true where the ends of turns are reckoned cell by cell and need not come to an end: leaving out belated
actions does not change whether they do (`World.runInPlace_punctual`). All of them do unless the warrior starts on an
archer's cell (`World.runInPlace_eq_run`).

`one_action_a_turn` puts these together.
-/

namespace Behaviour.Corridor

/-! ## Sequences -/

/-- What can be found out about the world at any time. -/
inductive Sense where
  | feel (h : Heading)
  | look (h : Heading)
  | health
  | maxHealth
  deriving DecidableEq

/-- What is found out. -/
inductive Finding where
  | space (s : World.Space)
  | spaces (ss : List World.Space)
  | number (n : Int)
  deriving DecidableEq

/-- Something happens, or a question is asked. -/
inductive Incident where
  | happens (x : Happening)
  | asked (s : Sense)
  deriving DecidableEq

namespace Incident

def isAction : Incident → Bool
  | happens (.act _) => true
  | happens .endTurn | happens (.setHealth _) | asked _ => false

def endsTurn : Incident → Bool
  | happens .endTurn => true
  | happens (.act _) | happens (.setHealth _) | asked _ => false

theorem exists_of_isAction {x : Incident} (hx : x.isAction = true) : ∃ a, x = happens (.act a) := by
  cases x with
  | asked s => cases hx
  | happens x =>
    cases x with
    | act a => exact ⟨a, rfl⟩
    | endTurn => cases hx
    | setHealth health => cases hx

end Incident

/-- Whether there was an action since the last end of a turn, or since the beginning. -/
def spent (before : List Incident) : Bool := (before.reverse.takeWhile fun x => !x.endsTurn).any Incident.isAction

/-- Whether at a place is an action that is not the first one of its turn. -/
def isBelated (xs : List Incident) (j : Nat) : Bool := xs[j]?.any Incident.isAction && spent (xs.take j)

/-- A sequence without its belated actions. -/
def punctual (xs : List Incident) : List Incident := (xs.zipIdx.filter fun (_, j) => !isBelated xs j).map Prod.fst

/-- The number of belated actions. -/
def belated (xs : List Incident) : Nat := (List.range xs.length).countP (isBelated xs)

variable {xs : List Incident} {x : Incident}

theorem spent_concat (xs : List Incident) (x : Incident) :
    spent (xs ++ [x]) = (!x.endsTurn && (x.isAction || spent xs)) := by
  rw [spent, List.reverse_append, List.reverse_singleton, List.singleton_append, List.takeWhile_cons]
  cases x.endsTurn with
  | true => rfl
  | false => rfl

theorem isBelated_concat_of_lt {j : Nat} (hj : j < xs.length) : isBelated (xs ++ [x]) j = isBelated xs j := by
  rw [isBelated, List.getElem?_append_left hj, List.take_append_of_le_length (Nat.le_of_lt hj), isBelated]

theorem isBelated_concat_self (xs : List Incident) (x : Incident) :
    isBelated (xs ++ [x]) xs.length = (x.isAction && spent xs) := by
  rw [isBelated, List.getElem?_concat_length, List.take_left]
  rfl

/-- What comes last is left out if it is a belated action; what came before is not affected. -/
theorem punctual_concat (xs : List Incident) (x : Incident) :
    punctual (xs ++ [x]) = punctual xs ++ if x.isAction && spent xs then [] else [x] := by
  have hbefore : ∀ y ∈ xs.zipIdx, (!isBelated (xs ++ [x]) y.2) = !isBelated xs y.2 := by
    intro y hy
    rw [isBelated_concat_of_lt (List.snd_lt_of_mem_zipIdx hy)]
  rw [punctual, List.zipIdx_append, List.filter_append, List.filter_congr hbefore, List.map_append, ← punctual]
  congr 1
  simp only [List.zipIdx_singleton, Nat.zero_add, List.filter_cons, isBelated_concat_self, List.filter_nil]
  cases x.isAction && spent xs <;> rfl

theorem belated_concat (xs : List Incident) (x : Incident) :
    belated (xs ++ [x]) = belated xs + if x.isAction && spent xs then 1 else 0 := by
  have hbefore : ∀ j ∈ List.range xs.length, isBelated (xs ++ [x]) j = true ↔ isBelated xs j = true := by
    intro j hj
    rw [isBelated_concat_of_lt (List.mem_range.1 hj)]
  rw [belated, List.length_append, List.length_singleton, List.range_succ, List.countP_append,
    List.countP_congr hbefore, ← belated, List.countP_singleton, isBelated_concat_self]

/-- Nothing but belated actions is left out. -/
theorem length_punctual (xs : List Incident) : (punctual xs).length + belated xs = xs.length := by
  induction xs using List.reverseRecOn with
  | nil => rfl
  | append_singleton xs x ih =>
    rw [punctual_concat, belated_concat, List.length_append, List.length_append, List.length_singleton, ← ih]
    split <;> simp only [List.length_nil, List.length_singleton] <;> omega

namespace World

/-! ## Runs -/

/-- The answer to a question. -/
def find (w : World) : Sense → Finding
  | .feel h => .space (w.feel h)
  | .look h => .spaces (w.look h)
  | .health => .number w.health
  | .maxHealth => .number Corridor.maxHealth

/-- The world after an incident; a question leaves it as it is. -/
def meet (w : World) : Incident → World
  | .happens x => w.happen x
  | .asked _ => w

/-- The world after a sequence. -/
def run (w : World) (xs : List Incident) : World := xs.foldl meet w

/-- The answers to the questions of a sequence, in their order. -/
def answers (w : World) : List Incident → List Finding
  | [] => []
  | .happens x :: xs => (w.happen x).answers xs
  | .asked s :: xs => w.find s :: w.answers xs

theorem run_concat (w : World) (xs : List Incident) (x : Incident) : w.run (xs ++ [x]) = (w.run xs).meet x := by
  rw [run, List.foldl_append]
  rfl

theorem answers_concat (w : World) (xs : List Incident) (x : Incident) :
    w.answers (xs ++ [x]) = w.answers xs ++ (w.run xs).answers [x] := by
  induction xs generalizing w with
  | nil => rfl
  | cons y xs ih =>
    cases y with
    | happens y => exact ih (w.happen y)
    | asked s => exact congrArg (w.find s :: ·) (ih w)

/-! ## Rejected actions -/

/-- The world with more rejected actions. -/
def rejecting (w : World) (n : Nat) : World := { w with rejected := w.rejected + n }

variable {w : World} {h : Heading}

theorem perform_rejecting (w : World) (n : Nat) (a : Action) :
    (w.rejecting n).perform a = (w.perform a).rejecting n := by
  have hdamage : ∀ i amount, (w.rejecting n).damage i amount = (w.damage i amount).rejecting n := by
    intro i amount
    have hsame : (w.rejecting n).occupantAt? i = w.occupantAt? i := rfl
    unfold damage
    rw [hsame]
    cases w.occupantAt? i <;> rfl
  cases a with
  | walk h =>
    have hsame : (w.rejecting n).feel h = w.feel h := rfl
    rw [perform, perform, hsame]
    split <;> rfl
  | attack h => exact hdamage (w.ahead h 1) attackPower
  | shoot h =>
    have hsame : (w.rejecting n).target? h 1 lookDistance = w.target? h 1 lookDistance := rfl
    rw [perform, perform, hsame]
    cases w.target? h 1 lookDistance with
    | none => rfl
    | some i => exact hdamage i shootPower
  | pivot => rfl
  | rest => rfl
  | rescue h =>
    have hsame : (w.rejecting n).feel h = w.feel h := rfl
    rw [perform, perform, hsame]
    split <;> rfl

theorem act_rejecting (w : World) (n : Nat) (a : Action) : (w.rejecting n).act a = (w.act a).rejecting n := by
  cases hw : w.acted with
  | true =>
    have hspent : (w.rejecting n).acted = true := hw
    rw [act_of_acted hspent, act_of_acted hw]
    simp only [rejecting, Nat.add_right_comm]
  | false =>
    have hspent : (w.rejecting n).acted = false := hw
    rw [act_of_not_acted hspent, act_of_not_acted hw]
    exact perform_rejecting { w with acted := true } n a

/-- The number of rejected actions plays no part in what comes of an incident. -/
theorem meet_rejecting (w : World) (n : Nat) (x : Incident) : (w.rejecting n).meet x = (w.meet x).rejecting n := by
  cases x with
  | asked s => rfl
  | happens x =>
    cases x with
    | act a => exact act_rejecting w n a
    | endTurn => rfl
    | setHealth health => rfl

theorem answers_rejecting (w : World) (n : Nat) (x : Incident) : (w.rejecting n).answers [x] = w.answers [x] := by
  cases x with
  | happens x => rfl
  | asked s => cases s <;> rfl

/-! ## Belated actions -/

/-- An action uses up its turn, and the end of a turn begins a new one. -/
theorem acted_meet (w : World) (x : Incident) : (w.meet x).acted = (!x.endsTurn && (x.isAction || w.acted)) := by
  cases x with
  | asked s => rfl
  | happens x =>
    cases x with
    | act a => exact acted_act w a
    | endTurn => rfl
    | setHealth health => rfl

/-- The action of a turn is used up as soon as there was one. -/
theorem acted_run (hw : w.acted = false) (xs : List Incident) : (w.run xs).acted = spent xs := by
  induction xs using List.reverseRecOn with
  | nil => exact hw
  | append_singleton xs x ih => rw [run_concat, spent_concat, acted_meet, ih]

/-- A belated action is rejected and has no other effect. -/
theorem meet_of_belated (hw : w.acted = true) (hx : x.isAction = true) : w.meet x = w.rejecting 1 := by
  obtain ⟨a, rfl⟩ := Incident.exists_of_isAction hx
  exact act_of_acted hw a

/-- A sequence comes to the same without its belated actions, but for the count of rejected ones, and questions are
answered in the same way. -/
theorem runs_punctual (hw : w.acted = false) (xs : List Incident) :
    w.run xs = (w.run (punctual xs)).rejecting (belated xs) ∧ w.answers xs = w.answers (punctual xs) := by
  induction xs using List.reverseRecOn with
  | nil => exact ⟨rfl, rfl⟩
  | append_singleton xs x ih =>
    obtain ⟨hrun, hanswers⟩ := ih
    rw [run_concat, answers_concat, punctual_concat, belated_concat]
    cases hbelated : x.isAction && spent xs with
    | true =>
      obtain ⟨hx, hspent⟩ := Bool.and_eq_true_iff.1 hbelated
      constructor
      · rw [meet_of_belated ((acted_run hw xs).trans hspent) hx, hrun, if_pos rfl, if_pos rfl, List.append_nil]
        rfl
      · -- An action is no question.
        obtain ⟨a, rfl⟩ := Incident.exists_of_isAction hx
        rw [if_pos rfl, List.append_nil, hanswers]
        exact List.append_nil _
    | false =>
      rw [if_neg Bool.false_ne_true, if_neg Bool.false_ne_true, Nat.add_zero, run_concat, answers_concat, hrun,
        hanswers, meet_rejecting, answers_rejecting]
      exact ⟨rfl, rfl⟩

/-! ## Turns that end in place -/

/-- The world after an incident, if it comes to an end where the ends of turns are reckoned cell by cell. -/
def meetInPlace (w : World) (x : Incident) : Option World :=
  if x.endsTurn then w.endTurnInPlace.map Prod.fst else some (w.meet x)

/-- The world after a sequence, if all of it comes to an end. -/
def runInPlace (w : World) (xs : List Incident) : Option World := xs.foldlM meetInPlace w

theorem runInPlace_concat (w : World) (xs : List Incident) (x : Incident) :
    w.runInPlace (xs ++ [x]) = (w.runInPlace xs).bind fun v => v.meetInPlace x := by
  rw [runInPlace, List.foldlM_append]
  simp only [List.foldlM_cons, List.foldlM_nil, bind_pure]
  rfl

/-- Strikes cell by cell are the same, whatever was rejected. -/
theorem reckon_rejecting (n : Nat) : ∀ (is : List Nat) (w : World),
    (w.rejecting n).reckon is = (w.reckon is).map fun (v, glances) => (v.rejecting n, glances)
  | [], _ => rfl
  | i :: is, w => by
    -- A walk may have no end, so that this does not hold by computation.
    have hscout : ∀ target way j, (w.rejecting n).scout target way j = w.scout target way j :=
      scout_congr fun _ => rfl
    have hstrikes : (w.rejecting n).strikesInPlace i = w.strikesInPlace i := by
      unfold strikesInPlace
      rw [hscout]
      rfl
    rw [reckon, reckon, hstrikes]
    cases w.strikesInPlace i with
    | none => rfl
    | some r =>
      obtain ⟨struck, reads⟩ := r
      have hstruck :
          (if struck then { w.rejecting n with health := (w.rejecting n).health - enemyPower } else w.rejecting n) =
            (if struck then { w with health := w.health - enemyPower } else w : World).rejecting n := by
        cases struck <;> rfl
      simp only [Option.bind_eq_bind, Option.bind_some]
      rw [hstruck, reckon_rejecting n is, Option.bind_map, Option.map_bind]
      rfl

/-- The number of rejected actions plays no part in whether a turn comes to an end, either. -/
theorem meetInPlace_rejecting (w : World) (n : Nat) (x : Incident) :
    (w.rejecting n).meetInPlace x = (w.meetInPlace x).map (rejecting · n) := by
  unfold meetInPlace
  split
  · have hcells : (w.rejecting n).cells = w.cells := rfl
    rw [endTurnInPlace, endTurnInPlace, hcells, reckon_rejecting]
    cases w.reckon (List.range w.cells.length) <;> rfl
  · exact congrArg some (meet_rejecting w n x)

theorem acted_meetInPlace {v : World} (h : w.meetInPlace x = some v) :
    v.acted = (!x.endsTurn && (x.isAction || w.acted)) := by
  unfold meetInPlace at h
  split at h
  case isTrue hends =>
    obtain ⟨r, hr, rfl⟩ := Option.map_eq_some_iff.1 h
    obtain ⟨q, -, hq⟩ := Option.bind_eq_some_iff.1 hr
    cases hq
    rw [hends]
    rfl
  case isFalse =>
    cases h
    exact acted_meet w x

theorem acted_runInPlace (hw : w.acted = false) (xs : List Incident) {v : World} (h : w.runInPlace xs = some v) :
    v.acted = spent xs := by
  induction xs using List.reverseRecOn generalizing v with
  | nil =>
    cases h
    exact hw
  | append_singleton xs x ih =>
    rw [runInPlace_concat] at h
    obtain ⟨u, hu, hx⟩ := Option.bind_eq_some_iff.1 h
    rw [spent_concat, acted_meetInPlace hx, ih hu]

/-- With its belated actions a sequence comes to an end in place exactly if it does without them, and to the same. -/
theorem runInPlace_punctual (hw : w.acted = false) (xs : List Incident) :
    w.runInPlace xs = (w.runInPlace (punctual xs)).map (rejecting · (belated xs)) := by
  induction xs using List.reverseRecOn with
  | nil => rfl
  | append_singleton xs x ih =>
    rw [runInPlace_concat, punctual_concat, belated_concat]
    cases hbelated : x.isAction && spent xs with
    | true =>
      obtain ⟨hx, hspent⟩ := Bool.and_eq_true_iff.1 hbelated
      have hrejected : ((w.runInPlace xs).bind fun v => v.meetInPlace x) = (w.runInPlace xs).map (rejecting · 1) := by
        rw [Option.map_eq_bind]
        refine Option.bind_congr fun v hv => ?_
        obtain ⟨a, rfl⟩ := Incident.exists_of_isAction hx
        exact congrArg some (meet_of_belated ((acted_runInPlace hw xs hv).trans hspent) rfl)
      rw [hrejected, ih, if_pos rfl, if_pos rfl, List.append_nil, Option.map_map]
      rfl
    | false =>
      rw [if_neg Bool.false_ne_true, if_neg Bool.false_ne_true, Nat.add_zero, runInPlace_concat, ih, Option.bind_map,
        Option.map_bind]
      exact Option.bind_congr fun v _ => meetInPlace_rejecting v (belated xs) x

/-- A warrior who does not start on an archer's cell does not get on one. -/
theorem not_archer_run (h : w.creatureAt? w.position ≠ some .archer) (xs : List Incident) :
    (w.run xs).creatureAt? (w.run xs).position ≠ some .archer := by
  induction xs using List.reverseRecOn with
  | nil => exact h
  | append_singleton xs x ih =>
    rw [run_concat]
    cases x with
    | asked s => exact ih
    | happens x => exact not_archer_happen ih x

/-- Hence all turns come to an end. -/
theorem runInPlace_eq_run (h : w.creatureAt? w.position ≠ some .archer) (xs : List Incident) :
    w.runInPlace xs = some (w.run xs) := by
  induction xs using List.reverseRecOn with
  | nil => rfl
  | append_singleton xs x ih =>
    rw [runInPlace_concat, ih, Option.bind_some, run_concat]
    cases x with
    | asked s => rfl
    | happens x =>
      cases x with
      | act a => rfl
      | setHealth health => rfl
      | endTurn =>
        obtain ⟨glances, hend, -⟩ := endTurnInPlace_eq (not_archer_run h xs)
        change Option.map Prod.fst (w.run xs).endTurnInPlace = _
        rw [hend]
        rfl

/-! ## Actions in vain -/

/-- The action has no effect: a walk to where somebody or a wall is, a strike where nobody is, a rescue where no captive
is, or a rest with full health. -/
def Idle (w : World) : Action → Prop
  | .walk h => (w.feel h).isEmpty = false
  | .attack h => (w.feel h).creature? = none
  | .shoot h => ∀ s ∈ w.look h, s.creature? = none
  | .pivot => False
  | .rest => w.health = Corridor.maxHealth
  | .rescue h => (w.feel h).isCaptive = false

/-- A shot where nobody is seen meets nobody. -/
theorem target?_eq_none_of_look (hnobody : ∀ s ∈ w.look h, s.creature? = none) :
    w.target? h 1 lookDistance = none := by
  rw [Option.eq_none_iff_forall_ne_some]
  intro i htarget
  obtain ⟨k, hpos, hrange, rfl, -⟩ := exists_first_of_target? htarget
  have hseen : w.sense h k ∈ w.look h := by
    obtain ⟨j, rfl⟩ := Nat.exists_eq_add_one.2 hpos
    exact List.mem_of_getElem? (getElem?_look (by omega))
  have hnone := hnobody _ hseen
  rw [creature?_sense] at hnone
  exact creatureAt?_of_target? htarget hnone

/-- A first action in vain uses up the turn and changes nothing else. -/
theorem act_of_idle {a : Action} (hw : w.acted = false) (hidle : w.Idle a) : w.act a = { w with acted := true } := by
  rw [act_of_not_acted hw]
  cases a with
  | walk h =>
    have hblocked : (({ w with acted := true } : World).feel h).isEmpty = false := hidle
    rw [perform, hblocked]
    rfl
  | attack h =>
    have hnobody : ({ w with acted := true } : World).occupantAt? (w.ahead h 1) = none := by
      rw [Idle, feel, creature?_sense, creatureAt?, Option.map_eq_none_iff] at hidle
      exact hidle
    change ({ w with acted := true } : World).damage (w.ahead h 1) attackPower = _
    rw [damage, hnobody]
  | shoot h =>
    have hnobody : ({ w with acted := true } : World).target? h 1 lookDistance = none := target?_eq_none_of_look hidle
    rw [perform, hnobody]
  | pivot => cases hidle
  | rest =>
    have hfull : w.health = Corridor.maxHealth := hidle
    simp [perform, hfull, Corridor.maxHealth, restHealing]
  | rescue h =>
    have hnobody : (({ w with acted := true } : World).feel h).isCaptive = false := hidle
    rw [perform, hnobody]
    rfl

/-! ## All together -/

/-- What comes of a sequence. -/
structure OneActionATurn (w : World) (xs : List Incident) : Prop where
  /-- Without the belated actions it comes to the same world, but for the count of rejected actions. -/
  run_eq : w.run xs = { w.run (punctual xs) with rejected := (w.run (punctual xs)).rejected + belated xs }
  /-- So it does where the ends of turns are reckoned cell by cell: both sequences come to an end, or neither does. -/
  in_place : w.runInPlace xs = (w.runInPlace (punctual xs)).map fun v => { v with rejected := v.rejected + belated xs }
  /-- Unless the warrior starts on an archer's cell, both do. -/
  ends : w.creatureAt? w.position ≠ some .archer →
    w.runInPlace xs = some (w.run xs) ∧ w.runInPlace (punctual xs) = some (w.run (punctual xs))
  /-- Each belated action is left out, and nothing else. -/
  length_eq : (punctual xs).length + belated xs = xs.length
  /-- All questions are answered in the same way. -/
  answers_eq : w.answers xs = w.answers (punctual xs)
  /-- The next action takes place unless there was one since the last end of a turn, or since the beginning. -/
  acted_eq : (w.run xs).acted = spent xs
  /-- Then it uses up the turn, even in vain. -/
  idle : spent xs = false → ∀ a, (w.run xs).Idle a → (w.run xs).act a = { w.run xs with acted := true }
  /-- Whatever it was, the one after it is rejected. -/
  second : ∀ a b, ((w.run xs).act a).act b = { (w.run xs).act a with rejected := ((w.run xs).act a).rejected + 1 }

end World

open World

/-- From every world where no action was taken yet in its turn. -/
theorem one_action_a_turn (w : World) (hw : w.acted = false) (xs : List Incident) : w.OneActionATurn xs where
  run_eq := (runs_punctual hw xs).1
  in_place := runInPlace_punctual hw xs
  ends harcher := ⟨runInPlace_eq_run harcher xs, runInPlace_eq_run harcher (punctual xs)⟩
  length_eq := length_punctual xs
  answers_eq := (runs_punctual hw xs).2
  acted_eq := acted_run hw xs
  idle hspent _ hidle := act_of_idle ((acted_run hw xs).trans hspent) hidle
  second a b := act_of_acted (acted_act (w.run xs) a) b

/-- A walk into a wall uses up the first turn, so that the attack in it is belated; the rest in the next one is not. -/
theorem one_action_a_turn_wall : (ofLayout "@s".toList).acted = false ∧
    (ofLayout "@s".toList).OneActionATurn [.happens (.act (.walk .backward)), .asked .health,
      .happens (.act (.attack .forward)), .happens .endTurn, .happens (.act .rest)] :=
  ⟨rfl, one_action_a_turn (ofLayout "@s".toList) rfl _⟩

example : punctual [.happens (.act (.walk .backward)), .asked .health, .happens (.act (.attack .forward)),
      .happens .endTurn, .happens (.act .rest)] =
    [.happens (.act (.walk .backward)), .asked .health, .happens .endTurn, .happens (.act .rest)] := by decide

end Behaviour.Corridor
