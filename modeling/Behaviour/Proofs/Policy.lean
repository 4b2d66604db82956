import Mathlib
import Behaviour.Proofs.Conduct
import Behaviour.Proofs.Drive

/-!
# The policy of the warrior

The warrior's tree has 37 nodes, two sequences that resume, a delay and an await; what it does is said by a policy with
three modes. A *fresh* warrior follows the first of eight clauses that applies. A *shooting* one fires again, and then
closes in on an enemy that still stands or else follows the first of the last five clauses. A *healing* one rests until
well.

`does_policy` is the step: in every mode the tree does what the policy says. `policy_refined` is the run: however often
a player of the tree has been played and reset, in whatever worlds, the tree shows one of the modes, and the next turn
is the one that the policy has for it.
-/

namespace Behaviour

open Corridor

variable {κ σ : Type}

/-- The first node of a name below the root of a tree that can be played. -/
def Tree.named? (t : Tree κ σ) (name : String) : Option (Node κ σ) :=
  match t.plan with
  | .ok n => n.named? name
  | .error _ => none

namespace Corridor

/-! ## The policy -/

/-- What the warrior is at. -/
inductive Mode where
  | fresh
  | shooting
  | healing
  deriving DecidableEq

/-- The place of the subtree that is resumed. -/
def Mode.place : Mode → Nat
  | fresh => 0
  | shooting => 2
  | healing => 6

/-- What the warrior does in a turn, answers, and is at then. -/
structure Decision where
  actions : List Action
  status : Status := .success
  mode : Mode := .fresh

/-- A decision, and when it is taken. -/
structure Clause where
  guard : Stats → World → Bool
  decision : Decision

def captiveBehind : Clause := ⟨fun _ w => (w.look .backward).any World.Space.isCaptive, { actions := [.pivot] }⟩

def enemyInReach : Clause := ⟨fun _ w => (w.feel .forward).isEnemy, { actions := [.attack .forward] }⟩

def enemyInSight : Clause :=
  ⟨fun _ w => !(w.sense .forward 1).isCaptive && !(w.sense .forward 2).isCaptive && (w.sense .forward 3).isEnemy,
    { actions := [.shoot .forward], status := .running, mode := .shooting }⟩

def wallAhead : Clause := ⟨fun _ w => (w.feel .forward).isWall, { actions := [.pivot] }⟩

def underFire : Clause :=
  ⟨fun stats w => w.health < stats.health && w.health * 100 ≤ 800, { actions := [.walk .backward] }⟩

def captiveInReach : Clause := ⟨fun _ w => (w.feel .forward).isCaptive, { actions := [.rescue .forward] }⟩

def unwell : Clause :=
  ⟨fun _ w => w.health * 100 ≤ 800, { actions := [.rest], status := .running, mode := .healing }⟩

def wayFree : Clause := ⟨fun _ w => (w.feel .forward).isEmpty, { actions := [.walk .forward] }⟩

/-- What is thought of first stands first. -/
def clauses : List Clause :=
  [captiveBehind, enemyInReach, enemyInSight, wallAhead, underFire, captiveInReach, unwell, wayFree]

/-- The decision of the first clause that applies; if none does, nothing is done and the turn fails. -/
def firstOf (stats : Stats) (w : World) : List Clause → Decision
  | [] => { actions := [], status := .failure }
  | c :: cs => if c.guard stats w then c.decision else firstOf stats w cs

/-- What the warrior decides, given the health at the end of the turn before. -/
def policy (stats : Stats) (w : World) : Mode → Decision
  | .fresh => firstOf stats w clauses
  | .shooting =>
    let shot := w.act (.shoot .forward)
    if (shot.sense .forward 3).isEnemy then { actions := [.shoot .forward, .walk .forward] }
    else
      let d := firstOf stats shot (clauses.drop 3)
      { d with actions := .shoot .forward :: d.actions }
  | .healing =>
    if w.health = maxHealth then { actions := [.rest] }
    else { actions := [.rest], status := .running, mode := .healing }

theorem firstOf_of_guard {stats : Stats} {w : World} {c : Clause} (h : c.guard stats w = true) (cs : List Clause) :
    firstOf stats w (c :: cs) = c.decision := if_pos h

theorem firstOf_of_not_guard {stats : Stats} {w : World} {c : Clause} (h : c.guard stats w = false)
    (cs : List Clause) : firstOf stats w (c :: cs) = firstOf stats w cs :=
  if_neg (Bool.eq_false_iff.1 h)

/-- Either a clause that applies decides, or none applies. -/
theorem firstOf_cases (stats : Stats) (w : World) : ∀ cs : List Clause,
    (∃ c ∈ cs, c.guard stats w = true ∧ firstOf stats w cs = c.decision) ∨
      firstOf stats w cs = { actions := [], status := .failure }
  | [] => .inr rfl
  | c :: cs => by
    cases hc : c.guard stats w with
    | true => exact .inl ⟨c, List.mem_cons_self, hc, firstOf_of_guard hc cs⟩
    | false =>
      rw [firstOf_of_not_guard hc]
      exact (firstOf_cases stats w cs).imp_left fun ⟨d, hd, h⟩ => ⟨d, List.mem_cons_of_mem _ hd, h⟩

/-- Behind the clause for an enemy in sight, none makes the warrior shoot. -/
theorem mode_firstOf_later (stats : Stats) (w : World) : (firstOf stats w (clauses.drop 3)).mode ≠ .shooting := by
  obtain ⟨c, hc, -, hd⟩ | hd := firstOf_cases stats w (clauses.drop 3) <;> rw [hd]
  · have hmodes : ∀ c ∈ clauses.drop 3, c.decision.mode ≠ .shooting := by decide
    exact hmodes c hc
  · nofun

/-! ## The tree in each mode -/

/-- A leaf that asks. -/
def asking (handle : Nat) (name : String) (c : Condition) : Node Stats World := .leaf ⟨handle, name⟩ c.leaf

/-- A leaf that acts. -/
def acting (handle : Nat) (name : String) (a : Action) : Node Stats World := .leaf ⟨handle, name⟩ a.leaf

/-- An action behind questions. -/
def guarding (handle : Nat) (name : String) (questions : List (Node Stats World)) (action : Node Stats World) :
    Node Stats World :=
  .composite ⟨handle, name⟩ .sequence false none (questions ++ [action])

/-- A subtree of the root, as it is in each mode, and the clause that it follows. -/
structure Branch where
  node : Mode → Node Stats World
  clause : Clause

def turning : Branch where
  clause := captiveBehind
  node _ := guarding 5 "turn_for_captive"
    [.composite ⟨1, "is_captive_behind"⟩ .selector false none
      [asking 2 "captive_behind_1" (.captiveAt .backward 1), asking 3 "captive_behind_2" (.captiveAt .backward 2),
        asking 4 "captive_behind_3" (.captiveAt .backward 3)]]
    (acting 6 "turn_around" .pivot)

def fighting : Branch where
  clause := enemyInReach
  node _ := guarding 7 "if_enemy_fight" [asking 8 "check_for_enemy" .enemyAhead] (acting 9 "fight" (.attack .forward))

/-- The questions before the first shot. -/
def aim : List (Node Stats World) :=
  [.decorator ⟨11, "not"⟩ .negate {} (asking 10 "captive_ahead_1" (.captiveAt .forward 1)),
    .decorator ⟨13, "not"⟩ .negate {} (asking 12 "captive_ahead_2" (.captiveAt .forward 2)),
    asking 14 "enemy_ahead_3" (.enemyAt 3)]

/-- The shot that is reported one turn later. -/
def shot (held : Memory) : Node Stats World :=
  .decorator ⟨16, "delay"⟩ .delay held (acting 15 "shoot" (.shoot .forward))

/-- The shot, and what comes after it. -/
def fire (held : Memory) : List (Node Stats World) :=
  [shot held, asking 17 "enemy_ahead_3" (.enemyAt 3), acting 18 "walk" (.walk .forward)]

/-- What is held back when the warrior is shooting. -/
def reported : Memory := { pending := .success, hasPending := true }

def sniping : Branch where
  clause := enemyInSight
  node
    | .shooting => .composite ⟨19, "shoot_the_bad_guys"⟩ .sequence true (some 3) (aim ++ fire reported)
    | .fresh | .healing => .composite ⟨19, "shoot_the_bad_guys"⟩ .sequence true (some 0) (aim ++ fire {})

def turningAtWall : Branch where
  clause := wallAhead
  node _ := guarding 20 "if_wall_turn_around" [asking 21 "check_for_wall" .wallAhead] (acting 22 "turn_around" .pivot)

def retreating : Branch where
  clause := underFire
  node _ := guarding 23 "retreat_if_taking_damage"
    [asking 24 "check_for_damage" .damaged, asking 25 "low_health" (.lowHealth lowPercent)]
    (acting 26 "walk_backward" (.walk .backward))

def freeing : Branch where
  clause := captiveInReach
  node _ := guarding 27 "if_captive_rescue" [asking 28 "check_for_captive" .captiveAhead]
    (acting 29 "rescue" (.rescue .forward))

/-- Rest until well. -/
def resting : Node Stats World := .decorator ⟨33, "until"⟩ (.await fullyHealed) {} (acting 30 "rest" .rest)

def mending : Branch where
  clause := unwell
  node
    | .healing => .composite ⟨31, "heal_if_low"⟩ .sequence true (some 1)
        ([asking 32 "low_health" (.lowHealth lowPercent)] ++ [resting])
    | .fresh | .shooting => .composite ⟨31, "heal_if_low"⟩ .sequence true (some 0)
        ([asking 32 "low_health" (.lowHealth lowPercent)] ++ [resting])

def walking : Branch where
  clause := wayFree
  node _ := guarding 34 "move_forward" [asking 35 "is_space_empty" .spaceAhead] (acting 36 "walk" (.walk .forward))

/-- The subtrees of the root, in order. -/
def branches : List Branch :=
  [turning, fighting, sniping, turningAtWall, retreating, freeing, mending, walking]

theorem map_clause_branches : branches.map Branch.clause = clauses := rfl

/-- The whole tree in a mode. -/
def warriorIn (mode : Mode) : Node Stats World :=
  .composite ⟨0, "walk_or_fight"⟩ .selector true (some mode.place) (branches.map (·.node mode))

/-- The tree that is planned has no progress. -/
theorem plan_warriorTree : (playerOf warriorTree).tree.plan = .ok (warriorIn .fresh).reset := by
  -- Evaluated call by call: unfolded as one term, every state of the builder would hold copies of those before.
  cbv

/-- In every mode, a reset leads back to a fresh tree. -/
theorem reset_warriorIn (mode : Mode) : (warriorIn mode).reset = (warriorIn .fresh).reset := by
  cases mode <;> rfl

theorem reset_warriorIn_equiv : (warriorIn .fresh).reset ≈ warriorIn .fresh := rfl

/-! ## Branches follow their clauses -/

variable {stats : Stats} {w : World}

/-- In a fresh tree a branch does what its clause decides, or fails and does nothing if the clause does not apply. -/
structure Branch.Follows (stats : Stats) (w : World) (b : Branch) : Prop where
  acts : b.clause.guard stats w = true →
    Does stats w (b.node .fresh) b.clause.decision.status b.clause.decision.actions (b.node b.clause.decision.mode)
  passes : b.clause.guard stats w = false → Does stats w (b.node .fresh) .failure [] (b.node .fresh)
  answers : b.clause.decision.status ≠ .failure

theorem asks_asking {handle : Nat} {name : String} {c : Condition} (h : Action.ofName? name = none) :
    Asks stats w (asking handle name c) (c.holds stats w) := Asks.leaf h

theorem does_acting {handle : Nat} {name : String} {a : Action} (h : Action.ofName? name = some a) :
    Does stats w (acting handle name a) .success [a] (acting handle name a) := Does.act h

/-- A branch that guards an action follows the clause whose guard is that all questions are answered with yes. -/
theorem follows_guarding {handle h : Nat} {name l : String} {a : Action} {qs : List (Node Stats World)}
    {answers : List Bool} {guard : Stats → World → Bool} (hqs : List.Forall₂ (Asks stats w) qs answers)
    (ha : Action.ofName? l = some a) (hguard : guard stats w = answers.all id) :
    Branch.Follows stats w ⟨fun _ => guarding handle name qs (acting h l a), ⟨guard, { actions := [a] }⟩⟩ := by
  have hdoes : Does stats w (guarding handle name qs (acting h l a)) (statusOf (guard stats w))
      (if guard stats w then [a] else []) (guarding handle name qs (acting h l a)) :=
    hguard ▸ does_guarded hqs (does_acting ha)
  refine ⟨fun hg => ?_, fun hg => ?_, nofun⟩
  · rw [show guard stats w = true from hg] at hdoes
    exact hdoes
  · rw [show guard stats w = false from hg] at hdoes
    exact hdoes

theorem follows_turning : turning.Follows stats w := by
  refine follows_guarding (.cons (asks_any (.cons (asks_asking rfl) (.cons (asks_asking rfl)
    (.cons (asks_asking rfl) .nil)))) .nil) rfl ?_
  simp [World.look, World.lookDistance, List.range_succ, Condition.holds]

theorem follows_fighting : fighting.Follows stats w :=
  follows_guarding (.cons (asks_asking rfl) .nil) rfl (by simp [Condition.holds])

theorem asks_aim : List.Forall₂ (Asks stats w) aim
    [!(w.sense .forward 1).isCaptive, !(w.sense .forward 2).isCaptive, (w.sense .forward 3).isEnemy] :=
  .cons (asks_asking rfl).negate (.cons (asks_asking rfl).negate (.cons (asks_asking rfl) .nil))

/-- Fresh, the shot is fired behind the questions, and what it answers is held back. -/
theorem follows_sniping : sniping.Follows stats w := by
  have hguard : sniping.clause.guard stats w = List.all
      [!(w.sense .forward 1).isCaptive, !(w.sense .forward 2).isCaptive, (w.sense .forward 3).isEnemy] id := by
    simp [sniping, enemyInSight, Bool.and_assoc]
  refine ⟨fun hg => ?_, fun hg => ?_, nofun⟩ <;> rw [hguard] at hg
  · have hshot : Scans stats w .sequence 0 (fire {}) .running 0 [.shoot .forward] (fire reported) :=
      Scans.halt (Does.hold (does_acting rfl) rfl) nofun
    exact Does.composite (Scans.asks asks_aim hg hshot)
  · obtain ⟨stop, hstop⟩ := Scans.asks_no asks_aim hg
    exact Does.composite hstop

/-- Shooting, another shot is fired without questions. -/
theorem does_second_shot : Does stats w (shot reported) .success [.shoot .forward] (shot {}) :=
  (Does.release (does_acting rfl) rfl).next rfl

theorem asks_still_enemy {enemy : Bool} (h : (w.sense .forward 3).isEnemy = enemy) :
    Asks stats w (asking 17 "enemy_ahead_3" (.enemyAt 3)) enemy :=
  h ▸ asks_asking rfl

/-- If an enemy still stands where the warrior aims, the warrior walks. -/
theorem does_sniping_closing (h : ((w.act (.shoot .forward)).sense .forward 3).isEnemy = true) :
    Does stats w (sniping.node .shooting) .success [.shoot .forward, .walk .forward] (sniping.node .fresh) := by
  have hfire : Scans stats w .sequence 0 (fire reported) .success 3 ([.shoot .forward] ++ ([] ++ [.walk .forward]))
      (fire {}) :=
    Scans.go does_second_shot (Scans.go (asks_still_enemy h) (Scans.last (does_acting rfl)))
  exact Does.composite (Scans.leave (Scans.leave (Scans.leave hfire)))

/-- If no enemy stands there any more, the branch fails after the shot. -/
theorem does_sniping_lost (h : ((w.act (.shoot .forward)).sense .forward 3).isEnemy = false) :
    Does stats w (sniping.node .shooting) .failure [.shoot .forward] (sniping.node .fresh) := by
  have hfire : Scans stats w .sequence 0 (fire reported) .failure 1 ([.shoot .forward] ++ []) (fire {}) :=
    Scans.go does_second_shot (Scans.halt (asks_still_enemy h) nofun)
  exact Does.composite (Scans.leave (Scans.leave (Scans.leave hfire)))

theorem follows_turningAtWall : turningAtWall.Follows stats w :=
  follows_guarding (.cons (asks_asking rfl) .nil) rfl (by simp [Condition.holds])

theorem follows_retreating : retreating.Follows stats w :=
  follows_guarding (.cons (asks_asking rfl) (.cons (asks_asking rfl) .nil)) rfl (by
    simp only [List.all_cons, List.all_nil, id, Bool.and_true]
    rfl)

theorem follows_freeing : freeing.Follows stats w :=
  follows_guarding (.cons (asks_asking rfl) .nil) rfl (by simp [Condition.holds])

theorem follows_walking : walking.Follows stats w :=
  follows_guarding (.cons (asks_asking rfl) .nil) rfl (by simp [Condition.holds])

/-- A rest answers whether the warrior was well before. -/
theorem does_resting_well (h : w.health = maxHealth) : Does stats w resting .success [.rest] resting := by
  have hrest : Does stats w resting (if w.health == maxHealth then .success else .running) [.rest] resting :=
    Does.await (does_acting rfl) rfl rfl
  rwa [if_pos (beq_iff_eq.2 h)] at hrest

theorem does_resting_unwell (h : w.health ≠ maxHealth) : Does stats w resting .running [.rest] resting := by
  have hrest : Does stats w resting (if w.health == maxHealth then .success else .running) [.rest] resting :=
    Does.await (does_acting rfl) rfl rfl
  rwa [if_neg (mt beq_iff_eq.1 h)] at hrest

theorem follows_mending : mending.Follows stats w := by
  have hlow : List.Forall₂ (Asks stats w) [asking 32 "low_health" (.lowHealth lowPercent)]
      [mending.clause.guard stats w] := .cons (asks_asking rfl) .nil
  refine ⟨fun hg => ?_, fun hg => ?_, nofun⟩ <;> rw [hg] at hlow
  · have hhealth : w.health ≠ maxHealth := by
      have : w.health * 100 ≤ 800 := of_decide_eq_true hg
      unfold maxHealth
      omega
    exact Does.composite (Scans.asks hlow rfl (Scans.halt (does_resting_unwell hhealth) nofun))
  · obtain ⟨stop, hstop⟩ := Scans.asks_no hlow rfl
    exact Does.composite hstop

/-- Healing, the warrior rests without asking for the health again. -/
theorem does_mending_well (h : w.health = maxHealth) :
    Does stats w (mending.node .healing) .success [.rest] (mending.node .fresh) :=
  Does.composite (Scans.leave (Scans.last (does_resting_well h)))

theorem does_mending_on (h : w.health ≠ maxHealth) :
    Does stats w (mending.node .healing) .running [.rest] (mending.node .healing) :=
  Does.composite (Scans.leave (Scans.halt (does_resting_unwell h) nofun))

/-! ## The first branch that has something to do -/

/-- What one branch decides leaves the other as it is in a fresh tree. -/
def Branch.Apart (b b' : Branch) : Prop :=
  b.node b'.clause.decision.mode = b.node .fresh ∧ b'.node b.clause.decision.mode = b'.node .fresh

/-- Only a branch at the place of a mode leads to it; `k` is the place of the first branch. -/
def Placed : Nat → List Branch → Prop
  | _, [] => True
  | k, b :: bs =>
    (if b.clause.decision.status = .running then k else 0) = b.clause.decision.mode.place ∧ Placed (k + 1) bs

theorem apart_branches : branches.Pairwise Branch.Apart := by
  simp only [branches, List.pairwise_cons, List.forall_mem_cons, List.not_mem_nil, false_implies, implies_true,
    List.Pairwise.nil, and_true]
  repeat' constructor

theorem placed_branches : Placed 0 branches := ⟨rfl, rfl, rfl, rfl, rfl, rfl, rfl, rfl, trivial⟩

/-- Branches that are tried in order do what the first clause that applies decides. -/
theorem scans_branches : ∀ {bs : List Branch} {k : Nat}, (∀ b ∈ bs, b.Follows stats w) → bs.Pairwise Branch.Apart →
    Placed k bs →
    let d := firstOf stats w (bs.map Branch.clause)
    ∃ stop, Scans stats w .selector 0 (bs.map (·.node .fresh)) d.status stop d.actions (bs.map (·.node d.mode)) ∧
      (if d.status = .running then k + stop else 0) = d.mode.place
  | [], _, _, _, _ => ⟨0, Scans.nil, rfl⟩
  | b :: bs, k, hfollows, hapart, hplaced => by
    obtain ⟨hb, hbs⟩ := List.pairwise_cons.1 hapart
    obtain ⟨hacts, hpasses, hanswers⟩ := hfollows b List.mem_cons_self
    cases hg : b.clause.guard stats w with
    | true =>
      -- The scan stops, and the mode that is decided leaves the branches behind as they are.
      have hothers : bs.map (·.node .fresh) = bs.map (·.node b.clause.decision.mode) :=
        List.map_congr_left fun c hc => (hb c hc).2.symm
      rw [List.map_cons, firstOf_of_guard hg]
      refine ⟨0, ?_, hplaced.1⟩
      rw [List.map_cons, List.map_cons, ← hothers]
      exact Scans.halt (hacts hg) hanswers
    | false =>
      -- The branch fails, and is as before also in the mode that a later branch decides.
      obtain ⟨stop, hscan, hstop⟩ := scans_branches (fun c hc => hfollows c (List.mem_cons_of_mem _ hc)) hbs hplaced.2
      have hself : b.node .fresh = b.node (firstOf stats w (bs.map Branch.clause)).mode := by
        obtain ⟨c, hc, -, hd⟩ | hd := firstOf_cases stats w (bs.map Branch.clause)
        · obtain ⟨b', hb', rfl⟩ := List.mem_map.1 hc
          rw [hd, (hb b' hb').1]
        · rw [hd]
      rw [List.map_cons, firstOf_of_not_guard hg]
      refine ⟨stop + 1, ?_, by simpa only [Nat.add_right_comm, Nat.add_assoc] using hstop⟩
      rw [List.map_cons, List.map_cons, ← hself]
      have hfail : Does stats w (b.node .fresh) Rule.selector.onward [] (b.node .fresh) := hpasses hg
      exact Scans.go hfail hscan

/-! ## The step -/

theorem follows_branches : ∀ b ∈ branches, b.Follows stats w := by
  simp only [branches, List.forall_mem_cons, List.not_mem_nil]
  exact ⟨follows_turning, follows_fighting, follows_sniping, follows_turningAtWall, follows_retreating,
    follows_freeing, follows_mending, follows_walking, nofun⟩

/-- The root resumes at the place of its mode and stops at the place of the next one. -/
theorem does_root {mode mode' : Mode} {status : Status} {stop : Nat} {actions : List Action}
    (h : Scans stats w .selector mode.place (branches.map (·.node mode)) status stop actions
      (branches.map (·.node mode'))) (hstop : (if status = .running then stop else 0) = mode'.place) :
    Does stats w (warriorIn mode) status actions (warriorIn mode') := by
  rw [warriorIn, warriorIn, ← hstop]
  exact Does.composite h

theorem scans_later (stats : Stats) (w : World) :
    let d := firstOf stats w (clauses.drop 3)
    ∃ stop, Scans stats w .selector 0 ((branches.drop 3).map (·.node .fresh)) d.status stop d.actions
        ((branches.drop 3).map (·.node d.mode)) ∧ (if d.status = .running then 3 + stop else 0) = d.mode.place :=
  scans_branches (fun b hb => follows_branches b (List.mem_of_mem_drop hb))
    (apart_branches.sublist (List.drop_sublist 3 branches)) placed_branches.2.2.2

theorem does_fresh : let d := policy stats w .fresh
    Does stats w (warriorIn .fresh) d.status d.actions (warriorIn d.mode) := by
  obtain ⟨stop, hscan, hstop⟩ := scans_branches follows_branches apart_branches placed_branches
  rw [map_clause_branches] at hscan hstop
  rw [Nat.zero_add] at hstop
  exact does_root hscan hstop

theorem does_shooting : let d := policy stats w .shooting
    Does stats w (warriorIn .shooting) d.status d.actions (warriorIn d.mode) := by
  cases hhit : ((w.act (.shoot .forward)).sense .forward 3).isEnemy with
  | true =>
    have hd : policy stats w .shooting = { actions := [.shoot .forward, .walk .forward] } := if_pos hhit
    rw [hd]
    exact does_root (Scans.leave (Scans.leave (Scans.halt (does_sniping_closing hhit) nofun))) rfl
  | false =>
    -- The sequence fails after its shot, so the root goes on behind it, in the world after the shot.
    obtain ⟨stop, hscan, hstop⟩ := scans_later stats (w.act (.shoot .forward))
    have hpolicy : policy stats w .shooting =
        let d := firstOf stats (w.act (.shoot .forward)) (clauses.drop 3)
        { d with actions := .shoot .forward :: d.actions } := if_neg (by simp [hhit])
    rw [hpolicy]
    have hmode := mode_firstOf_later stats (w.act (.shoot .forward))
    generalize firstOf stats (w.act (.shoot .forward)) (clauses.drop 3) = d at hscan hstop hmode ⊢
    have hsnipe : sniping.node .fresh = sniping.node d.mode := by
      cases hm : d.mode with
      | fresh | healing => rfl
      | shooting => exact absurd hm hmode
    have hlost : Does stats w (sniping.node .shooting) Rule.selector.onward [.shoot .forward] (sniping.node .fresh) :=
      does_sniping_lost hhit
    have hgo := Scans.go hlost hscan
    rw [hsnipe] at hgo
    exact does_root (Scans.leave (Scans.leave hgo)) (by simpa only [Nat.add_comm, Nat.add_left_comm] using hstop)

theorem does_healing : let d := policy stats w .healing
    Does stats w (warriorIn .healing) d.status d.actions (warriorIn d.mode) := by
  by_cases hwell : w.health = maxHealth
  · rw [policy, if_pos hwell]
    have hrest : Does stats w (mending.node .healing) .success [.rest] (mending.node .fresh) := does_mending_well hwell
    exact does_root (.leave (.leave (.leave (.leave (.leave (.leave (Scans.halt hrest nofun))))))) rfl
  · rw [policy, if_neg hwell]
    have hrest : Does stats w (mending.node .healing) .running [.rest] (mending.node .healing) := does_mending_on hwell
    exact does_root (.leave (.leave (.leave (.leave (.leave (.leave (Scans.halt hrest nofun))))))) rfl

/-- In every mode and every world the tree does what the policy says. -/
theorem does_policy (stats : Stats) (w : World) (mode : Mode) : let d := policy stats w mode
    Does stats w (warriorIn mode) d.status d.actions (warriorIn d.mode) := by
  cases mode with
  | fresh => exact does_fresh
  | shooting => exact does_shooting
  | healing => exact does_healing

/-! ## Players of the tree -/

/-- What can be seen of a tree in a mode. The place of the root tells the mode. The sniping sequence stands behind its
shot, and the delay holds back that it succeeded, just when the warrior is shooting; the healing sequence stands behind
its question just when the warrior is healing; and the test of the await never counts as passed between turns. -/
structure Shows (t : Tree Stats World) (mode : Mode) : Prop where
  root : t.rootPlace = mode.place
  sniping : (t.named? "shoot_the_bad_guys").map (·.progress.cursor.getD 0) =
    some (if mode = .shooting then 3 else 0)
  held : (t.named? "delay").map (·.progress.memory.hasPending) = some (decide (mode = .shooting))
  result : mode = .shooting → (t.named? "delay").map (·.progress.memory.pending) = some .success
  mending : (t.named? "heal_if_low").map (·.progress.cursor.getD 0) = some (if mode = .healing then 1 else 0)
  test : (t.named? "until").map (·.progress.memory.done) = some false

/-- The player plays the warrior's tree, which is in a mode. -/
def Plays (p : Player Stats World) (mode : Mode) : Prop := ∃ n, p.tree.plan = .ok n ∧ n ≈ warriorIn mode

/-- What the policy has for the next turn of a player, given the snapshot that the turn plays with. -/
def decisionOf (p : Player Stats World) (mode : Mode) (world : World) : Decision :=
  policy (p.opening world).1 (p.opening world).2.1 mode

/-- The world as the policy has it at the end of the next turn, when the player takes the snapshot for a later one. -/
def worldAfter (p : Player Stats World) (mode : Mode) (world : World) : World :=
  (p.opening world).2.1.after (decisionOf p mode world).actions

/-- The next turn of a player, as the policy has it: what it answers, the actions that are taken, what has become of the
world by them and by taking the snapshot, and the mode in which the tree is left. -/
structure Obeys (p : Player Stats World) (mode : Mode) (world : World) (round : Round Stats World) : Prop where
  play_eq : p.play world = .ok round
  status_eq : round.status = (decisionOf p mode world).status
  deeds_eq : deeds (round.log.filterMap Moment.inside?) = (decisionOf p mode world).actions
  world_eq : round.world = (p.save (worldAfter p mode world)).2
  player_eq : round.player =
    { p with tree := round.player.tree, snapshot := some (p.save (worldAfter p mode world)).1 }
  shows : Shows round.player.tree (decisionOf p mode world).mode

variable {p : Player Stats World} {mode : Mode}

namespace Plays

theorem of_plan {t : Tree Stats World} {n : Node Stats World} (hplan : t.plan = .ok n) (hn : n ≈ warriorIn mode)
    (init save : Camera Stats World) (snapshot : Option Stats) : Plays { tree := t, init, save, snapshot } mode :=
  ⟨n, hplan, hn⟩

theorem fresh (init save : Camera Stats World) : Plays { playerOf warriorTree with init, save } .fresh :=
  of_plan plan_warriorTree reset_warriorIn_equiv init save _

theorem reset (h : Plays p mode) : Plays p.reset .fresh := by
  obtain ⟨n, hplan, hn⟩ := h
  refine ⟨n.reset, ?_, ?_⟩
  · simp only [Player.reset, Tree.reset, hplan]
    rfl
  · rw [Node.reset_congr hn, reset_warriorIn]
    exact reset_warriorIn_equiv

theorem named?_sniping (mode : Mode) : (warriorIn mode).named? "shoot_the_bad_guys" =
    some (.composite ⟨19, "shoot_the_bad_guys"⟩ .sequence true (some (if mode = .shooting then 3 else 0))
      (aim ++ fire (if mode = .shooting then reported else {}))) := by
  cases mode <;> rfl

theorem named?_delay (mode : Mode) : (warriorIn mode).named? "delay" =
    some (shot (if mode = .shooting then reported else {})) := by
  cases mode <;> rfl

theorem named?_mending (mode : Mode) : (warriorIn mode).named? "heal_if_low" =
    some (.composite ⟨31, "heal_if_low"⟩ .sequence true (some (if mode = .healing then 1 else 0))
      ([asking 32 "low_health" (.lowHealth lowPercent)] ++ [resting])) := by
  cases mode <;> rfl

theorem named?_until (mode : Mode) : (warriorIn mode).named? "until" = some resting := by
  cases mode <;> rfl

/-! What is found under a name below the root is what stands there in the tree of the mode, but for progress that no
later visit reads. -/

theorem named? (h : Plays p mode) {name : String} {x : Node Stats World} (hx : (warriorIn mode).named? name = some x) :
    ∃ y, p.tree.named? name = some y ∧ y ≈ x := by
  obtain ⟨n, hplan, hn⟩ := h
  simp only [Tree.named?, hplan]
  exact Node.named?_congr hn hx

theorem cursor (h : Plays p mode) {name : String} {l : Label} {r : Rule} {c : Nat} {ns : List (Node Stats World)}
    (hx : (warriorIn mode).named? name = some (.composite l r true (some c) ns)) :
    (p.tree.named? name).map (·.progress.cursor.getD 0) = some c := by
  obtain ⟨y, hy, hequiv⟩ := h.named? hx
  obtain ⟨c', ns', rfl, hc⟩ := Node.exists_of_equiv_composite hequiv
  rw [hy, Option.map_some]
  exact congrArg some hc

theorem memory (h : Plays p mode) {name : String} {l : Label} {wrap : Decorator Stats World} {m : Memory}
    {n : Node Stats World} (hx : (warriorIn mode).named? name = some (.decorator l wrap m n)) :
    ∃ y, p.tree.named? name = some y ∧ wrap.essential y.progress.memory = wrap.essential m := by
  obtain ⟨y, hy, hequiv⟩ := h.named? hx
  obtain ⟨m', n', rfl, hm⟩ := Node.exists_of_equiv_decorator hequiv
  exact ⟨_, hy, hm⟩

theorem rootPlace (h : Plays p mode) : p.tree.rootPlace = mode.place := by
  obtain ⟨n, hplan, hn⟩ := h
  obtain ⟨c, ns, rfl, hc⟩ := Node.exists_of_equiv_composite hn
  simp only [Tree.rootPlace, hplan]
  exact hc

theorem shows (h : Plays p mode) : Shows p.tree mode := by
  obtain ⟨held, hheld, hmemory⟩ := h.memory (named?_delay mode)
  obtain ⟨waiting, hwaiting, hdone⟩ := h.memory (named?_until mode)
  have hpending : held.progress.memory.hasPending = decide (mode = .shooting) := by
    rw [← Decorator.hasPending_essential_delay, hmemory, Decorator.hasPending_essential_delay]
    cases mode <;> rfl
  refine ⟨h.rootPlace, h.cursor (named?_sniping mode), ?_, fun hmode => ?_, h.cursor (named?_mending mode), ?_⟩
  · rw [hheld, Option.map_some, hpending]
  · subst hmode
    rw [hheld, Option.map_some, ← Decorator.pending_essential_delay hpending, hmemory]
    rfl
  · rw [hwaiting, Option.map_some]
    exact congrArg (fun m : Memory => some m.done) hdone

/-- One turn of a player is the one that the policy has for it, and it leaves a player in the next mode. -/
theorem turn (h : Plays p mode) (world : World) :
    ∃ round, Obeys p mode world round ∧ Plays round.player (decisionOf p mode world).mode := by
  obtain ⟨n, hplan, hn⟩ := h
  have hdoes := (does_policy (p.opening world).1 (p.opening world).2.1 mode).of_equiv hn
  have hplay := p.play_of_plan hplan world
  have hplays : ∀ round, p.play world = .ok round → Plays round.player (decisionOf p mode world).mode :=
    fun round hround => by
      rw [hplay] at hround
      cases hround
      exact ⟨_, rfl, hdoes.next_equiv⟩
  have hscene := congrArg Scene.world hdoes.scene_eq
  refine ⟨_, ⟨hplay, hdoes.status_eq, ?_, ?_, ?_, (hplays _ hplay).shows⟩, hplays _ hplay⟩
  · rw [p.inside_log]
    exact hdoes.deeds_eq
  · exact congrArg (fun w => (p.save w).2) hscene
  · simp only [hscene]
    rfl

end Plays

/-- Orders keep the tree of a player in one of the modes. -/
theorem Plays.drive : ∀ {p : Player Stats World} {mode : Mode} (orders : List (Order World)), Plays p mode →
    ∃ p' mode', p.drive orders = .ok p' ∧ p'.init = p.init ∧ p'.save = p.save ∧ Plays p' mode'
  | p, mode, [], h => ⟨p, mode, rfl, rfl, rfl, h⟩
  | p, mode, .play world :: orders, h => by
    obtain ⟨round, hobeys, hround⟩ := h.turn world
    obtain ⟨p', mode', hdrive, hinit, hsave, hp'⟩ := hround.drive orders
    rw [hobeys.player_eq] at hinit hsave
    refine ⟨p', mode', ?_, hinit, hsave, hp'⟩
    rw [Player.drive, hobeys.play_eq]
    exact hdrive
  | p, mode, .reset :: orders, h => h.reset.drive orders

/-- However often a player of the warrior's tree is played and reset, in whatever worlds and with whatever snapshots,
the tree shows a mode, and the next turn in any world is the one that the policy has for it. -/
theorem policy_refined (init save : Camera Stats World) (orders : List (Order World)) :
    ∃ p mode, ({ playerOf warriorTree with init, save } : Player Stats World).drive orders = .ok p ∧ p.init = init ∧
      p.save = save ∧ Shows p.tree mode ∧ ∀ world, ∃ round, Obeys p mode world round := by
  obtain ⟨p, mode, hdrive, hinit, hsave, hp⟩ := (Plays.fresh init save).drive orders
  exact ⟨p, mode, hdrive, hinit, hsave, hp.shows, fun world => (hp.turn world).imp fun _ h => h.1⟩

end Corridor

end Behaviour
