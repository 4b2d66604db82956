import Behaviour.Proofs.Account
import Behaviour.Proofs.Rounds

/-!
# The question after damage

The leaf `check_for_damage` compares the warrior's health with the snapshot, which a turn takes at its end, before the
enemies strike. It is asked once in a turn that gets to it, and not at all in any other (`asked`). On the way there
branches have failed, and a branch that fails has done nothing or fired a second shot, so that the warrior is as `hurt`
as at the beginning. In every mode the visit of the tree has thus one answer at most, and it is the one that could have
been given at the beginning (`alarms_visit`).

Hence it tells in each turn but the first one whether the end of the turn before took health, and in the first one
whether the warrior began with less than full health (`damage_told`).
-/

namespace Behaviour

variable {κ σ : Type}

/-- A leaf that acts in the course of a visit belongs to the subtree. -/
theorem Node.label_mem_of_acted {n : Node κ σ} {scene : Scene κ σ} {label : Label} {status : Status}
    (h : .acted label status ∈ (n.visit scene).log) : label ∈ n.labels := by
  rw [(n.visit_eq_trail scene).2.2] at h
  have hact : (label, status) ∈ (n.trail scene).log.filterMap Event.act? := List.mem_filterMap.2 ⟨_, h, rfl⟩
  rw [Trail.filterMap_act?_log fun u hu => Node.sober_of_mem_preorder hu] at hact
  obtain ⟨u, hu, hact⟩ := List.mem_filterMap.1 hact
  obtain ⟨m, hm, scene', rfl⟩ := n.exists_of_mem_preorder scene ((n.trail scene).postorder_perm.subset hu)
  rw [Trail.act?, Option.ite_none_right_eq_some, Node.label_trail] at hact
  obtain ⟨rfl, -⟩ := Prod.mk.inj (Option.some.inj hact.2)
  exact List.mem_map_of_mem hm

namespace Corridor

/-- Whether the warrior has less health than the snapshot says. -/
def hurt (s : Scene Stats World) : Bool := Condition.damaged.holds s.context s.world

theorem hurt_congr {stats : Stats} {w w' : World} (h : w'.health = w.health) :
    hurt ⟨stats, w'⟩ = hurt ⟨stats, w⟩ := by
  simp only [hurt, Condition.holds, h]

/-! ## Answers -/

/-- What the question after damage answered, if it was asked. -/
def alarm? : Event Stats World → Option Status
  | .acted label status => if label.name = "check_for_damage" then some status else none
  | .tested _ _ | .derived _ | .judged _ _ | .finished _ _ _ _ => none

/-- What the question after damage answered each time it was asked. -/
def alarms (log : List (Event Stats World)) : List Status := log.filterMap alarm?

theorem alarms_append (log log' : List (Event Stats World)) : alarms (log ++ log') = alarms log ++ alarms log' :=
  List.filterMap_append

/-- The question is not among the leaves of the subtree. -/
def Silent (n : Node Stats World) : Prop := ∀ l ∈ n.labels, l.name ≠ "check_for_damage"

instance (n : Node Stats World) : Decidable (Silent n) :=
  inferInstanceAs (Decidable (∀ l ∈ n.labels, l.name ≠ "check_for_damage"))

variable {r : Rule} {n : Node Stats World} {ns : List (Node Stats World)} {stats : Stats} {w : World}

theorem Silent.alarms_visit (h : Silent n) (s : Scene Stats World) : alarms (n.visit s).log = [] := by
  rw [alarms, List.filterMap_eq_nil_iff]
  intro e he
  cases e with
  | acted label status => exact if_neg (h label (Node.label_mem_of_acted he))
  | tested | derived | judged | finished => rfl

/-! ## Scans -/

/-- The end of the visit of a composite is no answer. -/
theorem alarms_composite (label : Label) (r : Rule) (keep : Bool) (cursor : Option Nat) (ns : List (Node Stats World))
    (s : Scene Stats World) : alarms ((Node.composite label r keep cursor ns).visit s).log =
      alarms (Node.scan r (startPlace keep cursor) ns s).log := by
  rw [Node.visit]
  exact (alarms_append _ _).trans (List.append_nil _)

theorem alarms_scan_of_onward {s : Scene Stats World} (h : (n.visit s).status = r.onward) :
    alarms (Node.scan r 0 (n :: ns) s).log =
      alarms (n.visit s).log ++ alarms (Node.scan r 0 ns (n.visit s).scene).log := by
  rw [Node.scan_of_onward h, alarms_append]

theorem alarms_scan_of_ne_onward {s : Scene Stats World} (h : (n.visit s).status ≠ r.onward) :
    alarms (Node.scan r 0 (n :: ns) s).log = alarms (n.visit s).log := by
  rw [Node.scan_of_ne_onward h]

theorem alarms_scan_drop {skip : Nat} (h : skip ≤ ns.length) (s : Scene Stats World) :
    alarms (Node.scan r skip ns s).log = alarms (Node.scan r 0 (ns.drop skip) s).log := by
  rw [Node.scan_eq_drop r skip ns s h]

/-- Where the question is nowhere among the children, it is not asked. -/
theorem alarms_scan_of_silent : ∀ {ns : List (Node Stats World)} {s : Scene Stats World}, (∀ n ∈ ns, Silent n) →
    alarms (Node.scan r 0 ns s).log = []
  | [], _, _ => by
    rw [Node.scan]
    rfl
  | n :: ns, s, h => by
    have hfirst := (h n List.mem_cons_self).alarms_visit s
    by_cases honward : (n.visit s).status = r.onward
    · rw [alarms_scan_of_onward honward, hfirst, alarms_scan_of_silent fun m hm => h m (List.mem_cons_of_mem n hm)]
      rfl
    · rw [alarms_scan_of_ne_onward honward, hfirst]

/-- Where the question can only be among the leaves of the first child, this child gives all answers. -/
theorem alarms_scan_cons (h : ∀ m ∈ ns, Silent m) (s : Scene Stats World) :
    alarms (Node.scan r 0 (n :: ns) s).log = alarms (n.visit s).log := by
  by_cases honward : (n.visit s).status = r.onward
  · rw [alarms_scan_of_onward honward, alarms_scan_of_silent h, List.append_nil]
  · rw [alarms_scan_of_ne_onward honward]

/-! ## Branches -/

/-- The branch of the question asks at once. -/
theorem alarms_retreating (mode : Mode) (s : Scene Stats World) :
    alarms ((retreating.node mode).visit s).log = [statusOf (hurt s)] := by
  have hothers : ∀ m ∈ [asking 25 "low_health" (.lowHealth lowPercent),
      acting 26 "walk_backward" (.walk .backward)], Silent m := by decide
  exact (alarms_composite _ _ _ _ _ s).trans (alarms_scan_cons hothers s)

/-- Behind branches that do without it, the question is asked if none of them has anything to do. -/
theorem alarms_scan_branches {before later : List Branch}
    (hbefore : ∀ b ∈ before, b.Follows stats w ∧ Silent (b.node .fresh))
    (hlater : ∀ b ∈ later, Silent (b.node .fresh)) :
    alarms (Node.scan .selector 0 ((before ++ retreating :: later).map (·.node .fresh)) ⟨stats, w⟩).log =
      if before.all fun b => !b.clause.guard stats w then [statusOf (hurt ⟨stats, w⟩)] else [] := by
  induction before with
  | nil =>
    have hsilent : ∀ m ∈ later.map (·.node .fresh), Silent m := by
      intro m hm
      obtain ⟨b, hb, rfl⟩ := List.mem_map.1 hm
      exact hlater b hb
    rw [List.nil_append, List.map_cons, alarms_scan_cons hsilent, alarms_retreating]
    rfl
  | cons b before ih =>
    obtain ⟨hfollows, hsilent⟩ := hbefore b List.mem_cons_self
    rw [List.cons_append, List.map_cons, List.all_cons]
    cases hg : b.clause.guard stats w with
    | true =>
      -- The branch has something to do, and no other one is visited.
      have hstatus : ((b.node .fresh).visit ⟨stats, w⟩).status ≠ .failure := by
        rw [(hfollows.acts hg).status_eq]
        exact hfollows.answers
      rw [alarms_scan_of_ne_onward hstatus, hsilent.alarms_visit]
      rfl
    | false =>
      have hpasses := hfollows.passes hg
      rw [alarms_scan_of_onward hpasses.status_eq, hsilent.alarms_visit, hpasses.scene_eq]
      exact ih fun c hc => hbefore c (List.mem_cons_of_mem b hc)

/-! ## Visits -/

/-- Whether a turn gets to the question after damage. -/
def asked (stats : Stats) (w : World) : Mode → Bool
  | .fresh => (clauses.take 4).all fun c => !c.guard stats w
  | .shooting =>
    let shot := w.act (.shoot .forward)
    !(shot.sense .forward 3).isEnemy && !wallAhead.guard stats shot
  | .healing => false

theorem silent_before : ∀ b ∈ [turning, fighting, sniping, turningAtWall],
    b.Follows stats w ∧ Silent (b.node .fresh) := by
  simp only [List.forall_mem_cons, List.not_mem_nil]
  exact ⟨⟨follows_turning, by decide⟩, ⟨follows_fighting, by decide⟩, ⟨follows_sniping, by decide⟩,
    ⟨follows_turningAtWall, by decide⟩, nofun⟩

theorem silent_later : ∀ b ∈ [freeing, mending, walking], Silent (b.node .fresh) := by
  simp only [List.forall_mem_cons, List.not_mem_nil]
  exact ⟨by decide, by decide, by decide, nofun⟩

theorem alarms_fresh : alarms ((warriorIn .fresh).visit ⟨stats, w⟩).log =
    if asked stats w .fresh then [statusOf (hurt ⟨stats, w⟩)] else [] := by
  have hscan : alarms ((warriorIn .fresh).visit ⟨stats, w⟩).log = alarms (Node.scan .selector 0
      (([turning, fighting, sniping, turningAtWall] ++ retreating :: [freeing, mending, walking]).map (·.node .fresh))
      ⟨stats, w⟩).log :=
    alarms_composite _ _ _ _ _ _
  rw [hscan, alarms_scan_branches silent_before silent_later]
  rfl

/-- After a second shot that leaves no enemy where the warrior aims, the other branches are tried in the world after
the shot, where the warrior is as hurt as before. -/
theorem alarms_shooting : alarms ((warriorIn .shooting).visit ⟨stats, w⟩).log =
    if asked stats w .shooting then [statusOf (hurt ⟨stats, w⟩)] else [] := by
  have hsilent : Silent (sniping.node .shooting) := by decide
  have hscan : alarms ((warriorIn .shooting).visit ⟨stats, w⟩).log = alarms (Node.scan .selector 0
      (sniping.node .shooting :: ([turningAtWall] ++ retreating :: [freeing, mending, walking]).map (·.node .fresh))
      ⟨stats, w⟩).log :=
    (alarms_composite _ _ _ _ _ _).trans (alarms_scan_drop (by decide) _)
  rw [hscan, asked]
  cases hhit : ((w.act (.shoot .forward)).sense .forward 3).isEnemy with
  | true =>
    have hcloses : Does stats w (sniping.node .shooting) .success _ _ := does_sniping_closing hhit
    have hstatus : ((sniping.node .shooting).visit ⟨stats, w⟩).status ≠ .failure := by
      rw [hcloses.status_eq]
      nofun
    rw [alarms_scan_of_ne_onward hstatus, hsilent.alarms_visit]
    rfl
  | false =>
    have hlost : Does stats w (sniping.node .shooting) .failure _ _ := does_sniping_lost hhit
    rw [alarms_scan_of_onward hlost.status_eq, hsilent.alarms_visit, hlost.scene_eq, List.nil_append]
    have hwall : ∀ b ∈ [turningAtWall], b.Follows stats (w.act (.shoot .forward)) ∧ Silent (b.node .fresh) :=
      List.forall_mem_singleton.2 ⟨follows_turningAtWall, by decide⟩
    rw [World.after_cons, World.after_nil, alarms_scan_branches hwall silent_later,
      hurt_congr (World.health_act_shoot w .forward)]
    simp only [List.all_cons, List.all_nil, Bool.and_true, Bool.not_false, Bool.true_and]
    rfl

/-- Healing, the branches before the one that heals are left out. -/
theorem alarms_healing : alarms ((warriorIn .healing).visit ⟨stats, w⟩).log =
    if asked stats w .healing then [statusOf (hurt ⟨stats, w⟩)] else [] := by
  have hsilent : ∀ m ∈ [mending.node .healing, walking.node .healing], Silent m := by decide
  exact (alarms_composite _ _ _ _ _ _).trans ((alarms_scan_drop (by decide) _).trans (alarms_scan_of_silent hsilent))

/-- In every mode, a visit that gets to the question has one answer, which could have been given at the beginning. -/
theorem alarms_visit (stats : Stats) (w : World) (mode : Mode) : alarms ((warriorIn mode).visit ⟨stats, w⟩).log =
    if asked stats w mode then [statusOf (hurt ⟨stats, w⟩)] else [] := by
  cases mode with
  | fresh => exact alarms_fresh
  | shooting => exact alarms_shooting
  | healing => exact alarms_healing

/-! ## Turns -/

namespace Outing

variable {o : Outing} {mode : Mode}

/-- A turn of a round asks whether the warrior has less health than the snapshot says, if it gets to the question, and
the snapshot for the next turn says what health it has left. -/
theorem Between.alarms_play (h : Between mode o) : ∃ round, o.player.play o.world = .ok round ∧
    alarms (round.log.filterMap Moment.inside?) =
      (if asked (o.player.opening o.world).1 o.world mode then
        [statusOf (o.world.health < (o.player.opening o.world).1.health)]
      else []) ∧
      (round.player.opening round.world.endTurn).1 = ⟨round.world.health⟩ ∧
      ∃ mode', Between mode' ⟨round.player, round.world.endTurn⟩ := by
  obtain ⟨round, hplay, -, -, hnext⟩ := h.turn
  obtain ⟨n, hplan, hn⟩ := h.plays
  have hopen : (o.player.opening o.world).2.1 = o.world := by
    unfold Player.opening
    split
    · rfl
    · rw [h.init]
      rfl
  have hturn := hplay
  rw [o.player.play_of_plan hplan] at hturn
  obtain rfl := Except.ok.inj hturn
  refine ⟨_, hplay, ?_, ?_, _, hnext⟩
  · simp only [o.player.inside_log, (Node.visit_congr hn _).2.2.2, hopen]
    exact alarms_visit _ _ mode
  · simp only [h.save]
    rfl

end Outing

open Outing

/-- In every layout and with every health to begin with, a turn that gets to the question after damage answers it once.
In the first turn it tells whether the warrior began with less than full health, and in each later turn whether the end
of the turn before took health. -/
theorem damage_told (layout : List Char) (health : Int) (n : Nat) :
    (∃ round, (enter layout health).player.play (enter layout health).world = .ok round ∧
      alarms (round.log.filterMap Moment.inside?) =
        if asked ⟨20⟩ (enter layout health).world .fresh then [statusOf (health < 20)] else []) ∧
    ∃ o before mode round, (enter layout health).rounds n = .ok o ∧ o.player.play o.world = .ok before ∧
      (enter layout health).rounds (n + 1) = .ok ⟨before.player, before.world.endTurn⟩ ∧
      before.player.tree.rootPlace = mode.place ∧ before.player.play before.world.endTurn = .ok round ∧
      alarms (round.log.filterMap Moment.inside?) =
        if asked ⟨before.world.health⟩ before.world.endTurn mode then
          [statusOf (before.world.endTurn.health < before.world.health)]
        else [] := by
  constructor
  · obtain ⟨round, hplay, halarms, -⟩ := (between_enter layout health).alarms_play
    rw [opening_enter] at halarms
    exact ⟨round, hplay, halarms⟩
  · obtain ⟨mode, o, ho, h⟩ := between_rounds layout health n
    obtain ⟨before, hbefore, -, hsnapshot, mode', h'⟩ := h.alarms_play
    obtain ⟨round, hplay, halarms, -⟩ := h'.alarms_play
    rw [hsnapshot] at halarms
    exact ⟨o, before, mode', round, ho, hbefore, (rounds_succ ho).trans (nextRound_of_play hbefore),
      h'.plays.rootPlace, hplay, halarms⟩

/-- An archer behind strikes at the end of the first turn, and the second turn gets to the question. -/
example :
    let w := ((World.ofLayout "a @   ".toList).act (.walk .forward)).endTurn
    w.health = 17 ∧ asked ⟨20⟩ w .fresh = true := by decide

end Corridor

end Behaviour
