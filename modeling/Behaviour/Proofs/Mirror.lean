import Behaviour.Proofs.Lawful
import Behaviour.Proofs.Symmetry

/-!
# The corridor in the mirror

In the mirror a corridor has its cells in reverse order, and the warrior in it stands at the reflected place and faces
the other way (`World.mirror`). As long as the warrior is inside, all senses of the warrior are the same there, and
whatever happens in the corridor happens in the mirror (`happen_mirror`): the warrior knows forward and backward, but
not left and right.

So the mirror is a symmetry that all leaves of the warrior's trees respect (`mirrored_parts`), and every player of one
of them plays alike in both worlds (`mirror_symmetric`).
-/

namespace Behaviour.Corridor

namespace World

/-- The corridor in the mirror. -/
def mirror (w : World) : World :=
  { w with cells := w.cells.reverse, position := w.cells.length - 1 - w.position, facing := w.facing.flip }

/-- Where a place is in the mirror. -/
def reflect (w : World) (i : Int) : Int := w.cells.length - 1 - i

/-- The warrior is inside the corridor. -/
def Inside (w : World) : Prop := w.position < w.cells.length

variable {w : World} {i : Int}

/-! ## Places and senses -/

theorem length_cells_mirror (w : World) : w.mirror.cells.length = w.cells.length := List.length_reverse

theorem position_mirror (h : w.Inside) : (w.mirror.position : Int) = w.reflect w.position := by
  unfold Inside at h
  change ((w.cells.length - 1 - w.position : Nat) : Int) = w.cells.length - 1 - w.position
  omega

@[simp] theorem cellAt?_mirror (w : World) (i : Int) : w.mirror.cellAt? (w.reflect i) = w.cellAt? i := by
  unfold cellAt? reflect
  by_cases hlo : i < 0
  · -- Beyond one end is beyond the other one in the mirror.
    rw [if_pos hlo]
    split
    · rfl
    · rw [List.getElem?_eq_none]
      rw [length_cells_mirror]
      omega
  · rw [if_neg hlo]
    by_cases hhi : i.toNat < w.cells.length
    · rw [if_neg (by omega)]
      change w.cells.reverse[_]? = _
      rw [List.getElem?_reverse (by omega)]
      congr 1
      omega
    · rw [if_pos (by omega), List.getElem?_eq_none (by omega)]

@[simp] theorem occupantAt?_mirror (w : World) (i : Int) : w.mirror.occupantAt? (w.reflect i) = w.occupantAt? i := by
  rw [occupantAt?, cellAt?_mirror, occupantAt?]

@[simp] theorem creatureAt?_mirror (w : World) (i : Int) : w.mirror.creatureAt? (w.reflect i) = w.creatureAt? i := by
  rw [creatureAt?, occupantAt?_mirror, creatureAt?]

theorem toward_flip (f : Facing) (d : Heading) : f.flip.toward d = (f.toward d).flip := by
  cases d <;> rfl

theorem ahead_mirror (h : w.Inside) (d : Heading) (steps : Nat) :
    w.mirror.ahead d steps = w.reflect (w.ahead d steps) := by
  have hfacing : (w.mirror.facing.toward d).step = -(w.facing.toward d).step := by
    change (w.facing.flip.toward d).step = _
    rw [toward_flip, Facing.step_flip]
  rw [ahead, hfacing, position_mirror h, ahead, reflect, reflect, Int.neg_mul]
  omega

theorem spaceAt_mirror (w : World) (i : Int) : w.mirror.spaceAt (w.reflect i) = w.spaceAt i := by
  rw [spaceAt, cellAt?_mirror, spaceAt]

/-- The warrior senses the same in the mirror. -/
theorem sense_mirror (h : w.Inside) (d : Heading) (steps : Nat) : w.mirror.sense d steps = w.sense d steps := by
  rw [sense, ahead_mirror h, spaceAt_mirror, sense]

theorem feel_mirror (h : w.Inside) (d : Heading) : w.mirror.feel d = w.feel d := sense_mirror h d 1

theorem look_mirror (h : w.Inside) (d : Heading) : w.mirror.look d = w.look d := by
  unfold look
  exact List.map_congr_left fun i _ => sense_mirror h d (i + 1)

/-! ## Actions -/

theorem reverse_modify {α : Type} (f : α → α) : ∀ {l : List α} {i : Nat}, i < l.length →
    (l.modify i f).reverse = l.reverse.modify (l.length - 1 - i) f := by
  intro l i hi
  apply List.ext_getElem?
  intro j
  by_cases hj : j < l.length
  · rw [List.getElem?_reverse (by rwa [List.length_modify]), List.length_modify, List.getElem?_modify,
      List.getElem?_modify, List.getElem?_reverse hj]
    have hplace : i = l.length - 1 - j ↔ l.length - 1 - i = j := by omega
    simp only [hplace]
  · rw [List.getElem?_eq_none (by simpa using hj), List.getElem?_eq_none (by simpa using hj)]

theorem setOccupant_mirror {c : Cell} (hc : w.cellAt? i = some c) (o : Option Occupant) :
    w.mirror.setOccupant (w.reflect i) o = (w.setOccupant i o).mirror := by
  obtain ⟨hlo, hcell⟩ := cellAt?_eq_some hc
  obtain ⟨hhi, -⟩ := List.getElem?_eq_some_iff.1 hcell
  have hplace : (w.reflect i).toNat = w.cells.length - 1 - i.toNat := by
    unfold reflect
    omega
  unfold setOccupant mirror
  simp only [hplace, List.length_modify, reverse_modify _ hhi]

theorem damage_mirror (w : World) (i : Int) (amount : Nat) :
    w.mirror.damage (w.reflect i) amount = (w.damage i amount).mirror := by
  unfold damage
  rw [occupantAt?_mirror]
  cases ho : w.occupantAt? i with
  | none => rfl
  | some o =>
    obtain ⟨c, hc, -⟩ := Option.bind_eq_some_iff.1 ho
    exact setOccupant_mirror hc _

theorem target?_mirror (h : w.Inside) (d : Heading) : ∀ range steps : Nat,
    w.mirror.target? d steps range = (w.target? d steps range).map w.reflect := by
  intro range
  induction range with
  | zero => exact fun steps => rfl
  | succ range ih =>
    intro steps
    rw [target?, target?, ahead_mirror h, cellAt?_mirror]
    cases w.cellAt? (w.ahead d steps) with
    | none => rfl
    | some c =>
      by_cases hc : c.occupant.isSome
      · simp only [hc, if_true, Option.map_some]
      · simp only [hc]
        exact ih (steps + 1)

/-- An action that takes place, takes place in the mirror. -/
theorem perform_mirror (h : w.Inside) (a : Action) : w.mirror.perform a = (w.perform a).mirror := by
  cases a with
  | walk d =>
    rw [perform, feel_mirror h, ahead_mirror h, perform]
    split
    · rename_i hempty
      obtain ⟨c, hc, -⟩ := exists_cell_of_isEmpty hempty
      obtain ⟨hlo, hcell⟩ := cellAt?_eq_some hc
      obtain ⟨hhi, -⟩ := List.getElem?_eq_some_iff.1 hcell
      have hplace : (w.reflect (w.ahead d 1)).toNat = w.cells.length - 1 - (w.ahead d 1).toNat := by
        unfold reflect
        omega
      rw [hplace]
      rfl
    · rfl
  | attack d => rw [perform, ahead_mirror h, damage_mirror, perform]
  | shoot d =>
    rw [perform, target?_mirror h, perform]
    cases w.target? d 1 lookDistance with
    | none => rfl
    | some i => exact damage_mirror w i shootPower
  | pivot =>
    change { w.mirror with facing := w.facing.flip.flip } = ({ w with facing := w.facing.flip } : World).mirror
    rfl
  | rest => rfl
  | rescue d =>
    rw [perform, feel_mirror h, ahead_mirror h, perform]
    split
    · rename_i hcaptive
      obtain ⟨c, hc, -⟩ := captiveAt_iff_hasCaptive.1 (captiveAt_iff_isCaptive.2 hcaptive)
      rw [setOccupant_mirror hc]
      rfl
    · rfl

theorem act_mirror (h : w.Inside) (a : Action) : w.mirror.act a = (w.act a).mirror := by
  cases hw : w.acted with
  | true =>
    have hmirror : w.mirror.acted = true := hw
    rw [act_of_acted hw, act_of_acted hmirror]
    rfl
  | false =>
    have hmirror : w.mirror.acted = false := hw
    have hinside : ({ w with acted := true } : World).Inside := h
    rw [act_of_not_acted hw, act_of_not_acted hmirror, ← perform_mirror hinside]
    rfl

/-! ## The end of a turn -/

section EndTurn

variable {j : Nat}

theorem distance_mirror (h : w.Inside) (hj : j < w.cells.length) :
    w.mirror.distance (w.cells.length - 1 - j) = w.distance j := by
  unfold Inside at h
  unfold distance
  change (_ - (w.cells.length - 1 - w.position)) + (w.cells.length - 1 - w.position - _) = _
  omega

theorem reflect_natCast (hj : j < w.cells.length) : w.reflect j = ((w.cells.length - 1 - j : Nat) : Int) := by
  unfold reflect
  omega

theorem reflect_reflect (w : World) (i : Int) : w.reflect (w.reflect i) = i := by
  unfold reflect
  omega

theorem between_reflect (h : w.Inside) (hj : j < w.cells.length) (k : Int) :
    w.mirror.Between (w.cells.length - 1 - j) (w.reflect k) ↔ w.Between j k := by
  unfold Between
  rw [position_mirror h, ← reflect_natCast hj]
  unfold reflect
  omega

theorem lineIsClear_mirror (h : w.Inside) (hj : j < w.cells.length) :
    w.mirror.lineIsClear (w.cells.length - 1 - j) = w.lineIsClear j := by
  rw [Bool.eq_iff_iff, lineIsClear_iff_between, lineIsClear_iff_between]
  constructor
  · intro hclear k hk
    have := hclear (w.reflect k) ((between_reflect h hj k).2 hk)
    rwa [creatureAt?_mirror] at this
  · intro hclear k hk
    rw [← w.reflect_reflect k, between_reflect h hj] at hk
    rw [← w.reflect_reflect k, creatureAt?_mirror]
    exact hclear _ hk

theorem strikes_mirror (h : w.Inside) (hj : j < w.cells.length) :
    w.mirror.strikes (w.cells.length - 1 - j) = w.strikes j := by
  unfold strikes
  rw [← reflect_natCast hj, creatureAt?_mirror, distance_mirror h hj, lineIsClear_mirror h hj]

/-- As many enemies are within reach in the mirror: the same ones, counted from the other end. -/
theorem threats_mirror (h : w.Inside) : w.mirror.threats = w.threats := by
  have hreverse : (List.range w.cells.length).reverse =
      (List.range w.cells.length).map fun j => w.cells.length - 1 - j := by
    simpa [List.range_eq_range'] using List.reverse_range' (s := 0) (n := w.cells.length)
  unfold threats
  rw [length_cells_mirror, ← List.countP_reverse, hreverse, List.countP_map]
  apply List.countP_congr
  intro j hj
  rw [Function.comp_apply, strikes_mirror h (List.mem_range.1 hj)]

theorem endTurn_mirror (h : w.Inside) : w.mirror.endTurn = w.endTurn.mirror := by
  unfold endTurn
  rw [threats_mirror h]
  rfl

end EndTurn

/-! ## Whatever happens -/

/-- Whatever happens, happens in the mirror. -/
theorem happen_mirror (h : w.Inside) (x : Happening) : w.mirror.happen x = (w.happen x).mirror := by
  cases x with
  | act a => exact act_mirror h a
  | endTurn => exact endTurn_mirror h
  | setHealth health => rfl

theorem Inside.happen (h : w.Inside) (x : Happening) : (w.happen x).Inside := by
  unfold Inside at *
  rcases position_happen w x with hstays | ⟨hinside, -⟩
  · rw [hstays, length_cells_happen]
    exact h
  · exact hinside

theorem Inside.happenAll (h : w.Inside) : ∀ xs : List Happening, (w.happenAll xs).Inside :=
  happenAll_induction (fun _ x hw => hw.happen x) h

/-- A warrior is inside every corridor that has an inside. -/
theorem inside_ofLayout {layout : List Char} (h : layout ≠ []) : (ofLayout layout).Inside := by
  unfold Inside
  rw [length_cells_ofLayout]
  change (lastStart? layout).getD 0 < _
  cases hs : lastStart? layout with
  | none => exact List.length_pos_iff.2 h
  | some i => exact lastStart?_lt hs

end World

/-! ## The warrior's trees -/

/-- The mirror, for worlds with the warrior inside. -/
def mirroring : Symmetry World where
  change := World.mirror
  fits := World.Inside

open World Assembly

theorem Condition.holds_mirror {w : World} (h : w.Inside) (stats : Stats) (c : Condition) :
    c.holds stats w.mirror = c.holds stats w := by
  cases c with
  | spaceAhead => rw [holds, feel_mirror h, holds]
  | enemyAhead => rw [holds, feel_mirror h, holds]
  | captiveAhead => rw [holds, feel_mirror h, holds]
  | wallAhead => rw [holds, feel_mirror h, holds]
  | captiveAt d steps => rw [holds, sense_mirror h, holds]
  | enemyAt steps => rw [holds, sense_mirror h, holds]
  | damaged => rfl
  | lowHealth percent => rfl

theorem Condition.respects_leaf (c : Condition) : mirroring.Respects c.leaf := by
  intro s hs
  refine ⟨?_, hs⟩
  change (statusOf (c.holds s.context s.world.mirror), _) = _
  rw [c.holds_mirror hs]
  rfl

theorem Action.respects_leaf (a : Action) : mirroring.Respects a.leaf := by
  intro s hs
  refine ⟨?_, hs.happen (.act a)⟩
  change (Status.success, { s with world := s.world.mirror.act a }) = _
  rw [act_mirror hs]
  rfl

theorem respects_fullyHealed : mirroring.Respects fullyHealed := fun _ hs => ⟨rfl, hs⟩

theorem respects_startingStats : mirroring.RespectsCamera startingStats := fun _ hw => ⟨rfl, hw⟩

theorem respects_currentStats : mirroring.RespectsCamera currentStats := fun _ hw => ⟨rfl, hw⟩

/-- An assembly of nodes that respect the mirror. -/
abbrev Mirrored {α : Type} (a : Assembly Stats World α) : Prop := Adds (Role.Respects mirroring) a

theorem mirrored_ask (name : String) (c : Condition) : Mirrored (ask name c) := by
  refine Adds.leaf name ?_
  rintro _ ⟨⟩
  exact c.respects_leaf

theorem mirrored_act (name : String) (a : Action) : Mirrored (Corridor.act name a) := by
  refine Adds.leaf name ?_
  rintro _ ⟨⟩
  exact a.respects_leaf

theorem mirrored_composite (rule : Rule) (name : String) (keep : Bool) {ps : List Part} (h : ∀ p ∈ ps, Mirrored p) :
    Mirrored (composite rule name keep ps) := Adds.composite name trivial h

theorem mirrored_negated {p : Part} (h : Mirrored p) : Mirrored (negated p) := by
  refine Adds.negated ?_ h
  rintro _ ⟨⟩
  trivial

theorem mirrored_delayed {p : Part} (h : Mirrored p) : Mirrored (delayed p) := by
  refine Adds.delayed ?_ h
  rintro _ ⟨⟩
  trivial

theorem mirrored_awaited (child : Int) : Mirrored (awaited child fullyHealed) := by
  refine Adds.awaited child ?_
  rintro _ ⟨⟩
  exact respects_fullyHealed

theorem mirrored_pure (h : Int) : Mirrored (pure h : Part) := Adds.pure h

theorem mirrored_walkOn : Mirrored walkOn := by
  refine mirrored_composite _ _ _ ?_
  simp only [List.forall_mem_cons]
  exact ⟨mirrored_ask _ _, mirrored_act _ _, nofun⟩

theorem mirrored_heal : Mirrored heal := by
  refine Adds.bind (mirrored_act _ _) fun rest => mirrored_composite _ _ _ ?_
  simp only [List.forall_mem_cons]
  exact ⟨mirrored_ask _ _, mirrored_awaited rest, nofun⟩

theorem mirrored_fight : Mirrored fight := by
  refine mirrored_composite _ _ _ ?_
  simp only [List.forall_mem_cons]
  exact ⟨mirrored_ask _ _, mirrored_act _ _, nofun⟩

theorem mirrored_setFree : Mirrored setFree := by
  refine mirrored_composite _ _ _ ?_
  simp only [List.forall_mem_cons]
  exact ⟨mirrored_ask _ _, mirrored_act _ _, nofun⟩

theorem mirrored_turnToCaptive : Mirrored turnToCaptive := by
  refine Adds.bind (mirrored_composite _ _ _ ?_) fun behind => mirrored_composite _ _ _ ?_
  · simp only [List.forall_mem_cons]
    exact ⟨mirrored_ask _ _, mirrored_ask _ _, mirrored_ask _ _, nofun⟩
  · simp only [List.forall_mem_cons]
    exact ⟨mirrored_pure behind, mirrored_act _ _, nofun⟩

theorem mirrored_snipe : Mirrored snipe := by
  refine Adds.bind (mirrored_negated (mirrored_ask _ _)) fun noCaptive₁ => ?_
  refine Adds.bind (mirrored_negated (mirrored_ask _ _)) fun noCaptive₂ => ?_
  refine Adds.bind (mirrored_ask _ _) fun enemy => ?_
  refine Adds.bind (mirrored_delayed (mirrored_act _ _)) fun shot => ?_
  refine Adds.bind (mirrored_ask _ _) fun stillEnemy => ?_
  refine Adds.bind (mirrored_act _ _) fun walk => mirrored_composite _ _ _ ?_
  simp only [List.forall_mem_cons]
  exact ⟨mirrored_pure _, mirrored_pure _, mirrored_pure _, mirrored_pure _, mirrored_pure _, mirrored_pure _, nofun⟩

theorem mirrored_retreat : Mirrored retreat := by
  refine mirrored_composite _ _ _ ?_
  simp only [List.forall_mem_cons]
  exact ⟨mirrored_ask _ _, mirrored_ask _ _, mirrored_act _ _, nofun⟩

theorem mirrored_turnAtWall : Mirrored turnAtWall := by
  refine mirrored_composite _ _ _ ?_
  simp only [List.forall_mem_cons]
  exact ⟨mirrored_ask _ _, mirrored_act _ _, nofun⟩

theorem mirrored_warriorTree : Mirrored warriorTree := by
  refine mirrored_composite _ _ _ ?_
  simp only [List.forall_mem_cons]
  exact ⟨mirrored_turnToCaptive, mirrored_fight, mirrored_snipe, mirrored_turnAtWall, mirrored_retreat,
    mirrored_setFree, mirrored_heal, mirrored_walkOn, nofun⟩

/-- The warrior's whole tree and its subtrees, each of which can be played by itself. -/
def parts : List Part :=
  [walkOn, heal, fight, setFree, turnToCaptive, snipe, retreat, turnAtWall, warriorTree]

theorem mirrored_parts : ∀ part ∈ parts, Mirrored part := by
  simp only [parts, List.forall_mem_cons]
  exact ⟨mirrored_walkOn, mirrored_heal, mirrored_fight, mirrored_setFree, mirrored_turnToCaptive, mirrored_snipe,
    mirrored_retreat, mirrored_turnAtWall, mirrored_warriorTree, nofun⟩

/-- All of them can be played. -/
theorem check_parts : ∀ part ∈ parts, (build part).2.check (build part).1 = none := by
  simp only [parts, List.forall_mem_cons]
  refine ⟨?_, ?_, ?_, ?_, ?_, ?_, ?_, ?_, ?_, nofun⟩ <;> cbv

theorem respects_playerOf : ∀ part ∈ parts, (playerOf part).Respects mirroring := by
  intro part hpart
  have hplan := (mirrored_parts part hpart).build.exists_plan (check_parts part hpart)
  exact ⟨hplan, respects_startingStats, respects_currentStats⟩

/-! ## Runs -/

namespace Outing

/-- The same outing in the mirror. -/
def mirror (o : Outing) : Outing := { o with world := o.world.mirror }

/-- The player respects the mirror, and the warrior is inside. -/
structure Mirrored (o : Outing) : Prop where
  player : o.player.Respects mirroring
  inside : o.world.Inside

/-- What happens next, happens in the mirror. -/
theorem Mirrored.step {o : Outing} (h : o.Mirrored) (move : Move) :
    ∃ o', o.step move = .ok o' ∧ o.mirror.step move = .ok o'.mirror ∧ o'.Mirrored := by
  cases move with
  | play =>
    obtain ⟨round, hround, hmirror, hplayer, hinside⟩ := h.player.play_mapWorld (g := mirroring) h.inside
    refine ⟨⟨round.player, round.world⟩, ?_, ?_, hplayer, hinside⟩
    · rw [Outing.step, hround]
      rfl
    · change (do let round ← o.player.play o.world.mirror; return _) = _
      have hplay : o.player.play o.world.mirror = .ok (round.mapWorld World.mirror) := hmirror
      rw [hplay]
      rfl
  | endTurn =>
    refine ⟨{ o with world := o.world.endTurn }, rfl, ?_, h.player, h.inside.happen .endTurn⟩
    change Except.ok { o with world := o.world.mirror.endTurn } = _
    rw [endTurn_mirror h.inside]
    rfl
  | setHealth health => exact ⟨{ o with world := o.world.withHealth health }, rfl, rfl, h.player, h.inside⟩

theorem Mirrored.run : ∀ (moves : List Move) {o : Outing}, o.Mirrored →
    ∃ o', o.run moves = .ok o' ∧ o.mirror.run moves = .ok o'.mirror ∧ o'.Mirrored
  | [], o, h => ⟨o, rfl, rfl, h⟩
  | move :: moves, o, h => by
    obtain ⟨o', hstep, hmirror, h'⟩ := h.step move
    obtain ⟨o'', hrun, hrun', h''⟩ := Mirrored.run moves h'
    refine ⟨o'', ?_, ?_, h''⟩
    · rw [Outing.run, List.foldlM_cons, hstep]
      exact hrun
    · rw [Outing.run, List.foldlM_cons, hmirror]
      exact hrun'

end Outing

/-- The warrior in a world cannot tell it from its mirror. -/
structure Symmetric (w : World) : Prop where
  happen : ∀ x, w.mirror.happen x = (w.happen x).mirror
  feel : ∀ d, w.mirror.feel d = w.feel d
  look : ∀ d, w.mirror.look d = w.look d
  /-- A player of any of the trees, whatever it has played before, and an identical player go on alike in the world and
  in its mirror: after the same moves the players are still identical and the worlds mirrors of each other, and the next
  rounds are the same but for their worlds, which are mirrors of each other, too. -/
  play : ∀ part ∈ parts, ∀ (tracing : Bool) (orders : List (Order World)), ∃ p,
    ((playerOf part).watch tracing).drive orders = .ok p ∧ ∀ moves : List Move, ∃ o : Outing,
      Outing.run ⟨p, w⟩ moves = .ok o ∧ Outing.run ⟨p, w.mirror⟩ moves = .ok ⟨o.player, o.world.mirror⟩ ∧
      ∃ round, o.player.play o.world = .ok round ∧ o.player.play o.world.mirror = .ok (round.mapWorld World.mirror)

/-- In every corridor with a cell, whatever has happened. -/
theorem mirror_symmetric (layout : List Char) (h : layout ≠ []) (xs : List Happening) :
    Symmetric ((World.ofLayout layout).happenAll xs) := by
  have hinside := (inside_ofLayout h).happenAll xs
  refine ⟨happen_mirror hinside, feel_mirror hinside, look_mirror hinside, ?_⟩
  intro part hpart tracing orders
  obtain ⟨p, hdrive, hp⟩ := Player.Respects.drive orders ((respects_playerOf part hpart).watch tracing)
  refine ⟨p, hdrive, ?_⟩
  intro moves
  obtain ⟨o, hrun, hmirror, ho⟩ := Outing.Mirrored.run moves (o := ⟨p, _⟩) ⟨hp, hinside⟩
  obtain ⟨round, hround, hround', -, -⟩ := ho.player.play_mapWorld (g := mirroring) ho.inside
  exact ⟨o, hrun, hmirror, round, hround, hround'⟩

/-- After a step and a turn round in a corridor with a sludge in it. -/
theorem mirror_symmetric_sludge : "> @ s".toList ≠ [] ∧ Symmetric
    ((World.ofLayout "> @ s".toList).happenAll [.act (.walk .forward), .endTurn, .act .pivot]) :=
  ⟨by decide, mirror_symmetric "> @ s".toList (by decide) _⟩

end Behaviour.Corridor
