import Behaviour.Proofs.Policy

/-!
# No captive comes to harm

The warrior attacks and shoots at places, not at creatures, and the second shot of a sniping warrior is fired without
asking who is there. Still no blow or shot ever strikes a captive: whoever is three cells away when a warrior begins to
snipe is an enemy and nobody nearer is a captive (`Safe`), a shot makes no captives, and until the second shot nobody
moves. So in every run the captives that are left and those that were set free are as many as the layout had
(`captives_unharmed`).
-/

namespace Behaviour.Corridor

open World

/-- How a change of one item changes the number of items with a property. -/
theorem countP_modify {α : Type} {p : α → Bool} {f : α → α} {x : α} : ∀ {l : List α} {i : Nat}, l[i]? = some x →
    (l.modify i f).countP p + (if p x then 1 else 0) = l.countP p + (if p (f x) then 1 else 0)
  | [], _, h => by simp at h
  | y :: l, 0, h => by
    obtain rfl : y = x := by simpa using h
    simp only [List.modify_zero_cons, List.countP_cons]
    omega
  | y :: l, i + 1, h => by
    have := countP_modify (p := p) (f := f) (l := l) (i := i) (by simpa using h)
    simp only [List.modify_succ_cons, List.countP_cons]
    omega

/-! ## Captives -/

/-- Whether a captive is on the cell. -/
def Cell.hasCaptive (c : Cell) : Bool := c.creature? == some .captive

namespace World

/-- The number of captives that are left in the corridor. -/
def captives (w : World) : Nat := w.cells.countP Cell.hasCaptive

/-- Whether a captive is at a place. -/
def captiveAt (w : World) (i : Int) : Prop := w.creatureAt? i = some .captive

/-- The place that an action strikes, if it takes place. -/
def struck? (w : World) : Action → Option Int
  | .attack h => some (w.ahead h 1)
  | .shoot h => w.target? h 1 lookDistance
  | .walk _ | .pivot | .rest | .rescue _ => none

/-- The action strikes no captive, if it takes place. -/
def Spares (w : World) (a : Action) : Prop := w.acted = false → ∀ i, w.struck? a = some i → ¬ w.captiveAt i

/-! ## Places -/

variable {w : World} {i j : Int} {h : Heading} {a : Action}

theorem creature?_sense (w : World) (h : Heading) (steps : Nat) :
    (w.sense h steps).creature? = w.creatureAt? (w.ahead h steps) := by
  unfold sense spaceAt creatureAt? occupantAt?
  cases w.cellAt? (w.ahead h steps) <;> rfl

theorem captiveAt_iff_isCaptive {steps : Nat} : w.captiveAt (w.ahead h steps) ↔ (w.sense h steps).isCaptive = true := by
  rw [captiveAt, ← creature?_sense, Space.isCaptive, beq_iff_eq]

/-- An enemy is no captive. -/
theorem not_captiveAt_of_isEnemy {steps : Nat} (he : (w.sense h steps).isEnemy = true) :
    ¬ w.captiveAt (w.ahead h steps) := by
  intro hc
  rw [captiveAt, ← creature?_sense] at hc
  simp [Space.isEnemy, hc, Creature.isEnemy] at he

/-- A shot strikes someone, and nobody stands before them. -/
theorem exists_first_of_target? : ∀ {range steps : Nat}, w.target? h steps range = some i →
    ∃ k, steps ≤ k ∧ k < steps + range ∧ i = w.ahead h k ∧ ∀ m, steps ≤ m → m < k →
      w.creatureAt? (w.ahead h m) = none
  | 0, _, ht => by cases ht
  | range + 1, steps, ht => by
    rw [target?] at ht
    split at ht
    · cases ht
    · rename_i c hc
      split at ht
      · refine ⟨steps, Nat.le_refl _, by omega, (Option.some.inj ht).symm, ?_⟩
        intro m hm hlt
        omega
      · rename_i hnobody
        obtain ⟨k, hk, hlt, hi, hbefore⟩ := exists_first_of_target? ht
        refine ⟨k, by omega, by omega, hi, ?_⟩
        intro m hm hmk
        rcases Nat.eq_or_lt_of_le hm with rfl | hm
        · simpa [creatureAt?, occupantAt?, hc] using hnobody
        · exact hbefore m hm hmk

theorem cellAt?_eq_some {c : Cell} (hc : w.cellAt? i = some c) : 0 ≤ i ∧ w.cells[i.toNat]? = some c := by
  unfold cellAt? at hc
  split at hc
  · cases hc
  · exact ⟨by omega, hc⟩

theorem captiveAt_iff_hasCaptive : w.captiveAt i ↔ ∃ c, w.cellAt? i = some c ∧ c.hasCaptive = true := by
  unfold captiveAt creatureAt? occupantAt? Cell.hasCaptive Cell.creature?
  cases w.cellAt? i <;> simp

/-! ## Changes of the corridor -/

theorem cellAt?_setOccupant (hi : 0 ≤ i) (o : Option Occupant) : (w.setOccupant i o).cellAt? j =
    (w.cellAt? j).map fun c => if i = j then { c with occupant := o } else c := by
  unfold cellAt? setOccupant
  by_cases hj : j < 0
  · simp [hj]
  · have hij : i.toNat = j.toNat ↔ i = j := by omega
    simp only [hj, if_false, List.getElem?_modify, hij]
    rfl

theorem occupantAt?_setOccupant_of_ne (hi : 0 ≤ i) (hij : i ≠ j) (o : Option Occupant) :
    (w.setOccupant i o).occupantAt? j = w.occupantAt? j := by
  simp [occupantAt?, cellAt?_setOccupant hi, hij]

/-- Where a cell gets another occupant, the number of captives changes by what is on that cell. -/
theorem captives_setOccupant {c : Cell} (hc : w.cellAt? i = some c) (o : Option Occupant) :
    (w.setOccupant i o).captives + (if c.hasCaptive then 1 else 0) =
      w.captives + (if { c with occupant := o : Cell }.hasCaptive then 1 else 0) :=
  countP_modify (cellAt?_eq_some hc).2

theorem creatureAt?_setOccupant {c : Cell} (hc : w.cellAt? i = some c) (o : Option Occupant) :
    (w.setOccupant i o).creatureAt? i = o.map Occupant.creature := by
  simp [creatureAt?, occupantAt?, cellAt?_setOccupant (cellAt?_eq_some hc).1, hc]

/-- Harm either finds nobody, or leaves the same creature or nobody behind. -/
theorem damage_cases (w : World) (i : Int) (amount : Nat) : w.damage i amount = w ∨
    ∃ c o, w.cellAt? i = some c ∧ w.damage i amount = w.setOccupant i o ∧
      (o.map Occupant.creature = c.creature? ∨ o = none) := by
  unfold damage
  cases ho : w.occupantAt? i with
  | none => exact .inl rfl
  | some x =>
    obtain ⟨c, hc, hx⟩ := Option.bind_eq_some_iff.1 ho
    refine .inr ⟨c, _, hc, rfl, ?_⟩
    split
    · exact .inr rfl
    · left
      rw [Cell.creature?, hx]
      rfl

/-- Harm to a place leaves everyone else alone. -/
theorem occupantAt?_damage_of_ne (hij : i ≠ j) (amount : Nat) :
    (w.damage i amount).occupantAt? j = w.occupantAt? j := by
  obtain hw | ⟨c, o, hc, hw, -⟩ := damage_cases w i amount <;> rw [hw]
  exact occupantAt?_setOccupant_of_ne (cellAt?_eq_some hc).1 hij o

/-- Harm leaves the same creature at a place, or nobody. -/
theorem creatureAt?_damage (w : World) (i j : Int) (amount : Nat) :
    (w.damage i amount).creatureAt? j = w.creatureAt? j ∨ (w.damage i amount).creatureAt? j = none := by
  by_cases hij : i = j
  · subst hij
    obtain hw | ⟨c, o, hc, hw, hsame⟩ := damage_cases w i amount <;> rw [hw]
    · exact .inl rfl
    · rw [creatureAt?_setOccupant hc]
      rcases hsame with hsame | rfl
      · left
        rw [hsame, creatureAt?, occupantAt?, hc]
        rfl
      · exact .inr rfl
  · left
    rw [creatureAt?, occupantAt?_damage_of_ne hij, creatureAt?]

/-- Harm to someone else leaves all captives alone. -/
theorem captives_damage (hi : ¬ w.captiveAt i) (amount : Nat) : (w.damage i amount).captives = w.captives := by
  obtain hw | ⟨c, o, hc, hw, hsame⟩ := damage_cases w i amount <;> rw [hw]
  have hbefore : c.hasCaptive = false := by
    by_contra h
    exact hi (captiveAt_iff_hasCaptive.2 ⟨c, hc, by simpa using h⟩)
  have hafter : { c with occupant := o : Cell }.hasCaptive = false := by
    rcases hsame with hsame | rfl
    · rw [← hbefore, Cell.hasCaptive, Cell.hasCaptive, ← hsame]
      rfl
    · rfl
  simpa [hbefore, hafter] using captives_setOccupant hc o

/-- A captive who is set free leaves the corridor. -/
theorem captives_setOccupant_none (hi : w.captiveAt i) : (w.setOccupant i none).captives + 1 = w.captives := by
  obtain ⟨c, hc, hcaptive⟩ := captiveAt_iff_hasCaptive.1 hi
  have hafter : { c with occupant := none : Cell }.hasCaptive = false := rfl
  simpa [hcaptive, hafter] using captives_setOccupant hc none

/-! ## Actions -/

/-- Harm changes nothing but the corridor. -/
theorem damage_eq (w : World) (i : Int) (amount : Nat) :
    w.damage i amount = { w with cells := (w.damage i amount).cells } := by
  unfold damage
  split <;> rfl

/-- A shot changes nothing but the corridor. -/
theorem perform_shoot_eq (w : World) (h : Heading) :
    w.perform (.shoot h) = { w with cells := (w.perform (.shoot h)).cells } := by
  rw [perform]
  split
  · rfl
  · rw [damage_eq]

/-- An action that takes place leaves alone what is kept of the turn. -/
theorem perform_eq (w : World) (a : Action) :
    w.perform a = { w.perform a with acted := w.acted, rejected := w.rejected } := by
  cases a with
  | walk h => rw [perform]; split <;> rfl
  | attack h => rw [perform, damage_eq]
  | shoot h => rw [perform_shoot_eq]
  | pivot => rfl
  | rest => rfl
  | rescue h => rw [perform]; split <;> rfl

@[simp] theorem acted_act (w : World) (a : Action) : (w.act a).acted = true := by
  cases hw : w.acted with
  | true => rw [act_of_acted hw]; exact hw
  | false => rw [act_of_not_acted hw, perform_eq]

/-- An action leaves everyone alone whom it neither strikes nor sets free. -/
theorem occupantAt?_perform_of_ne (hstruck : w.struck? a ≠ some j) (hfreed : ∀ h, a = .rescue h → w.ahead h 1 ≠ j) :
    (w.perform a).occupantAt? j = w.occupantAt? j := by
  cases a with
  | walk h => rw [perform]; split <;> rfl
  | attack h => exact occupantAt?_damage_of_ne (fun he => hstruck (congrArg some he)) attackPower
  | shoot h =>
    rw [perform]
    split
    · rfl
    · rename_i i hi
      exact occupantAt?_damage_of_ne (fun he => hstruck (hi.trans (congrArg some he))) shootPower
  | pivot => rfl
  | rest => rfl
  | rescue h =>
    rw [perform]
    split
    · rename_i hcaptive
      obtain ⟨c, hc, -⟩ := captiveAt_iff_hasCaptive.1 (captiveAt_iff_isCaptive.2 hcaptive)
      exact occupantAt?_setOccupant_of_ne (cellAt?_eq_some hc).1 (hfreed h rfl) none
    · rfl

/-- An action that strikes no captive keeps the number of captives that are left or were set free. -/
theorem captives_perform (h : ∀ i, w.struck? a = some i → ¬ w.captiveAt i) :
    (w.perform a).captives + (w.perform a).rescued = w.captives + w.rescued := by
  cases a with
  | walk h => rw [perform]; split <;> rfl
  | attack h' =>
    have hcount := captives_damage (h _ rfl) attackPower
    rw [perform, hcount, damage_eq]
  | shoot h' =>
    rw [perform]
    split
    · rfl
    · rename_i i hi
      have hcount := captives_damage (h i hi) shootPower
      rw [hcount, damage_eq]
  | pivot => rfl
  | rest => rfl
  | rescue h' =>
    rw [perform]
    split
    · rename_i hcaptive
      have hcount := captives_setOccupant_none (captiveAt_iff_isCaptive.2 hcaptive)
      change (w.setOccupant (w.ahead h' 1) none).captives + (w.rescued + 1) = _
      omega
    · rfl

theorem captives_act (h : w.Spares a) : (w.act a).captives + (w.act a).rescued = w.captives + w.rescued := by
  cases hw : w.acted with
  | true => rw [act_of_acted hw]; rfl
  | false =>
    rw [act_of_not_acted hw]
    exact captives_perform (h hw)

/-- A shot leaves the same creature at a place, or nobody. -/
theorem creatureAt?_act_shoot (w : World) (h : Heading) (j : Int) :
    (w.act (.shoot h)).creatureAt? j = w.creatureAt? j ∨ (w.act (.shoot h)).creatureAt? j = none := by
  cases hw : w.acted with
  | true =>
    rw [act_of_acted hw]
    exact .inl rfl
  | false =>
    rw [act_of_not_acted hw, perform]
    split
    · exact .inl rfl
    · exact creatureAt?_damage { w with acted := true } _ j shootPower

/-- A shot changes nobody into a captive. -/
theorem captiveAt_of_act_shoot (hj : (w.act (.shoot h)).captiveAt j) : w.captiveAt j := by
  rw [captiveAt] at hj ⊢
  rcases creatureAt?_act_shoot w h j with hsame | hnone
  · rw [← hsame, hj]
  · rw [hnone] at hj
    cases hj

/-- A shot moves nobody. -/
theorem ahead_act_shoot (h' : Heading) (steps : Nat) : (w.act (.shoot h)).ahead h' steps = w.ahead h' steps := by
  cases hw : w.acted with
  | true => rw [act_of_acted hw]; rfl
  | false => rw [act_of_not_acted hw, perform_shoot_eq]; rfl

/-! ## Several actions -/

/-- None of several actions, taken in order, strikes a captive. -/
def Harmless : World → List Action → Prop
  | _, [] => True
  | w, a :: actions => w.Spares a ∧ (w.act a).Harmless actions

/-- Once the action of the turn is spent, nothing is struck any more. -/
theorem harmless_of_acted : ∀ {w : World} (actions : List Action), w.acted = true → w.Harmless actions
  | _, [], _ => trivial
  | w, a :: actions, h => ⟨fun h' => by simp [h] at h', harmless_of_acted actions (acted_act w a)⟩

theorem harmless_cons (h : w.Spares a) (actions : List Action) : w.Harmless (a :: actions) :=
  ⟨h, harmless_of_acted actions (acted_act w a)⟩

theorem spares_of_struck?_eq_none (h : w.struck? a = none) : w.Spares a := fun _ i hi => by simp [h] at hi

theorem harmless_append : ∀ {w : World} {before later : List Action},
    w.Harmless (before ++ later) ↔ w.Harmless before ∧ (w.after before).Harmless later
  | _, [], _ => (iff_of_eq (true_and _)).symm
  | w, a :: before, later => by
    rw [List.cons_append, Harmless, Harmless, harmless_append, and_assoc, after_cons]

/-- Harmless actions keep the number of captives that are left or were set free. -/
theorem Harmless.captives_after : ∀ {w : World} {actions : List Action}, w.Harmless actions →
    (w.after actions).captives + (w.after actions).rescued = w.captives + w.rescued
  | _, [], _ => rfl
  | _, _ :: _, h => (captives_after h.2).trans (captives_act h.1)

end World

/-! ## The policy -/

/-- A warrior who is shooting has no captive ahead as far as a shot goes. -/
def Safe (mode : Mode) (w : World) : Prop :=
  mode = .shooting → ∀ steps, 1 ≤ steps → steps ≤ lookDistance → ¬ w.captiveAt (w.ahead .forward steps)

variable {stats : Stats} {w : World}

theorem safe_of_ne {mode : Mode} (h : mode ≠ .shooting) (w : World) : Safe mode w := fun h' => absurd h' h

theorem Safe.spares (h : Safe .shooting w) : w.Spares (.shoot .forward) := by
  intro _ i hi
  obtain ⟨k, hk, hlt, rfl, -⟩ := exists_first_of_target? hi
  exact h rfl k hk (by omega)

/-- After a shot the warrior is as safe as before. -/
theorem Safe.act_shoot {mode : Mode} (h : Safe mode w) : Safe mode (w.act (.shoot .forward)) := by
  intro hmode steps hpos hle hc
  rw [ahead_act_shoot] at hc
  exact h hmode steps hpos hle (captiveAt_of_act_shoot hc)

/-- A warrior takes aim only past cells without captives, and at an enemy. -/
theorem safe_of_enemyInSight (hg : enemyInSight.guard stats w = true) : Safe .shooting w := by
  simp only [enemyInSight, Bool.and_eq_true, Bool.not_eq_true'] at hg
  obtain ⟨⟨h₁, h₂⟩, h₃⟩ := hg
  intro _ steps hpos hle
  have hsteps : steps = 1 ∨ steps = 2 ∨ steps = 3 := by
    unfold lookDistance at hle
    omega
  obtain rfl | rfl | rfl := hsteps
  · simp [captiveAt_iff_isCaptive, h₁]
  · simp [captiveAt_iff_isCaptive, h₂]
  · exact not_captiveAt_of_isEnemy h₃

theorem spares_of_enemyInReach (hg : enemyInReach.guard stats w = true) : w.Spares (.attack .forward) := by
  intro _ i hi
  obtain rfl : w.ahead .forward 1 = i := Option.some.inj hi
  exact not_captiveAt_of_isEnemy hg

/-- What a clause that applies decides harms no captive, and makes the warrior shoot in safety only. -/
theorem harmless_of_clause {c : Clause} (hc : c ∈ clauses) (hg : c.guard stats w = true) :
    w.Harmless c.decision.actions ∧ Safe c.decision.mode (w.after c.decision.actions) := by
  simp only [clauses, List.mem_cons, List.not_mem_nil, or_false] at hc
  obtain rfl | rfl | rfl | rfl | rfl | rfl | rfl | rfl := hc
  -- Two of the clauses strike at all.
  case inr.inl => exact ⟨harmless_cons (spares_of_enemyInReach hg) _, safe_of_ne (by decide) _⟩
  case inr.inr.inl =>
    have hsafe := safe_of_enemyInSight hg
    exact ⟨harmless_cons hsafe.spares _, hsafe.act_shoot⟩
  all_goals exact ⟨harmless_cons (spares_of_struck?_eq_none rfl) _, safe_of_ne (by decide) _⟩

/-- What the policy decides for a warrior in safety harms no captive, and leaves the warrior in safety. -/
theorem harmless_policy {mode : Mode} (stats : Stats) (h : Safe mode w) :
    w.Harmless (policy stats w mode).actions ∧
      Safe (policy stats w mode).mode (w.after (policy stats w mode).actions) := by
  cases mode with
  | fresh =>
    rw [policy]
    obtain ⟨c, hc, hg, hd⟩ | hd := firstOf_cases stats w clauses <;> rw [hd]
    · exact harmless_of_clause hc hg
    · exact ⟨trivial, safe_of_ne (by decide) _⟩
  | shooting =>
    rw [policy]
    split
    · exact ⟨harmless_cons h.spares _, safe_of_ne (by decide) _⟩
    · exact ⟨harmless_cons h.spares _, safe_of_ne (mode_firstOf_later _ _) _⟩
  | healing =>
    rw [policy]
    split <;> exact ⟨harmless_cons (spares_of_struck?_eq_none rfl) _, safe_of_ne (by decide) _⟩

/-! ## Runs -/

/-- A turn of a player whose snapshots only look at the world: neither changes it, so that the policy and the next turn
see the same one. -/
theorem Plays.turn_of_looks {p : Player Stats World} {mode : Mode} (h : Plays p mode) (hinit : ∀ w, (p.init w).2 = w)
    (hsave : ∀ w, (p.save w).2 = w) (w : World) : ∃ round, p.play w = .ok round ∧
      let d := policy (p.opening w).1 w mode
      round.status = d.status ∧ deeds (round.log.filterMap Moment.inside?) = d.actions ∧
      round.world = w.after d.actions ∧
      round.player = { p with tree := round.player.tree, snapshot := some (p.save round.world).1 } ∧
      Plays round.player d.mode := by
  obtain ⟨round, hobeys, hplays⟩ := h.turn w
  have hopen : (p.opening w).2.1 = w := by
    unfold Player.opening
    split
    · rfl
    · exact hinit w
  have hdecision : decisionOf p mode w = policy (p.opening w).1 w mode := by
    rw [decisionOf, hopen]
  have hafter : worldAfter p mode w = w.after (policy (p.opening w).1 w mode).actions := by
    rw [worldAfter, hopen, hdecision]
  have hworld : round.world = w.after (policy (p.opening w).1 w mode).actions := by
    rw [hobeys.world_eq, hsave, hafter]
  rw [hdecision] at hplays
  refine ⟨round, hobeys.play_eq, ?_, ?_, hworld, ?_, hplays⟩
  · rw [hobeys.status_eq, hdecision]
  · rw [hobeys.deeds_eq, hdecision]
  · rw [hworld, ← hafter]
    exact hobeys.player_eq

/-- What happens to a warrior and the world, in whatever order. -/
inductive Move where
  | play
  | endTurn
  | setHealth (health : Int)

/-- A player and the world that is played in. -/
structure Outing where
  player : Player Stats World
  world : World

namespace Outing

/-- A new player of the warrior's tree in the world of a layout. The snapshots only look at the world. -/
def start (init save : World → Stats) (layout : List Char) : Outing where
  player := { playerOf warriorTree with init := fun w => (init w, w), save := fun w => (save w, w) }
  world := World.ofLayout layout

/-- The outing after one more move. -/
def step (o : Outing) : Move → Except Fault Outing
  | .play => do
    let round ← o.player.play o.world
    return ⟨round.player, round.world⟩
  | .endTurn => return { o with world := o.world.endTurn }
  | .setHealth health => return { o with world := o.world.withHealth health }

/-- The outing after several moves. -/
def run (o : Outing) (moves : List Move) : Except Fault Outing := moves.foldlM step o

theorem step_play {o : Outing} {round : Round Stats World} (h : o.player.play o.world = .ok round) :
    o.step .play = .ok ⟨round.player, round.world⟩ := by
  rw [step, h]
  rfl

theorem run_play_endTurn {o : Outing} {round : Round Stats World} (h : o.player.play o.world = .ok round) :
    o.run [.play, .endTurn] = .ok ⟨round.player, round.world.endTurn⟩ := by
  rw [run, List.foldlM_cons, step_play h]
  rfl

/-- What every move keeps, every run keeps, and none is stopped. -/
theorem run_induction {P : Outing → Prop} (hstep : ∀ o move, P o → ∃ o', step o move = .ok o' ∧ P o') :
    ∀ {o : Outing} (moves : List Move), P o → ∃ o', o.run moves = .ok o' ∧ P o'
  | o, [], h => ⟨o, rfl, h⟩
  | o, move :: moves, h => by
    obtain ⟨o', ho', h'⟩ := hstep o move h
    obtain ⟨o'', hrun, h''⟩ := run_induction hstep moves h'
    refine ⟨o'', ?_, h''⟩
    rw [Outing.run, List.foldlM_cons, ho']
    exact hrun

/-- The outing goes on with snapshots that only look, in safety, and with as many captives left or free. -/
structure Kept (captives : Nat) (o : Outing) : Prop where
  init : ∀ w, (o.player.init w).2 = w
  save : ∀ w, (o.player.save w).2 = w
  safe : ∃ mode, Plays o.player mode ∧ Safe mode o.world
  count : o.world.captives + o.world.rescued = captives

end Outing

/-- As many captives are in a world as its layout has. -/
theorem captives_ofLayout (layout : List Char) : (World.ofLayout layout).captives = layout.count 'C' := by
  have hchar : ∀ c : Char, (Cell.ofChar c).hasCaptive = (c == 'C') := fun c => by
    unfold Cell.ofChar
    split_ifs with h₁ h₂ h₃ h₄
    · subst h₁; rfl
    · subst h₂; rfl
    · subst h₃; rfl
    · subst h₄; rfl
    · simp [Cell.hasCaptive, Cell.creature?, h₃]
  rw [World.captives, World.ofLayout, List.countP_map, List.count]
  exact List.countP_congr fun c _ => by simp [hchar]

namespace Outing

variable {n : Nat} {o : Outing}

theorem plays_start (init save : World → Stats) (layout : List Char) : Plays (start init save layout).player .fresh :=
  Plays.fresh _ _

theorem kept_start (init save : World → Stats) (layout : List Char) :
    Kept (layout.count 'C') (start init save layout) where
  init _ := rfl
  save _ := rfl
  safe := ⟨.fresh, plays_start init save layout, safe_of_ne (by decide) _⟩
  count := captives_ofLayout layout

/-- One turn of the player: what is done harms no captive, and the outing goes on as before. -/
theorem Kept.turn (h : Kept n o) : ∃ round, o.player.play o.world = .ok round ∧
    o.world.Harmless (deeds (round.log.filterMap Moment.inside?)) ∧
    round.world = o.world.after (deeds (round.log.filterMap Moment.inside?)) ∧ Kept n ⟨round.player, round.world⟩ := by
  obtain ⟨mode, hp, hsafe⟩ := h.safe
  obtain ⟨round, hplay, -, hdeeds, hworld, hplayer, hplays⟩ := hp.turn_of_looks h.init h.save o.world
  obtain ⟨hharmless, hsafe'⟩ := harmless_policy (o.player.opening o.world).1 hsafe
  refine ⟨round, hplay, ?_, ?_, ?_⟩
  · rwa [hdeeds]
  · rwa [hdeeds]
  · rw [hworld]
    refine ⟨?_, ?_, ⟨_, hplays, hsafe'⟩, hharmless.captives_after.trans h.count⟩
    · rw [hplayer]
      exact h.init
    · rw [hplayer]
      exact h.save

/-- Whatever happens next, the outing goes on as before. -/
theorem Kept.step (h : Kept n o) (move : Move) : ∃ o', o.step move = .ok o' ∧ Kept n o' := by
  cases move with
  | play =>
    obtain ⟨round, hplay, -, -, hkept⟩ := h.turn
    exact ⟨_, step_play hplay, hkept⟩
  | endTurn => exact ⟨_, rfl, h.init, h.save, h.safe, h.count⟩
  | setHealth health => exact ⟨_, rfl, h.init, h.save, h.safe, h.count⟩

theorem Kept.run (moves : List Move) (h : Kept n o) : ∃ o', o.run moves = .ok o' ∧ Kept n o' :=
  run_induction (fun _ move h => h.step move) moves h

end Outing

/-- In every layout and every run, whatever the snapshots tell, all captives are still there or free, at the end and
between the actions of a next turn, and no blow or shot of that turn strikes one. -/
theorem captives_unharmed (init save : World → Stats) (layout : List Char) (moves : List Move) :
    ∃ o, (Outing.start init save layout).run moves = .ok o ∧ o.world.captives + o.world.rescued = layout.count 'C' ∧
      ∃ round, o.player.play o.world = .ok round ∧
        let taken := deeds (round.log.filterMap Moment.inside?)
        round.world = o.world.after taken ∧ ∀ before a, before ++ [a] <+: taken →
          (o.world.after before).captives + (o.world.after before).rescued = layout.count 'C' ∧
            (o.world.after before).Spares a := by
  obtain ⟨o, hrun, hkept⟩ := (Outing.kept_start init save layout).run moves
  obtain ⟨round, hplay, hharmless, hworld, -⟩ := hkept.turn
  refine ⟨o, hrun, hkept.count, round, hplay, hworld, fun before a hprefix => ?_⟩
  obtain ⟨later, htaken⟩ := hprefix
  rw [← htaken, List.append_assoc, harmless_append] at hharmless
  obtain ⟨hbefore, ha, -⟩ := hharmless
  exact ⟨hbefore.captives_after.trans hkept.count, ha⟩

end Behaviour.Corridor
