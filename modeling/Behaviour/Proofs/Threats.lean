import Behaviour.Proofs.Aim

/-!
# When the warrior rests, nobody strikes

The enemies strike after the snapshot of a turn was taken, so that a warrior with low health who has lost none since
knows that nobody is within reach (`Telling`). The clause for damage comes before the one for low health, hence a fresh
warrior who begins to rest is left alone. A shooting one asks after the second shot only, which may have cleared the way
for an archer behind: but then nobody at all is left within range ahead (`Aimed.nobody_ahead`), and a shot that leaves
nobody ahead brings no enemy within reach (`threats_act_shoot_le`).

`threats_after_policy` puts these together.
-/

namespace Behaviour.Corridor

open World

namespace World

variable {w : World} {i j k : Nat} {h : Heading}

/-! ## What a shot leaves as it is -/

/-- A shot changes nothing but the corridor and what is left of the turn. -/
theorem act_shoot_eq (w : World) (h : Heading) : w.act (.shoot h) =
    { w with cells := (w.act (.shoot h)).cells, acted := true, rejected := (w.act (.shoot h)).rejected } := by
  cases hw : w.acted with
  | true =>
    rw [act_of_acted hw, ← hw]
  | false =>
    rw [act_of_not_acted hw, perform_shoot_eq]

@[simp] theorem position_act_shoot (w : World) (h : Heading) : (w.act (.shoot h)).position = w.position := by
  rw [act_shoot_eq]

@[simp] theorem facing_act_shoot (w : World) (h : Heading) : (w.act (.shoot h)).facing = w.facing := by
  rw [act_shoot_eq]

@[simp] theorem health_act_shoot (w : World) (h : Heading) : (w.act (.shoot h)).health = w.health := by
  rw [act_shoot_eq]

@[simp] theorem distance_act_shoot (w : World) (h : Heading) (i : Nat) :
    (w.act (.shoot h)).distance i = w.distance i := by
  rw [distance, position_act_shoot, distance]

theorem length_cells_damage (w : World) (i : Int) (amount : Nat) :
    (w.damage i amount).cells.length = w.cells.length := by
  unfold damage
  split
  · rfl
  · exact List.length_modify _ _ _

@[simp] theorem length_cells_act_shoot (w : World) (h : Heading) :
    (w.act (.shoot h)).cells.length = w.cells.length := by
  cases hw : w.acted with
  | true => rw [act_of_acted hw]
  | false =>
    rw [act_of_not_acted hw, perform]
    split
    · rfl
    · exact length_cells_damage _ _ _

/-! ## Lines of fire -/

theorem lineIsClear_iff : w.lineIsClear i = true ↔
    ∀ j : Nat, min i w.position < j → j < max i w.position → w.occupantAt? j = none := by
  simp only [lineIsClear, List.all_eq_true, List.mem_range'_1, Option.isNone_iff_eq_none]
  constructor
  · intro hall j hlo hhi
    exact hall j ⟨by omega, by omega⟩
  · rintro hall j ⟨hlo, hhi⟩
    exact hall j (by omega) (by omega)

/-- What is behind a place ahead is ahead as well. -/
theorem eq_ahead_of_between (hlo : min i w.position < j) (hhi : j < max i w.position) (hj : (j : Int) = w.ahead h k) :
    (i : Int) = w.ahead h (w.distance i) := by
  unfold ahead distance at *
  cases hf : w.facing.toward h <;> simp only [hf, Facing.step] at * <;> omega

/-- A shot that leaves nobody within range ahead of the warrior clears the line to nobody who could use it. -/
theorem lineIsClear_of_act_shoot
    (hnobody : ∀ k, 1 ≤ k → k ≤ lookDistance → (w.act (.shoot h)).creatureAt? (w.ahead h k) = none)
    (hsome : (w.act (.shoot h)).creatureAt? i ≠ none) (hrange : w.distance i ≤ lookDistance)
    (hclear : (w.act (.shoot h)).lineIsClear i = true) : w.lineIsClear i = true := by
  rw [lineIsClear_iff, position_act_shoot] at hclear
  rw [lineIsClear_iff]
  intro j hlo hhi
  rw [← occupantAt?_act_shoot_of_ne (h := h)]
  · exact hclear j hlo hhi
  · -- Whoever was struck stood before the one who strikes, who is thus ahead, too.
    intro htarget
    obtain ⟨k, -, -, hj, -⟩ := exists_first_of_target? htarget
    have hi := eq_ahead_of_between hlo hhi hj
    rw [hi] at hsome
    refine hsome (hnobody _ ?_ hrange)
    unfold distance
    omega

/-! ## Threats -/

/-- After a shot that leaves nobody within range ahead, only those strike who would have done so before. -/
theorem strikes_of_act_shoot
    (hnobody : ∀ k, 1 ≤ k → k ≤ lookDistance → (w.act (.shoot h)).creatureAt? (w.ahead h k) = none)
    (hstrikes : (w.act (.shoot h)).strikes i = true) : w.strikes i = true := by
  have hsame : ∀ c, (w.act (.shoot h)).creatureAt? i = some c → w.creatureAt? i = some c := by
    intro c hc
    rcases creatureAt?_act_shoot w h i with heq | hnone
    · rw [← heq, hc]
    · rw [hnone] at hc
      cases hc
  unfold strikes at hstrikes ⊢
  rw [distance_act_shoot] at hstrikes
  cases hc : (w.act (.shoot h)).creatureAt? i with
  | none => simp [hc] at hstrikes
  | some c =>
    rw [hc] at hstrikes
    rw [hsame c hc]
    cases c with
    | captive => cases hstrikes
    | sludge => exact hstrikes
    | archer =>
      simp only [Bool.and_eq_true, decide_eq_true_eq] at hstrikes ⊢
      obtain ⟨hrange, hclear⟩ := hstrikes
      exact ⟨hrange, lineIsClear_of_act_shoot hnobody (by simp [hc]) hrange hclear⟩

theorem threats_act_shoot_le
    (hnobody : ∀ k, 1 ≤ k → k ≤ lookDistance → (w.act (.shoot h)).creatureAt? (w.ahead h k) = none) :
    (w.act (.shoot h)).threats ≤ w.threats := by
  unfold threats
  rw [length_cells_act_shoot]
  exact List.countP_mono_left fun _ _ => strikes_of_act_shoot hnobody

/-- A rest brings nobody within reach. -/
theorem threats_act_rest (w : World) : (w.act .rest).threats = w.threats := by
  cases hw : w.acted with
  | true => rw [act_of_acted hw]; rfl
  | false => rw [act_of_not_acted hw]; rfl

end World

/-! ## What makes the warrior rest -/

variable {stats : Stats} {w : World} {mode : Mode}

/-- A warrior with low health who has lost none since the snapshot is not within reach of anyone. -/
def Telling (stats : Stats) (w : World) : Prop :=
  unwell.guard stats w = true → stats.health ≤ w.health → w.threats = 0

/-- A warrior begins to heal when unwell, if not under fire. -/
theorem guards_of_begin_healing (h : (firstOf stats w (clauses.drop 3)).mode = .healing) :
    underFire.guard stats w = false ∧ unwell.guard stats w = true := by
  obtain ⟨-, hmode⟩ | ⟨-, h⟩ := mode_firstOf_cons h
  · cases hmode
  obtain ⟨-, hmode⟩ | ⟨hfire, h⟩ := mode_firstOf_cons h
  · cases hmode
  obtain ⟨-, hmode⟩ | ⟨-, h⟩ := mode_firstOf_cons h
  · cases hmode
  obtain ⟨hunwell, -⟩ | ⟨-, h⟩ := mode_firstOf_cons h
  · exact ⟨hfire, hunwell⟩
  obtain ⟨-, hmode⟩ | ⟨-, h⟩ := mode_firstOf_cons h
  · cases hmode
  · cases h

/-- The clauses that are tried first do not lead to healing. -/
theorem firstOf_later_of_healing (h : (policy stats w .fresh).mode = .healing) :
    (firstOf stats w (clauses.drop 3)).mode = .healing := by
  obtain ⟨-, hmode⟩ | ⟨-, h⟩ := mode_firstOf_cons h
  · cases hmode
  obtain ⟨-, hmode⟩ | ⟨-, h⟩ := mode_firstOf_cons h
  · cases hmode
  obtain ⟨-, hmode⟩ | ⟨-, h⟩ := mode_firstOf_cons h
  · cases hmode
  · exact h

/-- Who begins to heal, rests, and has not done yet. -/
theorem rest_of_healing {cs : List Clause} (hcs : ∀ c ∈ cs, c ∈ clauses) (h : (firstOf stats w cs).mode = .healing) :
    (firstOf stats w cs).actions = [.rest] ∧ (firstOf stats w cs).status = .running := by
  have hrest : ∀ c ∈ clauses, c.decision.mode = .healing →
      c.decision.actions = [.rest] ∧ c.decision.status = .running := by decide
  obtain ⟨c, hc, -, hd⟩ | hd := firstOf_cases stats w cs
  · rw [hd] at h ⊢
    exact hrest c (hcs c hc) h
  · rw [hd] at h
    cases h

/-- Where the snapshot tells, nobody is within reach of a warrior who begins to heal. -/
theorem Telling.threats_eq_zero (h : Telling stats w) (hfire : underFire.guard stats w = false)
    (hunwell : unwell.guard stats w = true) : w.threats = 0 := by
  refine h hunwell ?_
  simp only [unwell, decide_eq_true_eq] at hunwell
  simpa [underFire, hunwell] using hfire

/-- A shot that brings nobody within reach leaves the warrior as well informed as before. -/
theorem Telling.act_shoot (h : Telling stats w) (hle : (w.act (.shoot .forward)).threats ≤ w.threats) :
    Telling stats (w.act (.shoot .forward)) := by
  intro hunwell hlost
  simp only [unwell, health_act_shoot] at hunwell hlost
  have hzero := h hunwell hlost
  omega

/-- Whoever is healing after a turn is out of everyone's reach. -/
theorem threats_after_policy (htelling : Telling stats w) (haimed : mode = .shooting → Aimed w)
    (hcalm : mode = .healing → w.threats = 0) (h : (policy stats w mode).mode = .healing) :
    (w.after (policy stats w mode).actions).threats = 0 := by
  cases mode with
  | fresh =>
    obtain ⟨hfire, hunwell⟩ := guards_of_begin_healing (firstOf_later_of_healing h)
    have hactions : (policy stats w .fresh).actions = [.rest] := (rest_of_healing (fun _ hc => hc) h).1
    rw [hactions]
    exact (threats_act_rest w).trans (htelling.threats_eq_zero hfire hunwell)
  | shooting =>
    rw [policy] at h ⊢
    split at h
    · cases h
    · rename_i hlost
      rw [if_neg hlost]
      obtain ⟨hactions, -⟩ := rest_of_healing (fun _ => List.mem_of_mem_drop) h
      obtain ⟨hfire, hunwell⟩ := guards_of_begin_healing h
      have hle := threats_act_shoot_le ((haimed rfl).nobody_ahead (by simpa using hlost))
      simp only [hactions]
      exact (threats_act_rest _).trans ((htelling.act_shoot hle).threats_eq_zero hfire hunwell)
  | healing =>
    rw [policy]
    split <;> exact (threats_act_rest w).trans (hcalm rfl)

end Behaviour.Corridor
