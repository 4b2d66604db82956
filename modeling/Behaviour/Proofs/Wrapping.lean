import Behaviour.Proofs.Refusals

/-!
# Wrapping several nodes

A loop goes along a list of handles, wraps each node in a delay, and writes the handle of the delay over that of the
node (`Builder.delayLoop`). The delays are taken from the same builder that the nodes are in. As long as there is room,
each is bound to its node (`wraps_of_room`); from then on nothing is bound any more, and the loop goes on writing
handles that name nothing (`delayEach_of_full`). `wrapping_until_full` puts the two phases together.
-/

namespace Behaviour

variable {κ σ : Type}

/-! ## The loop in place -/

namespace Builder

/-- Wraps the nodes of `rest` places from the place `i` on. -/
def delayFrom (b : Builder κ σ) (i : Nat) : (rest : Nat) → List Int → List Int × Builder κ σ
  | 0, hs => (hs, b)
  | rest + 1, hs =>
    let (w, b) := b.delayed (hs.getD i nowhere)
    b.delayFrom (i + 1) rest (hs.set i w)

/-- Wraps the nodes of the first `count` places, one after another. -/
def delayLoop (b : Builder κ σ) (count : Nat) (hs : List Int) : List Int × Builder κ σ := b.delayFrom 0 count hs

/-- The loop leaves alone what it has passed, and what it does not come to. -/
theorem delayFrom_append : ∀ (hs done after : List Int) (b : Builder κ σ),
    b.delayFrom done.length hs.length (done ++ hs ++ after) =
      (done ++ (b.delayEach hs).1 ++ after, (b.delayEach hs).2)
  | [], _, _, _ => rfl
  | h :: hs, done, after, b => by
    have hget : (done ++ h :: hs ++ after).getD done.length nowhere = h := by simp
    have hset : ∀ w, (done ++ h :: hs ++ after).set done.length w = (done ++ [w]) ++ hs ++ after := by simp
    have ih := delayFrom_append hs (done ++ [(b.delayed h).1]) after (b.delayed h).2
    rw [List.length_append, List.length_singleton] at ih
    rw [List.length_cons, delayFrom, hget]
    simp only [hset, ih, delayEach]
    simp

theorem delayLoop_eq (b : Builder κ σ) {count : Nat} {hs : List Int} (h : count ≤ hs.length) :
    b.delayLoop count hs = b.delayFirst count hs := by
  have hloop := delayFrom_append (hs.take count) [] (hs.drop count) b
  rw [List.nil_append, List.take_append_drop, List.length_take, Nat.min_eq_left h] at hloop
  exact hloop

/-! ## One node -/

/-- A delay that is bound to a node. -/
def delayOf (h : Int) : Draft κ σ := { name := delayName, role := .decorator (some .delay), children := [h.toNat] }

section One

variable {b : Builder κ σ} {h : Int} {d : Draft κ σ}

theorem draft?_natCast (b : Builder κ σ) (i : Nat) : b.draft? i = b.drafts[i]? := by
  unfold draft?
  rw [if_neg (by omega), Int.toNat_natCast]

theorem lt_size_of_draft? (hd : b.draft? h = some d) : h < b.size := by
  obtain ⟨h0, hd⟩ := draft?_eq_some hd
  have hlt : h.toNat < b.size := (List.getElem?_eq_some_iff.1 hd).1
  omega

/-- A new node is found under the next handle, and all others under theirs. -/
theorem draft?_add (hroom : b.size < b.capacity) (name : String) (role : Role κ σ) (x : Int) :
    (b.add name role).2.draft? x = if x = b.size then some { name, role } else b.draft? x := by
  unfold draft?
  rw [drafts_add, if_pos hroom]
  by_cases hneg : x < 0
  · have hne : x ≠ b.size := by omega
    rw [if_pos hneg, if_pos hneg, if_neg hne]
  · rw [if_neg hneg, if_neg hneg]
    by_cases hx : x = b.size
    · rw [if_pos hx, hx, Int.toNat_natCast, size, List.getElem?_concat_length]
    · rw [if_neg hx]
      unfold size at hx
      rcases Nat.lt_or_ge x.toNat b.drafts.length with hlt | hge
      · rw [List.getElem?_append_left hlt]
      · have hgt : (b.drafts ++ [({ name, role } : Draft κ σ)]).length ≤ x.toNat := by
          rw [List.length_append, List.length_singleton]
          omega
        rw [List.getElem?_eq_none hge, List.getElem?_eq_none hgt]

theorem draft?_link (b : Builder κ σ) (p c : Nat) (x : Int) : (b.link p c).draft? x = (b.draft? x).map fun d =>
    { d with
      parent := if x.toNat = c then some p else d.parent
      children := if x.toNat = p then d.children ++ [c] else d.children } := by
  unfold draft?
  by_cases hneg : x < 0
  · rw [if_pos hneg, if_pos hneg]
    rfl
  · rw [if_neg hneg, if_neg hneg]
    exact getElem?_link ..

/-- Where there is room and the node is parentless, there is nothing against the delay that is made for it. -/
theorem delayed_of_free (hroom : b.size < b.capacity) (hd : b.draft? h = some d) (hfree : d.parent = none) :
    b.delayed h = (↑b.size, (b.newDelay delayName).2.link b.size h.toNat) := by
  have hne : h ≠ b.size := by
    have := lt_size_of_draft? hd
    omega
  have hnew : (b.newDelay delayName).1 = b.size := by
    unfold newDelay add
    rw [if_pos hroom]
  have hnone : (b.newDelay delayName).2.decorateDefect? b.size h = none := by
    unfold newDelay decorateDefect?
    rw [draft?_add hroom, draft?_add hroom, if_pos rfl, if_neg hne, hd]
    simp [hfree, Role.kind, hne]
  unfold delayed decorate
  simp only [hnew, hnone, Int.toNat_natCast]

/-- The delay is found under the next handle, the node has got a parent, and all others are as they were. -/
theorem draft?_delayed (hroom : b.size < b.capacity) (hd : b.draft? h = some d) (hfree : d.parent = none) (x : Int) :
    (b.delayed h).2.draft? x =
      if x = b.size then some (delayOf h)
      else if x = h then some { d with parent := some b.size }
      else b.draft? x := by
  have hlt := lt_size_of_draft? hd
  have h0 := (draft?_eq_some hd).1
  rw [delayed_of_free hroom hd hfree, draft?_link]
  unfold newDelay
  rw [draft?_add hroom]
  by_cases hnew : x = b.size
  · have hne : b.size ≠ h.toNat := by omega
    simp [hnew, delayOf, hne]
  · rw [if_neg hnew, if_neg hnew]
    by_cases hold : x = h
    · have hne : h.toNat ≠ b.size := by omega
      simp [hold, hd, hne]
    · rw [if_neg hold]
      cases hx : b.draft? x with
      | none => rfl
      | some e =>
        have hx0 := (draft?_eq_some hx).1
        have hne : x.toNat ≠ b.size := by omega
        have hne' : x.toNat ≠ h.toNat := by omega
        simp [hne, hne']

/-- Where there is no room for a delay, there is none to be bound to. -/
theorem delayed_of_full (hfull : b.capacity ≤ b.size) (h : Int) : b.delayed h = (nowhere, b.record .full) := by
  have hnew : b.newDelay delayName = (nowhere, b.record .full) := if_neg (Nat.not_lt.2 hfull)
  have hrefused : (b.record .full).decorateDefect? nowhere h = some .unknownHandle := rfl
  unfold delayed decorate
  rw [hnew]
  simp only [hrefused]
  cases hdefect : b.defect <;> simp [record, hdefect]

end One

/-! ## The two phases -/

/-- Parentless nodes have been wrapped, each in a delay of its own. -/
structure Wraps (b : Builder κ σ) (hs ws : List Int) (b' : Builder κ σ) : Prop where
  capacity : b'.capacity = b.capacity
  defect : b'.defect = b.defect
  size : b'.size = b.size + hs.length
  length : ws.length = hs.length
  handle : ∀ {i : Nat}, i < hs.length → ws[i]? = some (b.size + i : Int)
  delay : ∀ {i : Nat} {h : Int}, hs[i]? = some h → b'.draft? (b.size + i : Int) = some (delayOf h)
  node : ∀ {i : Nat} {h : Int} {d : Draft κ σ}, hs[i]? = some h → b.draft? h = some d →
    b'.draft? h = some { d with parent := some (b.size + i) }
  other : ∀ {x : Int}, x < b.size → x ∉ hs → b'.draft? x = b.draft? x

/-- One parentless node is wrapped. -/
theorem wraps_one {b : Builder κ σ} {h : Int} (hroom : b.size < b.capacity)
    (hfree : b.Holds h fun d => d.parent = none) : Wraps b [h] [(b.delayed h).1] (b.delayed h).2 := by
  obtain ⟨d, hd, hnone⟩ := hfree
  have hlt := lt_size_of_draft? hd
  have hdelayed := delayed_of_free hroom hd hnone
  have hnew : b.newDelay delayName =
      (↑b.size, { b with drafts := b.drafts ++ [{ name := delayName, role := .decorator (some .delay) }] }) :=
    if_pos hroom
  have hdraft := draft?_delayed hroom hd hnone
  refine ⟨?_, ?_, ?_, rfl, fun {i} hi => ?_, fun {i x} hx => ?_, fun {i x e} hx he => ?_, fun {x} hx hxh => ?_⟩
  · rw [hdelayed, hnew]
    rfl
  · rw [hdelayed, hnew]
    rfl
  · rw [hdelayed, size_link, hnew]
    simp [size]
  · obtain rfl : i = 0 := by simpa using hi
    simp [hdelayed]
  · obtain ⟨rfl, rfl⟩ : i = 0 ∧ x = h := by simpa [List.getElem?_singleton, eq_comm] using hx
    simp [hdraft]
  · obtain ⟨rfl, rfl⟩ : i = 0 ∧ x = h := by simpa [List.getElem?_singleton, eq_comm] using hx
    rw [hd] at he
    cases he
    rw [hdraft, if_neg (Int.ne_of_lt hlt), if_pos rfl]
    rfl
  · rw [hdraft, if_neg (Int.ne_of_lt hx), if_neg (by simpa using hxh)]

/-- One node is wrapped, and then others. -/
theorem Wraps.cons {b b₁ b' : Builder κ σ} {h w : Int} {hs ws : List Int} (hfirst : Wraps b [h] [w] b₁)
    (hrest : Wraps b₁ hs ws b') (hvalid : ∀ x ∈ h :: hs, x < b.size) (hh : h ∉ hs) :
    Wraps b (h :: hs) (w :: ws) b' := by
  have hsize : b₁.size = b.size + 1 := hfirst.size
  have hlt : h < b.size := hvalid h List.mem_cons_self
  have hold : ∀ x ∈ hs, b₁.draft? x = b.draft? x := fun x hx =>
    hfirst.other (hvalid x (List.mem_cons_of_mem h hx)) (by simpa using fun he : x = h => hh (he ▸ hx))
  refine ⟨?_, ?_, ?_, ?_, fun {i} hi => ?_, fun {i x} hx => ?_, fun {i x e} hx he => ?_, fun {x} hx hxh => ?_⟩
  · rw [hrest.capacity, hfirst.capacity]
  · rw [hrest.defect, hfirst.defect]
  · rw [hrest.size, hsize, List.length_cons]
    omega
  · rw [List.length_cons, List.length_cons, hrest.length]
  · cases i with
    | zero => exact hfirst.handle Nat.one_pos
    | succ i =>
      have := hrest.handle (Nat.lt_of_succ_lt_succ hi)
      rw [List.getElem?_cons_succ, this, hsize]
      congr 1
      omega
  · cases i with
    | zero =>
      cases hx
      have hnot : ((b.size : Int) + (0 : Nat)) ∉ hs := fun hmem => by
        have := hvalid _ (List.mem_cons_of_mem h hmem)
        omega
      rw [hrest.other (by omega) hnot]
      exact hfirst.delay rfl
    | succ i =>
      have := hrest.delay hx
      rw [hsize] at this
      rw [← this]
      congr 1
      omega
  · cases i with
    | zero =>
      cases hx
      rw [hrest.other (by omega) hh]
      exact hfirst.node rfl he
    | succ i =>
      rw [← hold x (List.mem_of_getElem? hx)] at he
      rw [hrest.node hx he, hsize, Nat.add_right_comm]
      rfl
  · rw [List.mem_cons, not_or] at hxh
    rw [hrest.other (by omega) hxh.2, hfirst.other hx (by simpa using hxh.1)]

/-- As long as there is room, every parentless node is wrapped. -/
theorem wraps_of_room : ∀ (hs : List Int) (b : Builder κ σ), b.size + hs.length ≤ b.capacity →
    (∀ h ∈ hs, b.Holds h fun d => d.parent = none) → hs.Nodup → Wraps b hs (b.delayEach hs).1 (b.delayEach hs).2
  | [], b, _, _, _ => ⟨rfl, rfl, rfl, rfl, nofun, nofun, nofun, fun _ _ => rfl⟩
  | h :: hs, b, hroom, hfree, hdistinct => by
    obtain ⟨hh, hdistinct⟩ := List.nodup_cons.1 hdistinct
    rw [List.length_cons] at hroom
    have hvalid : ∀ x ∈ h :: hs, x < b.size := fun x hx => by
      obtain ⟨d, hd, -⟩ := hfree x hx
      exact lt_size_of_draft? hd
    have hfirst : Wraps b [h] [(b.delayed h).1] (b.delayed h).2 := wraps_one (by omega) (hfree h List.mem_cons_self)
    have hsize : (b.delayed h).2.size = b.size + 1 := hfirst.size
    refine hfirst.cons (wraps_of_room hs _ ?_ (fun x hx => ?_) hdistinct) hvalid hh
    · rw [hsize, hfirst.capacity]
      omega
    · -- Wrapping one node does not give a parent to another.
      obtain ⟨d, hd, hnone⟩ := hfree x (List.mem_cons_of_mem h hx)
      have hne : x ∉ [h] := by simpa using fun he : x = h => hh (he ▸ hx)
      rw [← hfirst.other (hvalid x (List.mem_cons_of_mem h hx)) hne] at hd
      exact ⟨d, hd, hnone⟩

/-- Without room, the loop goes on and changes no draft; what it asks for first is refused. -/
theorem delayEach_of_full : ∀ (hs : List Int) (b : Builder κ σ), b.capacity ≤ b.size →
    b.delayEach hs = (List.replicate hs.length nowhere, if hs = [] then b else b.record .full)
  | [], _, _ => rfl
  | h :: hs, b, hfull => by
    have ih := delayEach_of_full hs (b.record .full) hfull
    have hkept : (b.record .full).record .full = b.record .full := by
      cases hdefect : b.defect <;> simp [record, hdefect]
    rw [hkept, ite_self] at ih
    simp only [delayEach, delayed_of_full hfull, ih]
    rfl

theorem delayEach_append : ∀ (hs hs' : List Int) (b : Builder κ σ),
    b.delayEach (hs ++ hs') =
      ((b.delayEach hs).1 ++ ((b.delayEach hs).2.delayEach hs').1, ((b.delayEach hs).2.delayEach hs').2)
  | [], _, _ => rfl
  | h :: hs, hs', b => by
    simp only [List.cons_append, delayEach, delayEach_append hs hs']

/-- Of handles that are all different, a later one is none of the first ones. -/
theorem not_mem_take {hs : List Int} {count r i : Nat} {h : Int} (hdistinct : (hs.take count).Nodup) (hr : r ≤ i)
    (hi : i < count) (hh : hs[i]? = some h) : h ∉ hs.take r := by
  intro hmem
  obtain ⟨j, hj⟩ := List.mem_iff_getElem?.1 hmem
  have hjr : j < r := by
    have := (List.getElem?_eq_some_iff.1 hj).1
    rw [List.length_take] at this
    omega
  have hlt : j < (hs.take count).length := by
    have := (List.getElem?_eq_some_iff.1 hh).1
    rw [List.length_take]
    omega
  have hji : (hs.take count)[j]? = (hs.take count)[i]? := by
    rw [List.getElem?_take_of_lt hi, hh, List.getElem?_take_of_lt (by omega), ← List.getElem?_take_of_lt hjr, hj]
  have := (List.getElem?_inj hlt hdistinct).1 hji
  omega

/-- What stands where in a list of which some places have been written, the next ones have been cleared and the others
are as they were. -/
theorem getElem?_written {ws : List Int} (hs : List Int) {r count : Nat} (hws : ws.length = r) (hr : r ≤ count) :
    let written := ws ++ List.replicate (count - r) nowhere ++ hs.drop count
    (∀ i < r, written[i]? = ws[i]?) ∧ (∀ i, r ≤ i → i < count → written[i]? = some nowhere) ∧
      ∀ i, count ≤ i → written[i]? = hs[i]? := by
  intro written
  have hfront : (ws ++ List.replicate (count - r) nowhere).length = count := by
    rw [List.length_append, List.length_replicate, hws, Nat.add_sub_cancel' hr]
  refine ⟨fun i hi => ?_, fun i hi hi' => ?_, fun i hi => ?_⟩
  · rw [List.getElem?_append_left (hfront.symm ▸ Nat.lt_of_lt_of_le hi hr), List.getElem?_append_left (hws ▸ hi)]
  · rw [List.getElem?_append_left (hfront.symm ▸ hi'), List.getElem?_append_right (hws.symm ▸ hi),
      List.getElem?_replicate_of_lt (by omega)]
  · rw [List.getElem?_append_right (hfront.symm ▸ hi), hfront, List.getElem?_drop, Nat.add_sub_cancel' hi]

/-- What a loop leaves that runs out of room: the first nodes are wrapped, the others are not. -/
theorem exists_wraps_delayFirst {b : Builder κ σ} {count r : Nat} {hs : List Int}
    (hr : r = min count (b.capacity - b.size)) (hcount : count ≤ hs.length)
    (hfree : ∀ h ∈ hs.take count, b.Holds h fun d => d.parent = none) (hdistinct : (hs.take count).Nodup) :
    ∃ ws b', Wraps b (hs.take r) ws b' ∧ b.delayFirst count hs =
      (ws ++ List.replicate (count - r) nowhere ++ hs.drop count, if r = count then b' else b'.record .full) := by
  have hle : r ≤ count := by omega
  have hfirst : (hs.take count).take r = hs.take r := by rw [List.take_take, Nat.min_eq_left hle]
  have hparts : hs.take count = hs.take r ++ (hs.take count).drop r := by rw [← hfirst, List.take_append_drop]
  have hlength : (hs.take r).length = r := by
    rw [List.length_take]
    omega
  have hlength' : ((hs.take count).drop r).length = count - r := by
    rw [List.length_drop, List.length_take, Nat.min_eq_left hcount]
  have hwraps : Wraps b (hs.take r) (b.delayEach (hs.take r)).1 (b.delayEach (hs.take r)).2 := by
    by_cases hfull : b.capacity ≤ b.size
    · -- Nothing at all is wrapped.
      obtain rfl : r = 0 := by omega
      exact ⟨rfl, rfl, rfl, rfl, nofun, nofun, nofun, fun _ _ => rfl⟩
    · apply wraps_of_room
      · rw [hlength]
        omega
      · exact fun h hh => hfree h (hparts ▸ List.mem_append_left _ hh)
      · exact (List.nodup_append.1 (hparts ▸ hdistinct)).1
  refine ⟨_, _, hwraps, ?_⟩
  unfold delayFirst
  rw [hparts, delayEach_append]
  by_cases hall : r = count
  · have hnil : (hs.take count).drop r = [] := List.length_eq_zero_iff.1 (by omega)
    rw [hnil, if_pos hall, hall, Nat.sub_self]
    rfl
  · have hne : (hs.take count).drop r ≠ [] := by
      rw [← List.length_pos_iff]
      omega
    have hfull : (b.delayEach (hs.take r)).2.capacity ≤ (b.delayEach (hs.take r)).2.size := by
      rw [hwraps.capacity, hwraps.size, hlength]
      omega
    rw [delayEach_of_full _ _ hfull, if_neg hne, if_neg hall, hlength']

end Builder

/-- What the loop that wraps several nodes leaves, however many of them there is room for. The first ones are
wrapped, each in a delay that stands in its place in the list; from the place on at which the room ends, the list
names nothing and the nodes have no parent. There is a defect only if the room has ended, and nothing else of any node
has changed. -/
theorem wrapping_until_full (b : Builder κ σ) (count : Nat) (hs : List Int) (herror : b.defect = none)
    (hcount : count ≤ hs.length) (hfree : ∀ h ∈ hs.take count, b.Holds h fun d => d.parent = none)
    (hdistinct : (hs.take count).Nodup) :
    let r := min count (b.capacity - b.size)
    let ws := (b.delayFirst count hs).1
    let b' := (b.delayFirst count hs).2
    b.delayLoop count hs = (ws, b') ∧
    b'.size = b.size + r ∧
    b'.defect = (if r = count then none else some .full) ∧
    ws.length = hs.length ∧
    (∀ i < r, ws[i]? = some (b.size + i : Int) ∧ ∃ h d, hs[i]? = some h ∧ b.draft? h = some d ∧
      b'.draft? (b.size + i) = some
        { name := "delay", role := .decorator (some .delay), parent := none, children := [h.toNat] } ∧
      b'.draft? h = some { d with parent := some (b.size + i) }) ∧
    (∀ i, r ≤ i → i < count → ws[i]? = some (-1) ∧
      ∃ h, hs[i]? = some h ∧ b'.Holds h fun d => d.parent = none) ∧
    (∀ i, count ≤ i → ws[i]? = hs[i]?) ∧
    b'.capacity = b.capacity ∧
    ∀ x : Int, x < b.size → x ∉ hs.take r → b'.draft? x = b.draft? x := by
  intro r ws b'
  have hr : r ≤ count := Nat.min_le_left ..
  obtain ⟨ws₁, b₁, hwraps, heq⟩ := Builder.exists_wraps_delayFirst rfl hcount hfree hdistinct
  have hlength : (hs.take r).length = r := by
    rw [List.length_take]
    omega
  have hlength₁ : ws₁.length = r := hwraps.length.trans hlength
  have hws : ws = ws₁ ++ List.replicate (count - r) nowhere ++ hs.drop count := congrArg Prod.fst heq
  have hplaces := Builder.getElem?_written hs hlength₁ hr
  rw [← hws] at hplaces
  obtain ⟨hwritten, hcleared, hkept⟩ := hplaces
  have hb' : b' = if r = count then b₁ else b₁.record .full := congrArg Prod.snd heq
  have hdrafts : b'.drafts = b₁.drafts := by
    rw [hb']
    split <;> rfl
  have hdraft : ∀ x, b'.draft? x = b₁.draft? x := fun x => by
    unfold Builder.draft?
    rw [hdrafts]
  have hget : ∀ {i : Nat}, i < count → ∃ h d, hs[i]? = some h ∧ b.draft? h = some d ∧ d.parent = none := by
    intro i hi
    obtain ⟨h, hh⟩ : ∃ h, hs[i]? = some h := ⟨_, List.getElem?_eq_getElem (Nat.lt_of_lt_of_le hi hcount)⟩
    have hmem : h ∈ hs.take count := List.mem_of_getElem? ((List.getElem?_take_of_lt hi).trans hh)
    obtain ⟨d, hd, hnone⟩ := hfree h hmem
    exact ⟨h, d, hh, hd, hnone⟩
  refine ⟨Builder.delayLoop_eq b hcount, ?_, ?_, ?_, fun i hi => ?_, fun i hi hi' => ?_, hkept, ?_,
    fun x hx hxr => ?_⟩
  · calc b'.size = b₁.size := by rw [Builder.size, hdrafts, Builder.size]
      _ = b.size + r := by rw [hwraps.size, hlength]
  · rw [hb']
    split
    · rw [hwraps.defect, herror]
    · rw [Builder.defect_record, hwraps.defect, herror]
      rfl
  · rw [hws]
    simp only [List.length_append, List.length_replicate, List.length_drop, hlength₁]
    omega
  · obtain ⟨h, d, hh, hd, -⟩ := hget (Nat.lt_of_lt_of_le hi hr)
    have hh' : (hs.take r)[i]? = some h := (List.getElem?_take_of_lt hi).trans hh
    refine ⟨?_, h, d, hh, hd, ?_, ?_⟩
    · rw [hwritten i hi]
      exact hwraps.handle (hlength.symm ▸ hi)
    · rw [hdraft, hwraps.delay hh']
      rfl
    · rw [hdraft, hwraps.node hh' hd]
  · obtain ⟨h, d, hh, hd, hnone⟩ := hget hi'
    refine ⟨hcleared i hi hi', h, hh, d, ?_, hnone⟩
    -- The node is none of those that have been wrapped.
    have hnot := Builder.not_mem_take hdistinct hi hi' hh
    rw [hdraft, hwraps.other (Builder.lt_size_of_draft? hd) hnot, hd]
  · rw [hb']
    split <;> exact hwraps.capacity
  · rw [hdraft, hwraps.other hx hxr]

/-- A builder with four nodes and room for two more. -/
def crew : List (Call Unit Unit) :=
  [.leaf "bosun" none, .leaf "cook" none, .composite .sequence "watch" false, .leaf "mate" none, .attach 2 1]

/-- Where three nodes are to be wrapped and there is room for two delays, the third node is left as it is. -/
theorem wrapping_until_full_crew :
    let b := Builder.built 6 crew
    b.defect = none ∧ 3 ≤ [0, 3, 2, 1].length ∧
    (∀ h ∈ [0, 3, 2, 1].take 3, b.Holds h fun d => d.parent = none) ∧ ([0, 3, 2, (1 : Int)].take 3).Nodup ∧
    (b.delayLoop 3 [0, 3, 2, 1]).1 = [4, 5, -1, 1] ∧
    (b.delayLoop 3 [0, 3, 2, 1]).2.defect = some .full := by
  have hfree : ∀ h ∈ [0, 3, 2, 1].take 3, (Builder.built 6 crew).Holds h fun d => d.parent = none := by
    intro h hh
    simp only [List.take_succ_cons, List.take_zero, List.mem_cons, List.not_mem_nil, or_false] at hh
    rcases hh with rfl | rfl | rfl <;> exact ⟨_, rfl, rfl⟩
  have h := wrapping_until_full (Builder.built 6 crew) 3 [0, 3, 2, 1] rfl (by decide) hfree (by decide)
  obtain ⟨hloop, -, hdefect, -⟩ := h
  refine ⟨rfl, by decide, hfree, by decide, ?_, ?_⟩
  · rw [hloop]
    rfl
  · rw [hloop]
    exact hdefect

end Behaviour
