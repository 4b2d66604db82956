import Behaviour.Builder

/-!
# Wiring

A call on a builder is written down as data (`Call`), so that a history of a builder is a list of calls. Whatever the
calls and the handles that they are given, parents and children stay two views of one forest of edges (`Forest`):
`Forest.add` and `Forest.link` are the two ways in which drafts change, and `forest_built` follows them through every
history. `wiring_invariant` puts this together with the room that is left and with the order of the children.
-/

namespace Behaviour

variable {κ σ : Type}

/-! ## Calls -/

/-- A call on a builder, with everything that it is given. -/
inductive Call (κ σ : Type) where
  | leaf (name : String) (act : Option (Act κ σ))
  | composite (rule : Rule) (name : String) (keep : Bool)
  | negate (name : String)
  | delay (name : String)
  | await (name : String) (test : Option (Test κ σ))
  | custom (name : String) (before : Option (Before κ σ)) (after : Option (After κ σ))
  | attach (parent child : Int)
  | decorate (decorator child : Int)
  | negated (child : Int)
  | delayed (child : Int)
  | awaited (child : Int) (test : Option (Test κ σ))
  | delayFirst (count : Nat) (handles : List Int)

namespace Builder

/-- The builder after a call. -/
def call (b : Builder κ σ) : Call κ σ → Builder κ σ
  | .leaf name act => (b.newLeaf name act).2
  | .composite rule name keep => (b.newComposite rule name keep).2
  | .negate name => (b.newNegate name).2
  | .delay name => (b.newDelay name).2
  | .await name test => (b.newAwait name test).2
  | .custom name before after => (b.newCustom name before after).2
  | .attach parent child => b.attach parent child
  | .decorate decorator child => b.decorate decorator child
  | .negated child => (b.negated child).2
  | .delayed child => (b.delayed child).2
  | .awaited child test => (b.awaited child test).2
  | .delayFirst count handles => (b.delayFirst count handles).2

/-- The builder after several calls in order. -/
def calls (b : Builder κ σ) (cs : List (Call κ σ)) : Builder κ σ := cs.foldl call b

/-- A new builder after several calls. -/
def built (capacity : Nat) (cs : List (Call κ σ)) : Builder κ σ := ({ capacity } : Builder κ σ).calls cs

@[simp] theorem calls_nil (b : Builder κ σ) : b.calls [] = b := rfl

@[simp] theorem calls_cons (b : Builder κ σ) (c : Call κ σ) (cs : List (Call κ σ)) :
    b.calls (c :: cs) = (b.call c).calls cs := rfl

/-- What adding and decorating keep, the wrapping of several nodes keeps. -/
theorem delayEach_induction {P : Builder κ σ → Prop} (hadd : ∀ b name role, P b → P (b.add name role).2)
    (hdecorate : ∀ b d c, P b → P (b.decorate d c)) :
    ∀ (hs : List Int) (b : Builder κ σ), P b → P (b.delayEach hs).2
  | [], _, h => h
  | x :: hs, b, h =>
    delayEach_induction hadd hdecorate hs (b.delayed x).2 (hdecorate _ _ _ (hadd _ _ _ h))

/-- Every call other than `attach` is made of adding and decorating. -/
theorem call_induction {P : Builder κ σ → Prop} (hadd : ∀ b name role, P b → P (b.add name role).2)
    (hdecorate : ∀ b d c, P b → P (b.decorate d c)) {b : Builder κ σ} {c : Call κ σ}
    (hattach : ∀ p x, c = .attach p x → P (b.attach p x)) (h : P b) : P (b.call c) := by
  cases c with
  | leaf | composite | negate | delay | await | custom => exact hadd _ _ _ h
  | attach p x => exact hattach p x rfl
  | decorate => exact hdecorate _ _ _ h
  | negated | delayed | awaited => exact hdecorate _ _ _ (hadd _ _ _ h)
  | delayFirst count hs => exact delayEach_induction hadd hdecorate (hs.take count) b h

/-! ## What the calls do to the drafts -/

theorem drafts_add (b : Builder κ σ) (name : String) (role : Role κ σ) : (b.add name role).2.drafts =
    if b.size < b.capacity then b.drafts ++ [{ name := name, role := role }] else b.drafts := by
  unfold add
  split <;> rfl

/-- Linking writes the parent into the child and the child into the parent. -/
theorem getElem?_link (b : Builder κ σ) (parent child i : Nat) :
    (b.link parent child).drafts[i]? = b.drafts[i]?.map fun d =>
      { d with
        parent := if i = child then some parent else d.parent
        children := if i = parent then d.children ++ [child] else d.children } := by
  simp only [link, List.getElem?_modify]
  cases b.drafts[i]? with
  | none => rfl
  | some d =>
    by_cases hc : child = i <;> by_cases hp : parent = i <;> simp [hc, hp, Ne.symm]

end Builder

/-- One draft can take another one, which has no parent yet, as its next child. -/
structure CanTake (ds : List (Draft κ σ)) (parent child : Nat) : Prop where
  ne : child ≠ parent
  room : ∃ p, ds[parent]? = some p ∧ p.children.length < p.role.room
  free : ∃ c, ds[child]? = some c ∧ c.parent = none

namespace Builder

theorem draft?_eq_some {b : Builder κ σ} {h : Int} {d : Draft κ σ} (hd : b.draft? h = some d) :
    0 ≤ h ∧ b.drafts[h.toNat]? = some d := by
  unfold draft? at hd
  split at hd
  · cases hd
  · exact ⟨by omega, hd⟩

/-- A parentless node can be taken by any other node that has room. -/
theorem canTake_of_free {b : Builder κ σ} {p c : Int} {dp dc : Draft κ σ} (hp : b.draft? p = some dp)
    (hc : b.draft? c = some dc) (hroom : dp.children.length < dp.role.room)
    (hfree : ¬ (dc.parent.isSome || c == p) = true) : CanTake b.drafts p.toNat c.toNat := by
  obtain ⟨hp0, hp⟩ := draft?_eq_some hp
  obtain ⟨hc0, hc⟩ := draft?_eq_some hc
  simp only [Bool.or_eq_true, not_or, Bool.not_eq_true, Option.isSome_eq_false_iff, Option.isNone_iff_eq_none,
    beq_eq_false_iff_ne, ne_eq] at hfree
  exact ⟨by omega, ⟨dp, hp, hroom⟩, dc, hc, hfree.1⟩

theorem canTake_of_attachDefect? {b : Builder κ σ} {p c : Int} (h : b.attachDefect? p c = none) :
    CanTake b.drafts p.toNat c.toNat ∧
      ∃ d, b.drafts[p.toNat]? = some d ∧ d.role.kind.isComposite = true := by
  unfold attachDefect? at h
  split at h
  · rename_i dp dc hp hc
    split at h
    · cases h
    rename_i hk
    split at h
    · cases h
    rename_i hroom
    split at h
    · cases h
    rename_i hfree
    simp only [Bool.not_eq_true', Bool.not_eq_false] at hk
    refine ⟨canTake_of_free hp hc ?_ hfree, dp, (draft?_eq_some hp).2, hk⟩
    cases hr : dp.role with
    | leaf => simp [hr, Role.kind, Kind.isComposite] at hk
    | decorator => simp [hr, Role.kind, Kind.isComposite] at hk
    | composite => simpa [Role.room] using hroom
  · cases h

theorem canTake_of_decorateDefect? {b : Builder κ σ} {p c : Int} (h : b.decorateDefect? p c = none) :
    CanTake b.drafts p.toNat c.toNat ∧ ∃ d, b.drafts[p.toNat]? = some d ∧ d.role.kind = .decorator := by
  unfold decorateDefect? at h
  split at h
  · rename_i dp dc hp hc
    split at h
    · cases h
    rename_i hk
    split at h
    · cases h
    rename_i hroom
    split at h
    · cases h
    rename_i hfree
    simp only [ne_eq, Decidable.not_not] at hk
    refine ⟨canTake_of_free hp hc ?_ hfree, dp, (draft?_eq_some hp).2, hk⟩
    cases hr : dp.role with
    | leaf => simp [hr, Role.kind] at hk
    | composite rule => cases rule <;> simp [hr, Role.kind, Rule.kind] at hk
    | decorator => simp_all [Role.room]
  · cases h

/-- Attaching leaves a defect or links the two nodes. -/
theorem attach_cases (b : Builder κ σ) (p c : Int) : (∃ d, b.attach p c = b.record d) ∨
    (CanTake b.drafts p.toNat c.toNat ∧ b.attach p c = b.link p.toNat c.toNat) := by
  unfold attach
  cases h : b.attachDefect? p c with
  | some d => exact .inl ⟨d, rfl⟩
  | none => exact .inr ⟨(canTake_of_attachDefect? h).1, rfl⟩

/-- Decorating leaves a defect or links a decorator with its child. -/
theorem decorate_cases (b : Builder κ σ) (p c : Int) : (∃ d, b.decorate p c = b.record d) ∨
    (CanTake b.drafts p.toNat c.toNat ∧ (∃ d, b.drafts[p.toNat]? = some d ∧ d.role.kind = .decorator) ∧
      b.decorate p c = b.link p.toNat c.toNat) := by
  unfold decorate
  cases h : b.decorateDefect? p c with
  | some d => exact .inl ⟨d, rfl⟩
  | none => exact .inr ⟨(canTake_of_decorateDefect? h).1, (canTake_of_decorateDefect? h).2, rfl⟩

end Builder

/-! ## The forest of edges -/

/-- Parents and children are two views of one set of edges: each node is the child of its parent only, and once. -/
structure Forest (ds : List (Draft κ σ)) : Prop where
  fits : ∀ {h : Nat} {d : Draft κ σ}, ds[h]? = some d → d.Fits
  parent_of_child : ∀ {p c : Nat} {d : Draft κ σ}, ds[p]? = some d → c ∈ d.children →
    ∃ e : Draft κ σ, ds[c]? = some e ∧ e.parent = some p
  child_of_parent : ∀ {c p : Nat} {e : Draft κ σ}, ds[c]? = some e → e.parent = some p →
    ∃ d : Draft κ σ, ds[p]? = some d ∧ d.children.count c = 1
  not_own_parent : ∀ {c : Nat} {e : Draft κ σ}, ds[c]? = some e → e.parent ≠ some c

namespace Forest

variable {ds : List (Draft κ σ)}

/-- Children are drafts. -/
theorem child_lt (hf : Forest ds) {p c : Nat} {d : Draft κ σ} (hd : ds[p]? = some d) (hc : c ∈ d.children) :
    c < ds.length := by
  obtain ⟨e, he, -⟩ := hf.parent_of_child hd hc
  exact (List.getElem?_eq_some_iff.1 he).1

/-- Parents are drafts. -/
theorem parent_lt (hf : Forest ds) {c p : Nat} {e : Draft κ σ} (he : ds[c]? = some e) (hp : e.parent = some p) :
    p < ds.length := by
  obtain ⟨d, hd, -⟩ := hf.child_of_parent he hp
  exact (List.getElem?_eq_some_iff.1 hd).1

/-- A node occurs in the children of one node only. -/
theorem parent_unique (hf : Forest ds) {p q c : Nat} {d e : Draft κ σ} (hd : ds[p]? = some d)
    (he : ds[q]? = some e) (hc : c ∈ d.children) (hc' : c ∈ e.children) : p = q := by
  obtain ⟨x, hx, hp⟩ := hf.parent_of_child hd hc
  obtain ⟨y, hy, hq⟩ := hf.parent_of_child he hc'
  rw [hx] at hy
  cases hy
  rw [hp] at hq
  exact Option.some.inj hq

/-- A node occurs among the children of a node once. -/
theorem nodup_children (hf : Forest ds) {p : Nat} {d : Draft κ σ} (hd : ds[p]? = some d) : d.children.Nodup := by
  rw [List.nodup_iff_count]
  intro c
  by_cases hc : c ∈ d.children
  · obtain ⟨e, he, hp⟩ := hf.parent_of_child hd hc
    obtain ⟨d', hd', hone⟩ := hf.child_of_parent he hp
    rw [hd] at hd'
    cases hd'
    exact Nat.le_of_eq hone
  · rw [List.count_eq_zero_of_not_mem hc]
    exact Nat.zero_le 1

/-- No node is its own child. -/
theorem not_own_child (hf : Forest ds) {p : Nat} {d : Draft κ σ} (hd : ds[p]? = some d) : p ∉ d.children := by
  intro hp
  obtain ⟨e, he, hpe⟩ := hf.parent_of_child hd hp
  exact hf.not_own_parent he hpe

/-- A parentless node is nobody's child. -/
theorem not_child (hf : Forest ds) {p c : Nat} {d e : Draft κ σ} (hd : ds[p]? = some d) (he : ds[c]? = some e)
    (hc : e.parent = none) : c ∉ d.children := by
  intro hm
  obtain ⟨e', he', hp⟩ := hf.parent_of_child hd hm
  rw [he] at he'
  cases he'
  rw [hc] at hp
  cases hp

/-- A new node, without parent and children, joins the forest. -/
theorem add (hf : Forest ds) (name : String) (role : Role κ σ) : Forest (ds ++ [{ name := name, role := role }]) := by
  -- Whatever is found among the drafts now was there before, or is the new one.
  have old : ∀ {h : Nat} {d : Draft κ σ}, (ds ++ [{ name := name, role := role }])[h]? = some d →
      ds[h]? = some d ∨ d = { name := name, role := role } := by
    intro h d hd
    rw [List.getElem?_append] at hd
    split at hd
    · exact .inl hd
    · exact .inr (List.mem_singleton.1 (List.mem_of_getElem? hd))
  have keep : ∀ {h : Nat} {d : Draft κ σ}, ds[h]? = some d →
      (ds ++ [{ name := name, role := role }])[h]? = some d := fun hd => by
    rw [List.getElem?_append_left (List.getElem?_eq_some_iff.1 hd).1]
    exact hd
  refine ⟨fun hd => ?_, fun hd hc => ?_, fun he hp => ?_, fun he => ?_⟩
  · rcases old hd with hd | rfl
    · exact hf.fits hd
    · exact Nat.zero_le _
  · rcases old hd with hd | rfl
    · obtain ⟨e, he, hp⟩ := hf.parent_of_child hd hc
      exact ⟨e, keep he, hp⟩
    · cases hc
  · rcases old he with he | rfl
    · obtain ⟨d, hd, hone⟩ := hf.child_of_parent he hp
      exact ⟨d, keep hd, hone⟩
    · cases hp
  · rcases old he with he | rfl
    · exact hf.not_own_parent he
    · nofun

/-- Linking a node to one that can take it keeps the forest. -/
theorem link {b : Builder κ σ} {p c : Nat} (hf : Forest b.drafts) (ht : CanTake b.drafts p c) :
    Forest (b.link p c).drafts := by
  obtain ⟨dp, hdp, hroom⟩ := ht.room
  obtain ⟨dc, hdc, hfree⟩ := ht.free
  have hfresh : ∀ {q : Nat} {d : Draft κ σ}, b.drafts[q]? = some d → c ∉ d.children := fun hd =>
    hf.not_child hd hdc hfree
  have old : ∀ {i : Nat} {d : Draft κ σ}, (b.link p c).drafts[i]? = some d → ∃ d₀, b.drafts[i]? = some d₀ ∧
      { d₀ with
        parent := if i = c then some p else d₀.parent
        children := if i = p then d₀.children ++ [c] else d₀.children } = d := fun hd =>
    Option.map_eq_some_iff.1 (by rwa [Builder.getElem?_link] at hd)
  refine ⟨fun {h d} hd => ?_, fun {q g d} hd hg => ?_, fun {g q e} he hq => ?_, fun {g e} he hg => ?_⟩
  · obtain ⟨d₀, hd₀, rfl⟩ := old hd
    have hfit := hf.fits hd₀
    by_cases hp : h = p
    · subst hp
      rw [hdp] at hd₀
      cases hd₀
      simp only [Draft.Fits, if_pos, List.length_append, List.length_singleton]
      omega
    · simpa [Draft.Fits, hp] using hfit
  · obtain ⟨d₀, hd₀, rfl⟩ := old hd
    by_cases hgc : g = c
    · -- The new child is found at its new parent only.
      subst hgc
      have hqp : q = p := Decidable.byContradiction fun hqp => hfresh hd₀ (by simpa [hqp] using hg)
      exact ⟨_, by rw [Builder.getElem?_link, hdc]; rfl, by simp [hqp]⟩
    · have hg₀ : g ∈ d₀.children := by
        by_cases hqp : q = p
        · simpa [hqp, hgc] using hg
        · simpa [hqp] using hg
      obtain ⟨e, he, hq⟩ := hf.parent_of_child hd₀ hg₀
      exact ⟨_, by rw [Builder.getElem?_link, he]; rfl, by simpa [hgc] using hq⟩
  · obtain ⟨e₀, he₀, rfl⟩ := old he
    by_cases hgc : g = c
    · subst hgc
      obtain rfl : p = q := by simpa using hq
      refine ⟨_, by rw [Builder.getElem?_link, hdp]; rfl, ?_⟩
      simp [List.count_eq_zero_of_not_mem (hfresh hdp)]
    · obtain ⟨d, hd, hone⟩ := hf.child_of_parent he₀ (by simpa [hgc] using hq)
      refine ⟨_, by rw [Builder.getElem?_link, hd]; rfl, ?_⟩
      by_cases hqp : q = p
      · simp [hqp, hone, Ne.symm hgc]
      · simpa [hqp] using hone
  · obtain ⟨e₀, he₀, rfl⟩ := old he
    by_cases hgc : g = c
    · subst hgc
      exact ht.ne (by simpa [eq_comm] using hg)
    · exact hf.not_own_parent he₀ (by simpa [hgc] using hg)

end Forest

namespace Builder

/-- Adding a node keeps the forest. -/
theorem forest_add {b : Builder κ σ} (name : String) (role : Role κ σ) (hf : Forest b.drafts) :
    Forest (b.add name role).2.drafts := by
  rw [drafts_add]
  split
  · exact hf.add name role
  · exact hf

/-- Decorating keeps the forest, whatever becomes of it. -/
theorem forest_decorate {b : Builder κ σ} (p c : Int) (hf : Forest b.drafts) : Forest (b.decorate p c).drafts := by
  rcases b.decorate_cases p c with ⟨d, h⟩ | ⟨ht, -, h⟩
  · rw [h]; exact hf
  · rw [h]; exact hf.link ht

/-- Attaching keeps the forest, whatever becomes of it. -/
theorem forest_attach {b : Builder κ σ} (p c : Int) (hf : Forest b.drafts) : Forest (b.attach p c).drafts := by
  rcases b.attach_cases p c with ⟨d, h⟩ | ⟨ht, h⟩
  · rw [h]; exact hf
  · rw [h]; exact hf.link ht

/-- Every history of a builder leaves a forest. -/
theorem forest_calls : ∀ (cs : List (Call κ σ)) {b : Builder κ σ}, Forest b.drafts → Forest (b.calls cs).drafts
  | [], _, hf => hf
  | _ :: cs, _, hf =>
    forest_calls cs (call_induction (P := fun b => Forest b.drafts) (fun _ => forest_add) (fun _ => forest_decorate)
      (fun p x _ => forest_attach p x hf) hf)

theorem forest_built (capacity : Nat) (cs : List (Call κ σ)) : Forest (built capacity cs).drafts :=
  forest_calls cs ⟨nofun, nofun, nofun, nofun⟩

/-! ## The order of the children -/

/-- The children of a composite; a node of another kind, or none at all, counts as having none. -/
def parts (b : Builder κ σ) (p : Nat) : List Nat :=
  match b.drafts[p]? with
  | some d => if d.role.kind.isComposite then d.children else []
  | none => []

/-- The children that a call gives to a node: one, if the call attaches it and there is nothing against it. -/
def gift (b : Builder κ σ) (p : Nat) : Call κ σ → List Nat
  | .attach parent child =>
    if parent = p ∧ b.attachDefect? parent child = none then [child.toNat] else []
  | _ => []

/-- The children that several calls give to a node, in the order of the calls. -/
def gifts (b : Builder κ σ) (p : Nat) : List (Call κ σ) → List Nat
  | [] => []
  | c :: cs => b.gift p c ++ (b.call c).gifts p cs

theorem parts_add (b : Builder κ σ) (name : String) (role : Role κ σ) (p : Nat) :
    (b.add name role).2.parts p = b.parts p := by
  unfold parts
  rw [drafts_add]
  by_cases hroom : b.size < b.capacity
  · rw [if_pos hroom]
    by_cases hp : p < b.drafts.length
    · rw [List.getElem?_append_left hp]
    · -- Past the old drafts there is at most the new one, which has no children.
      rw [List.getElem?_append_right (Nat.not_lt.1 hp), List.getElem?_eq_none (Nat.not_lt.1 hp)]
      cases p - b.drafts.length <;> simp
  · rw [if_neg hroom]

/-- Linking gives its new child to a composite, and to it alone. -/
theorem parts_link {b : Builder κ σ} {p c : Nat} {d : Draft κ σ} (hd : b.drafts[p]? = some d) (q : Nat) :
    (b.link p c).parts q = b.parts q ++ if q = p ∧ d.role.kind.isComposite = true then [c] else [] := by
  unfold parts
  rw [getElem?_link]
  by_cases hq : q = p
  · subst hq
    cases hk : d.role.kind.isComposite <;> simp [hd, hk]
  · cases b.drafts[q]? with
    | none => simp [hq]
    | some e => simp [hq]

theorem parts_decorate (b : Builder κ σ) (x c : Int) (p : Nat) : (b.decorate x c).parts p = b.parts p := by
  rcases b.decorate_cases x c with ⟨d, h⟩ | ⟨-, ⟨d, hd, hk⟩, h⟩
  · rw [h]; rfl
  · rw [h, parts_link hd]
    simp [hk, Kind.isComposite]

/-- Attaching gives its child to the composite that is named, if there is nothing against it. -/
theorem parts_attach (b : Builder κ σ) (x c : Int) (p : Nat) :
    (b.attach x c).parts p = b.parts p ++ b.gift p (.attach x c) := by
  unfold attach gift
  split
  · rename_i d h
    simp only [h, reduceCtorEq, and_false, if_false, List.append_nil]
    rfl
  · rename_i h
    obtain ⟨-, d, hd, hk⟩ := canTake_of_attachDefect? h
    have hx : 0 ≤ x := by
      unfold attachDefect? at h
      split at h
      · rename_i hp _
        exact (draft?_eq_some hp).1
      · cases h
    have hiff : p = x.toNat ↔ x = p := by omega
    simp only [parts_link hd, hk, hiff, h, and_true]

/-- A call adds its gift to the children of a composite, and nothing else. -/
theorem parts_call (b : Builder κ σ) (c : Call κ σ) (p : Nat) : (b.call c).parts p = b.parts p ++ b.gift p c := by
  by_cases hc : ∃ x y, c = .attach x y
  · obtain ⟨x, y, rfl⟩ := hc
    exact b.parts_attach x y p
  · have hgift : b.gift p c = [] := by
      cases c <;> first | rfl | exact absurd ⟨_, _, rfl⟩ hc
    rw [hgift, List.append_nil]
    exact call_induction (P := fun b' => b'.parts p = b.parts p) (fun b' name role h => by rw [parts_add, h])
      (fun b' x y h => by rw [parts_decorate, h]) (fun x y h => absurd ⟨x, y, h⟩ hc) rfl

theorem parts_calls : ∀ (cs : List (Call κ σ)) (b : Builder κ σ) (p : Nat),
    (b.calls cs).parts p = b.parts p ++ b.gifts p cs
  | [], b, p => by simp [gifts]
  | c :: cs, b, p => by
    rw [calls_cons, parts_calls cs (b.call c) p, parts_call, gifts, List.append_assoc]

/-! ## The room that is left -/

theorem size_add_le {b : Builder κ σ} (name : String) (role : Role κ σ) (h : b.size ≤ b.capacity) :
    (b.add name role).2.size ≤ b.capacity := by
  unfold size
  rw [drafts_add]
  split
  · rw [List.length_append, List.length_singleton]
    assumption
  · exact h

@[simp] theorem capacity_add (b : Builder κ σ) (name : String) (role : Role κ σ) :
    (b.add name role).2.capacity = b.capacity := by
  unfold add
  split <;> rfl

@[simp] theorem size_attach (b : Builder κ σ) (p c : Int) : (b.attach p c).size = b.size := by
  rcases b.attach_cases p c with ⟨d, h⟩ | ⟨-, h⟩
  · rw [h]; rfl
  · rw [h, size_link]

@[simp] theorem size_decorate (b : Builder κ σ) (p c : Int) : (b.decorate p c).size = b.size := by
  rcases b.decorate_cases p c with ⟨d, h⟩ | ⟨-, -, h⟩
  · rw [h]; rfl
  · rw [h, size_link]

@[simp] theorem capacity_attach (b : Builder κ σ) (p c : Int) : (b.attach p c).capacity = b.capacity := by
  unfold attach
  split <;> rfl

@[simp] theorem capacity_decorate (b : Builder κ σ) (p c : Int) : (b.decorate p c).capacity = b.capacity := by
  unfold decorate
  split <;> rfl

/-- There are never more drafts than there is room for. -/
theorem size_calls_le : ∀ (cs : List (Call κ σ)) {b : Builder κ σ} {n : Nat}, b.size ≤ n ∧ b.capacity = n →
    (b.calls cs).size ≤ n
  | [], _, _, h => h.1
  | _ :: cs, _, n, h =>
    size_calls_le cs (call_induction (P := fun b => b.size ≤ n ∧ b.capacity = n)
      (fun b name role h => ⟨h.2 ▸ size_add_le name role (h.2 ▸ h.1), by simp [h.2]⟩)
      (fun b x y h => by simpa using h) (fun x y _ => by simpa using h) h)

end Builder

/-! ## The invariant -/

/-- What every history of a builder leaves, the failing calls included. The drafts have room. Handles of children and
parents name drafts. Parents and children tell the same: a child has the node as its parent, and a node with a parent
is there once among its children; so no node has two places, and none is its own child. No node has more children
than its kind allows, and the children of a composite are those that were attached to it, in order. -/
theorem wiring_invariant (capacity : Nat) (cs : List (Call κ σ)) :
    let b := Builder.built capacity cs
    b.size ≤ capacity ∧
    (∀ (p : Nat) (d : Draft κ σ), b.drafts[p]? = some d →
      (∀ c ∈ d.children, c < b.size) ∧ (∀ q, d.parent = some q → q < b.size)) ∧
    (∀ (p i c : Nat) (d : Draft κ σ), b.drafts[p]? = some d → d.children[i]? = some c →
      ∃ e : Draft κ σ, b.drafts[c]? = some e ∧ e.parent = some p) ∧
    (∀ (c p : Nat) (e : Draft κ σ), b.drafts[c]? = some e → e.parent = some p →
      ∃ d : Draft κ σ, b.drafts[p]? = some d ∧ d.children.count c = 1) ∧
    (∀ (p q c : Nat) (d e : Draft κ σ), b.drafts[p]? = some d → b.drafts[q]? = some e →
      c ∈ d.children → c ∈ e.children → p = q) ∧
    (∀ (p : Nat) (d : Draft κ σ), b.drafts[p]? = some d → d.children.Nodup ∧ p ∉ d.children) ∧
    (∀ (p : Nat) (d : Draft κ σ), b.drafts[p]? = some d →
      match d.role with
      | .leaf _ => d.children = []
      | .decorator _ => d.children.length ≤ 1
      | .composite _ _ => d.children.length ≤ 8 ∧ d.children = ({ capacity } : Builder κ σ).gifts p cs) := by
  intro b
  have hf : Forest b.drafts := Builder.forest_built capacity cs
  refine ⟨Builder.size_calls_le cs ⟨Nat.zero_le _, rfl⟩, fun p d hd => ⟨fun c hc => hf.child_lt hd hc,
    fun q hq => hf.parent_lt hd hq⟩, fun p i c d hd hc => hf.parent_of_child hd (List.mem_of_getElem? hc),
    fun c p e he hp => hf.child_of_parent he hp, fun p q c d e hd he => hf.parent_unique hd he,
    fun p d hd => ⟨hf.nodup_children hd, hf.not_own_child hd⟩, fun p d hd => ?_⟩
  have hfit : d.children.length ≤ d.role.room := hf.fits hd
  split
  · rename_i h
    exact List.eq_nil_of_length_eq_zero (Nat.le_zero.1 (by simpa [h, Role.room] using hfit))
  · rename_i h
    simpa [h, Role.room] using hfit
  · rename_i rule keep h
    refine ⟨by simpa [h, Role.room, maxChildren] using hfit, ?_⟩
    have hparts := Builder.parts_calls cs ({ capacity } : Builder κ σ) p
    have hd' : (({ capacity } : Builder κ σ).calls cs).drafts[p]? = some d := hd
    simpa [Builder.parts, hd', h, Role.kind] using hparts

end Behaviour
