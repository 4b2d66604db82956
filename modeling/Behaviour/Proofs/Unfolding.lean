import Mathlib.Data.Fintype.Card
import Mathlib.Data.List.Induction
import Behaviour.Plan
import Behaviour.Proofs.Wiring

/-!
# What can be reached from a root

The wiring of a builder may hold circles and shared nodes; below a node without parent it holds neither. A *way down*
picks a child at each node (`descend`). In a forest of edges two ways from a parentless node never meet
(`way_unique`), hence no way is as long as there are drafts (`length_way_lt`), and the walk through all that can be
reached has an end (`exists_tour`), without meeting a node twice (`Tour.nodup`).

`survey` looks at the drafts one after another and stops at the first defect. It does not count its steps: where the
wiring goes round in a circle it has no answer. `check_eq_validate` says that it always has one below a parentless
node, and that `check`, which does count its steps, never runs out of them.
-/

namespace Behaviour

variable {κ σ : Type}

/-! ## Ways down -/

section Ways

variable (ds : List (Draft κ σ))

/-- The node at the end of a way down: each number picks one of the children. -/
def descend : Nat → List Nat → Option Nat
  | h, [] => some h
  | h, i :: way => (ds[h]?.bind fun d => d.children[i]?).bind fun c => descend c way

/-- A node can be reached from another one. -/
def Reaches (h g : Nat) : Prop := ∃ way, descend ds h way = some g

variable {ds}

theorem descend_cons {h i g : Nat} {way : List Nat} : descend ds h (i :: way) = some g ↔
    ∃ d c, ds[h]? = some d ∧ d.children[i]? = some c ∧ descend ds c way = some g := by
  simp only [descend, Option.bind_eq_some_iff]
  constructor
  · rintro ⟨c, ⟨d, hd, hc⟩, hw⟩
    exact ⟨d, c, hd, hc, hw⟩
  · rintro ⟨d, c, hd, hc, hw⟩
    exact ⟨c, ⟨d, hd, hc⟩, hw⟩

theorem descend_append (v w : List Nat) : ∀ h : Nat,
    descend ds h (v ++ w) = (descend ds h v).bind fun g => descend ds g w := by
  induction v with
  | nil => intro h; rfl
  | cons i v ih =>
    intro h
    simp only [List.cons_append, descend, ih, Option.bind_assoc]

/-- The last step of a way. -/
theorem descend_concat {h i g : Nat} {way : List Nat} : descend ds h (way ++ [i]) = some g ↔
    ∃ p d, descend ds h way = some p ∧ ds[p]? = some d ∧ d.children[i]? = some g := by
  rw [descend_append, Option.bind_eq_some_iff]
  constructor
  · rintro ⟨p, hp, hw⟩
    obtain ⟨d, c, hd, hc, hg⟩ := descend_cons.1 hw
    cases hg
    exact ⟨p, d, hp, hd, hc⟩
  · rintro ⟨p, d, hp, hd, hg⟩
    exact ⟨p, hp, descend_cons.2 ⟨d, g, hd, hg, rfl⟩⟩

end Ways

/-! ## Below a parentless node -/

section Root

variable {ds : List (Draft κ σ)} {root : Nat} {r : Draft κ σ} (hf : Forest ds) (hr : ds[root]? = some r)
  (hp : r.parent = none)
include hf hr

/-- Ways lead to drafts. -/
theorem descend_lt {way : List Nat} {g : Nat} (hw : descend ds root way = some g) : g < ds.length := by
  induction way using List.reverseRecOn generalizing g with
  | nil =>
    cases hw
    exact (List.getElem?_eq_some_iff.1 hr).1
  | append_singleton way i _ =>
    obtain ⟨p, d, -, hd, hg⟩ := descend_concat.1 hw
    exact hf.child_lt hd (List.mem_of_getElem? hg)

include hp

/-- No way comes back to a parentless node. -/
theorem eq_nil_of_descend {way : List Nat} (hw : descend ds root way = some root) : way = [] := by
  rcases List.eq_nil_or_concat way with h | ⟨way', i, h⟩
  · exact h
  · rw [h, List.concat_eq_append] at hw
    obtain ⟨p, d, -, hd, hg⟩ := descend_concat.1 hw
    exact absurd (List.mem_of_getElem? hg) (hf.not_child hd hr hp)

/-- Two ways from a parentless node that meet are one way. -/
theorem way_unique {v w : List Nat} {g : Nat} (hv : descend ds root v = some g) (hw : descend ds root w = some g) :
    v = w := by
  -- The last steps lead from the one parent of `g` to the one place that it has there.
  induction v using List.reverseRecOn generalizing w g with
  | nil =>
    cases hv
    exact (eq_nil_of_descend hf hr hp hw).symm
  | append_singleton v i ih =>
    obtain ⟨p, d, hvp, hd, hi⟩ := descend_concat.1 hv
    rcases List.eq_nil_or_concat w with rfl | ⟨w', j, rfl⟩
    · cases hw
      exact absurd (List.mem_of_getElem? hi) (hf.not_child hd hr hp)
    · rw [List.concat_eq_append] at hw ⊢
      obtain ⟨q, e, hwq, he, hj⟩ := descend_concat.1 hw
      obtain rfl : p = q := hf.parent_unique hd he (List.mem_of_getElem? hi) (List.mem_of_getElem? hj)
      rw [hd] at he
      cases he
      have hij : i = j := by
        obtain ⟨hi', hi⟩ := List.getElem?_eq_some_iff.1 hi
        obtain ⟨hj', hj⟩ := List.getElem?_eq_some_iff.1 hj
        exact (hf.nodup_children hd).getElem_inj_iff.1 (hi.trans hj.symm)
      rw [ih hvp hwq, hij]

/-- What belongs to the ways from a parentless node belongs to the handles at their ends. -/
theorem exists_handles_of_ways (g : List Nat → Option Nat) : ∃ f : Nat → Nat, ∀ way h x,
    descend ds root way = some h → g way = some x → f h = x := by
  have hpoint : ∀ h, ∃ y, ∀ way x, descend ds root way = some h → g way = some x → y = x := by
    intro h
    by_cases hreach : ∃ way, descend ds root way = some h
    · obtain ⟨way, hw⟩ := hreach
      refine ⟨(g way).getD 0, fun way' x hw' hx => ?_⟩
      rw [way_unique hf hr hp hw hw', hx]
      rfl
    · exact ⟨0, fun way x hw _ => absurd ⟨way, hw⟩ hreach⟩
  choose f hf using hpoint
  exact ⟨f, fun way h x => hf h way x⟩

/-- A way from a parentless node passes fewer nodes than there are drafts, for it never passes one twice. -/
theorem length_way_lt {way : List Nat} {g : Nat} (hw : descend ds root way = some g) : way.length < ds.length := by
  have stop : ∀ k : Fin (way.length + 1), ∃ x : Fin ds.length, descend ds root (way.take k) = some x.val := by
    intro k
    rw [← List.take_append_drop k way, descend_append] at hw
    obtain ⟨x, hx, -⟩ := Option.bind_eq_some_iff.1 hw
    exact ⟨⟨x, descend_lt hf hr hx⟩, hx⟩
  choose node hnode using stop
  have inj : Function.Injective node := by
    intro k l hkl
    have htake := way_unique hf hr hp (hnode k) (hkl ▸ hnode l)
    have hlen := congrArg List.length htake
    rw [List.length_take, List.length_take] at hlen
    exact Fin.ext (by omega)
  have := Fintype.card_le_of_injective node inj
  rw [Fintype.card_fin, Fintype.card_fin] at this
  exact this

end Root

/-! ## Tours -/

/-- The nodes of a list and all nodes below them, each before its children, are `order`. -/
inductive Tour (ds : List (Draft κ σ)) : List Nat → List Nat → Prop
  | nil : Tour ds [] []
  | cons {h : Nat} {d : Draft κ σ} {hs below rest : List Nat} : ds[h]? = some d → Tour ds d.children below →
      Tour ds hs rest → Tour ds (h :: hs) (h :: (below ++ rest))

namespace Tour

variable {ds : List (Draft κ σ)}

/-- There is at most one tour. -/
theorem functional {hs o o' : List Nat} (h : Tour ds hs o) (h' : Tour ds hs o') : o = o' := by
  induction h generalizing o' with
  | nil => cases h'; rfl
  | cons hd _ _ ihb ihr =>
    cases h' with
    | cons hd' hb' hr' =>
      rw [hd] at hd'
      cases hd'
      rw [ihb hb', ihr hr']

/-- A list has a tour if each of its nodes has one. -/
theorem exists_of_forall : ∀ {hs : List Nat}, (∀ c ∈ hs, ∃ o, Tour ds [c] o) → ∃ o, Tour ds hs o
  | [], _ => ⟨[], .nil⟩
  | c :: hs, h => by
    obtain ⟨o, ho⟩ := h c List.mem_cons_self
    obtain ⟨rest, hrest⟩ := exists_of_forall fun x hx => h x (List.mem_cons_of_mem _ hx)
    cases ho with
    | cons hd hb _ => exact ⟨_, .cons hd hb hrest⟩

/-- A tour meets what can be reached, and nothing else. -/
theorem mem_iff {hs o : List Nat} (h : Tour ds hs o) (g : Nat) : g ∈ o ↔ ∃ c ∈ hs, Reaches ds c g := by
  induction h with
  | nil => simp
  | @cons h d hs below rest hd _ _ ihb ihr =>
    simp only [List.mem_cons, List.mem_append, ihb, ihr]
    constructor
    · rintro (rfl | ⟨c, hc, way, hw⟩ | ⟨c, hc, hg⟩)
      · exact ⟨g, .inl rfl, [], rfl⟩
      · obtain ⟨i, hi⟩ := List.mem_iff_getElem?.1 hc
        exact ⟨h, .inl rfl, i :: way, descend_cons.2 ⟨d, c, hd, hi, hw⟩⟩
      · exact ⟨c, .inr hc, hg⟩
    · rintro ⟨c, rfl | hc, way, hw⟩
      · cases way with
        | nil => cases hw; exact .inl rfl
        | cons i way =>
          obtain ⟨d', c', hd', hi, hw⟩ := descend_cons.1 hw
          rw [hd] at hd'
          cases hd'
          exact .inr (.inl ⟨c', List.mem_of_getElem? hi, way, hw⟩)
      · exact .inr (.inr ⟨c, hc, way, hw⟩)

/-- No two ways from the nodes of a list meet. -/
def Apart (ds : List (Draft κ σ)) (hs : List Nat) : Prop :=
  ∀ ⦃i j c e g : Nat⦄ ⦃v w : List Nat⦄, hs[i]? = some c → hs[j]? = some e → descend ds c v = some g →
    descend ds e w = some g → i = j ∧ v = w

theorem Apart.children {h : Nat} {hs : List Nat} {d : Draft κ σ} (ha : Apart ds (h :: hs)) (hd : ds[h]? = some d) :
    Apart ds d.children := by
  intro i j c e g v w hi hj hv hw
  have := ha (i := 0) (j := 0) rfl rfl (descend_cons.2 ⟨d, c, hd, hi, hv⟩) (descend_cons.2 ⟨d, e, hd, hj, hw⟩)
  simpa using this.2

theorem Apart.tail {h : Nat} {hs : List Nat} (ha : Apart ds (h :: hs)) : Apart ds hs := by
  intro i j c e g v w hi hj hv hw
  have := ha (i := i + 1) (j := j + 1) hi hj hv hw
  exact ⟨by omega, this.2⟩

/-- Where no two ways meet, a tour meets no node twice. -/
theorem nodup {hs o : List Nat} (h : Tour ds hs o) (ha : Apart ds hs) : o.Nodup := by
  induction h with
  | nil => exact List.nodup_nil
  | @cons h d hs below rest hd hb hr ihb ihr =>
    -- A node of `below` is at the end of a way that begins at `h`, a node of `rest` of one that begins later.
    have inBelow : ∀ g ∈ below, ∃ i way, descend ds h (i :: way) = some g := by
      intro g hg
      obtain ⟨c, hc, way, hw⟩ := (hb.mem_iff g).1 hg
      obtain ⟨i, hi⟩ := List.mem_iff_getElem?.1 hc
      exact ⟨i, way, descend_cons.2 ⟨d, c, hd, hi, hw⟩⟩
    have inRest : ∀ g ∈ rest, ∃ (j e : Nat) (way : List Nat), hs[j]? = some e ∧
        descend ds e way = some g := by
      intro g hg
      obtain ⟨e, he, way, hw⟩ := (hr.mem_iff g).1 hg
      obtain ⟨j, hj⟩ := List.mem_iff_getElem?.1 he
      exact ⟨j, e, way, hj, hw⟩
    refine List.nodup_cons.2 ⟨?_, List.nodup_append.2 ⟨ihb (ha.children hd), ihr ha.tail, ?_⟩⟩
    · intro hm
      rcases List.mem_append.1 hm with hm | hm
      · obtain ⟨i, way, hw⟩ := inBelow h hm
        have := (ha (i := 0) (j := 0) rfl rfl (show descend ds h [] = some h from rfl) hw).2
        cases this
      · obtain ⟨j, e, way, hj, hw⟩ := inRest h hm
        have := (ha (i := 0) (j := j + 1) rfl hj (show descend ds h [] = some h from rfl) hw).1
        omega
    · rintro g hg g' hg' rfl
      obtain ⟨i, way, hw⟩ := inBelow g hg
      obtain ⟨j, e, way', hj, hw'⟩ := inRest g hg'
      have := (ha (i := 0) (j := j + 1) rfl hj hw hw').1
      omega

end Tour

section Root

variable {ds : List (Draft κ σ)} {root : Nat} {r : Draft κ σ} (hf : Forest ds) (hr : ds[root]? = some r)
  (hp : r.parent = none)
include hf hr hp

/-- The walk through what is below a node at the end of a way has an end: with each step there are fewer drafts left
that a way could still pass. -/
theorem exists_tour_of_descend : ∀ (n : Nat) {way : List Nat} {h : Nat}, descend ds root way = some h →
    ds.length ≤ way.length + n → ∃ o, Tour ds [h] o
  | 0, way, h, hw, hn => absurd (length_way_lt hf hr hp hw) (by omega)
  | n + 1, way, h, hw, hn => by
    have hlt := descend_lt hf hr hw
    have hd : ds[h]? = some ds[h] := List.getElem?_eq_getElem hlt
    have hchildren : ∀ c ∈ ds[h].children, ∃ o, Tour ds [c] o := by
      intro c hc
      obtain ⟨i, hi⟩ := List.mem_iff_getElem?.1 hc
      refine exists_tour_of_descend n (descend_concat.2 ⟨h, ds[h], hw, hd, hi⟩) ?_
      rw [List.length_append, List.length_singleton]
      omega
    obtain ⟨below, hb⟩ := Tour.exists_of_forall hchildren
    exact ⟨_, .cons hd hb .nil⟩

theorem exists_tour : ∃ o, Tour ds [root] o :=
  exists_tour_of_descend hf hr hp ds.length (show descend ds root [] = some root from rfl) (by simp)

theorem apart_root : Tour.Apart ds [root] := by
  intro i j c e g v w hi hj hv hw
  obtain ⟨hi', rfl⟩ := List.getElem?_eq_some_iff.1 hi
  obtain ⟨hj', rfl⟩ := List.getElem?_eq_some_iff.1 hj
  simp only [List.length_singleton, Nat.lt_one_iff] at hi' hj'
  subst hi' hj'
  exact ⟨rfl, way_unique hf hr hp hv hw⟩

/-- A tour from a parentless node is no longer than there are drafts. -/
theorem length_tour_le {o : List Nat} (ho : Tour ds [root] o) : o.length ≤ ds.length := by
  have hsub : o ⊆ List.range ds.length := by
    intro g hg
    obtain ⟨c, hc, way, hw⟩ := (ho.mem_iff g).1 hg
    rw [List.mem_singleton.1 hc] at hw
    exact List.mem_range.2 (descend_lt hf hr hw)
  have := ((ho.nodup (apart_root hf hr hp)).subperm hsub).length_le
  rwa [List.length_range] at this

end Root

/-! ## The first defect -/

/-- What is wrong with the draft of a handle. -/
def defectAt (ds : List (Draft κ σ)) (h : Nat) : Option Defect := ds[h]?.bind Draft.defect?

namespace Builder

/-- The defect of several nodes and all nodes below them, each looked at before its children, up to the first one that
has a defect; no answer at all if the walk does not end. -/
def survey (b : Builder κ σ) : List Nat → Option (Option Defect)
  | [] => some none
  | h :: hs =>
    match b.drafts[h]? with
    | none => some (some .unknownHandle)
    | some d =>
      match d.defect? with
      | some e => some (some e)
      | none => do
        match ← b |>.survey d.children with
        | some e => return some e
        | none => b |>.survey hs
partial_fixpoint

/-- What is wrong with the tree below a root, found out by a walk that does not count its steps. -/
def validate (b : Builder κ σ) (root : Int) : Option (Option Defect) :=
  match b.defect, b.draft? root with
  | some d, _ => some (some d)
  | none, none => some (some .unknownHandle)
  | none, some d => if d.parent.isSome then some (some .ownedRoot) else b.survey [root.toNat]

end Builder

/-- The defect that is told in place of a result. -/
def defectOf {α : Type} : Except Defect α → Option Defect
  | .ok _ => none
  | .error d => some d

theorem defectOf_mapM_cons {α : Type} (f : Nat → Except Defect α) (h : Nat) (hs : List Nat) :
    defectOf ((h :: hs).mapM f) = (defectOf (f h)).or (defectOf (hs.mapM f)) := by
  rw [List.mapM_cons]
  cases f h with
  | error => rfl
  | ok => cases hs.mapM f <;> rfl

/-- A level of growth looks at the draft first and then at its children. -/
theorem defectOf_grow {ds : List (Draft κ σ)} {h : Nat} {d : Draft κ σ} (hd : ds[h]? = some d) (hfit : d.Fits)
    (depth : Nat) :
    defectOf (grow ds (depth + 1) h) = d.defect?.or (defectOf (d.children.mapM (grow ds depth))) := by
  obtain ⟨name, role, parent, children⟩ := d
  cases role with
  | leaf act =>
    obtain rfl : children = [] := List.eq_nil_of_length_eq_zero (Nat.le_zero.1 hfit)
    cases act <;> simp [grow, hd, Draft.defect?, defectOf, pure, Except.pure]
  | composite rule keep =>
    cases children with
    | nil => simp [grow, hd, Draft.defect?, defectOf]
    | cons c cs =>
      simp only [grow, hd, Draft.defect?, List.isEmpty_cons]
      cases (c :: cs).mapM (grow ds depth) <;> rfl
  | decorator wrap =>
    rcases children with _ | ⟨c, _ | ⟨c', cs⟩⟩
    · cases wrap <;> simp [grow, hd, Draft.defect?, defectOf]
    · rw [defectOf_mapM_cons]
      cases wrap with
      | none => simp [grow, hd, Draft.defect?, defectOf]
      | some wrap =>
        simp only [grow, hd, Draft.defect?]
        cases grow ds depth c <;> rfl
    · simp [Draft.Fits, Role.room] at hfit

namespace Tour

variable {ds : List (Draft κ σ)}

/-- The survey ends where there is a tour, with the first defect on the tour. -/
theorem survey_eq {b : Builder κ σ} {hs o : List Nat} (h : Tour b.drafts hs o) :
    b.survey hs = some (o.findSome? (defectAt b.drafts)) := by
  induction h with
  | nil => rw [Builder.survey.eq_def]; rfl
  | @cons h d hs below rest hd _ _ ihb ihr =>
    rw [Builder.survey.eq_def]
    simp only [hd]
    cases hdef : d.defect? with
    | some e => simp [defectAt, hd, hdef]
    | none =>
      simp only [ihb, ihr, List.findSome?_cons, List.findSome?_append, defectAt, hd, Option.bind_some, hdef]
      cases below.findSome? (defectAt b.drafts) <;> rfl

/-- Growth that may go as deep as the tour is long tells the first defect on the tour. -/
theorem defectOf_mapM_grow (hf : Forest ds) {hs o : List Nat} (h : Tour ds hs o) : ∀ depth : Nat, o.length ≤ depth →
    defectOf (hs.mapM (grow ds depth)) = o.findSome? (defectAt ds) := by
  induction h with
  | nil => intro depth _; rfl
  | @cons h d hs below rest hd _ _ ihb ihr =>
    intro depth hdepth
    simp only [List.length_cons, List.length_append] at hdepth
    obtain ⟨n, rfl⟩ : ∃ n, depth = n + 1 := ⟨depth - 1, by omega⟩
    rw [defectOf_mapM_cons, defectOf_grow hd (hf.fits hd), ihb n (by omega), ihr (n + 1) (by omega)]
    simp only [List.findSome?_cons, List.findSome?_append, defectAt, hd, Option.bind_some]
    cases d.defect? <;> rfl

end Tour

namespace Builder

variable {b : Builder κ σ} {root : Int} {r : Draft κ σ}

theorem check_eq (b : Builder κ σ) (root : Int) : b.check root = defectOf (b.plan root) := by
  unfold check
  cases b.plan root <;> rfl

/-- Below a parentless root the verdict is the first defect on the tour from the root. -/
theorem check_eq_findSome? (hf : Forest b.drafts) (hb : b.defect = none) (hr : b.draft? root = some r)
    (hp : r.parent = none) {o : List Nat} (ho : Tour b.drafts [root.toNat] o) :
    b.check root = o.findSome? (defectAt b.drafts) := by
  have hr' := (draft?_eq_some hr).2
  have hlen : o.length ≤ b.size := length_tour_le hf hr' hp ho
  have hgrow := ho.defectOf_mapM_grow hf b.size hlen
  have hplan : b.plan root = grow b.drafts b.size root.toNat := by simp [plan, hb, hr, hp]
  rw [defectOf_mapM_cons] at hgrow
  rw [check_eq, hplan, ← hgrow]
  cases grow b.drafts b.size root.toNat <;> rfl

/-- The walk that does not count its steps always ends, with the verdict that is given. -/
theorem check_eq_validate (hf : Forest b.drafts) (root : Int) : b.validate root = some (b.check root) := by
  unfold validate
  cases hb : b.defect with
  | some d => simp [check_eq, plan, hb, defectOf]
  | none =>
    cases hr : b.draft? root with
    | none => simp [check_eq, plan, hb, hr, defectOf]
    | some r =>
      cases hp : r.parent with
      | some p => simp [check_eq, plan, hb, hr, hp, defectOf]
      | none =>
        obtain ⟨o, ho⟩ := exists_tour hf (draft?_eq_some hr).2 hp
        simp [ho.survey_eq, check_eq_findSome? hf hb hr hp ho, hp]

/-- A verdict without defect is one about a parentless root of a builder without defect. -/
theorem parentless_of_check (h : b.check root = none) :
    b.defect = none ∧ ∃ r, b.draft? root = some r ∧ r.parent = none := by
  rw [check_eq] at h
  unfold plan at h
  split at h
  · cases h
  · cases h
  · rename_i r hb hr
    split at h
    · cases h
    · rename_i hp
      exact ⟨hb, r, hr, by simpa using hp⟩

/-- A tree below a root is grown from a parentless draft. -/
theorem grow_of_plan {n : Node κ σ} (h : b.plan root = .ok n) : ∃ r, b.drafts[root.toNat]? = some r ∧
    r.parent = none ∧ grow b.drafts b.size root.toNat = .ok n := by
  unfold plan at h
  split at h
  · cases h
  · cases h
  · rename_i r _ hr
    split at h
    · cases h
    · rename_i hp
      exact ⟨r, (draft?_eq_some hr).2, by simpa using hp, h⟩

end Builder

/-! ## The verdict -/

/-- The verdict on every root of every builder. The walk for it ends. It is the first defect of the wiring; without
one, a root that is no handle or that has a parent is the defect; for any other root it is the defect of the first
draft on the one tour through what can be reached, and none if no draft there has a defect. Where it is none, each
node that can be reached is reached in one way only, whatever the other drafts look like. -/
theorem check_exact (capacity : Nat) (cs : List (Call κ σ)) (root : Int) :
    let b := Builder.built capacity cs
    b.validate root = some (b.check root) ∧
    (∀ e, b.defect = some e → b.check root = some e) ∧
    (b.defect = none → root < 0 ∨ b.size ≤ root → b.check root = some .unknownHandle) ∧
    (∀ r, b.defect = none → b.draft? root = some r → r.parent ≠ none → b.check root = some .ownedRoot) ∧
    (∀ r, b.defect = none → b.draft? root = some r → r.parent = none →
      (∃ order, Tour b.drafts [root.toNat] order ∧ (∀ order', Tour b.drafts [root.toNat] order' → order' = order) ∧
        (∀ g, g ∈ order ↔ Reaches b.drafts root.toNat g) ∧
        b.check root = order.findSome? (defectAt b.drafts)) ∧
      (b.check root = none ↔ ∀ g, Reaches b.drafts root.toNat g → defectAt b.drafts g = none)) ∧
    (b.check root = none → ∀ g, Reaches b.drafts root.toNat g →
      ∃! way, descend b.drafts root.toNat way = some g) := by
  intro b
  have hf : Forest b.drafts := Builder.forest_built capacity cs
  refine ⟨Builder.check_eq_validate hf root, fun e he => Builder.check_of_defect he root, fun hb hout => ?_,
    fun r hb hr hp => ?_, fun r hb hr hp => ?_, fun hc g hg => ?_⟩
  · have hvalid : b.isValid root ≠ true := by
      rw [ne_eq, Builder.isValid_iff]
      omega
    have hr : b.draft? root = none := by simpa [Builder.isValid] using hvalid
    simp [Builder.check_eq, Builder.plan, hb, hr, defectOf]
  · have hp : r.parent.isSome = true := by simpa [Option.isSome_iff_ne_none] using hp
    simp [Builder.check_eq, Builder.plan, hb, hr, hp, defectOf]
  · obtain ⟨order, ho⟩ := exists_tour hf (Builder.draft?_eq_some hr).2 hp
    have hmem : ∀ g, g ∈ order ↔ Reaches b.drafts root.toNat g := fun g => by simp [ho.mem_iff]
    have hcheck := Builder.check_eq_findSome? hf hb hr hp ho
    refine ⟨⟨order, ho, fun _ h => h.functional ho, hmem, hcheck⟩, ?_⟩
    rw [hcheck, List.findSome?_eq_none_iff]
    exact forall_congr' fun g => by rw [hmem]
  · obtain ⟨-, r, hr, hp⟩ := Builder.parentless_of_check hc
    obtain ⟨way, hw⟩ := hg
    exact ⟨way, hw, fun way' hw' => way_unique hf (Builder.draft?_eq_some hr).2 hp hw' hw⟩

/-- A leaf with something to do, two decorators that are bound to each other, and a leaf with nothing to do. -/
def circleAside : List (Call Unit Unit) :=
  [.leaf "root" (some fun s => (.success, s)), .negate "left", .negate "right", .decorate 1 2, .decorate 2 1,
    .leaf "idle" none]

/-- A circle and an idle leaf aside do not matter to the verdict on a root from which they cannot be reached. -/
theorem check_circleAside :
    let b := Builder.built 4 circleAside
    descend b.drafts 1 [0, 0] = some 1 ∧ defectAt b.drafts 3 = some .idleLeaf ∧ b.check 0 = none ∧
      ∀ g, Reaches b.drafts 0 g → ∃! way, descend b.drafts 0 way = some g :=
  ⟨rfl, rfl, rfl, (check_exact 4 circleAside 0).2.2.2.2.2 rfl⟩

end Behaviour
