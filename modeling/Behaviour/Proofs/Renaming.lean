import Behaviour.Proofs.Session

/-!
# Handles do not matter

A node can be *renamed*: its handle and those of all nodes below it are exchanged, and nothing else. Visits, resets
and listings commute with this (`visit_rename`, `reset_rename`, `lines_rename`), and so do sessions (`serve_rename`):
handles are told in the log, and are used for nothing.

What is below the root of a builder *unfolds* to an ordered tree of names and roles, in which a node is addressed by
the way that leads to it (`Builder.unfolding`). Two checked roots that unfold to the same tree grow into nodes that
differ in handles only (`grow_rename`), whatever the order of the calls, the capacities and the other drafts. So they
are played alike (`unfolding_decides`).
-/

namespace Behaviour

variable {κ σ : Type}

open Play

/-! ## Renaming -/

def Label.rename (f : Nat → Nat) (l : Label) : Label := { l with handle := f l.handle }

def Event.rename (f : Nat → Nat) : Event κ σ → Event κ σ
  | acted l s => acted (l.rename f) s
  | tested l a => tested (l.rename f) a
  | derived l => derived (l.rename f)
  | judged l s => judged (l.rename f) s
  | finished l k s scene => finished (l.rename f) k s scene

/-- The reply with other handles in its log; nothing else of a reply tells a handle. -/
def Reply.rename (f : Nat → Nat) : Reply κ σ → Reply κ σ
  | turned status scene log sightings => turned status scene (log.map (Event.rename f)) sightings
  | listed text => listed text
  | done => done

namespace Node

mutual
/-- The node with other handles. -/
def rename (f : Nat → Nat) : Node κ σ → Node κ σ
  | leaf l act => leaf (l.rename f) act
  | composite l rule keep cursor ns => composite (l.rename f) rule keep cursor (renameAll f ns)
  | decorator l wrap memory n => decorator (l.rename f) wrap memory (n.rename f)

/-- Several nodes with other handles. -/
def renameAll (f : Nat → Nat) : List (Node κ σ) → List (Node κ σ)
  | [] => []
  | n :: ns => n.rename f :: renameAll f ns
end

@[simp] theorem renameAll_eq_map (f : Nat → Nat) (ns : List (Node κ σ)) : renameAll f ns = ns.map (rename f) := by
  induction ns with
  | nil => rfl
  | cons n ns ih => simp [renameAll, ih]

@[simp] theorem label_rename (f : Nat → Nat) (n : Node κ σ) : (n.rename f).label = n.label.rename f := by
  cases n <;> rfl

@[simp] theorem kind_rename (f : Nat → Nat) (n : Node κ σ) : (n.rename f).kind = n.kind := by
  cases n <;> rfl

end Node

def Visit.rename (f : Nat → Nat) (v : Visit κ σ) : Visit κ σ :=
  ⟨v.status, v.node.rename f, v.scene, v.log.map (Event.rename f)⟩

def Scan.rename (f : Nat → Nat) (s : Scan κ σ) : Scan κ σ :=
  ⟨s.status, s.stop, Node.renameAll f s.children, s.scene, s.log.map (Event.rename f)⟩

theorem Visit.finish_rename (f : Nat → Nat) (v : Visit κ σ) : (v.rename f).finish = v.finish.rename f := by
  simp [Visit.finish, Visit.rename, Event.rename]

namespace Decorator

/-- A decorator opens alike under every handle. -/
theorem enter_rename (f : Nat → Nat) (l : Label) (memory : Memory) (scene : Scene κ σ) (wrap : Decorator κ σ) :
    wrap.enter (l.rename f) memory scene =
      { wrap.enter l memory scene with log := (wrap.enter l memory scene).log.map (Event.rename f) } := by
  cases wrap with
  | negate | delay => rfl
  | await test => cases hdone : memory.done <;> simp [enter, hdone, Event.rename]
  | custom before after => cases before <;> rfl

/-- A decorator closes alike under every handle. -/
theorem leave_rename (f : Nat → Nat) (l : Label) (memory : Memory) (raw : Status) (scene : Scene κ σ)
    (wrap : Decorator κ σ) :
    wrap.leave (l.rename f) memory raw scene =
      { wrap.leave l memory raw scene with log := (wrap.leave l memory raw scene).log.map (Event.rename f) } := by
  cases wrap with
  | negate => rfl
  | delay => cases hpending : memory.hasPending <;> simp [leave, hpending]
  | await test => cases raw <;> cases hdone : memory.done <;> simp [leave, hdone]
  | custom before after => cases after <;> rfl

end Decorator

namespace Node

mutual
/-- A visit does not use handles. -/
theorem visit_rename (f : Nat → Nat) : ∀ (n : Node κ σ) (scene : Scene κ σ),
    (n.rename f).visit scene = (n.visit scene).rename f
  | leaf l act, scene => by
    rw [rename, visit, visit, ← Visit.finish_rename]
    rfl
  | composite l rule keep cursor ns, scene => by
    rw [rename, visit, visit, ← Visit.finish_rename, scan_rename f rule (startPlace keep cursor) ns scene]
    rfl
  | decorator l wrap memory n, scene => by
    simp only [rename, visit, ← Visit.finish_rename, Decorator.enter_rename, Decorator.leave_rename]
    rw [visit_rename f n (wrap.enter l memory scene).scene]
    simp only [Visit.rename, rename, List.map_append]

theorem scan_rename (f : Nat → Nat) (rule : Rule) : ∀ (skip : Nat) (ns : List (Node κ σ)) (scene : Scene κ σ),
    scan rule skip (renameAll f ns) scene = (scan rule skip ns scene).rename f
  | _, [], _ => by simp [scan, Scan.rename]
  | skip + 1, n :: ns, scene => by
    rw [renameAll, scan, scan, scan_rename f rule skip ns scene]
    rfl
  | 0, n :: ns, scene => by
    rw [renameAll]
    by_cases honward : (n.visit scene).status = rule.onward
    · have honward' : ((n.rename f).visit scene).status = rule.onward := by
        rw [visit_rename f n scene]
        exact honward
      rw [scan_of_onward honward, scan_of_onward honward', visit_rename f n scene]
      simp only [Visit.rename, scan_rename f rule 0 ns (n.visit scene).scene]
      simp only [Scan.rename, renameAll, List.map_append]
    · have honward' : ((n.rename f).visit scene).status ≠ rule.onward := by
        rw [visit_rename f n scene]
        exact honward
      rw [scan_of_ne_onward honward, scan_of_ne_onward honward', visit_rename f n scene]
      simp only [Visit.rename, Scan.rename, renameAll]
end

mutual
theorem reset_rename (f : Nat → Nat) : ∀ n : Node κ σ, (n.rename f).reset = n.reset.rename f
  | leaf _ _ => rfl
  | composite _ _ _ _ ns => by simp only [rename, reset, resetAll_renameAll f ns]
  | decorator _ _ _ n => by simp only [rename, reset, reset_rename f n]

theorem resetAll_renameAll (f : Nat → Nat) : ∀ ns : List (Node κ σ),
    resetAll (renameAll f ns) = renameAll f (resetAll ns)
  | [] => rfl
  | n :: ns => by simp only [renameAll, resetAll, reset_rename f n, resetAll_renameAll f ns]
end

theorem line_rename (f : Nat → Nat) (depth : Nat) (n : Node κ σ) : (n.rename f).line depth = n.line depth := by
  cases n <;> simp [rename, line, remarks, kind, label, Label.rename]

mutual
/-- A listing tells no handles. -/
theorem lines_rename (f : Nat → Nat) : ∀ (depth : Nat) (n : Node κ σ), (n.rename f).lines depth = n.lines depth
  | depth, leaf l act => congrArg (· :: []) (line_rename f depth (leaf l act))
  | depth, composite l rule keep cursor ns => by
    rw [lines, ← line_rename f, ← linesAll_renameAll f (depth + 1) ns]
    rfl
  | depth, decorator l wrap memory n => by
    rw [lines, ← line_rename f, ← lines_rename f (depth + 1) n]
    rfl

theorem linesAll_renameAll (f : Nat → Nat) : ∀ (depth : Nat) (ns : List (Node κ σ)),
    linesAll depth (renameAll f ns) = linesAll depth ns
  | _, [] => rfl
  | depth, n :: ns => by rw [renameAll, linesAll, linesAll, lines_rename f depth n, linesAll_renameAll f depth ns]
end

end Node

/-- An observer is told no handles. -/
theorem sightingsOf_rename (f : Nat → Nat) (tracing : Bool) (log : List (Event κ σ)) :
    sightingsOf tracing (log.map (Event.rename f)) = sightingsOf tracing log := by
  have hsame : Event.sighting? ∘ Event.rename f = (Event.sighting? : Event κ σ → _) := by
    funext e
    cases e <;> rfl
  unfold sightingsOf
  rw [List.filterMap_map, hsame]

/-- A session does not use handles. -/
theorem Node.serve_rename (f : Nat → Nat) : ∀ (rs : List (Request κ σ)) (tracing : Bool) (n : Node κ σ),
    (n.rename f).serve tracing rs =
      ((n.serve tracing rs).1.map (Reply.rename f), (n.serve tracing rs).2.rename f)
  | [], _, _ => rfl
  | .tick scene :: rs, tracing, n => by
    simp only [serve, visit_rename, Visit.rename, sightingsOf_rename, serve_rename f rs]
    rfl
  | .reset :: rs, tracing, n => by
    simp only [serve, reset_rename, serve_rename f rs]
    rfl
  | .list :: rs, tracing, n => by
    simp only [serve, listing, lines_rename, serve_rename f rs]
    rfl
  | .watch tracing :: rs, _, n => by
    simp only [serve, serve_rename f rs]
    rfl

/-! ## Unfoldings -/

/-- The name and the role of the node at the end of a way down from a root, if there is one. -/
def Builder.unfolding (b : Builder κ σ) (root : Int) (way : List Nat) : Option (String × Role κ σ) :=
  (descend b.drafts root.toNat way).bind fun h => b.drafts[h]?.map fun d => (d.name, d.role)

theorem unfolding_eq {b : Builder κ σ} {root : Int} {way : List Nat} {h : Nat} {d : Draft κ σ}
    (hw : descend b.drafts root.toNat way = some h) (hd : b.drafts[h]? = some d) :
    b.unfolding root way = some (d.name, d.role) := by
  simp [Builder.unfolding, hw, hd]

/-- Where an unfolding has a node, a way leads to a draft. -/
theorem exists_of_unfolding {b : Builder κ σ} {root : Int} {way : List Nat} {x : String × Role κ σ}
    (h : b.unfolding root way = some x) : ∃ (g : Nat) (d : Draft κ σ), descend b.drafts root.toNat way = some g ∧
      b.drafts[g]? = some d ∧ (d.name, d.role) = x := by
  obtain ⟨g, hg, hd⟩ := Option.bind_eq_some_iff.1 h
  obtain ⟨d, hd, hx⟩ := Option.map_eq_some_iff.1 hd
  exact ⟨g, d, hg, hd, hx⟩

/-- Where two unfoldings agree, a way exists if it exists in the other one. -/
theorem exists_descend_of_unfolding_eq {b₁ b₂ : Builder κ σ} {root₁ root₂ : Int} {way₁ way₂ : List Nat}
    (hsame : b₂.unfolding root₂ way₂ = b₁.unfolding root₁ way₁) (hf₁ : Forest b₁.drafts) {r : Draft κ σ}
    (hr : b₁.drafts[root₁.toNat]? = some r) {h : Nat} (hw : descend b₁.drafts root₁.toNat way₁ = some h) :
    ∃ g, descend b₂.drafts root₂.toNat way₂ = some g := by
  have hd := List.getElem?_eq_getElem (descend_lt hf₁ hr hw)
  obtain ⟨g, -, hg, -⟩ := exists_of_unfolding (hsame.trans (unfolding_eq hw hd))
  exact ⟨g, hg⟩

/-- Two roots unfold to the same tree if some relation pairs them, and with each pair their children, such that paired
nodes have the same name and role. -/
theorem unfolding_congr {b₁ b₂ : Builder κ σ} {root₁ root₂ : Int} (R : Nat → Nat → Prop)
    (hroot : R root₁.toNat root₂.toNat) (hR : ∀ x y, R x y → ∃ d e : Draft κ σ, b₁.drafts[x]? = some d ∧
      b₂.drafts[y]? = some e ∧ d.name = e.name ∧ d.role = e.role ∧ List.Forall₂ R d.children e.children)
    (way : List Nat) : b₁.unfolding root₁ way = b₂.unfolding root₂ way := by
  unfold Builder.unfolding
  generalize root₁.toNat = x at *
  generalize root₂.toNat = y at *
  induction way generalizing x y with
  | nil =>
    obtain ⟨d, e, hd, he, hname, hrole, -⟩ := hR x y hroot
    simp [descend, hd, he, hname, hrole]
  | cons i way ih =>
    obtain ⟨d, e, hd, he, -, -, hchildren⟩ := hR x y hroot
    simp only [descend, hd, he, Option.bind_some]
    obtain ⟨hlength, hpairs⟩ := List.forall₂_iff_get.1 hchildren
    by_cases hi : i < d.children.length
    · have hi' : i < e.children.length := hlength ▸ hi
      rw [List.getElem?_eq_getElem hi, List.getElem?_eq_getElem hi', Option.bind_some, Option.bind_some]
      exact ih _ _ (hpairs i hi hi')
    · rw [List.getElem?_eq_none (Nat.not_lt.1 hi), List.getElem?_eq_none (hlength ▸ Nat.not_lt.1 hi)]
      rfl

namespace Node

theorem progress_rename (f : Nat → Nat) (n : Node κ σ) : (n.rename f).progress = n.progress := by
  cases n <;> rfl

theorem children_rename (f : Nat → Nat) (n : Node κ σ) : (n.rename f).children = n.children.map (rename f) := by
  cases n <;> simp [rename, children]

theorem Plays.rename {n : Node κ σ} {r : Role κ σ} (h : n.Plays r) (f : Nat → Nat) : (n.rename f).Plays r := by
  cases n with
  | leaf => exact h
  | composite => exact ⟨h.1, by simpa using h.2⟩
  | decorator => exact h

/-- Label, role, progress and children make a node. -/
theorem eq_of_plays {n m : Node κ σ} {r : Role κ σ} (hn : n.Plays r) (hm : m.Plays r) (hlabel : n.label = m.label)
    (hprogress : n.progress = m.progress) (hchildren : n.children = m.children) : n = m := by
  cases n with
  | leaf l act =>
    cases m with
    | leaf => simp_all [Plays, label]
    | composite | decorator => simp_all [Plays]
  | composite l rule keep cursor ns =>
    cases m with
    | composite => simp_all [Plays, label, progress, children]
    | leaf | decorator => simp_all [Plays]
  | decorator l wrap memory n =>
    cases m with
    | decorator => simp_all [Plays, label, progress, children]
    | leaf | composite => simp_all [Plays]

end Node

/-! ## Growth along the same unfolding -/

theorem mapM_rename {g₁ g₂ : Nat → Except Defect (Node κ σ)} {f : Nat → Nat} : ∀ {hs : List Nat}
    {ns ms : List (Node κ σ)}, (∀ c ∈ hs, ∀ n m, g₁ c = .ok n → g₂ (f c) = .ok m → m = n.rename f) →
      hs.mapM g₁ = .ok ns → (hs.map f).mapM g₂ = .ok ms → ms = ns.map (Node.rename f)
  | [], _, _, _, hn, hm => by
    cases hn
    cases hm
    rfl
  | h :: hs, _, _, hg, hleft, hright => by
    obtain ⟨n, ns, hn, hns, rfl⟩ := mapM_cons_eq_ok.1 hleft
    obtain ⟨m, ms, hm, hms, rfl⟩ := mapM_cons_eq_ok.1 hright
    rw [List.map_cons, hg h List.mem_cons_self n m hn hm,
      mapM_rename (fun c hc => hg c (List.mem_cons_of_mem _ hc)) hns hms]

section Same

variable {b₁ b₂ : Builder κ σ} {root₁ root₂ : Int}
  (hsame : ∀ way, b₁.unfolding root₁ way = b₂.unfolding root₂ way)
include hsame

/-- Below parentless roots that unfold to the same tree, handles at the ends of the same ways correspond. -/
theorem exists_renaming (hf₁ : Forest b₁.drafts) {r : Draft κ σ} (hr : b₁.drafts[root₁.toNat]? = some r)
    (hp : r.parent = none) : ∃ f : Nat → Nat, ∀ way h,
      descend b₁.drafts root₁.toNat way = some h → descend b₂.drafts root₂.toNat way = some (f h) := by
  obtain ⟨f, hf⟩ := exists_handles_of_ways hf₁ hr hp (descend b₂.drafts root₂.toNat)
  refine ⟨f, fun way h hw => ?_⟩
  obtain ⟨g, hg⟩ := exists_descend_of_unfolding_eq (hsame way).symm hf₁ hr hw
  rw [hf way h g hw hg]
  exact hg

variable (hf₂ : Forest b₂.drafts) {f : Nat → Nat}
  (hways : ∀ way h, descend b₁.drafts root₁.toNat way = some h → descend b₂.drafts root₂.toNat way = some (f h))
include hf₂ hways

/-- Corresponding nodes have corresponding children. -/
theorem children_correspond {way : List Nat} {h : Nat} {d e : Draft κ σ}
    (hw : descend b₁.drafts root₁.toNat way = some h) (hd : b₁.drafts[h]? = some d)
    (he : b₂.drafts[f h]? = some e) : e.children = d.children.map f := by
  refine List.ext_getElem? fun i => ?_
  rw [List.getElem?_map]
  cases hc : d.children[i]? with
  | some c =>
    have hstep := hways (way ++ [i]) c (descend_concat.2 ⟨h, d, hw, hd, hc⟩)
    obtain ⟨p, e', hp, he', hc'⟩ := descend_concat.1 hstep
    rw [hways way h hw] at hp
    cases hp
    rw [he] at he'
    cases he'
    exact hc'
  | none =>
    -- One child more on the right would be a node more in its unfolding.
    cases hc' : e.children[i]? with
    | none => rfl
    | some c' =>
      have hstep := descend_concat.2 ⟨f h, e, hways way h hw, he, hc'⟩
      have hdraft := List.getElem?_eq_getElem (hf₂.child_lt he (List.mem_of_getElem? hc'))
      obtain ⟨g, -, hg, -⟩ := exists_of_unfolding ((hsame _).trans (unfolding_eq hstep hdraft))
      obtain ⟨p, d', hp, hd', hc''⟩ := descend_concat.1 hg
      rw [hw] at hp
      cases hp
      rw [hd] at hd'
      cases hd'
      rw [hc] at hc''
      cases hc''

/-- Corresponding drafts grow into nodes that differ in handles only. -/
theorem grow_rename (hf₁ : Forest b₁.drafts) : ∀ {depth₁ depth₂ : Nat} {way : List Nat} {h : Nat} {n m : Node κ σ},
    descend b₁.drafts root₁.toNat way = some h → grow b₁.drafts depth₁ h = .ok n →
      grow b₂.drafts depth₂ (f h) = .ok m → m = n.rename f
  | 0, _, _, _, _, _, _, hn, _ => by cases hn
  | depth₁ + 1, depth₂, way, h, n, m, hw, hn, hm => by
    obtain ⟨k₁, d, hk₁, hd, hlabel₁, hplays₁, hprogress₁, hchildren₁⟩ := grow_cases hf₁ hn
    obtain ⟨k₂, e, hk₂, he, hlabel₂, hplays₂, hprogress₂, hchildren₂⟩ := grow_cases hf₂ hm
    obtain rfl : depth₁ = k₁ := Nat.succ.inj hk₁
    have hdraft : some (d.name, d.role) = some (e.name, e.role) := by
      rw [← unfolding_eq hw hd, hsame, unfolding_eq (hways way h hw) he]
    obtain ⟨hname, hrole⟩ := Prod.mk.inj (Option.some.inj hdraft)
    rw [children_correspond hsame hf₂ hways hw hd he] at hchildren₂
    refine Node.eq_of_plays hplays₂ (hrole ▸ hplays₁.rename f) ?_ ?_ ?_
    · rw [Node.label_rename, hlabel₁, hlabel₂, hname]
      rfl
    · rw [Node.progress_rename, hprogress₁, hprogress₂]
    · rw [Node.children_rename]
      refine mapM_rename (fun c hc n' m' hn' hm' => ?_) hchildren₁ hchildren₂
      obtain ⟨i, hi⟩ := List.mem_iff_getElem?.1 hc
      exact grow_rename hf₁ (descend_concat.2 ⟨h, d, hw, hd, hi⟩) hn' hm'

end Same

/-! ## Sessions below the same unfolding -/

/-- Sessions below two roots have the same replies, up to a renaming of handles under which nodes correspond that are
reached by the same way: in place and on the tree, there are the same statuses, scenes and events at corresponding
nodes, the observer is told the same, and the listings are the same texts. -/
def Builder.Alike (b₁ : Builder κ σ) (root₁ : Int) (b₂ : Builder κ σ) (root₂ : Int) : Prop :=
  ∃ f : Nat → Nat,
    (∀ way h, descend b₁.drafts root₁.toNat way = some h → descend b₂.drafts root₂.toNat way = some (f h)) ∧
    ∀ requests : List (Request κ σ), ∃ (replies : List (Reply κ σ)) (a₁ a₂ : Arena κ σ) (t₁ t₂ : Tree κ σ),
      (Arena.serve false requests).Yields (Arena.freeze b₁ root₁) replies a₁ ∧
      (Arena.serve false requests).Yields (Arena.freeze b₂ root₂) (replies.map (Reply.rename f)) a₂ ∧
      (Tree.freeze b₁ root₁).serve requests = .ok (replies, t₁) ∧
      (Tree.freeze b₂ root₂).serve requests = .ok (replies.map (Reply.rename f), t₂)

/-- Play below a checked root is decided by the ordered tree to which the root unfolds. The order of the calls, the
numbering of the nodes, the room that was left and the nodes that cannot be reached do not matter. -/
theorem unfolding_decides (capacity₁ capacity₂ : Nat) (cs₁ cs₂ : List (Call κ σ)) (root₁ root₂ : Int)
    (h₁ : (Builder.built capacity₁ cs₁).check root₁ = none) (h₂ : (Builder.built capacity₂ cs₂).check root₂ = none)
    (hsame : ∀ way, (Builder.built capacity₁ cs₁).unfolding root₁ way =
      (Builder.built capacity₂ cs₂).unfolding root₂ way) :
    (Builder.built capacity₁ cs₁).Alike root₁ (Builder.built capacity₂ cs₂) root₂ := by
  have hf₁ := Builder.forest_built capacity₁ cs₁
  have hf₂ := Builder.forest_built capacity₂ cs₂
  obtain ⟨n, hn⟩ := Mirrors.freeze hf₁ h₁
  obtain ⟨m, hm⟩ := Mirrors.freeze hf₂ h₂
  obtain ⟨r, hr, hp, hgrow₁⟩ := Builder.grow_of_plan hn.plan
  obtain ⟨-, -, -, hgrow₂⟩ := Builder.grow_of_plan hm.plan
  obtain ⟨f, hways⟩ := exists_renaming hsame hf₁ hr hp
  have hroot : f root₁.toNat = root₂.toNat := (Option.some.inj (hways [] _ rfl)).symm
  have hself : descend (Builder.built capacity₁ cs₁).drafts root₁.toNat [] = some root₁.toNat := rfl
  have hrename : m = n.rename f := grow_rename hsame hf₂ hways hf₁ hself hgrow₁ (hroot ▸ hgrow₂)
  refine ⟨f, hways, fun requests => ?_⟩
  obtain ⟨a₁, t₁, hserve₁, hyields₁, -⟩ := hn.serve requests
  obtain ⟨a₂, t₂, hserve₂, hyields₂, -⟩ := hm.serve requests
  rw [hrename, Node.serve_rename] at hserve₂ hyields₂
  exact ⟨_, a₁, a₂, t₁, t₂, hyields₁, hyields₂, hserve₁, hserve₂⟩

/-- A watch listens for as long as it takes, and sleeps if all is quiet. -/
def watchCalls : List (Call Unit Nat) :=
  [.composite .selector "watch" true, .leaf "listen" (some fun s => (if s.world < 2 then .running else .success, s)),
    .negate "alarm", .leaf "sleep" (some fun s => (.success, s)), .decorate 2 1, .attach 0 2, .attach 0 3]

/-- The same watch, put together the other way round; one more leaf is left over. -/
def watchCallsAround : List (Call Unit Nat) :=
  [.leaf "sleep" (some fun s => (.success, s)), .leaf "idle" none,
    .leaf "listen" (some fun s => (if s.world < 2 then .running else .success, s)), .composite .selector "watch" true,
    .negate "alarm", .attach 3 4, .decorate 4 2, .attach 3 0]

/-- Both are played alike, though no node has the same handle in both. -/
theorem unfolding_decides_watch :
    (Builder.built 4 watchCalls).check 0 = none ∧ (Builder.built 9 watchCallsAround).check 3 = none ∧
    (∀ way, (Builder.built 4 watchCalls).unfolding 0 way = (Builder.built 9 watchCallsAround).unfolding 3 way) ∧
    (Builder.built 4 watchCalls).Alike 0 (Builder.built 9 watchCallsAround) 3 := by
  have hsame : ∀ way, (Builder.built 4 watchCalls).unfolding 0 way =
      (Builder.built 9 watchCallsAround).unfolding 3 way := by
    refine unfolding_congr (fun x y => (x, y) ∈ [(0, 3), (1, 2), (2, 4), (3, 0)]) (by decide) fun x y hxy => ?_
    simp only [List.mem_cons, Prod.mk.injEq, List.not_mem_nil, or_false] at hxy
    rcases hxy with ⟨rfl, rfl⟩ | ⟨rfl, rfl⟩ | ⟨rfl, rfl⟩ | ⟨rfl, rfl⟩
    · exact ⟨_, _, rfl, rfl, rfl, rfl, .cons (by decide) (.cons (by decide) .nil)⟩
    · exact ⟨_, _, rfl, rfl, rfl, rfl, .nil⟩
    · exact ⟨_, _, rfl, rfl, rfl, rfl, .cons (by decide) .nil⟩
    · exact ⟨_, _, rfl, rfl, rfl, rfl, .nil⟩
  exact ⟨rfl, rfl, hsame, unfolding_decides 4 9 watchCalls watchCallsAround 0 3 rfl rfl hsame⟩

end Behaviour
