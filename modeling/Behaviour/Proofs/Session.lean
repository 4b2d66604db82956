import Behaviour.Proofs.Soundness

/-!
# Sessions

A *session* is everything that a caller does with a tree once it is frozen: ticks, resets, listings, and turning the
observer on or off, in any order, each with its reply. It can be had with the tree (`Tree.serve`) and in place
(`Arena.serve`), where a listing goes from slot to slot by handles as play does. `Mirrors.serve` says that both give
the same replies, and that these depend on nothing but the root with its progress and the observer (`Node.serve`).
-/

namespace Behaviour

variable {κ σ : Type}

open Play

/-! ## Requests and replies -/

/-- What a caller can ask of a tree. -/
inductive Request (κ σ : Type) where
  | tick (scene : Scene κ σ)
  | reset
  | list
  | watch (tracing : Bool)

/-- What a caller is told. -/
inductive Reply (κ σ : Type) where
  /-- How a tick ended: its status, the scene it left, what happened, and what the observer was told. -/
  | turned (status : Status) (scene : Scene κ σ) (log : List (Event κ σ)) (sightings : List (Sighting κ σ))
  | listed (text : String)
  | done

/-- What an observer is told of what happened; nothing if there is none. -/
def sightingsOf (tracing : Bool) (log : List (Event κ σ)) : List (Sighting κ σ) :=
  if tracing then log.filterMap Event.sighting? else []

/-- The replies to several requests in order, and the root after them. -/
def Node.serve (tracing : Bool) (n : Node κ σ) : List (Request κ σ) → List (Reply κ σ) × Node κ σ
  | [] => ([], n)
  | .tick scene :: rs =>
    let v := n.visit scene
    let (replies, n) := v.node.serve tracing rs
    (.turned v.status v.scene v.log (sightingsOf tracing v.log) :: replies, n)
  | .reset :: rs =>
    let (replies, n) := n.reset.serve tracing rs
    (.done :: replies, n)
  | .list :: rs =>
    let (replies, n') := n.serve tracing rs
    (.listed n.listing :: replies, n')
  | .watch tracing :: rs =>
    let (replies, n) := n.serve tracing rs
    (.done :: replies, n)

/-- The replies to several requests in order, and the tree after them. -/
def Tree.serve (t : Tree κ σ) : List (Request κ σ) → Except Fault (List (Reply κ σ) × Tree κ σ)
  | [] => .ok ([], t)
  | .tick scene :: rs => do
    let turn ← t.tick scene
    let (replies, t) ← turn.tree.serve rs
    return (.turned turn.status turn.scene turn.log turn.sightings :: replies, t)
  | .reset :: rs => do
    let (replies, t) ← t.reset.serve rs
    return (.done :: replies, t)
  | .list :: rs => do
    let (replies, t') ← t.serve rs
    return (.listed t.listing :: replies, t')
  | .watch tracing :: rs => do
    let (replies, t) ← (t.watch tracing).serve rs
    return (.done :: replies, t)

/-! ## Listings in place -/

/-- What a line shows of a slot after its name. -/
def Slot.remarks (s : Slot κ σ) : String :=
  match s.draft.role with
  | .leaf _ => ""
  | .composite _ keep =>
    " [cursor " ++ toString (s.progress.cursor.getD 0) ++ "/" ++ toString s.draft.children.length ++
      (if keep then ", keep_state" else "") ++ "]"
  | .decorator _ => " [" ++ s.draft.role.wrapping.name ++ s.memory.remarks ++ "]"

/-- The line of a slot at a depth. -/
def Slot.line (depth : Nat) (s : Slot κ σ) : String :=
  String.ofList (List.replicate (2 * depth) ' ') ++ s.draft.role.kind.name ++ " \"" ++ s.draft.name ++ "\"" ++
    s.remarks ++ "\n"

/-- Handles of slots that are to be listed, all at one depth. -/
structure Outline where
  depth : Nat
  handles : List Nat

/-- The lines of the slots of an outline, and of all slots below them. -/
def Outline.lines (o : Outline) : Play κ σ (List String) :=
  match o.handles with
  | [] => return []
  | h :: hs => do
    let s ← fetch h
    let below ← Outline.mk (o.depth + 1) s.draft.children |>.lines
    let rest ← Outline.mk o.depth hs |>.lines
    return s.line o.depth :: (below ++ rest)
partial_fixpoint

namespace Arena

/-- The listing of the slots below the root, or the defect that forbids play. -/
def listing : Play κ σ String := do
  let a ← get
  match a.defect with
  | some d => return "invalid tree: " ++ d.name ++ "\n"
  | none =>
    if a.root < 0 then throw .strayHandle
    else do
      let lines ← Outline.lines ⟨0, [a.root.toNat]⟩
      return String.join lines

/-- The replies to several requests in order, in place. -/
def serve (tracing : Bool) : List (Request κ σ) → Play κ σ (List (Reply κ σ))
  | [] => return []
  | .tick scene :: rs => do
    let before ← get
    let answer ← tick scene
    let after ← get
    let log := after.log.drop before.log.length
    let replies ← serve tracing rs
    return .turned answer.1 answer.2 log (sightingsOf tracing log) :: replies
  | .reset :: rs => do
    modify reset
    let replies ← serve tracing rs
    return .done :: replies
  | .list :: rs => do
    let text ← listing
    let replies ← serve tracing rs
    return .listed text :: replies
  | .watch tracing :: rs => do
    let replies ← serve tracing rs
    return .done :: replies

end Arena

namespace Node

theorem lines_eq (depth : Nat) (n : Node κ σ) :
    n.lines depth = n.line depth :: linesAll (depth + 1) n.children := by
  cases n <;> simp [lines, linesAll, children]

end Node

/-- A slot and the node that it shows have the same line. -/
theorem Slot.Shows.line_eq {s : Slot κ σ} {n : Node κ σ} (h : s.Shows n) (depth : Nat) :
    s.line depth = n.line depth := by
  have hname := h.name
  have hrole := h.role
  have hchildren := congrArg List.length h.children
  have hcursor := congrArg Progress.cursor h.progress
  have hmemory : s.memory = n.progress.memory := congrArg Progress.memory h.progress
  rw [List.length_map] at hchildren
  cases n with
  | leaf l act => simp_all [Node.Plays, Slot.line, Slot.remarks, Node.line, Node.remarks, Node.kind, Role.kind]
  | composite l rule keep cursor ns =>
    simp_all [Node.Plays, Slot.line, Slot.remarks, Node.line, Node.remarks, Node.kind, Role.kind, Node.children,
      Node.progress]
  | decorator l wrap m n =>
    simp_all [Node.Plays, Slot.line, Slot.remarks, Node.line, Node.remarks, Node.kind, Role.kind, Role.wrapping,
      Node.progress]

section Lines

variable {a : Arena κ σ}

theorem yields_lines_nil (depth : Nat) : (Outline.lines ⟨depth, []⟩).Yields a [] a := by
  rw [Outline.lines.eq_def]
  exact yields_pure _ _

/-- A node that is held is listed in place with what is below it, before what comes after it. -/
theorem yields_lines_cons {n : Node κ σ} {hs : List Nat} {depth : Nat} {rest : List String} (hn : n.HeldIn a.slots)
    (hbelow : (Outline.lines ⟨depth + 1, n.children.map fun m => m.label.handle⟩).Yields a
      (Node.linesAll (depth + 1) n.children) a)
    (hrest : (Outline.lines ⟨depth, hs⟩).Yields a rest a) :
    (Outline.lines ⟨depth, n.label.handle :: hs⟩).Yields a (n.lines depth ++ rest) a := by
  obtain ⟨s, hs, hshow⟩ := hn.self
  rw [Outline.lines.eq_def, Node.lines_eq, ← hshow.line_eq]
  refine (yields_fetch hs).bind ?_
  rw [hshow.children]
  exact hbelow.bind (hrest.bind (yields_pure _ _))

mutual
/-- The children of a node that is held are listed in place as they are listed below the node. -/
theorem yields_lines_children : ∀ n : Node κ σ, n.HeldIn a.slots → ∀ depth,
    (Outline.lines ⟨depth, n.children.map fun m => m.label.handle⟩).Yields a (Node.linesAll depth n.children) a
  | .leaf _ _, _, depth => yields_lines_nil depth
  | .composite _ _ _ _ ns, hn, depth => yields_lines ns (fun _ hm => hn.child hm) depth
  | .decorator _ _ _ n, hn, depth => by
    have hchild := hn.child List.mem_cons_self
    exact yields_lines_cons hchild (yields_lines_children n hchild (depth + 1)) (yields_lines_nil depth)

theorem yields_lines : ∀ ns : List (Node κ σ), (∀ n ∈ ns, n.HeldIn a.slots) → ∀ depth,
    (Outline.lines ⟨depth, ns.map fun n => n.label.handle⟩).Yields a (Node.linesAll depth ns) a
  | [], _, depth => yields_lines_nil depth
  | n :: ns, hns, depth => by
    have hn := hns n List.mem_cons_self
    exact yields_lines_cons hn (yields_lines_children n hn (depth + 1))
      (yields_lines ns (fun m hm => hns m (List.mem_cons_of_mem _ hm)) depth)
end

end Lines

/-! ## Both tell the same -/

namespace Mirrors

variable {a : Arena κ σ} {t : Tree κ σ} {n : Node κ σ}

theorem listing_eq (h : Mirrors a t n) : t.listing = n.listing := by
  simp only [Tree.listing, h.plan]

/-- A listing in place is the listing of the tree. -/
theorem listing (h : Mirrors a t n) : Arena.listing.Yields a t.listing a := by
  refine (yields_get a).bind ?_
  have hlines := yields_lines [n] (fun m hm => List.mem_singleton.1 hm ▸ h.held) 0
  simp only [List.map_singleton, Node.linesAll, List.append_nil] at hlines
  simp only [h.defect, if_neg (Int.not_lt.2 h.root_nonneg), h.root, h.listing_eq]
  exact hlines.bind (yields_pure _ _)

/-- The observer does not matter to the mirror. -/
theorem watch (h : Mirrors a t n) (tracing : Bool) : Mirrors a (t.watch tracing) n :=
  ⟨h.plan, h.defect, h.root_nonneg, h.root, h.held, h.nodup, h.aside, h.ticks, h.lastStatus⟩

/-- A session in place has the replies of a session with the tree. It keeps the mirror and all structure. -/
theorem serve : ∀ (rs : List (Request κ σ)) {a : Arena κ σ} {t : Tree κ σ} {n : Node κ σ}, Mirrors a t n →
    ∃ (a' : Arena κ σ) (t' : Tree κ σ), t.serve rs = .ok ((n.serve t.tracing rs).1, t') ∧
      (Arena.serve t.tracing rs).Yields a (n.serve t.tracing rs).1 a' ∧
      Mirrors a' t' (n.serve t.tracing rs).2 ∧ a'.slots.map Slot.draft = a.slots.map Slot.draft ∧
      t'.drafts = t.drafts ∧ t'.root = t.root
  | [], a, t, n, h => ⟨a, t, rfl, yields_pure _ _, h, rfl, rfl, rfl⟩
  | .tick scene :: rs, a, t, n, h => by
    obtain ⟨turn, a₁, hturn, hyield, hlog, hdrafts, h₁⟩ := h.tick scene
    obtain ⟨a', t', hserve, hyields, h', hdrafts', hframe⟩ := serve rs h₁
    rw [Tree.serve, hturn]
    rw [Tree.tick_of_plan h.plan] at hturn
    cases hturn
    refine ⟨a', t', ?_, ?_, h', hdrafts'.trans hdrafts, hframe⟩
    · simp only [bind, Except.bind, hserve]
      rfl
    · refine (yields_get a).bind (hyield.bind ((yields_get a₁).bind (hyields.bind ?_)))
      rw [hlog, List.drop_left]
      exact yields_pure _ _
  | .reset :: rs, a, t, n, h => by
    obtain ⟨a', t', hserve, hyields, h', hdrafts, hframe⟩ := serve rs h.reset
    refine ⟨a', t', ?_, (yields_modify _ _).bind (hyields.bind (yields_pure _ _)), h', hdrafts.trans ?_, hframe⟩
    · simp only [Tree.serve, bind, Except.bind, hserve]
      rfl
    · rw [Arena.reset, List.map_map]
      rfl
  | .list :: rs, a, t, n, h => by
    obtain ⟨a', t', hserve, hyields, h', hdrafts, hframe⟩ := serve rs h
    have hlisting := h.listing
    rw [h.listing_eq] at hlisting
    refine ⟨a', t', ?_, hlisting.bind (hyields.bind (yields_pure _ _)), h', hdrafts, hframe⟩
    simp only [Tree.serve, bind, Except.bind, hserve, h.listing_eq]
    rfl
  | .watch tracing :: rs, a, t, n, h => by
    obtain ⟨a', t', hserve, hyields, h', hdrafts, hframe⟩ := serve rs (h.watch tracing)
    refine ⟨a', t', ?_, hyields.bind (yields_pure _ _), h', hdrafts, hframe⟩
    simp only [Tree.serve, bind, Except.bind, hserve]
    rfl

end Mirrors

namespace Node

/-- A session changes nothing but progress. -/
theorem reset_serve : ∀ (rs : List (Request κ σ)) (tracing : Bool) (n : Node κ σ),
    (n.serve tracing rs).2.reset = n.reset
  | [], _, _ => rfl
  | .tick scene :: rs, tracing, n => (reset_serve rs tracing _).trans (reset_visit n scene)
  | .reset :: rs, tracing, n => (reset_serve rs tracing _).trans (reset_reset n)
  | .list :: rs, tracing, n => reset_serve rs tracing n
  | .watch tracing :: rs, _, n => reset_serve rs tracing n

end Node

/-- Below a checked root every session goes to its end. It leaves an arena that mirrors a tree of all nodes that can be
reached. -/
theorem exists_session {b : Builder κ σ} {root : Int} (hf : Forest b.drafts) (hcheck : b.check root = none)
    (requests : List (Request κ σ)) : ∃ (replies : List (Reply κ σ)) (a : Arena κ σ) (t : Tree κ σ) (n : Node κ σ),
      (Arena.serve false requests).Yields (Arena.freeze b root) replies a ∧
      (Tree.freeze b root).serve requests = .ok (replies, t) ∧ Mirrors a t n ∧ a.slots.map Slot.draft = b.drafts ∧
      n.label.handle = root.toNat ∧ ∀ x, x ∈ n.handles ↔ Reaches b.drafts root.toNat x := by
  obtain ⟨n₀, hfresh⟩ := Mirrors.freeze hf hcheck
  obtain ⟨a, t, hserve, hyields, h, hdrafts, -⟩ := hfresh.serve requests
  -- A session keeps the labels.
  have hreset := Node.reset_serve requests (Tree.freeze b root).tracing n₀
  refine ⟨_, a, t, _, hyields, hserve, h, hdrafts.trans (Arena.map_draft_freeze b root), ?_, fun x => ?_⟩
  · rw [Node.label_eq_of_reset_eq hreset]
    exact hfresh.root.symm
  · rw [← Node.handles_reset, hreset, Node.handles_reset]
    exact mem_handles_iff_reaches hf hfresh.plan x

end Behaviour
