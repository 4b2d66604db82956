import Behaviour.Proofs.Lines
import Behaviour.Proofs.Sweep

/-!
# Listings are faithful

Whoever reads a listing knows the tree. Each line tells what it shows (`Entry.eq_of_line`); what is deeper than a line
and follows it belongs to its node, hence the entries tell the shape of the tree (`Node.lookAll_of_entriesAll`). So two
listings are the same only if the two trees look the same (`Node.listing_eq_iff`). In place there is one line for each
slot that can be reached, in the order of the tour, and indented by two blanks for each step of the way to it
(`forall₂_tells`). `listing_faithful` says this of all sessions.
-/

namespace Behaviour

variable {κ σ : Type}

/-! ## Entries of nodes -/

/-- A result that is held back, if there is one. -/
def Memory.held? (m : Memory) : Option Status := if m.hasPending then some m.pending else none

namespace Node

def face : Node κ σ → Face
  | leaf _ _ => .leaf
  | composite _ rule keep cursor ns => .composite rule (cursor.getD 0) ns.length keep
  | decorator _ wrap m _ => .decorator wrap.wrapping m.held? m.done

def entry (depth : Nat) (n : Node κ σ) : Entry := ⟨depth, n.label.name, n.face⟩

mutual
/-- The entries of a node and all nodes below it. -/
def entries (depth : Nat) : Node κ σ → List Entry
  | leaf l a => [entry depth (leaf l a)]
  | composite l r k c ns => entry depth (composite l r k c ns) :: entriesAll (depth + 1) ns
  | decorator l w m n => entry depth (decorator l w m n) :: n.entries (depth + 1)

/-- The entries of several nodes at one depth. -/
def entriesAll (depth : Nat) : List (Node κ σ) → List Entry
  | [] => []
  | n :: ns => n.entries depth ++ entriesAll depth ns
end

theorem entries_eq (depth : Nat) (n : Node κ σ) :
    n.entries depth = n.entry depth :: entriesAll (depth + 1) n.children := by
  cases n <;> simp [entries, entriesAll, children]

theorem line_eq (depth : Nat) (n : Node κ σ) : n.line depth = (n.entry depth).line ++ "\n" := by
  cases n with
  | leaf => rfl
  | composite => rfl
  | decorator l wrap m n =>
    cases hp : m.hasPending <;> simp [line, entry, Entry.line, face, kind, Face.kind, remarks, Face.remarks,
      Memory.remarks, Memory.held?, hp]

theorem entriesAll_cons (depth : Nat) (n : Node κ σ) (ns : List (Node κ σ)) :
    entriesAll depth (n :: ns) = n.entry depth :: (entriesAll (depth + 1) n.children ++ entriesAll depth ns) := by
  rw [entriesAll, entries_eq, List.cons_append]

theorem linesAll_eq_map (ns : List (Node κ σ)) : ∀ depth : Nat,
    linesAll depth ns = (entriesAll depth ns).map fun e => e.line ++ "\n" := by
  induction ns using forest_induction with
  | nil => exact fun _ => rfl
  | cons n ns ihc ih =>
    intro depth
    rw [linesAll, lines_eq, entriesAll_cons, line_eq, ihc, ih]
    simp

/-- A listing is the text of the entries. -/
theorem listing_eq_text (n : Node κ σ) : n.listing = Entry.text (entriesAll 0 [n]) := by
  have hlines : n.lines 0 = linesAll 0 [n] := (List.append_nil _).symm
  rw [listing, hlines, linesAll_eq_map]
  rfl

/-! ## Shapes -/

/-- The name and the face of the node at the end of a way down from a node. -/
def look (n : Node κ σ) : List Nat → Option (String × Face)
  | [] => some (n.label.name, n.face)
  | i :: way => n.children[i]?.bind fun c => c.look way

/-- The same below several nodes, of which the way picks one first. -/
def lookAll (ns : List (Node κ σ)) : List Nat → Option (String × Face)
  | [] => none
  | i :: way => ns[i]?.bind fun n => n.look way

section Two

variable {κ' σ' : Type}

/-- First nodes that look the same have the same name and face, and their children look the same. -/
theorem lookAll_cons_iff {n : Node κ σ} {m : Node κ' σ'} {ns : List (Node κ σ)} {ms : List (Node κ' σ')} :
    lookAll (n :: ns) = lookAll (m :: ms) ↔
      (n.label.name = m.label.name ∧ n.face = m.face) ∧ lookAll n.children = lookAll m.children ∧
        lookAll ns = lookAll ms := by
  constructor
  · intro h
    have hfirst : ∀ way, n.look way = m.look way := fun way => congrFun h (0 :: way)
    refine ⟨by simpa [look] using hfirst [], ?_, ?_⟩
    · funext way
      cases way with
      | nil => rfl
      | cons i way => exact hfirst (i :: way)
    · funext way
      cases way with
      | nil => rfl
      | cons i way => exact congrFun h ((i + 1) :: way)
  · rintro ⟨⟨hname, hface⟩, hchildren, hrest⟩
    funext way
    rcases way with _ | ⟨_ | i, _ | ⟨j, way⟩⟩
    · rfl
    · simp [lookAll, look, hname, hface]
    · exact congrFun hchildren (j :: way)
    · exact congrFun hrest [i]
    · exact congrFun hrest (i :: j :: way)

/-- Nodes that look the same have the same entries. -/
theorem entriesAll_congr (ns : List (Node κ σ)) : ∀ {ms : List (Node κ' σ')} (depth : Nat), lookAll ns = lookAll ms →
    entriesAll depth ns = entriesAll depth ms := by
  induction ns using forest_induction with
  | nil =>
    intro ms depth h
    cases ms with
    | nil => rfl
    | cons m ms => cases congrFun h [0]
  | cons n ns ihc ih =>
    intro ms depth h
    cases ms with
    | nil => cases congrFun h [0]
    | cons m ms =>
      obtain ⟨⟨hname, hface⟩, hchildren, hrest⟩ := lookAll_cons_iff.1 h
      rw [entriesAll_cons, entriesAll_cons, ihc (depth + 1) hchildren, ih depth hrest]
      simp [entry, hname, hface]

/-- The entries of nodes at some depth are followed by none of the same depth or below. -/
theorem depth_head_lt {depth : Nat} {ns : List (Node κ σ)} {rest : List Entry}
    (hrest : ∀ e ∈ rest.head?, e.depth < depth) : ∀ e ∈ (entriesAll depth ns ++ rest).head?, e.depth < depth + 1 := by
  cases ns with
  | nil => exact fun e he => Nat.lt_succ_of_lt (hrest e he)
  | cons n ns =>
    rw [entriesAll_cons]
    rintro e ⟨⟩
    exact Nat.lt_succ_self depth

/-- Nodes look the same if they have the same entries: what is deeper belongs to what is before it. -/
theorem lookAll_of_entriesAll (ns : List (Node κ σ)) : ∀ {ms : List (Node κ' σ')} {depth : Nat}
    {rest rest' : List Entry}, (∀ e ∈ rest.head?, e.depth < depth) → (∀ e ∈ rest'.head?, e.depth < depth) →
    entriesAll depth ns ++ rest = entriesAll depth ms ++ rest' → lookAll ns = lookAll ms ∧ rest = rest' := by
  have hend : ∀ {κ σ : Type} {n : Node κ σ} {ns : List (Node κ σ)} {depth : Nat} {rest rest' : List Entry},
      (∀ e ∈ rest.head?, e.depth < depth) → rest = entriesAll depth (n :: ns) ++ rest' → False := by
    intro κ σ n ns depth rest rest' hrest h
    rw [h, entriesAll_cons] at hrest
    exact Nat.lt_irrefl depth (hrest _ rfl)
  induction ns using forest_induction with
  | nil =>
    intro ms depth rest rest' hrest hrest' h
    cases ms with
    | nil => exact ⟨rfl, h⟩
    | cons m ms => exact (hend hrest h).elim
  | cons n ns ihc ih =>
    intro ms depth rest rest' hrest hrest' h
    cases ms with
    | nil => exact (hend hrest' h.symm).elim
    | cons m ms =>
      rw [entriesAll_cons, entriesAll_cons, List.cons_append, List.cons_append, List.cons.injEq, List.append_assoc,
        List.append_assoc] at h
      obtain ⟨hself, hbelow⟩ := h
      obtain ⟨hchildren, hbehind⟩ := ihc (depth_head_lt hrest) (depth_head_lt hrest') hbelow
      obtain ⟨hothers, hend⟩ := ih hrest hrest' hbehind
      exact ⟨lookAll_cons_iff.2 ⟨⟨congrArg Entry.name hself, congrArg Entry.face hself⟩, hchildren, hothers⟩, hend⟩

theorem map_name_entriesAll (ns : List (Node κ σ)) : ∀ depth : Nat,
    (entriesAll depth ns).map Entry.name = (forest ns).map fun n => n.label.name := by
  induction ns using forest_induction with
  | nil => exact fun _ => rfl
  | cons n ns ihc ih =>
    intro depth
    rw [entriesAll_cons, List.map_cons, List.map_append, ihc, ih, forest, subtree_eq, forest_eq_flatMap]
    simp [entry]

/-- The name of the node is written on one line. -/
def NamedOnOneLine (n : Node κ σ) : Prop := '\n' ∉ n.label.name.toList

theorem All.names {n : Node κ σ} (h : n.All NamedOnOneLine) : ∀ e ∈ entriesAll 0 [n], '\n' ∉ e.name.toList := by
  intro e he
  have hname := List.mem_map_of_mem (f := Entry.name) he
  rw [map_name_entriesAll, forest, forest, List.append_nil] at hname
  obtain ⟨m, hm, heq⟩ := List.mem_map.1 hname
  rw [← heq]
  exact h m hm

/-- Listings are the same if and only if the trees look the same. -/
theorem listing_eq_iff {n : Node κ σ} {m : Node κ' σ'} (hn : n.All NamedOnOneLine) (hm : m.All NamedOnOneLine) :
    n.listing = m.listing ↔ ∀ way, n.look way = m.look way := by
  rw [listing_eq_text, listing_eq_text]
  constructor
  · intro h
    have hentries := Entry.eq_of_text hn.names hm.names h
    have hend : ∀ e ∈ ([] : List Entry).head?, e.depth < 0 := nofun
    obtain ⟨hlook, -⟩ := lookAll_of_entriesAll [n] hend hend (congrArg (· ++ []) hentries)
    exact fun way => congrFun hlook (0 :: way)
  · intro h
    rw [entriesAll_congr [n] 0]
    funext way
    rcases way with _ | ⟨_ | i, way⟩
    · rfl
    · exact h way
    · rfl

end Two

end Node

/-! ## In place -/

def Slot.face (s : Slot κ σ) : Face :=
  match s.draft.role with
  | .leaf _ => .leaf
  | .composite rule keep => .composite rule (s.progress.cursor.getD 0) s.draft.children.length keep
  | .decorator _ => .decorator s.draft.role.wrapping s.memory.held? s.memory.done

/-- A slot and the node that it shows have the same face. -/
theorem Slot.Shows.face_eq {s : Slot κ σ} {n : Node κ σ} (h : s.Shows n) : s.face = n.face := by
  have hrole := h.role
  have hchildren := congrArg List.length h.children
  have hcursor := congrArg Progress.cursor h.progress
  have hmemory : s.memory = n.progress.memory := congrArg Progress.memory h.progress
  rw [List.length_map] at hchildren
  cases n with
  | leaf l act => simp_all [Node.Plays, Slot.face, Node.face]
  | composite l rule keep cursor ns => simp_all [Node.Plays, Slot.face, Node.face, Node.children, Node.progress]
  | decorator l wrap m n => simp_all [Node.Plays, Slot.face, Node.face, Role.wrapping, Node.progress]

/-- The name and the face of the slot at the end of a way down. -/
def Arena.look (a : Arena κ σ) (ds : List (Draft κ σ)) (root : Nat) (way : List Nat) : Option (String × Face) :=
  (descend ds root way).bind fun h => a.slots[h]?.map fun s => (s.draft.name, s.face)

/-- A line tells of a slot: it is the line of the slot, and indented by two blanks for each step of the way to it. -/
def Arena.Tells (a : Arena κ σ) (ds : List (Draft κ σ)) (root h : Nat) (line : String) : Prop :=
  ∃ way s, descend ds root way = some h ∧ a.slots[h]? = some s ∧ line ++ "\n" = s.line way.length ∧
    line.toList.takeWhile (· == ' ') = List.replicate (2 * way.length) ' '

section Held

variable {ds : List (Draft κ σ)} {a : Arena κ σ} (hdrafts : a.slots.map Slot.draft = ds) {n : Node κ σ}
include hdrafts

/-- An arena looks like the node that it holds. -/
theorem look_eq_of_heldIn : ∀ (way : List Nat) {n : Node κ σ}, n.HeldIn a.slots →
    a.look ds n.label.handle way = n.look way
  | [], n, h => by
    obtain ⟨s, hs, hshows⟩ := h.self
    simp [Arena.look, descend, hs, Node.look, hshows.name, hshows.face_eq]
  | i :: way, n, h => by
    obtain ⟨d, hd, -, hchildren, -⟩ := h.exists_draft hdrafts n.mem_subtree_self
    simp only [Arena.look, descend, hd, Option.bind_some, hchildren, List.getElem?_map, Node.look]
    cases hc : n.children[i]? with
    | none => rfl
    | some c => exact look_eq_of_heldIn way (h.child (List.mem_of_getElem? hc))

/-- A way to a held node goes on to its children. -/
theorem descend_child_of_heldIn (h : n.HeldIn a.slots) {root : Nat} {way : List Nat}
    (hway : descend ds root way = some n.label.handle) {i : Nat} {c : Node κ σ} (hc : n.children[i]? = some c) :
    descend ds root (way ++ [i]) = some c.label.handle := by
  obtain ⟨d, hd, -, hchildren, -⟩ := h.exists_draft hdrafts n.mem_subtree_self
  refine descend_concat.2 ⟨_, d, hway, hd, ?_⟩
  rw [hchildren, List.getElem?_map, hc]
  rfl

omit hdrafts in
theorem tells_of_heldIn (h : n.HeldIn a.slots) {root : Nat} {way : List Nat}
    (hway : descend ds root way = some n.label.handle) :
    a.Tells ds root n.label.handle (n.entry way.length).line := by
  obtain ⟨s, hs, hshows⟩ := h.self
  refine ⟨way, s, hway, hs, ?_, Entry.takeWhile_line _⟩
  rw [hshows.line_eq, Node.line_eq]

/-- The lines of the children of a node, from the place `k` on, and of all nodes below them. -/
theorem forall₂_tells_of_heldIn (root : Nat) (ns : List (Node κ σ)) : ∀ (above : List Nat) (k : Nat),
    (∀ n ∈ ns, n.HeldIn a.slots) →
    (∀ i n, ns[i]? = some n → descend ds root (above ++ [k + i]) = some n.label.handle) →
    List.Forall₂ (a.Tells ds root) (ns.flatMap Node.handles)
      ((Node.entriesAll (above.length + 1) ns).map Entry.line) := by
  induction ns using Node.forest_induction with
  | nil => exact fun _ _ _ _ => .nil
  | cons n ns ihc ih =>
    intro above k hheld hways
    obtain ⟨hn, hns⟩ := List.forall_mem_cons.1 hheld
    have hway := hways 0 n rfl
    have hself := tells_of_heldIn hn hway
    have hbelow := ihc (above ++ [k]) 0 (fun c hc => hn.child hc) fun i c hc => by
      rw [Nat.zero_add]
      exact descend_child_of_heldIn hdrafts hn hway hc
    have hrest := ih above (k + 1) hns fun i m hm => by
      rw [Nat.add_assoc, Nat.add_comm 1 i]
      exact hways (i + 1) m hm
    simp only [List.length_append, List.length_singleton] at hself hbelow
    rw [List.flatMap_cons, Node.handles_eq, Node.entriesAll_cons, List.map_cons, List.map_append, List.cons_append]
    exact .cons hself (List.rel_append hbelow hrest)

/-- The lines of a held node and of all nodes below it. -/
theorem forall₂_tells (h : n.HeldIn a.slots) :
    List.Forall₂ (a.Tells ds n.label.handle) n.handles ((Node.entriesAll 0 [n]).map Entry.line) := by
  have hway : descend ds n.label.handle [] = some n.label.handle := rfl
  have hself := tells_of_heldIn h hway
  have hbelow := forall₂_tells_of_heldIn hdrafts n.label.handle n.children [] 0 (fun c hc => h.child hc)
    fun i c hc => by
      rw [Nat.zero_add]
      exact descend_child_of_heldIn hdrafts h hway hc
  rw [Node.handles_eq, Node.entriesAll_cons, Node.entriesAll, List.append_nil]
  exact .cons hself hbelow

end Held

/-! ## Every session -/

/-- The names of all nodes below a root are written on one line each. -/
def Builder.NamedOnOneLine (b : Builder κ σ) (root : Int) : Prop :=
  ∀ h d, Reaches b.drafts root.toNat h → b.drafts[h]? = some d → '\n' ∉ d.name.toList

/-- After these requests below a root the listing is this text, in place and on the tree. It has one line for each node
that can be reached, in the order of the tour through them. -/
def Builder.Lists (b : Builder κ σ) (root : Int) (requests : List (Request κ σ)) (a : Arena κ σ) (text : String) :
    Prop :=
  ∃ (replies : List (Reply κ σ)) (t : Tree κ σ) (order : List Nat) (lines : List String),
    (Arena.serve false requests).Yields (Arena.freeze b root) replies a ∧
    (Tree.freeze b root).serve requests = .ok (replies, t) ∧
    Arena.listing.Yields a text a ∧ t.listing = text ∧
    Tour b.drafts [root.toNat] order ∧ order.Nodup ∧ (∀ h, h ∈ order ↔ Reaches b.drafts root.toNat h) ∧
    text = String.join (lines.map (· ++ "\n")) ∧ (∀ line ∈ lines, '\n' ∉ line.toList) ∧
    List.Forall₂ (a.Tells b.drafts root.toNat) order lines

/-- Below a checked root, where names are written on one line each. -/
theorem exists_lists {b : Builder κ σ} {root : Int} (hf : Forest b.drafts) (hcheck : b.check root = none)
    (hnames : b.NamedOnOneLine root) (requests : List (Request κ σ)) : ∃ (a : Arena κ σ) (n : Node κ σ),
      b.Lists root requests a n.listing ∧ n.All Node.NamedOnOneLine ∧
      ∀ way, a.look b.drafts root.toNat way = n.look way := by
  obtain ⟨replies, a, t, n, hyields, hserve, h, hdrafts, hroot, hreaches⟩ := exists_session hf hcheck requests
  have hplain : n.All Node.NamedOnOneLine := by
    intro m hm
    obtain ⟨d, hd, hname, -⟩ := h.held.exists_draft hdrafts hm
    rw [Node.NamedOnOneLine, ← hname]
    exact hnames _ d ((hreaches _).1 (List.mem_map_of_mem hm)) hd
  have htour := tour_cons hdrafts h.held (tour_children hdrafts n h.held) .nil
  have hlines := forall₂_tells hdrafts h.held
  rw [List.append_nil, hroot] at htour
  rw [hroot] at hlines
  refine ⟨a, n, ⟨replies, t, n.handles, (Node.entriesAll 0 [n]).map Entry.line, hyields, hserve, ?_, h.listing_eq,
    htour, h.nodup, hreaches, ?_, ?_, hlines⟩, hplain, fun way => ?_⟩
  · rw [← h.listing_eq]
    exact h.listing
  · rw [Node.listing_eq_text, List.map_map]
    rfl
  · intro line hline
    obtain ⟨e, he, rfl⟩ := List.mem_map.1 hline
    exact Entry.not_mem_line (hplain.names e he)
  · rw [← hroot]
    exact look_eq_of_heldIn hdrafts way h.held

/-- Listings are faithful. Below checked roots, after any requests, two listings are the same if and only if the same
ways lead down from both roots, and to nodes that have the same name and the same face. It is enough that no name goes
over several lines. Each listing has one line for each node that can be reached, in the order of the tour, and indented
by twice its depth. -/
theorem listing_faithful {κ₁ σ₁ κ₂ σ₂ : Type} (capacity₁ capacity₂ : Nat) (cs₁ : List (Call κ₁ σ₁))
    (cs₂ : List (Call κ₂ σ₂)) (root₁ root₂ : Int) (requests₁ : List (Request κ₁ σ₁)) (requests₂ : List (Request κ₂ σ₂))
    (hcheck₁ : (Builder.built capacity₁ cs₁).check root₁ = none)
    (hcheck₂ : (Builder.built capacity₂ cs₂).check root₂ = none)
    (hnames₁ : (Builder.built capacity₁ cs₁).NamedOnOneLine root₁)
    (hnames₂ : (Builder.built capacity₂ cs₂).NamedOnOneLine root₂) :
    ∃ (a₁ : Arena κ₁ σ₁) (a₂ : Arena κ₂ σ₂) (text₁ text₂ : String),
      (Builder.built capacity₁ cs₁).Lists root₁ requests₁ a₁ text₁ ∧
      (Builder.built capacity₂ cs₂).Lists root₂ requests₂ a₂ text₂ ∧
      (text₁ = text₂ ↔ ∀ way, a₁.look (Builder.built capacity₁ cs₁).drafts root₁.toNat way =
        a₂.look (Builder.built capacity₂ cs₂).drafts root₂.toNat way) := by
  obtain ⟨a₁, n₁, hlists₁, hplain₁, hlook₁⟩ :=
    exists_lists (Builder.forest_built capacity₁ cs₁) hcheck₁ hnames₁ requests₁
  obtain ⟨a₂, n₂, hlists₂, hplain₂, hlook₂⟩ :=
    exists_lists (Builder.forest_built capacity₂ cs₂) hcheck₂ hnames₂ requests₂
  refine ⟨a₁, a₂, _, _, hlists₁, hlists₂, ?_⟩
  rw [Node.listing_eq_iff hplain₁ hplain₂]
  exact forall_congr' fun way => by rw [hlook₁, hlook₂]

/-- A signal that is given late, under a name that ends like a line. -/
def lateSignal : List (Call Unit Nat) :=
  [.leaf "fire\" [cursor 0/1]" (some fun s => (if s.world = 0 then .running else .success, s)), .delayed 0]

/-- A signal that is a sequence with one part. -/
def shortSignal : List (Call Nat Unit) :=
  [.composite .sequence "delay\" [DELAY, pending RUNNING]" true, .leaf "fire" (some fun s => (.running, s)),
    .attach 0 1]

/-- The late signal holds something back when it is listed, the other one has been reset. -/
theorem listing_faithful_signals : (Builder.built 2 lateSignal).check 1 = none ∧
    (Builder.built 3 shortSignal).check 0 = none ∧ (Builder.built 2 lateSignal).NamedOnOneLine 1 ∧
    (Builder.built 3 shortSignal).NamedOnOneLine 0 ∧
    ∃ (a₁ : Arena Unit Nat) (a₂ : Arena Nat Unit) (text₁ text₂ : String),
      (Builder.built 2 lateSignal).Lists 1 [.tick ⟨(), 0⟩] a₁ text₁ ∧
      (Builder.built 3 shortSignal).Lists 0 [.tick ⟨0, ()⟩, .reset] a₂ text₂ ∧
      (text₁ = text₂ ↔ ∀ way, a₁.look (Builder.built 2 lateSignal).drafts (1 : Int).toNat way =
        a₂.look (Builder.built 3 shortSignal).drafts (0 : Int).toNat way) := by
  have hnames₁ : (Builder.built 2 lateSignal).NamedOnOneLine 1 := by
    intro h d _ hd
    rcases h with _ | _ | h <;> cases hd <;> decide
  have hnames₂ : (Builder.built 3 shortSignal).NamedOnOneLine 0 := by
    intro h d _ hd
    rcases h with _ | _ | h <;> cases hd <;> decide
  exact ⟨rfl, rfl, hnames₁, hnames₂,
    listing_faithful 2 3 lateSignal shortSignal 1 0 [.tick ⟨(), 0⟩] [.tick ⟨0, ()⟩, .reset] rfl rfl hnames₁ hnames₂⟩

end Behaviour
