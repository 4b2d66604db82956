import Mathlib.Data.List.Basic
import Behaviour.Kind

/-!
# What a line tells

A line of a listing shows a node: how deep it is, its name, and its *face*, which is all else that is shown of it. The
name is written between quotes as it is, and may itself contain quotes, or what looks like the end of a line. A line
can be read all the same, if one cuts it at the right places (`cut_unique`, `cut_last_unique`): the blanks end where
the name of the kind begins, this ends at the next blank, and the name ends at the last quote, since there are none
after it (`Entry.eq_of_line`). A text of several lines can be read if no name goes over several of them
(`Entry.eq_of_text`).
-/

namespace Behaviour

/-! ## What a line shows -/

/-- What a listing shows of a node besides its depth and its name. -/
inductive Face where
  | leaf
  | composite (rule : Rule) (place count : Nat) (keep : Bool)
  | decorator (wrapping : Wrapping) (pending : Option Status) (done : Bool)
  deriving DecidableEq

namespace Face

def kind : Face → Kind
  | leaf => .leaf
  | composite rule _ _ _ => rule.kind
  | decorator _ _ _ => .decorator

/-- What a line shows after the name. -/
def remarks : Face → String
  | leaf => ""
  | composite _ place count keep =>
    " [cursor " ++ toString place ++ "/" ++ toString count ++ (if keep then ", keep_state" else "") ++ "]"
  | decorator wrapping pending done =>
    " [" ++ wrapping.name ++ (pending.elim "" (fun s => ", pending " ++ s.name) ++ if done then ", done" else "") ++ "]"

end Face

/-- What a listing shows of a node. -/
@[ext] structure Entry where
  depth : Nat
  name : String
  face : Face

/-- The line of an entry, up to its end. -/
def Entry.line (e : Entry) : String :=
  String.ofList (List.replicate (2 * e.depth) ' ') ++ e.face.kind.name ++ " \"" ++ e.name ++ "\"" ++ e.face.remarks

/-! ## Cutting texts -/

theorem all_bne_of_not_mem {c : Char} {u : List Char} (h : c ∉ u) : u.all (· != c) = true :=
  List.all_eq_true.2 fun _ ha => bne_iff_ne.2 (ne_of_mem_of_not_mem ha h)

/-- Two texts that are the same are cut at the same place, where they are cut at the end of a run of some characters. -/
theorem cut_unique {p : Char → Bool} {u v x y : List Char} (hu : u.all p = true) (hv : v.all p = true)
    (hx : x.head?.any p = false) (hy : y.head?.any p = false) (h : u ++ x = v ++ y) : u = v ∧ x = y := by
  have hcut : ∀ {u x : List Char}, u.all p = true → x.head?.any p = false → (u ++ x).takeWhile p = u := by
    intro u x hu hx
    rw [List.takeWhile_append_of_pos (List.all_eq_true.1 hu)]
    cases x with
    | nil => exact List.append_nil u
    | cons c x =>
      have hc : ¬p c = true := Bool.eq_false_iff.1 hx
      rw [List.takeWhile_cons_of_neg hc, List.append_nil]
  have hsame : u = v := by rw [← hcut hu hx, h, hcut hv hy]
  rw [hsame, List.append_cancel_left_eq] at h
  exact ⟨hsame, h⟩

/-- So they are where they are cut at the last occurrence of a character. -/
theorem cut_last_unique {c : Char} {u v x y : List Char} (hx : c ∉ x) (hy : c ∉ y) (h : u ++ c :: x = v ++ c :: y) :
    u = v ∧ x = y := by
  have hreverse : x.reverse ++ c :: u.reverse = y.reverse ++ c :: v.reverse := by
    simpa using congrArg List.reverse h
  have hother : ∀ {w : List Char}, c ∉ w → w.reverse.all (· != c) = true := by
    intro w hw
    rw [List.all_reverse, all_bne_of_not_mem hw]
  obtain ⟨hxy, huv⟩ := cut_unique (hother hx) (hother hy) (by simp) (by simp) hreverse
  exact ⟨List.reverse_injective (List.cons.inj huv).2, List.reverse_injective hxy⟩

/-- The name of a kind is a word. -/
theorem Kind.all_name (k : Kind) : k.name.toList.all (fun c => c != ' ' && c != '\n') = true := by
  cases k <;> decide

theorem Kind.eq_of_name {k l : Kind} (h : k.name.toList = l.name.toList) : k = l := by
  cases k <;> cases l <;> first | rfl | exact absurd h (by decide)

theorem Wrapping.eq_of_name {v w : Wrapping} (h : v.name.toList = w.name.toList) : v = w := by
  cases v <;> cases w <;> first | rfl | exact absurd h (by decide)

theorem all_isDigit_toString (n : Nat) : (toString n).toList.all Char.isDigit = true := by
  rw [Nat.toString_eq_repr, Nat.toList_repr, List.all_eq_true]
  exact fun _ => Nat.isDigit_of_mem_toDigits (by decide) (by decide)

theorem eq_of_toString_eq {m n : Nat} (h : (toString m).toList = (toString n).toList) : m = n := by
  rw [Nat.toString_eq_repr, Nat.toString_eq_repr, Nat.toList_repr, Nat.toList_repr] at h
  rw [← Nat.ofDigitChars_ten_toDigits (n := m), h, Nat.ofDigitChars_ten_toDigits]

namespace Face

/-- There are neither quotes nor ends of lines in the remarks. -/
theorem plain_remarks (f : Face) : f.remarks.toList.all (fun c => c != '"' && c != '\n') = true := by
  have hdigits : ∀ n : Nat, (toString n).toList.all (fun c => c != '"' && c != '\n') = true := by
    intro n
    refine List.all_eq_true.2 fun c hc => ?_
    have hdigit := List.all_eq_true.1 (all_isDigit_toString n) c hc
    rw [Bool.and_eq_true, bne_iff_ne, bne_iff_ne]
    constructor <;>
    · rintro rfl
      cases hdigit
  cases f with
  | leaf => rfl
  | composite rule place count keep =>
    simp only [remarks, String.toList_append, List.all_append, hdigits]
    cases keep <;> decide
  | decorator wrapping pending done =>
    simp only [remarks, String.toList_append, List.all_append]
    cases wrapping <;> rcases pending with _ | _ | _ | _ <;> cases done <;> decide

theorem composite_of_remarks {rule : Rule} {place place' count count' : Nat} {keep keep' : Bool}
    (h : (composite rule place count keep).remarks = (composite rule place' count' keep').remarks) :
    place = place' ∧ count = count' ∧ keep = keep' := by
  -- The first number ends at a slash, the second one at a comma or a bracket.
  have hslash : ∀ x : List Char, ("/".toList ++ x).head?.any Char.isDigit = false := fun _ => rfl
  have hend : ∀ keep : Bool,
      ((if keep then ", keep_state" else "").toList ++ "]".toList).head?.any Char.isDigit = false := by
    intro keep
    cases keep <;> rfl
  have h := congrArg String.toList h
  simp only [remarks, String.toList_append, List.append_assoc, List.append_cancel_left_eq] at h
  obtain ⟨hplace, h⟩ := cut_unique (all_isDigit_toString place) (all_isDigit_toString place') (hslash _) (hslash _) h
  rw [List.append_cancel_left_eq] at h
  obtain ⟨hcount, h⟩ := cut_unique (all_isDigit_toString count) (all_isDigit_toString count') (hend keep) (hend keep') h
  refine ⟨eq_of_toString_eq hplace, eq_of_toString_eq hcount, ?_⟩
  cases keep <;> cases keep' <;> first | rfl | exact absurd h (by decide)

theorem decorator_of_remarks {wrapping wrapping' : Wrapping} {pending pending' : Option Status} {done done' : Bool}
    (h : (decorator wrapping pending done).remarks = (decorator wrapping' pending' done').remarks) :
    wrapping = wrapping' ∧ pending = pending' ∧ done = done' := by
  have hname : ∀ w : Wrapping, w.name.toList.all Char.isUpper = true := by
    intro w
    cases w <;> rfl
  have hend : ∀ (pending : Option Status) (done : Bool), ((pending.elim "" fun s => ", pending " ++ s.name).toList ++
      ((if done then ", done" else "").toList ++ "]".toList)).head?.any Char.isUpper = false := by
    intro pending done
    rcases pending with _ | _ | _ | _ <;> cases done <;> rfl
  have h := congrArg String.toList h
  simp only [remarks, String.toList_append, List.append_assoc, List.append_cancel_left_eq] at h
  obtain ⟨hwrapping, h⟩ := cut_unique (hname wrapping) (hname wrapping') (hend pending done) (hend pending' done') h
  refine ⟨Wrapping.eq_of_name hwrapping, ?_⟩
  rcases pending with _ | _ | _ | _ <;> rcases pending' with _ | _ | _ | _ <;> cases done <;> cases done' <;>
    first | exact ⟨rfl, rfl⟩ | exact absurd h (by decide)

/-- The remarks tell everything but the kind. -/
theorem eq_of_remarks : ∀ {f g : Face}, f.kind = g.kind → f.remarks = g.remarks → f = g
  | leaf, leaf, _, _ => rfl
  | composite rule _ _ _, composite rule' _ _ _, hkind, h => by
    obtain rfl : rule = rule' := by cases rule <;> cases rule' <;> first | rfl | cases hkind
    obtain ⟨rfl, rfl, rfl⟩ := composite_of_remarks h
    rfl
  | decorator _ _ _, decorator _ _ _, _, h => by
    obtain ⟨rfl, rfl, rfl⟩ := decorator_of_remarks h
    rfl
  | leaf, composite rule _ _ _, hkind, _ | decorator _ _ _, composite rule _ _ _, hkind, _ => by
    cases rule <;> cases hkind
  | composite rule _ _ _, leaf, hkind, _ | composite rule _ _ _, decorator _ _ _, hkind, _ => by
    cases rule <;> cases hkind
  | leaf, decorator _ _ _, hkind, _ | decorator _ _ _, leaf, hkind, _ => by cases hkind

end Face

/-! ## Lines -/

namespace Entry

theorem toList_line (e : Entry) : e.line.toList = List.replicate (2 * e.depth) ' ' ++
    (e.face.kind.name.toList ++ ' ' :: ('"' :: (e.name.toList ++ '"' :: e.face.remarks.toList))) := by
  simp [line]

/-- A line begins with as many blanks as it is indented by. -/
theorem takeWhile_line (e : Entry) : e.line.toList.takeWhile (· == ' ') = List.replicate (2 * e.depth) ' ' := by
  rw [toList_line, List.takeWhile_append_of_pos (by simp)]
  cases e.face.kind <;> simp [Kind.name]

/-- Unless the name goes over several lines, the line is one. -/
theorem not_mem_line {e : Entry} (h : '\n' ∉ e.name.toList) : '\n' ∉ e.line.toList := by
  rw [toList_line]
  simp only [List.mem_append, List.mem_cons, not_or]
  refine ⟨by simp, fun hk => ?_, by decide, by decide, h, by decide, fun hr => ?_⟩
  · have := List.all_eq_true.1 e.face.kind.all_name _ hk
    cases this
  · have := List.all_eq_true.1 e.face.plain_remarks _ hr
    cases this

/-- A line tells its entry, whatever the name is. -/
theorem eq_of_line {e f : Entry} (h : e.line = f.line) : e = f := by
  have h := congrArg String.toList h
  have hblanks : List.replicate (2 * e.depth) ' ' = List.replicate (2 * f.depth) ' ' := by
    rw [← takeWhile_line, ← takeWhile_line, h]
  have hword : ∀ k : Kind, k.name.toList.all (· != ' ') = true := fun k =>
    List.all_eq_true.2 fun c hc => (Bool.and_eq_true_iff.1 (List.all_eq_true.1 k.all_name c hc)).1
  have hplain : ∀ f : Face, '"' ∉ f.remarks.toList := fun f hq => by
    have := List.all_eq_true.1 f.plain_remarks _ hq
    cases this
  rw [toList_line, toList_line, hblanks, List.append_cancel_left_eq] at h
  obtain ⟨hkind, h⟩ := cut_unique (hword _) (hword _) (by simp) (by simp) h
  obtain ⟨hname, hremarks⟩ := cut_last_unique (hplain _) (hplain _) (List.cons.inj (List.cons.inj h).2).2
  have hdepth : e.depth = f.depth := by
    have := congrArg List.length hblanks
    rw [List.length_replicate, List.length_replicate] at this
    omega
  have hface := Face.eq_of_remarks (Kind.eq_of_name hkind) (String.toList_inj.1 hremarks)
  exact Entry.ext hdepth (String.toList_inj.1 hname) hface

/-- The text of several lines. -/
def text (es : List Entry) : String := String.join (es.map fun e => e.line ++ "\n")

theorem toList_text_cons (e : Entry) (es : List Entry) :
    (text (e :: es)).toList = e.line.toList ++ '\n' :: (text es).toList := by
  simp [text]

theorem text_cons_ne_text_nil (e : Entry) (es : List Entry) : text (e :: es) ≠ text [] := by
  intro h
  have h := congrArg String.toList h
  rw [toList_text_cons] at h
  simp [text] at h

/-- A text tells its lines. -/
theorem eq_of_text : ∀ {es fs : List Entry}, (∀ e ∈ es, '\n' ∉ e.name.toList) → (∀ f ∈ fs, '\n' ∉ f.name.toList) →
    text es = text fs → es = fs
  | [], [], _, _, _ => rfl
  | [], f :: fs, _, _, h => absurd h.symm (text_cons_ne_text_nil f fs)
  | e :: es, [], _, _, h => absurd h (text_cons_ne_text_nil e es)
  | e :: es, f :: fs, hes, hfs, h => by
    obtain ⟨he, hes⟩ := List.forall_mem_cons.1 hes
    obtain ⟨hf, hfs⟩ := List.forall_mem_cons.1 hfs
    have h := congrArg String.toList h
    rw [toList_text_cons, toList_text_cons] at h
    obtain ⟨hline, hrest⟩ := cut_unique (all_bne_of_not_mem (not_mem_line he)) (all_bne_of_not_mem (not_mem_line hf))
      (by simp) (by simp) h
    rw [eq_of_line (String.toList_inj.1 hline), eq_of_text hes hfs (String.toList_inj.1 (List.cons.inj hrest).2)]

end Entry

end Behaviour
