import Mathlib.Data.List.Infix
import PlaneCalculus.Text.Search

/-! Texts cut at a character: the words that occur in them, and their runs. -/

namespace PlaneCalculus.Text

variable {l v w : List Char} {c : Char}

/-! ### Words -/

lemma prefix_cons_of_notMem (hc : c ∉ l) (h : l <+: c :: w) : l = [] := by
  rcases List.prefix_cons_iff.mp h with rfl | ⟨t, rfl, -⟩
  · rfl
  · exact absurd List.mem_cons_self hc

/-- A word lies on one side of a character that it does not have. -/
lemma infix_append_cons_iff (hc : c ∉ l) : l <:+: v ++ c :: w ↔ l <:+: v ∨ l <:+: w := by
  rw [List.infix_append_iff_ne_nil, List.infix_cons_iff]
  constructor
  · rintro (h | (h | h) | ⟨l₁, l₂, -, hne, rfl, -, h⟩)
    · exact .inl h
    · exact .inl (prefix_cons_of_notMem hc h ▸ List.nil_infix)
    · exact .inr h
    · exact absurd (prefix_cons_of_notMem (fun hmem => hc (List.mem_append_right l₁ hmem)) h) hne
  · rintro (h | h)
    · exact .inl h
    · exact .inr (.inl (.inr h))

/-! ### Runs -/

variable {p : Char → Bool}

lemma runsFrom_cut {c : Char} (hc : p c = false) (run v w : List Char) :
    runsFrom p run (v ++ c :: w) = runsFrom p run v ++ runsFrom p [] w := by
  induction v generalizing run with
  | nil => simp [runsFrom, hc]
  | cons d v ih =>
    rw [List.cons_append, runsFrom, runsFrom]
    split
    · exact ih _
    · rw [ih, List.append_assoc]

lemma runsFrom_all {w : List Char} (h : ∀ c ∈ w, p c = true) (run : List Char) :
    runsFrom p run w = closeRun (w.reverse ++ run) := by
  induction w generalizing run with
  | nil => rfl
  | cons c w ih =>
    rw [List.forall_mem_cons] at h
    rw [runsFrom, if_pos h.1, ih h.2, List.reverse_cons, List.append_assoc]
    rfl

lemma runs_all {x : String} (hx : x.toList ≠ []) (h : ∀ c ∈ x.toList, p c = true) : runs p x = [x] := by
  rw [runs, runsFrom_all h, closeRun, if_neg (by simpa using hx)]
  simp

lemma runsFrom_none (h : ∀ c ∈ w, p c = false) (run : List Char) : runsFrom p run w = closeRun run := by
  induction w generalizing run with
  | nil => rfl
  | cons c w ih =>
    rw [List.forall_mem_cons] at h
    rw [runsFrom, if_neg (by simp [h.1]), ih h.2]
    exact List.append_nil _

lemma runsFrom_isolated (hv : ∀ c ∈ v, p c = false) (hc : p c = true) (hw : ∀ d ∈ w, p d = false) :
    runsFrom p [] (v ++ c :: w) = [String.ofList [c]] := by
  induction v with
  | nil =>
    rw [List.nil_append, runsFrom, if_pos hc, runsFrom_none hw]
    rfl
  | cons d v ih =>
    rw [List.forall_mem_cons] at hv
    rw [List.cons_append, runsFrom, if_neg (by simp [hv.1]), ih hv.2]
    rfl

end PlaneCalculus.Text
