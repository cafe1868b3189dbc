import PlaneCalculus.Expr.Latex
import PlaneCalculus.Proofs.Formula.Printing
import PlaneCalculus.Proofs.Text.Search

/-! Numerals in typeset texts. A blank between two digits is lost when the text is set, so that the digits run together;
where it is elsewhere nothing depends on it. -/

namespace PlaneCalculus.Latex

open Decimal (isDigit)

variable {v w : List Char} {c : Char}

/-- A digit, a blank and a digit follow each other. -/
def Fused (w : List Char) : Prop := ∃ c d, isDigit c = true ∧ isDigit d = true ∧ [c, ' ', d] <:+: w

def EndsInDigit (w : List Char) : Prop := w.getLast?.any isDigit = true

def StartsWithDigit (w : List Char) : Prop := w.head?.any isDigit = true

instance : DecidablePred EndsInDigit := fun w => inferInstanceAs (Decidable (w.getLast?.any isDigit = true))

instance : DecidablePred StartsWithDigit := fun w => inferInstanceAs (Decidable (w.head?.any isDigit = true))

/-! ### Texts put together -/

lemma isDigit_blank : isDigit ' ' = false := by decide

lemma not_fused_of_unspaced (h : ' ' ∉ w) : ¬ Fused w := by
  rintro ⟨c, d, -, -, hpart⟩
  exact h (hpart.subset (by simp))

@[simp] lemma not_fused_nil : ¬ Fused [] := not_fused_of_unspaced nofun

lemma fused_append_cons (hd : isDigit c = false) (hs : c ≠ ' ') : Fused (v ++ c :: w) ↔ Fused v ∨ Fused w := by
  have hnot (a b : Char) (ha : isDigit a = true) (hb : isDigit b = true) : c ∉ [a, ' ', b] := by
    simp only [List.mem_cons, List.not_mem_nil, or_false, not_or]
    refine ⟨?_, hs, ?_⟩
    · rintro rfl
      exact absurd ha (by simp [hd])
    · rintro rfl
      exact absurd hb (by simp [hd])
  constructor
  · rintro ⟨a, b, ha, hb, h⟩
    exact ((Text.infix_append_cons_iff (hnot a b ha hb)).mp h).imp (⟨a, b, ha, hb, ·⟩) (⟨a, b, ha, hb, ·⟩)
  · rintro (⟨a, b, ha, hb, h⟩ | ⟨a, b, ha, hb, h⟩)
    · exact ⟨a, b, ha, hb, (Text.infix_append_cons_iff (hnot a b ha hb)).mpr (.inl h)⟩
    · exact ⟨a, b, ha, hb, (Text.infix_append_cons_iff (hnot a b ha hb)).mpr (.inr h)⟩

lemma fused_cons (hd : isDigit c = false) : Fused (c :: w) ↔ Fused w := by
  constructor
  · rintro ⟨a, b, ha, hb, h⟩
    rcases List.infix_cons_iff.mp h with h | h
    · obtain ⟨rfl, -⟩ := List.cons_prefix_cons.mp h
      exact absurd ha (by simp [hd])
    · exact ⟨a, b, ha, hb, h⟩
  · rintro ⟨a, b, ha, hb, h⟩
    exact ⟨a, b, ha, hb, List.infix_cons h⟩

lemma endsInDigit_iff : EndsInDigit w ↔ ∃ v c, w = v ++ [c] ∧ isDigit c = true := by
  simp only [EndsInDigit, Option.any_eq_true, List.getLast?_eq_some_iff]
  constructor
  · rintro ⟨c, ⟨v, rfl⟩, hc⟩
    exact ⟨v, c, rfl, hc⟩
  · rintro ⟨v, c, rfl, hc⟩
    exact ⟨c, ⟨v, rfl⟩, hc⟩

lemma startsWithDigit_iff : StartsWithDigit w ↔ ∃ c v, w = c :: v ∧ isDigit c = true := by
  cases w <;> simp [StartsWithDigit]

@[simp] lemma startsWithDigit_cons : StartsWithDigit (c :: w) ↔ isDigit c = true := by simp [StartsWithDigit]

lemma startsWithDigit_append (h : v ≠ []) : StartsWithDigit (v ++ w) ↔ StartsWithDigit v := by
  rw [StartsWithDigit, List.head?_append_of_ne_nil v h]
  rfl

lemma endsInDigit_append (h : w ≠ []) : EndsInDigit (v ++ w) ↔ EndsInDigit w := by
  rw [EndsInDigit, List.getLast?_append_of_ne_nil v h]
  rfl

@[simp] lemma endsInDigit_singleton : EndsInDigit [c] ↔ isDigit c = true := by simp [EndsInDigit]

@[simp] lemma endsInDigit_append_cons : EndsInDigit (v ++ c :: w) ↔ EndsInDigit (c :: w) :=
  endsInDigit_append (List.cons_ne_nil c w)

@[simp] lemma endsInDigit_cons_cons {d : Char} : EndsInDigit (c :: d :: w) ↔ EndsInDigit (d :: w) :=
  endsInDigit_append_cons (v := [c])

@[simp] lemma endsInDigit_cons_append_cons {d : Char} : EndsInDigit (c :: (v ++ d :: w)) ↔ EndsInDigit (d :: w) :=
  endsInDigit_append_cons (v := c :: v)

/-- Across a blank digits meet when the text before ends in one and the text after starts with one. -/
@[simp] lemma fused_append_blank : Fused (v ++ ' ' :: w) ↔ Fused v ∨ Fused w ∨ EndsInDigit v ∧ StartsWithDigit w := by
  constructor
  · rintro ⟨a, b, ha, hb, h⟩
    have hna : a ≠ ' ' := fun heq => absurd ha (by simp [heq, isDigit_blank])
    have hnb : b ≠ ' ' := fun heq => absurd hb (by simp [heq, isDigit_blank])
    rcases List.infix_append_iff_ne_nil.mp h with h | h | ⟨l₁, l₂, hl₁, hl₂, heq, h₁, h₂⟩
    · exact .inl ⟨a, b, ha, hb, h⟩
    · rcases List.infix_cons_iff.mp h with h | h
      · exact absurd (List.cons_prefix_cons.mp h).1 hna
      · exact .inr (.inl ⟨a, b, ha, hb, h⟩)
    · -- the cut is after the first digit, for the text after it starts with a blank
      obtain ⟨x, l₂, rfl⟩ := List.exists_cons_of_ne_nil hl₂
      obtain ⟨rfl, hrest⟩ := List.cons_prefix_cons.mp h₂
      rcases l₁ with _ | ⟨x, _ | ⟨y, _ | ⟨z, l₁⟩⟩⟩
      · exact absurd rfl hl₁
      · obtain ⟨rfl, rfl⟩ : a = x ∧ l₂ = [b] := by simpa [eq_comm] using heq
        obtain ⟨u, rfl⟩ := h₁
        obtain ⟨u', rfl⟩ := hrest
        exact .inr (.inr ⟨by simpa using ha, by simpa using hb⟩)
      · exact absurd (by simpa using heq) fun h : a = x ∧ ' ' = y ∧ b = ' ' ∧ l₂ = [] => hnb h.2.2.1
      · simp at heq
  · rintro (⟨a, b, ha, hb, h⟩ | ⟨a, b, ha, hb, h⟩ | ⟨hv, hw⟩)
    · exact ⟨a, b, ha, hb, List.infix_append_of_infix_left h⟩
    · exact ⟨a, b, ha, hb, List.infix_append_of_infix_right (List.infix_cons h)⟩
    · obtain ⟨u, a, rfl, ha⟩ := endsInDigit_iff.mp hv
      obtain ⟨b, u', rfl, hb⟩ := startsWithDigit_iff.mp hw
      exact ⟨a, b, ha, hb, u, u', by simp⟩

/-! ### Numbers -/

open Formula (digits toList_toString_nat toList_toString_int)

lemma isDigit_digits {n : Nat} : ∀ c ∈ digits n, isDigit c = true := by
  intro c hc
  have hd := Nat.isDigit_of_mem_toDigits (by decide) (by decide) hc
  simpa [Char.isDigit, isDigit, Char.le_def] using hd

lemma digits_ne_nil (n : Nat) : digits n ≠ [] := Nat.toDigits_ne_nil

lemma endsInDigit_of_forall (hne : w ≠ []) (h : ∀ c ∈ w, isDigit c = true) : EndsInDigit w := by
  rw [EndsInDigit, List.getLast?_eq_some_getLast hne]
  exact h _ (List.getLast_mem hne)

lemma startsWithDigit_of_forall (hne : w ≠ []) (h : ∀ c ∈ w, isDigit c = true) : StartsWithDigit w := by
  obtain ⟨c, w, rfl⟩ := List.exists_cons_of_ne_nil hne
  exact startsWithDigit_cons.mpr (h c List.mem_cons_self)

lemma unspaced_of_forall (h : ∀ c ∈ w, isDigit c = true) : ' ' ∉ w := fun hmem =>
  absurd (h ' ' hmem) (by simp [isDigit_blank])

/-- A text that has digits at its end and no blanks. -/
structure Closing (w : List Char) : Prop where
  ends : EndsInDigit w
  unspaced : ' ' ∉ w

lemma closing_of_forall (hne : w ≠ []) (h : ∀ c ∈ w, isDigit c = true) : Closing w :=
  ⟨endsInDigit_of_forall hne h, unspaced_of_forall h⟩

lemma Closing.ne_nil (h : Closing w) : w ≠ [] := by
  rintro rfl
  exact absurd h.ends (by simp [EndsInDigit])

lemma Closing.append (h : Closing w) (hv : ' ' ∉ v) : Closing (v ++ w) :=
  ⟨(endsInDigit_append h.ne_nil).mpr h.ends, by simp [hv, h.unspaced]⟩

lemma closing_digits (n : Nat) : Closing (digits n) := closing_of_forall (digits_ne_nil n) isDigit_digits

lemma closing_int (k : Int) : Closing (toString k).toList := by
  rw [toList_toString_int]
  split
  · exact (closing_digits _).append (v := ['-']) (by decide)
  · exact closing_digits _

lemma startsWithDigit_int (k : Int) : StartsWithDigit (toString k).toList ↔ 0 ≤ k := by
  rw [toList_toString_int]
  split
  · next hk =>
    rw [startsWithDigit_cons]
    exact ⟨fun h => absurd h (by decide), fun h => by omega⟩
  · next hk => exact ⟨fun _ => by omega, fun _ => startsWithDigit_of_forall (digits_ne_nil _) isDigit_digits⟩

lemma closing_inPlace {ds : List Char} (hne : ds ≠ []) (hds : ∀ c ∈ ds, isDigit c = true) (p : Int) :
    Closing (Decimal.inPlace ds p).toList := by
  have hspace (n : Nat) : ' ' ∉ (Decimal.zeros n).toList := by simp [Decimal.zeros]
  unfold Decimal.inPlace
  split
  · simp only [String.toList_append, String.toList_ofList]
    exact (closing_of_forall hne hds).append (by simp [hspace])
  · split
    · simp only [String.toList_append, String.toList_ofList]
      refine Closing.append ⟨by decide, by decide⟩ ?_
      simp [hspace, unspaced_of_forall hds]
    · next hp hlen =>
      simp only [String.toList_append, String.toList_ofList]
      have hdrop : ds.drop p.toNat ≠ [] := by
        rw [Ne, List.drop_eq_nil_iff]
        exact hlen
      refine (closing_of_forall hdrop fun c hc => hds c (List.mem_of_mem_drop hc)).append ?_
      have htake : ' ' ∉ ds.take p.toNat := unspaced_of_forall fun c hc => hds c (List.mem_of_mem_take hc)
      simp [htake]

lemma closing_withExponent {ds : List Char} (hds : ∀ c ∈ ds, isDigit c = true) (p : Int) :
    Closing (Decimal.withExponent ds p).toList := by
  have hmantissa : ' ' ∉ ds := unspaced_of_forall hds
  unfold Decimal.withExponent
  simp only [String.toList_append]
  refine (closing_int _).append ?_
  rcases ds with _ | ⟨d, _ | ⟨e, ds⟩⟩
  · decide
  · simpa using hmantissa
  · simp only [List.mem_cons, not_or] at hmantissa
    simp [hmantissa]

lemma closing_magnitude (l : Decimal.Layout) (v : Float) : Closing (l.magnitude v).toList := by
  unfold Decimal.Layout.magnitude
  dsimp only
  split
  · exact ⟨by decide, by decide⟩
  · split
    · exact closing_inPlace (digits_ne_nil _) isDigit_digits _
    · exact closing_withExponent isDigit_digits _

/-- A finite double has a digit at the end of its text. -/
lemma closing_realText {v : Float} (hnan : v.isNaN = false) (hinf : v.isInf = false) : Closing (realText v).toList := by
  unfold realText
  rw [if_neg (ne_true_of_eq_false hnan), if_neg (ne_true_of_eq_false hinf)]
  split
  · exact closing_int _
  · unfold Decimal.Layout.render
    rw [if_neg (ne_true_of_eq_false hnan)]
    simp only [hinf, Bool.false_eq_true, if_false]
    split
    · rw [String.toList_append]
      exact (closing_magnitude _ _).append (by decide)
    · exact closing_magnitude _ _

end PlaneCalculus.Latex
