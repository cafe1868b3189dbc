import PlaneCalculus.Proofs.Formula.Constraint

/-! Constraints written as equations. The sides of an equation are read as they are read alone and as they are read in
brackets, so that an equation stands for the difference of its sides; a second equality sign is refused. -/

open PlaneCalculus.Expr

namespace PlaneCalculus.Formula

variable {l r : SumForm} {v w : List Char}

/-! ### The sides of an equation -/

/-- A text is cut at its first equality sign in one way only. -/
lemma equation_append_iff : Equation l r (v ++ '=' :: w) ↔ Sentence l v ∧ Sentence r w := by
  constructor
  · rintro ⟨v', w', htext, hl, hr⟩
    obtain ⟨rfl, -, rfl⟩ := (List.append_cons_inj_of_notMem hl.unequated hr.unequated).mp htext.symm
    exact ⟨hl, hr⟩
  · rintro ⟨hl, hr⟩
    exact ⟨v, w, rfl, hl, hr⟩

lemma Equation.count_eq_one {text : List Char} (h : Equation l r text) : text.count '=' = 1 := by
  obtain ⟨v, w, rfl, hl, hr⟩ := h
  have hleft : v.count '=' = 0 := List.count_eq_zero.mpr hl.unequated
  have hright : w.count '=' = 0 := List.count_eq_zero.mpr hr.unequated
  rw [List.count_append, List.count_cons_self, hleft, hright]

lemma parseEquation_eq_ok_iff (text : String) : parseEquation text = .ok (l, r) ↔ Equation l r text.toList := by
  unfold parseEquation Reply.toExcept
  constructor
  · intro h
    split at h
    · next c hc =>
      cases h
      exact equation_sound hc
    · cases h
  · intro h
    obtain ⟨c, hc⟩ := equation_reads h
    rw [hc]

lemma readConstraint_malformed {text : String} (hmark : '=' ∈ text.toList) (h : ∀ l r, ¬ Equation l r text.toList) :
    ∃ place, ∀ o, readConstraint o text = .error (.malformed place) := by
  cases hp : parseEquation text with
  | ok sides => exact absurd ((parseEquation_eq_ok_iff text).mp hp) (h sides.1 sides.2)
  | error place =>
    refine ⟨place, fun o => ?_⟩
    unfold readConstraint
    rw [if_pos (by simpa using hmark), hp]
    rfl

/-! ### The difference of two texts -/

def SumForm.grouped (s : SumForm) : ProductForm := .single (.bare (.single (.group s)))

def SumForm.minus (l r : SumForm) : SumForm := .chain (.single l.grouped) .minus r.grouped

lemma Sentence.grouped {s : SumForm} (h : Sentence s v) : s.grouped.Derives ('(' :: (v ++ [')'])) := by
  obtain ⟨g₁, w, g₂, rfl, hg₁, hs, hg₂⟩ := h
  exact ⟨g₁, w, g₂, by simp, hg₁, hs, hg₂⟩

lemma Sentence.minus (hl : Sentence l v) (hr : Sentence r w) :
    Sentence (l.minus r) ('(' :: (v ++ ')' :: ' ' :: '-' :: ' ' :: '(' :: (w ++ [')']))) := by
  have hgap : Blank [' '] := by simp [Blank, isBlank]
  have hchain : (l.minus r).Derives ('(' :: (v ++ ')' :: ' ' :: '-' :: ' ' :: '(' :: (w ++ [')']))) :=
    ⟨'(' :: (v ++ [')']), [' '], [' '], '(' :: (w ++ [')']), by simp [Sign.char], hl.grouped, hgap, hgap, hr.grouped⟩
  exact ⟨[], _, [], by simp, by simp [Blank], hchain, by simp [Blank]⟩

lemma minus_toExpr (l r : SumForm) (o : Overflow) : (l.minus r).toExpr o = (do
    let a ← l.toExpr o
    let b ← r.toExpr o
    Expr.sub o a b) := by
  simp only [SumForm.minus, SumForm.grouped, SumForm.toExpr, ProductForm.toExpr, SignedForm.toExpr, PowerForm.toExpr,
    AtomForm.toExpr]
  simp

/-! ### Reading an equation -/

lemma read_eq_ok {text : String} {o : Overflow} {e : Expr} (h : read o text = .ok e) :
    ∃ s, Sentence s text.toList ∧ s.toExpr o = .ok e := by
  unfold read at h
  split at h
  · next s hs => exact ⟨s, (parse_eq_ok_iff text s).mp hs, h⟩
  · cases h

lemma readConstraint_eq_ok {text : String} {o : Overflow} {e : Expr} (hmark : '=' ∈ text.toList)
    (h : readConstraint o text = .ok e) :
    ∃ l r, Equation l r text.toList ∧ (∃ a, l.toExpr o = .ok a) ∧ ∃ b, r.toExpr o = .ok b := by
  unfold readConstraint at h
  rw [if_pos (by simpa using hmark)] at h
  split at h
  · next l r hsides =>
    have hequation := (parseEquation_eq_ok_iff text).mp hsides
    cases hl : l.toExpr o with
    | error failure =>
      rw [hl] at h
      cases h
    | ok a =>
      cases hr : r.toExpr o with
      | error failure =>
        rw [hl, hr] at h
        cases h
      | ok b => exact ⟨l, r, hequation, ⟨a, hl⟩, b, hr⟩
  · cases h

/-- An equation is read exactly when both of its sides are, and then as the difference of the sides in brackets. A side with
an equality sign of its own is read neither alone nor here. A second equality sign is a mistake in the text, at a place that
does not depend on the policy for numbers. -/
theorem readConstraint_difference :
    (∀ l r : String,
      ((∃ e, readConstraint .approximate (l ++ "=" ++ r) = .ok e) ↔
        (∃ a, read .approximate l = .ok a) ∧ ∃ b, read .approximate r = .ok b) ∧
      ∀ o, (∃ a, read o l = .ok a) → (∃ b, read o r = .ok b) →
        readConstraint o (l ++ "=" ++ r) = read o ("(" ++ l ++ ") - (" ++ r ++ ")")) ∧
    ∀ text : String, 2 ≤ text.toList.count '=' → ∃ place, ∀ o, readConstraint o text = .error (.malformed place) := by
  have hequation (l r : String) : (l ++ "=" ++ r).toList = l.toList ++ '=' :: r.toList := by simp
  have hdifference (l r : String) : ("(" ++ l ++ ") - (" ++ r ++ ")").toList =
      '(' :: (l.toList ++ ')' :: ' ' :: '-' :: ' ' :: '(' :: (r.toList ++ [')'])) := by simp
  refine ⟨fun l r => ⟨⟨?_, ?_⟩, ?_⟩, fun text htwice => ?_⟩
  · rintro ⟨e, he⟩
    obtain ⟨s, t, hsides, ⟨a, ha⟩, b, hb⟩ := readConstraint_eq_ok (by simp [hequation]) he
    obtain ⟨hs, ht⟩ := equation_append_iff.mp (hequation l r ▸ hsides)
    exact ⟨⟨a, read_sentence hs _ ▸ ha⟩, b, read_sentence ht _ ▸ hb⟩
  · rintro ⟨⟨a, ha⟩, b, hb⟩
    obtain ⟨s, hs, hsa⟩ := read_eq_ok ha
    obtain ⟨t, ht, htb⟩ := read_eq_ok hb
    obtain ⟨e, he⟩ := failsAt_consistent (Expr.sub_consistent a b)
    refine ⟨e, ?_⟩
    rw [readConstraint_equation (hequation l r ▸ equation_append_iff.mpr ⟨hs, ht⟩), hsa, htb]
    exact he
  · rintro o ⟨a, ha⟩ ⟨b, hb⟩
    obtain ⟨s, hs, -⟩ := read_eq_ok ha
    obtain ⟨t, ht, -⟩ := read_eq_ok hb
    rw [readConstraint_equation (hequation l r ▸ equation_append_iff.mpr ⟨hs, ht⟩),
      read_sentence (hdifference l r ▸ hs.minus ht), minus_toExpr]
  · have hmark : '=' ∈ text.toList := List.count_pos_iff.mp (by omega)
    refine readConstraint_malformed hmark fun l r h => ?_
    have := h.count_eq_one
    omega

theorem readConstraint_difference_hyperbola :
    readConstraint .approximate ("x*y" ++ "=" ++ "1") = read .approximate ("(" ++ "x*y" ++ ") - (" ++ "1" ++ ")") ∧
      ∃ place, ∀ o, readConstraint o "x=y=1" = .error (.malformed place) := by
  have hl : read .approximate "x*y" = .ok (.times [.symbol "x", .symbol "y"]) := by cbv
  have hr : read .approximate "1" = .ok (.int 1) := by cbv
  exact ⟨(readConstraint_difference.1 "x*y" "1").2 .approximate ⟨_, hl⟩ ⟨_, hr⟩,
    readConstraint_difference.2 "x=y=1" (by decide)⟩

end PlaneCalculus.Formula
