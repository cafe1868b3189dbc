import PlaneCalculus.Proofs.Formula.Parts

/-! Constraints as texts. A constraint is an equation when it has an equality sign, which no formula has; the difference of
the sides is then what a formula alone would be. -/

open PlaneCalculus.Expr

namespace PlaneCalculus.Formula

open Calc Reply Cursor

/-! ### Formulas have no equality sign -/

/-- No equality sign occurs. -/
abbrev Unequated (w : List Char) : Prop := '=' ∉ w

lemma unequated_append {v w : List Char} : Unequated (v ++ w) ↔ Unequated v ∧ Unequated w := by
  simp [Unequated, not_or]

lemma unequated_cons {c : Char} {w : List Char} : Unequated (c :: w) ↔ c ≠ '=' ∧ Unequated w := by
  simp [Unequated, not_or, eq_comm]

lemma unequated_of_forall {p : Char → Bool} (hp : p '=' = false) {w : List Char} (h : ∀ c ∈ w, p c = true) :
    Unequated w := by
  intro hmem
  rw [h _ hmem] at hp
  cases hp

lemma Blank.unequated {w : List Char} (h : Blank w) : Unequated w := unequated_of_forall (by decide) h

lemma Digits.unequated {w : List Char} (h : Digits w) : Unequated w := unequated_of_forall (by decide) h

lemma IsName.unequated {w : List Char} (h : IsName w) : Unequated w := by
  obtain ⟨c, cs, rfl, hc, hcs⟩ := h
  refine unequated_cons.mpr ⟨?_, unequated_of_forall (by decide) hcs⟩
  rintro rfl
  exact absurd hc (by decide)

lemma ExponentText.unequated {k : Option Int} {w : List Char} (h : ExponentText k w) : Unequated w := by
  cases k with
  | none =>
    rw [h]
    exact nofun
  | some k =>
    obtain ⟨e, sign, digits, rfl, he, -, hd, hs⟩ := h
    have hsign : Unequated sign := by
      rcases hs with ⟨rfl | rfl, -⟩ | ⟨rfl, -⟩ <;> simp [Unequated]
    have hexp : e ≠ '=' := by rcases he with rfl | rfl <;> decide
    exact unequated_cons.mpr ⟨hexp, unequated_append.mpr ⟨hsign, hd.unequated⟩⟩

lemma NumberText.unequated {l : Decimal.Literal} {w : List Char} (h : NumberText l w) : Unequated w := by
  obtain ⟨x, rfl, hw, hf, -, hx⟩ := h
  have hfraction : Unequated (fractionText l.fraction) := by
    cases hfrac : l.fraction with
    | none => exact nofun
    | some digits =>
      rw [hfrac] at hf
      exact unequated_cons.mpr ⟨by decide, hf.unequated⟩
  exact unequated_append.mpr ⟨hw.unequated, unequated_append.mpr ⟨hfraction, hx.unequated⟩⟩

mutual

lemma SumForm.unequated : (s : SumForm) → {w : List Char} → s.Derives w → Unequated w
  | .single t, _, h => t.unequated h
  | .chain s sign t, _, ⟨_, _, _, _, hw, hs, hg₁, hg₂, ht⟩ => by
    have hsign : sign.char ≠ '=' := by cases sign <;> decide
    subst hw
    simp only [unequated_append, unequated_cons]
    exact ⟨s.unequated hs, hg₁.unequated, hsign, hg₂.unequated, t.unequated ht⟩

lemma ProductForm.unequated : (p : ProductForm) → {w : List Char} → p.Derives w → Unequated w
  | .single u, _, h => u.unequated h
  | .chain p op u, _, ⟨_, _, _, _, hw, hp, hg₁, hg₂, hu⟩ => by
    have hop : op.char ≠ '=' := by cases op <;> decide
    subst hw
    simp only [unequated_append, unequated_cons]
    exact ⟨p.unequated hp, hg₁.unequated, hop, hg₂.unequated, u.unequated hu⟩

lemma SignedForm.unequated : (u : SignedForm) → {w : List Char} → u.Derives w → Unequated w
  | .bare p, _, h => p.unequated h
  | .signed sign u, _, ⟨_, _, hw, hg, hu⟩ => by
    have hsign : sign.char ≠ '=' := by cases sign <;> decide
    subst hw
    exact unequated_cons.mpr ⟨hsign, unequated_append.mpr ⟨hg.unequated, u.unequated hu⟩⟩

lemma PowerForm.unequated : (p : PowerForm) → {w : List Char} → p.Derives w → Unequated w
  | .single a, _, h => a.unequated h
  | .raised a u, _, ⟨_, _, op, _, _, hw, ha, hg₁, hop, hg₂, hu⟩ => by
    have hmark : Unequated op := by rcases hop with rfl | rfl <;> decide
    subst hw
    simp only [unequated_append]
    exact ⟨a.unequated ha, hg₁.unequated, hmark, hg₂.unequated, u.unequated hu⟩

lemma AtomForm.unequated : (a : AtomForm) → {w : List Char} → a.Derives w → Unequated w
  | .number _, _, h => h.unequated
  | .call _ s, _, ⟨_, _, _, _, hw, hf, hg, hg₁, hs, hg₂⟩ => by
    subst hw
    simp only [unequated_append, unequated_cons]
    exact ⟨hf.unequated, hg.unequated, by decide, hg₁.unequated, s.unequated hs, hg₂.unequated, by decide, nofun⟩
  | .name _, _, ⟨hw, hf⟩ => hw ▸ hf.unequated
  | .group s, _, ⟨_, _, _, hw, hg₁, hs, hg₂⟩ => by
    subst hw
    simp only [unequated_append, unequated_cons]
    exact ⟨by decide, hg₁.unequated, s.unequated hs, hg₂.unequated, by decide, nofun⟩

end

lemma Sentence.unequated {s : SumForm} {w : List Char} (h : Sentence s w) : Unequated w := by
  obtain ⟨_, _, _, rfl, hg₁, hs, hg₂⟩ := h
  exact unequated_append.mpr ⟨hg₁.unequated, unequated_append.mpr ⟨s.unequated hs, hg₂.unequated⟩⟩

/-! ### Equations -/

/-- An equation has a sentence on either side. -/
def Equation (l r : SumForm) (text : List Char) : Prop :=
  ∃ v w, text = v ++ '=' :: w ∧ Sentence l v ∧ Sentence r w

lemma endsSum_equals {g r : List Char} (hg : Blank g) : EndsSum (g ++ '=' :: r) := by
  have hc : isSeparator '=' = true := by decide
  have hskip := skip_separator (r := r) hg hc
  refine ⟨⟨⟨endsAtom_separator hg hc, fun pos => ?_⟩, fun pos => ?_⟩, fun pos => ?_⟩ <;> rw [hskip] <;> rfl

lemma equation_reads {text : List Char} {l r : SumForm} (h : Equation l r text) :
    ∃ c, (equation text).result = some ((l, r), c) := by
  obtain ⟨_, _, rfl, ⟨g₁, v, g₂, rfl, hg₁, hl, hg₂⟩, ⟨g₃, w, g₄, rfl, hg₃, hr, hg₄⟩⟩ := h
  rw [List.append_assoc, List.append_assoc]
  generalize htext : g₁ ++ (v ++ (g₂ ++ '=' :: (g₃ ++ (w ++ g₄)))) = text
  have hfuel : 8 * v.length + 6 ≤ depthFor text.length ∧ 8 * w.length + 6 ≤ depthFor text.length := by
    rw [← htext]
    simp only [depthFor, List.length_append, List.length_cons]
    omega
  have hleft := (sum_reads l hl (endsSum_equals (r := g₃ ++ (w ++ g₄)) hg₂).1 hfuel.1).reads (by omega)
    (endsSum_equals hg₂) (0 + g₁.length)
  rw [← skip_operand hg₁ (sum_begins l hl), htext] at hleft
  have hmark := mark_reads '=' (g₃ ++ (w ++ g₄)) (0 + g₁.length + v.length + g₂.length)
  rw [List.singleton_append, ← skip_separator hg₂ (by decide)] at hmark
  generalize 0 + g₁.length + v.length + g₂.length + ['='].length = pos at hmark
  have hright := (sum_reads r hr (endsSum_blank hg₄).1 hfuel.2).reads (by omega) (endsSum_blank hg₄) (pos + g₃.length)
  rw [← skip_operand hg₃ (sum_begins r hr)] at hright
  have hend := skip_append hg₄ (stops_nil isBlank) (pos + g₃.length + w.length)
  rw [List.append_nil] at hend
  have hfinish : (finish (Cursor.skip ⟨pos + g₃.length + w.length, g₄⟩)).result =
      some ((), ⟨pos + g₃.length + w.length + g₄.length, []⟩) := by
    rw [hend]
    rfl
  refine ⟨⟨pos + g₃.length + w.length + g₄.length, []⟩, ?_⟩
  exact andThen_eq_some.mpr ⟨l, _, hleft, andThen_eq_some.mpr ⟨(), _, hmark, andThen_eq_some.mpr ⟨r, _, hright,
    andThen_eq_some.mpr ⟨(), _, hfinish, rfl⟩⟩⟩⟩

lemma readConstraint_equation {text : String} {l r : SumForm} (h : Equation l r text.toList) (o : Overflow) :
    readConstraint o text = (do
      let a ← l.toExpr o
      let b ← r.toExpr o
      Expr.sub o a b) := by
  obtain ⟨c, hc⟩ := equation_reads h
  have hmark : text.toList.contains '=' = true := by
    obtain ⟨v, w, htext, -⟩ := h
    simp [htext]
  unfold readConstraint parseEquation toExcept
  rw [if_pos hmark, hc]

lemma readConstraint_sentence {text : String} {s : SumForm} (h : Sentence s text.toList) (o : Overflow) :
    readConstraint o text = s.toExpr o := by
  have hmark : ¬ text.toList.contains '=' = true := by simpa using h.unequated
  rw [readConstraint, if_neg hmark, read_sentence h]

end PlaneCalculus.Formula
