import PlaneCalculus.Proofs.Formula.Nodes
import PlaneCalculus.Proofs.Latex.Numerals
import PlaneCalculus.Proofs.Number.Sign

/-! The rows of factors in a typeset expression. A product is set in one row, or in two with a line between them; powers
with a negative number in the exponent go below the line with the exponent turned positive. No factor is itself a product,
so that the first and the last character of each are known from its kind. -/

open PlaneCalculus.Expr

namespace PlaneCalculus.Latex

open Calc

variable {o : Overflow}

/-- The factors above the line and those below it, each with its part of the coefficient in front. -/
def rows (o : Overflow) (factors : List Expr) : Calc (List Expr × List Expr) := do
  let s ← Fraction.ofFactors o (Expr.pow o) factors
  let (above, below) := Fraction.coeffParts (← o.abs s.coeff)
  return (s.numerator above, s.denominator below)

/-! ### Nodes of expressions that are read -/

def SetNode : Expr → Prop
  | .symbol x => Formula.IsSymbolName x
  | .times fs => ProductShape fs
  | .power b e => (∀ k, e.integer? = some k → b.KeepsExponent k) ∧ Uncomputed b e
  | _ => True

lemma setNode_readingLaw : Formula.ReadingLaw SetNode where
  real _ := trivial
  parts _ _ _ _ := trivial
  abs _ _ := trivial
  constant _ := trivial
  call _ _ _ := trivial
  plus _ _ := trivial
  times _ h _ := h
  shape _ h := h
  power _ _ _ _ hk hu := ⟨hk, hu⟩
  symbol _ h := h

/-- Factors as they stand in a row. -/
structure Item (e : Expr) : Prop where
  nodes : Everywhere SetNode e
  flat : ∀ gs, e ≠ .times gs

lemma item_num (n : Number) : Item (.num n) := ⟨trivial, nofun⟩

/-! ### Powers below the line -/

lemma eq_of_neg_exact {n : Number} {r : ℚ} (h : n.neg = .exact r) : n = .exact (-r) := by
  cases n with
  | exact q =>
    obtain rfl := Number.mul_exact h
    simp
  | approx v => cases h

lemma toInt?_of_neg {n : Number} {k : Int} (h : n.neg.toInt? = some k) : n.toInt? = some (-k) := by
  cases hn : n.neg with
  | exact r =>
    rw [hn] at h
    rw [eq_of_neg_exact hn]
    simp only [Number.toInt?] at h ⊢
    split at h
    · next hd =>
      cases h
      simp [hd]
    · cases h
  | approx v =>
    rw [hn] at h
    cases h

lemma ofFraction?_eq_none {n d : Int} : Radical.ofFraction? n d = none ↔
    n < 0 ∨ d ≤ 0 ∨ n > Radical.fractionLimit ∨ d > Radical.fractionLimit := by
  unfold Radical.ofFraction?
  dsimp only
  split
  · next h => simpa using h
  · next h =>
    simp only [h, iff_false]
    split
    · simp
    · split <;> simp

/-- A power of a number other than zero that is not computed is not computed to the opposite exponent either. -/
lemma numericPower_opposite_exact {p r : ℚ} (hp : p ≠ 0) (hr : 0 ≤ r.num)
    (h : numericPower .approximate (.exact p) (.exact (-r)) = .ok none) :
    numericPower o (.exact p) (.exact r) = .ok none := by
  have hp : p.num ≠ 0 := Rat.num_ne_zero.mpr hp
  unfold numericPower at h ⊢
  dsimp only at h ⊢
  rw [Rat.den_neg_eq_den, Rat.num_neg_eq_neg_num] at h
  split
  · next hden =>
    rw [if_pos hden, if_neg (fun h => hp h.1)] at h
    obtain ⟨m, -, hm⟩ := bind_ok h
    cases hm
  · next hden =>
    rw [if_neg hden] at h
    split
    · next hhalf =>
      have hnone : Radical.ofFraction? p.num p.den = none := by
        have hswap : 0 < p.num → Radical.ofFraction? p.den p.num = none := fun hlt => by
          simp only [hhalf.1, hhalf.2, hlt] at h
          exact Except.ok.inj h
        have := p.den_pos
        rw [ofFraction?_eq_none] at hswap ⊢
        omega
      rw [hnone]
      rfl
    · rw [if_neg (by omega)]
      rfl

lemma numericPower_opposite {c n : Number} (hc : c.isZero = false) (hneg : n.isNegative = true)
    (h : numericPower .approximate c n = .ok none) :
    Meets anyHalt (numericPower o c n.neg) fun r => ∀ q, r = some q → ∀ gs, q ≠ .times gs := by
  have hpos : n.neg.isNegative = false := Number.isNegative_neg hneg
  cases c with
  | approx v => cases h
  | exact p =>
    cases hn : n.neg with
    | approx w => rintro q ⟨⟩ gs ⟨⟩
    | exact r =>
      obtain rfl := eq_of_neg_exact hn
      have hp : p ≠ 0 := by simpa [Number.isZero] using hc
      rw [numericPower_opposite_exact hp (by simpa [hn, Number.isNegative] using hpos) h]
      rintro q ⟨⟩

section Below

variable {b : Expr} {n : Number} (h : SetNode (.power b (.num n))) (hneg : n.isNegative = true)
include h hneg

lemma foldPower_below : Meets anyHalt (foldPower o b (.num n.neg)) fun r => ∀ q, r = some q → ∀ gs, q ≠ .times gs := by
  have hpos : n.neg.isNegative = false := Number.isNegative_neg hneg
  cases b with
  | num c =>
    show Meets anyHalt (if c.isZero && !n.neg.isNegative then _ else numericPower o c n.neg) _
    split
    · rintro q ⟨⟩ gs ⟨⟩
    · next hzero =>
      have hc : c.isZero = false := by simpa [hpos] using hzero
      refine numericPower_opposite hc hneg ?_
      rcases h.2.number with hfold | ⟨hhalf, -⟩
      · simpa [foldPower, hc] using hfold
      · cases hhalf
        exact absurd hneg (by decide)
  | symbol | constant | plus | times | power | call => rintro q ⟨⟩

lemma pow_below_flat : Meets anyHalt (Expr.pow o b (.num n.neg)) fun q => ∀ gs, q ≠ .times gs := by
  have hkeeps (k : Int) (hk : (Expr.num n.neg).integer? = some k) : b.KeepsExponent (-k) := h.1 (-k) (toInt?_of_neg hk)
  unfold Expr.pow
  generalize callDepth _ = depth
  cases depth with
  | zero => trivial
  | succ depth =>
    rw [powerAt]
    unfold powerStep
    split
    · rintro gs ⟨⟩
    · split
      · next hone =>
        have hb := hkeeps 1 (by simpa [isInt] using hone)
        rintro gs rfl
        exact hb
      · split
        · rintro gs ⟨⟩
        · refine (foldPower_below h hneg).bind fun r hr => ?_
          cases r with
          | some q => exact hr q rfl
          | none =>
            dsimp only [distributePower]
            split
            · exact absurd rfl h.2.base
            · next hk _ => exact (hkeeps _ hk).elim
            · next hk _ => exact (hkeeps _ hk).elim
            · next hk _ => exact (hkeeps _ hk).elim
            · rintro gs ⟨⟩

end Below

/-! ### The factors of both rows -/

def Items (s : Fraction) : Prop := (∀ e ∈ s.above, Item e) ∧ ∀ e ∈ s.below, Item e

lemma push_items {s : Fraction} (hs : Items s) {e : Expr} (he : Item e) :
    Meets anyHalt (s.push o (Expr.pow o) e) Items := by
  have habove : Items { s with above := s.above ++ [e] } := ⟨List.forall_mem_append.mpr ⟨hs.1, by simpa using he⟩, hs.2⟩
  unfold Fraction.push
  split
  · exact (meets_anyHalt_true _).bind fun _ _ => hs
  · next b n =>
    split
    · next hneg =>
      refine (meets_neg fun _ => trivial).bind fun m hm => ?_
      subst hm
      obtain ⟨hnode, hb, -⟩ := he.nodes
      have hkept : Meets anyHalt (Expr.pow o b (.num n.neg)) (Everywhere SetNode) :=
        setNode_readingLaw.toNodeLaw.kept.pow hb trivial
      refine (hkept.and (pow_below_flat hnode hneg)).bind fun q hq => ⟨hs.1, List.forall_mem_append.mpr ⟨hs.2, ?_⟩⟩
      simpa using Item.mk hq.1 hq.2
    · exact habove
  · exact habove

lemma denominator_ne_nil {s : Fraction} (h : s.below ≠ []) (c : Number) : s.denominator c ≠ [] := by
  unfold Fraction.denominator
  split
  · exact h
  · exact List.cons_ne_nil _ _

lemma rows_items {fs : List Expr} (h : ∀ f ∈ fs, Item f) :
    Meets anyHalt (rows o fs) fun r => (∀ e ∈ r.1, Item e) ∧ ∀ e ∈ r.2, Item e := by
  have hpushed : Meets anyHalt (Fraction.ofFactors o (Expr.pow o) fs) Items := by
    refine (meets_foldlM (fun rest s => (∀ e ∈ rest, Item e) ∧ Items s) ?_ ?_).mono fun s hs => hs.2
    · rintro e rest s ⟨hrest, hs⟩
      rw [List.forall_mem_cons] at hrest
      exact (push_items hs hrest.1).mono fun t ht => ⟨hrest.2, ht⟩
    · exact ⟨h, nofun, nofun⟩
  refine hpushed.bind fun s hs => (meets_anyHalt_true _).bind fun c _ => ?_
  rcases Fraction.coeffParts c with ⟨above, below⟩
  exact ⟨forall_mem_numerator (item_num above) hs.1, forall_mem_denominator (item_num below) hs.2⟩

/-- A power with a negative number in the exponent has something below the line. -/
lemma rows_reciprocal {b x : Expr} (h : x.isNegativeNumber = true) :
    Meets anyHalt (rows o [.power b x]) fun r => r.2 ≠ [] := by
  cases x with
  | num n =>
    have hn : n.isNegative = true := h
    have hpushed : Meets anyHalt (Fraction.ofFactors o (Expr.pow o) [.power b (.num n)]) fun s => s.below ≠ [] := by
      unfold Fraction.ofFactors
      rw [List.foldlM_cons]
      simp only [Fraction.push, hn, if_true]
      exact ((meets_anyHalt_true _).bind fun m _ => (meets_anyHalt_true _).bind fun q _ => by simp).bind fun s hs => hs
    refine hpushed.bind fun s hs => (meets_anyHalt_true _).bind fun c _ => ?_
    rcases Fraction.coeffParts c with ⟨above, below⟩
    exact denominator_ne_nil hs below
  | symbol | constant | plus | times | power | call => cases h

end PlaneCalculus.Latex
