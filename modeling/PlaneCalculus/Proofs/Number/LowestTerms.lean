import Mathlib.Algebra.Order.Group.Abs
import Mathlib.Data.Rat.Lemmas
import PlaneCalculus.Proofs.Number.Exact
import PlaneCalculus.Proofs.Number.Range

/-! Exact numbers are kept in lowest terms. An operation on them gives the exact result in lowest terms or a double, and a
double only when the fraction it comes to, before it is reduced, leaves the exact range. -/

namespace PlaneCalculus.Number

/-- A fraction as it is kept: reduced, above a positive denominator, and with a negation in 128 bits. -/
structure LowestTerms (n d : Int) : Prop where
  pos : 0 < d
  coprime : Int.gcd n d = 1
  num : fits n = true
  den : fits d = true
  num_ne : n ≠ -bound

def IsCanonical : Number → Prop
  | .exact q => LowestTerms q.num q.den
  | .approx _ => True

/-- The parts of a fraction that is not reduced yet can be told from those that go over to doubles. -/
structure PartsFit (n d : Int) : Prop where
  num : fits n = true
  den : fits d = true
  num_ne : n ≠ -bound
  den_ne : d ≠ -bound

/-- A result that is exact is the number expected, where there is one. -/
structure Gives (r : Number) (defined : Prop) (x : ℚ) : Prop where
  canonical : r.IsCanonical
  value : ∀ s, r = .exact s → defined ∧ s = x

/-! ### Reduction -/

lemma bounded_iff {n d : Int} : ((n.natAbs : Int) < bound ∧ (d.natAbs : Int) < bound) ↔ PartsFit n d := by
  have hfits (k : Int) : ((k.natAbs : Int) < bound) ↔ fits k = true ∧ k ≠ -bound := by
    simp only [fits, Bool.and_eq_true, decide_eq_true_eq]
    simp only [bound]
    omega
  rw [hfits, hfits]
  exact ⟨fun h => ⟨h.1.1, h.2.1, h.1.2, h.2.2⟩, fun h => ⟨⟨h.num, h.num_ne⟩, h.den, h.den_ne⟩⟩

lemma isCanonical_iff {a : Number} : a.IsCanonical ↔ a.Bounded := by
  cases a with
  | approx v => exact Iff.rfl
  | exact q =>
    have hparts := bounded_iff (n := q.num) (d := q.den)
    rw [Int.natAbs_natCast] at hparts
    refine Iff.trans ?_ hparts.symm
    constructor
    · intro h
      refine ⟨h.num, h.den, h.num_ne, ?_⟩
      simp only [bound]
      omega
    · intro h
      exact ⟨by exact_mod_cast q.den_pos, q.reduced, h.num, h.den, h.num_ne⟩

/-- Division by the greatest common divisor leads to lowest terms, and these are the parts of the fraction. -/
lemma lowest_parts {n d : Int} (hd : d ≠ 0) (h : PartsFit n d) :
    LowestTerms (lowest n d).1 (lowest n d).2 ∧
      (Rat.divInt n d).num = (lowest n d).1 ∧ ((Rat.divInt n d).den : Int) = (lowest n d).2 := by
  have hlow : 0 < (lowest n d).2 ∧ Int.gcd (lowest n d).1 (lowest n d).2 = 1 := by
    obtain ⟨g, m, c, -, -, -, hgcd, ⟨hc, heq⟩ | ⟨hc, heq⟩⟩ := lowest_cases n hd
    · rw [heq]
      exact ⟨hc, hgcd⟩
    · rw [heq]
      refine ⟨Int.neg_pos_of_neg hc, ?_⟩
      rw [Int.gcd_neg, Int.neg_gcd]
      exact hgcd
  have hparts : (Rat.divInt n d).num = (lowest n d).1 ∧ ((Rat.divInt n d).den : Int) = (lowest n d).2 := by
    rw [← divInt_lowest n hd, Rat.divInt_eq_div]
    exact ⟨Rat.num_div_eq_of_coprime hlow.1 hlow.2, Rat.den_div_eq_of_coprime hlow.1 hlow.2⟩
  have hbounded : Bounded (ofParts n d) := ofParts_bounded h.num h.den
  rw [ofParts_eq_exact hd h.num_ne h.den_ne, ← isCanonical_iff] at hbounded
  refine ⟨?_, hparts⟩
  rw [← hparts.1, ← hparts.2]
  exact hbounded

lemma ofParts_isExact {n d : Int} : (ofParts n d).isExact = true ↔ d ≠ 0 ∧ n ≠ -bound ∧ d ≠ -bound := by
  refine ⟨fun h => ?_, fun h => by rw [ofParts_eq_exact h.1 h.2.1 h.2.2]; rfl⟩
  rw [ofParts_eq] at h
  split at h
  · cases h
  · next hd =>
    split at h
    · cases h
    · next hb => exact ⟨hd, not_or.mp hb⟩

/-! ### The operations -/

lemma isExact_ite {c : Prop} [Decidable c] {r : Number} {v : Float} :
    (if c then r else .approx v).isExact = true ↔ c ∧ r.isExact = true := by
  by_cases h : c
  · simp [h]
  · simp [h, isExact]

section Operations

variable {p q : ℚ}

lemma add_isExact : ((exact p).add (exact q)).isExact = true ↔ (fits (p.num * q.den) = true ∧ fits (q.num * p.den) = true) ∧
    PartsFit (p.num * q.den + q.num * p.den) (p.den * q.den) := by
  have hd : (p.den : Int) * q.den ≠ 0 := by exact_mod_cast Nat.mul_ne_zero p.den_nz q.den_nz
  simp only [add, isExact_ite, ofParts_isExact, Bool.and_eq_true]
  constructor
  · rintro ⟨⟨⟨hl, hs⟩, hden⟩, -, hn, hb⟩
    exact ⟨hl, hs, hden, hn, hb⟩
  · rintro ⟨hl, h⟩
    exact ⟨⟨⟨hl, h.num⟩, h.den⟩, hd, h.num_ne, h.den_ne⟩

lemma mul_isExact : ((exact p).mul (exact q)).isExact = true ↔ PartsFit (p.num * q.num) (p.den * q.den) := by
  have hd : (p.den : Int) * q.den ≠ 0 := by exact_mod_cast Nat.mul_ne_zero p.den_nz q.den_nz
  simp only [mul, isExact_ite, ofParts_isExact, Bool.and_eq_true]
  constructor
  · rintro ⟨⟨hs, hden⟩, -, hn, hb⟩
    exact ⟨hs, hden, hn, hb⟩
  · intro h
    exact ⟨⟨h.num, h.den⟩, hd, h.num_ne, h.den_ne⟩

lemma div_isExact : ((exact p).div (exact q)).isExact = true ↔ q ≠ 0 ∧ PartsFit (p.num * q.den) (p.den * q.num) := by
  have hp : (p.den : Int) ≠ 0 := by exact_mod_cast p.den_nz
  simp only [div, isExact_ite, ofParts_isExact, Bool.and_eq_true, decide_eq_true_eq, ne_eq, Rat.num_eq_zero]
  constructor
  · rintro ⟨⟨⟨hz, hs⟩, hden⟩, -, hn, hb⟩
    exact ⟨hz, hs, hden, hn, hb⟩
  · rintro ⟨hz, h⟩
    exact ⟨⟨⟨hz, h.num⟩, h.den⟩, mul_ne_zero hp (Rat.num_ne_zero.mpr hz), h.num_ne, h.den_ne⟩

lemma neg_canonical (h : (exact q).IsCanonical) : (exact q).neg = .exact (-q) := by
  have hexact : ((exact q).neg).isExact = true := by
    refine mul_isExact.mpr ?_
    have hneg : PartsFit (-q.num) q.den := by
      refine bounded_iff.mp ?_
      rw [Int.natAbs_neg]
      exact isCanonical_iff.mp h
    simpa using hneg
  cases hr : (exact q).neg with
  | approx v =>
    rw [hr] at hexact
    cases hexact
  | exact r =>
    rw [mul_exact hr]
    simp

lemma abs_canonical (h : (exact q).IsCanonical) : (exact q).abs = .exact |q| := by
  have hne : ¬q.num = -bound := h.num_ne
  rw [abs, if_neg hne]
  refine congrArg exact ?_
  split
  · next hneg => rw [abs_of_neg (Rat.num_neg.mp hneg)]
  · next hpos => rw [abs_of_nonneg (Rat.num_nonneg.mp (not_lt.mp hpos))]

lemma IsCanonical.neg (h : (exact q).IsCanonical) : (exact (-q)).IsCanonical := by
  refine isCanonical_iff.mpr ?_
  rw [← neg_canonical h]
  exact bounded_resultLaw.mul _ _

lemma IsCanonical.abs (h : (exact q).IsCanonical) : (exact |q|).IsCanonical := by
  refine isCanonical_iff.mpr ?_
  rw [← abs_canonical h]
  exact abs_bounded (isCanonical_iff.mp h)

lemma gives_add : Gives ((exact p).add (exact q)) True (p + q) :=
  ⟨isCanonical_iff.mpr (bounded_resultLaw.add _ _), fun _ h => ⟨trivial, add_exact h⟩⟩

lemma gives_mul : Gives ((exact p).mul (exact q)) True (p * q) :=
  ⟨isCanonical_iff.mpr (bounded_resultLaw.mul _ _), fun _ h => ⟨trivial, mul_exact h⟩⟩

lemma gives_div : Gives ((exact p).div (exact q)) (q ≠ 0) (p / q) := by
  refine ⟨isCanonical_iff.mpr (bounded_resultLaw.div _ _), fun s h => ⟨?_, div_exact h⟩⟩
  refine (div_isExact (p := p)).mp ?_ |>.1
  rw [h]
  rfl

lemma gives_powInt (e : ℤ) : Gives ((exact p).powInt e) (p ≠ 0 ∨ 0 ≤ e) (p ^ e) :=
  ⟨isCanonical_iff.mpr (bounded_resultLaw.powInt _ _), fun _ h => (powInt_exact h).symm⟩

lemma sub_canonical (h : (exact q).IsCanonical) : (exact p).sub (exact q) = (exact p).add (.exact (-q)) := by
  rw [sub, neg_canonical h]

lemma gives_sub (h : (exact q).IsCanonical) : Gives ((exact p).sub (exact q)) True (p - q) := by
  rw [sub_canonical h, sub_eq_add_neg]
  exact gives_add

end Operations

/-- The arithmetic on fractions in lowest terms. Negation and absolute value are always exact; the other operations give the
exact result in lowest terms unless the parts of the fraction leave the exact range before it is reduced. -/
theorem operations_exact {p q : ℚ} (hp : (exact p).IsCanonical) (hq : (exact q).IsCanonical) :
    (Gives ((exact p).add (exact q)) True (p + q) ∧
      (((exact p).add (exact q)).isExact = true ↔ (fits (p.num * q.den) = true ∧ fits (q.num * p.den) = true) ∧
        PartsFit (p.num * q.den + q.num * p.den) (p.den * q.den))) ∧
    (Gives ((exact p).sub (exact q)) True (p - q) ∧
      (((exact p).sub (exact q)).isExact = true ↔ (fits (p.num * q.den) = true ∧ fits (-q.num * p.den) = true) ∧
        PartsFit (p.num * q.den + -q.num * p.den) (p.den * q.den))) ∧
    (Gives ((exact p).mul (exact q)) True (p * q) ∧
      (((exact p).mul (exact q)).isExact = true ↔ PartsFit (p.num * q.num) (p.den * q.den))) ∧
    (Gives ((exact p).div (exact q)) (q ≠ 0) (p / q) ∧
      (((exact p).div (exact q)).isExact = true ↔ q ≠ 0 ∧ PartsFit (p.num * q.den) (p.den * q.num))) ∧
    (∀ e : ℤ, Gives ((exact p).powInt e) (p ≠ 0 ∨ 0 ≤ e) (p ^ e)) ∧
    ((exact p).neg = .exact (-p) ∧ (exact (-p)).IsCanonical) ∧
    ((exact p).abs = .exact |p| ∧ (exact |p|).IsCanonical) ∧
    ∀ n d : ℤ, d ≠ 0 → PartsFit n d → ∃ r : ℚ, ofParts n d = .exact r ∧ r = n / d ∧
      LowestTerms (lowest n d).1 (lowest n d).2 ∧ r.num = (lowest n d).1 ∧ (r.den : ℤ) = (lowest n d).2 := by
  refine ⟨⟨gives_add, add_isExact⟩, ⟨gives_sub hq, ?_⟩, ⟨gives_mul, mul_isExact⟩, ⟨gives_div, div_isExact⟩, gives_powInt,
    ⟨neg_canonical hp, hp.neg⟩, ⟨abs_canonical hp, hp.abs⟩, fun n d hd h => ?_⟩
  · rw [sub_canonical hq, add_isExact, Rat.num_neg_eq_neg_num, Rat.den_neg_eq_den]
  · obtain ⟨hlow, hparts⟩ := lowest_parts hd h
    exact ⟨Rat.divInt n d, ofParts_eq_exact hd h.num_ne h.den_ne, Rat.divInt_eq_div n d, hlow, hparts⟩

/-- The sum of `(2 ^ 127 - 1) / 2` and `1 / 2` fits, but its cross products do not; their product is exact. -/
theorem operations_exact_near_bound : (exact (mkRat (bound - 1) 2)).IsCanonical ∧ (exact (mkRat 1 2)).IsCanonical ∧
    ((exact (mkRat (bound - 1) 2)).add (exact (mkRat 1 2))).isExact = false ∧
    ((exact (mkRat (bound - 1) 2)).mul (exact (mkRat 1 2))).isExact = true := by
  have hp : (exact (mkRat (bound - 1) 2)).IsCanonical := ⟨by decide, by decide, by decide, by decide, by decide⟩
  have hq : (exact (mkRat 1 2)).IsCanonical := ⟨by decide, by decide, by decide, by decide, by decide⟩
  obtain ⟨⟨-, hadd⟩, -, ⟨-, hmul⟩, -⟩ := operations_exact hp hq
  refine ⟨hp, hq, Bool.eq_false_iff.mpr fun h => ?_, hmul.mpr ⟨by decide, by decide, by decide, by decide⟩⟩
  exact absurd (hadd.mp h).1.1 (by decide)

end PlaneCalculus.Number
