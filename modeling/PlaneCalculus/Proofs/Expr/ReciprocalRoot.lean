import PlaneCalculus.Proofs.Number.ExactPower
import PlaneCalculus.Proofs.Expr.SquareRoot

/-!
Reciprocal square roots. The power with exponent minus one half and the root of the reciprocal are folded by
`Radical.ofFraction?` and are one tree. Dividing by the root inverts a product instead, and what is under the root then
goes through `Radical.ofFraction?` a second time, as a number with limits of its own.
-/

namespace PlaneCalculus

open Number

namespace Overflow

lemma settle_exact (o : Overflow) (operands : Bool) (q : ℚ) : o.settle operands (.exact q) = .ok (.exact q) := by
  simp [settle, isExact]

lemma mul_small (o : Overflow) {p q : ℚ} (hnum : p.num.natAbs * q.num.natAbs ≤ 10 ^ 24)
    (hden : p.den * q.den ≤ 10 ^ 24) : o.mul (.exact p) (.exact q) = .ok (.exact (p * q)) := by
  have hparts : PartsFit (p.num * q.num) (p.den * q.den) := by
    refine bounded_iff.mp ?_
    rw [Int.natAbs_mul, Int.natAbs_mul, Int.natAbs_natCast, Int.natAbs_natCast]
    simp only [bound]
    omega
  cases hr : (exact p).mul (exact q) with
  | exact r => rw [mul, hr, settle_exact, mul_exact hr]
  | approx v =>
    have hexact := mul_isExact.mpr hparts
    rw [hr] at hexact
    cases hexact

end Overflow

namespace Expr

variable {o : Overflow} {sum product : List Expr → Calc Expr} {pow : Expr → Expr → Calc Expr}
  {text : Expr → Calc String}

/-! ### Products of numbers and at most one power -/

/-- The numbers multiply to `c` without leaving the exact range. -/
def MultiplyTo (o : Overflow) (ns : List ℚ) (c : ℚ) : Prop :=
  (ns.map Number.exact).foldlM o.mul (.ofInt 1) = .ok (.exact c)

def exacts (ns : List ℚ) : List Expr := ns.map fun q => .num (.exact q)

lemma gathered_exacts (ns : List ℚ) (c : Number) : (exacts ns).foldlM (Gathered.push o sum) ⟨c, [], []⟩ =
    do return ⟨← (ns.map Number.exact).foldlM o.mul c, [], []⟩ := by
  induction ns generalizing c with
  | nil => rfl
  | cons q ns ih =>
    simp only [exacts] at ih ⊢
    rw [List.map_cons, List.foldlM_cons, List.map_cons, List.foldlM_cons]
    simp only [Gathered.push]
    cases o.mul c (.exact q) with
    | ok n => exact ih n
    | error e => rfl

lemma productStep_exacts {ns : List ℚ} {c : ℚ} {args : List Expr} (hargs : args.flatMap factors = exacts ns)
    (hmul : MultiplyTo o ns c) : productStep o sum product pow text args = .ok (.num (.exact c)) := by
  unfold productStep
  rw [hargs, gathered_exacts, hmul]
  show (if (Number.exact c).isZero then _ else _) = _
  split
  · rfl
  · next hz =>
    show (if (Number.exact c).isZero then _ else _) = _
    rw [if_neg hz]
    show (do
      let fs ← sortFactors text []
      return collapse 1 .times (if (Number.exact c).isOne then fs else .num (.exact c) :: fs) : Calc Expr) = _
    rw [sortFactors_nil]
    cases hone : (Number.exact c).isOne with
    | true =>
      rw [isOne_exact hone]
      rfl
    | false => rfl

lemma productStep_root {ns : List ℚ} {c : ℚ} {b x : Expr} {args : List Expr}
    (hargs : args.flatMap factors = exacts ns ++ [.power b x]) (hmul : MultiplyTo o ns c) (hc : c ≠ 0)
    (hpow : pow b x = .ok (.power b x)) :
    productStep o sum product pow text args = .ok (assembled (.exact c) [.power b x]) := by
  have hz : (Number.exact c).isZero = false := by simpa [Bool.eq_false_iff] using hc
  have hgathered : (args.flatMap factors).foldlM (Gathered.push o sum) ⟨.ofInt 1, [], []⟩ =
      .ok ⟨.exact c, [(b, x)], []⟩ := by
    rw [hargs, List.foldlM_append, gathered_exacts, hmul]
    rfl
  unfold productStep
  rw [hgathered]
  show (if (Number.exact c).isZero then _ else _) = _
  rw [hz]
  show (do let built ← [(b, x)].mapM (fun p => pow p.1 p.2); _ : Calc Expr) = _
  rw [List.mapM_cons, hpow]
  show (if (Number.exact c).isZero then _ else _) = _
  rw [hz]
  show (do
      let fs ← sortFactors text [.power b x]
      return collapse 1 .times (if (Number.exact c).isOne then fs else .num (.exact c) :: fs) : Calc Expr) = _
  rw [sortFactors_singleton]
  rfl

/-! ### Powers of numbers -/

lemma powerStep_folded {b x r : Expr} (hx0 : x.isZero = false) (hx1 : x.isInt 1 = false)
    (h1 : b.isInt 1 = true → r = int 1) (h : foldPower o b x = .ok (some r)) : powerStep o product pow b x = .ok r := by
  unfold powerStep
  rw [hx0, hx1, h]
  cases hb : b.isInt 1 with
  | true =>
    rw [h1 hb]
    rfl
  | false => rfl

lemma powerStep_unfolded {b x : Expr} (hx0 : x.isZero = false) (hx1 : x.isInt 1 = false) (h1 : b.isInt 1 = false)
    (h : foldPower o b x = .ok none) : powerStep o product pow b x = distributePower product pow b x := by
  unfold powerStep
  rw [hx0, hx1, h1, h]
  rfl

lemma eq_one_of_isInt {q : ℚ} (h : (Expr.num (.exact q)).isInt 1 = true) : q = 1 := by
  rw [isInt_one] at h
  exact isOne_exact h

lemma foldPower_inverse (o : Overflow) {q : ℚ} (hq : q ≠ 0) (hnum : q.num.natAbs < 2 ^ 127)
    (hden : q.den < 2 ^ 127) : foldPower o (.num (.exact q)) (int (-1)) = .ok (some (.num (.exact q⁻¹))) := by
  have hz : (Number.exact q).isZero = false := by simpa [Bool.eq_false_iff] using hq
  have hinv : (exact q).powInt (-1) = .exact q⁻¹ := by
    have hparts := zpow_parts (q := q) (e := -1) (Or.inl hq)
    have hpow := powInt_eq_exact (q := q) (e := -1) (Or.inl hq) (by rw [hparts.1]; simpa [powerNum] using hden)
      (by rw [hparts.2]; simpa [powerDen] using hnum) (by decide)
    rwa [zpow_neg_one] at hpow
  show (if (Number.exact q).isZero && _ then _ else numericPower o (.exact q) (.ofInt (-1))) = _
  rw [hz, Bool.false_and, if_neg (by decide), numericPower_int, if_neg (by simpa using hq), Overflow.powInt, hinv,
    Overflow.settle_exact]
  rfl

lemma powerStep_inverse {q : ℚ} (hq : q ≠ 0) (hnum : q.num.natAbs < 2 ^ 127) (hden : q.den < 2 ^ 127) :
    powerStep o product pow (.num (.exact q)) (int (-1)) = .ok (.num (.exact q⁻¹)) := by
  refine powerStep_folded rfl rfl (fun h1 => ?_) (foldPower_inverse o hq hnum hden)
  rw [eq_one_of_isInt h1, inv_one]
  rfl

/-- The reciprocal root is taken of the fraction turned over. -/
lemma foldPower_reciprocalRoot (o : Overflow) {q : ℚ} (hq : 0 < q) :
    foldPower o (.num (.exact q)) (frac (-1) 2) = .ok (Radical.ofFraction? q⁻¹.num q⁻¹.den) := by
  have hnum : 0 < q.num := Rat.num_pos.mpr hq
  have hz : (Number.exact q).isZero = false := by simpa [Bool.eq_false_iff] using hq.ne'
  have hparts : q⁻¹.num = q.den ∧ (q⁻¹.den : ℤ) = q.num := by
    rw [Rat.num_inv, Rat.den_inv, if_neg hnum.ne', Int.sign_eq_one_of_pos hnum, one_mul]
    exact ⟨rfl, Int.natAbs_of_nonneg hnum.le⟩
  show (if (Number.exact q).isZero && _ then _ else numericPower o (.exact q) (.exact (Rat.divInt (-1) 2))) = _
  rw [hz, Bool.false_and, if_neg (by decide), numericPower]
  rw [if_neg (by decide), if_neg (by decide), if_pos ⟨by decide, by decide, hnum⟩, hparts.1, hparts.2]
  rfl

end Expr

namespace Radical

/-! ### Bounds on the parts of a root -/

lemma squareParts_squarefree {m : ℕ} (hm : Squarefree m) : squareParts m = (1, (m : ℤ)) := by
  have hpos : 0 < m := Nat.pos_of_ne_zero hm.ne_zero
  obtain ⟨a, i, hparts, hval, -⟩ := squareParts_leaves_no_square (m := m) (by exact_mod_cast hpos)
  have hval : a * a * i = m := by exact_mod_cast hval
  have ha : a = 1 := Nat.isUnit_iff.mp (hm a ⟨i, hval.symm⟩)
  rw [hparts, ← hval, ha]
  simp

/-- The root that is computed is the one there is. -/
lemma ofFraction?_eq {q c : ℚ} {m : ℕ} (hn : q.num ≤ fractionLimit) (hd : (q.den : ℤ) ≤ fractionLimit) (hc : 0 < c)
    (hm : Squarefree m) (h : c * c * m = q) : ofFraction? q.num q.den = some (rooted c m) := by
  have hq : 0 < q := by
    rw [← h]
    exact mul_pos (mul_pos hc hc) (by exact_mod_cast Nat.pos_of_ne_zero hm.ne_zero)
  obtain ⟨c', m', hroot, hc', hm', h'⟩ := ofFraction?_rooted hq hn hd
  obtain ⟨rfl, rfl⟩ := root_unique hc hc' hm hm' (h.trans h'.symm)
  exact hroot

/-- How large the coefficient of a root gets, alone and with what is under the root. -/
structure RootBounds (c : ℚ) (m : ℕ) : Prop where
  num_le : c.num.natAbs ≤ 10 ^ 12
  den_le : c.den ≤ 10 ^ 12
  scaled_le : c.num.natAbs * m ≤ 10 ^ 24

lemma num_le_of_divInt {n d : ℤ} (hn : n ≠ 0) (hd : d ≠ 0) : (Rat.divInt n d).num.natAbs ≤ n.natAbs :=
  Nat.le_of_dvd (Int.natAbs_pos.mpr hn) (Int.natAbs_dvd_natAbs.mpr (Rat.num_dvd n hd))

lemma den_le_of_divInt (n : ℤ) {d : ℤ} (hd : d ≠ 0) : (Rat.divInt n d).den ≤ d.natAbs :=
  Nat.le_of_dvd (Int.natAbs_pos.mpr hd) (Int.natCast_dvd.mp (Rat.den_dvd n d))

lemma rootBounds {q c : ℚ} {m : ℕ} (hn : q.num ≤ fractionLimit) (hd : (q.den : ℤ) ≤ fractionLimit) (hc : 0 < c)
    (hm : Squarefree m) (h : c * c * m = q) : RootBounds c m := by
  have hq : 0 < q := by
    rw [← h]
    exact mul_pos (mul_pos hc hc) (by exact_mod_cast Nat.pos_of_ne_zero hm.ne_zero)
  obtain ⟨a, i, -, hp, hval, hi, hsquare⟩ := root_parts hq hn hd
  have ha : a ≠ 0 := by
    rintro rfl
    simp at hsquare
    exact hq.ne hsquare
  have hpos : 0 < (a / q.den : ℚ) := div_pos (by positivity) (by exact_mod_cast q.den_pos)
  obtain ⟨rfl, rfl⟩ := root_unique hc hpos hm hi (h.trans hsquare.symm)
  have hc : (a / q.den : ℚ) = Rat.divInt a q.den := by rw [Rat.divInt_eq_div]; rfl
  have hlimit : a * a * m ≤ 10 ^ 24 := by
    have hmul : q.num * q.den ≤ 10 ^ 12 * 10 ^ 12 := Int.mul_le_mul hn hd (by positivity) (by decide)
    rw [← hval] at hmul
    exact_mod_cast hmul
  have ham : a * m ≤ a * a * m := Nat.mul_le_mul_right m (Nat.le_mul_of_pos_left a (Nat.pos_of_ne_zero ha))
  have hnum : (Rat.divInt a q.den).num.natAbs ≤ a :=
    num_le_of_divInt (by exact_mod_cast ha) (by exact_mod_cast q.den_nz)
  have hden : (Rat.divInt a q.den).den ≤ q.den := den_le_of_divInt a (by exact_mod_cast q.den_nz)
  have hal : a * a ≤ 10 ^ 12 * 10 ^ 12 :=
    (Nat.le_mul_of_pos_right (a * a) (Nat.pos_of_ne_zero hm.ne_zero)).trans hlimit
  rw [hc]
  have hdl : q.den ≤ 10 ^ 12 := Int.ofNat_le.mp hd
  exact ⟨hnum.trans (Nat.mul_self_le_mul_self_iff.mp hal), hden.trans hdl,
    (Nat.mul_le_mul_right m hnum).trans (ham.trans hlimit)⟩

end Radical

namespace Expr

open Radical

variable {o : Overflow} {q c : ℚ} {m : ℕ}

lemma pow_of_powerAt {n : Nat} {b e r : Expr} (h : powerAt o n b e = .ok r) : pow o b e = .ok r := by
  rw [← powerAt_eq (by rw [h]; nofun), h]

lemma product_of_productAt {n : Nat} {args : List Expr} {r : Expr} (h : productAt o n args = .ok r) :
    product o args = .ok r := by
  rw [← productAt_eq (by rw [h]; nofun), h]

/-! ### Numbers that multiply without leaving the exact range -/

lemma multiplyTo_one (hnum : q.num.natAbs ≤ 10 ^ 24) (hden : q.den ≤ 10 ^ 24) : MultiplyTo o [q] q := by
  have h : o.mul (.exact 1) (.exact q) = .ok (.exact q) := by
    have hmul := o.mul_small (p := 1) (q := q) (by simpa using hnum) (by simpa using hden)
    rwa [one_mul] at hmul
  show o.mul (.exact 1) (.exact q) >>= pure = _
  rw [h]
  rfl

lemma multiplyTo_two {p : ℚ} (hpnum : p.num.natAbs ≤ 10 ^ 24) (hpden : p.den ≤ 10 ^ 24)
    (hnum : p.num.natAbs * q.num.natAbs ≤ 10 ^ 24) (hden : p.den * q.den ≤ 10 ^ 24) :
    MultiplyTo o [p, q] (p * q) := by
  have h := multiplyTo_one (o := o) hpnum hpden
  unfold MultiplyTo at h ⊢
  rw [show [p, q] = [p] ++ [q] from rfl, List.map_append, List.foldlM_append, h]
  show o.mul (.exact p) (.exact q) >>= pure = _
  rw [o.mul_small hnum hden]
  rfl

lemma multiplyTo_one_left (hnum : q.num.natAbs ≤ 10 ^ 24) (hden : q.den ≤ 10 ^ 24) : MultiplyTo o [1, q] q := by
  have h := multiplyTo_two (o := o) (p := 1) (q := q) (by decide) (by decide) (by simpa using hnum)
    (by simpa using hden)
  rwa [one_mul] at h

/-! ### The parts of a root as a tree -/

lemma rooted_one (c : ℚ) : rooted c 1 = .num (.exact c) := if_pos rfl

lemma assembled_of_ne_one {p : Expr} (hc : c ≠ 1) : assembled (.exact c) [p] = .times [.num (.exact c), p] := by
  have hone : (Number.exact c).isOne = false := Bool.eq_false_iff.mpr fun h => hc (isOne_exact h)
  rw [assembled, hone]
  rfl

lemma rooted_of_ne_one (hm : m ≠ 1) : rooted c m = assembled (.exact c) [.power (int m) half] := by
  unfold rooted
  rw [if_neg hm]
  by_cases hc : c = 1
  · rw [if_pos hc, hc]
    rfl
  · rw [if_neg hc, assembled_of_ne_one hc]

lemma rooted_ne_times (c d : ℚ) (m : ℕ) : .times [.num (.exact d), .power (int m) (frac (-1) 2)] ≠ rooted c m := by
  intro h
  unfold rooted at h
  split at h
  · cases h
  · split at h
    · cases h
    · simp only [times.injEq, List.cons.injEq, power.injEq, and_true, true_and] at h
      have hneg := congrArg isNegativeNumber h.2
      exact absurd hneg (by decide)

lemma factors_assembled_root {x : Expr} : (assembled (.exact c) [.power (int m) x]).factors =
    (if c = 1 then [] else exacts [c]) ++ [.power (int m) x] := by
  by_cases hc : c = 1
  · rw [if_pos hc, hc]
    rfl
  · rw [if_neg hc, assembled_of_ne_one hc]
    rfl

section Products

variable {sum product : List Expr → Calc Expr} {pow : Expr → Expr → Calc Expr} {text : Expr → Calc String}

/-- A number times a number times a root: the numbers are multiplied, the root stays. -/
lemma productStep_scaledRoot {p : ℚ} {x : Expr} (hpnum : p.num.natAbs ≤ 10 ^ 24) (hpden : p.den ≤ 10 ^ 24)
    (hnum : p.num.natAbs * c.num.natAbs ≤ 10 ^ 24) (hden : p.den * c.den ≤ 10 ^ 24) (hne : p * c ≠ 0)
    (hpow : pow (int m) x = .ok (.power (int m) x)) :
    productStep o sum product pow text [.num (.exact p), assembled (.exact c) [.power (int m) x]] =
      .ok (assembled (.exact (p * c)) [.power (int m) x]) := by
  have hfactors : [.num (.exact p), assembled (.exact c) [.power (int m) x]].flatMap factors =
      exacts (p :: if c = 1 then [] else [c]) ++ [.power (int m) x] := by
    rw [List.flatMap_cons, List.flatMap_cons, List.flatMap_nil, List.append_nil, factors_assembled_root]
    split <;> rfl
  refine productStep_root hfactors ?_ hne hpow
  by_cases hc : c = 1
  · rw [if_pos hc, hc, mul_one]
    exact multiplyTo_one hpnum hpden
  · rw [if_neg hc]
    exact multiplyTo_two hpnum hpden hnum hden

end Products

/-! ### The reciprocal of a root -/

lemma natAbs_num_inv (hc : c ≠ 0) : c⁻¹.num.natAbs = c.den := by
  have hnum : c.num ≠ 0 := Rat.num_ne_zero.mpr hc
  rw [Rat.num_inv, Int.natAbs_mul, Int.natAbs_sign_of_ne_zero hnum, one_mul, Int.natAbs_natCast]

lemma den_inv (hc : c ≠ 0) : c⁻¹.den = c.num.natAbs := by rw [Rat.den_inv, if_neg (Rat.num_ne_zero.mpr hc)]

lemma natAbs_num_mul_le {p : ℚ} (hp : p ≠ 0) (hq : q ≠ 0) : (p * q).num.natAbs ≤ p.num.natAbs * q.num.natAbs := by
  have hdvd : (p * q).num ∣ p.num * q.num := ⟨_, Rat.num_mul_num_eq_num_mul_gcd p q⟩
  have hle := Nat.le_of_dvd (Int.natAbs_pos.mpr (mul_ne_zero (Rat.num_ne_zero.mpr hp) (Rat.num_ne_zero.mpr hq)))
    (Int.natAbs_dvd_natAbs.mpr hdvd)
  rwa [Int.natAbs_mul] at hle

/-- The reciprocal root of the number under a root is `k` times that number to the power `x`, which stays as it is. -/
structure InverseRoot (o : Overflow) (m : ℕ) (k : ℚ) (x : Expr) : Prop where
  inverse : ∀ n, powerAt o (n + 1) (int m) (frac (-1) 2) = .ok (assembled (.exact k) [.power (int m) x])
  kept : ∀ n, powerAt o (n + 1) (int m) x = .ok (.power (int m) x)
  pos : 0 < k
  num_eq : k.num.natAbs = 1
  den_le : k.den ≤ m

lemma half_negated (n : Nat) : productAt o (n + 1) [half, int (-1)] = .ok (frac (-1) 2) := by
  have hmul : MultiplyTo o [Rat.divInt 1 2, -1] (Rat.divInt 1 2 * -1) :=
    multiplyTo_two (by decide) (by decide) (by decide) (by decide)
  rw [mul_neg_one, Rat.neg_divInt] at hmul
  have hfactors : [half, int (-1)].flatMap factors = exacts [Rat.divInt 1 2, -1] := rfl
  exact productStep_exacts hfactors hmul

lemma powerAt_inverse (hq : 0 < q) (hnum : q.num.natAbs ≤ 10 ^ 24) (hden : q.den ≤ 10 ^ 24) (n : Nat) :
    powerAt o (n + 1) (.num (.exact q)) (int (-1)) = .ok (.num (.exact q⁻¹)) :=
  powerStep_inverse hq.ne' (by omega) (by omega)

namespace InverseRoot

variable {k : ℚ} {x : Expr}

lemma powerAt_root (h : InverseRoot o m k x) (n : Nat) :
    powerAt o (n + 2) (.power (int m) half) (int (-1)) = .ok (assembled (.exact k) [.power (int m) x]) := by
  show productAt o (n + 1) [half, int (-1)] >>= powerAt o (n + 1) (int m) = _
  rw [half_negated]
  exact h.inverse n

lemma scale (h : InverseRoot o m k x) (hb : RootBounds c m) (hc : 0 < c) (n : Nat) :
    productAt o (n + 2) [.num (.exact c⁻¹), assembled (.exact k) [.power (int m) x]] =
      .ok (assembled (.exact (c⁻¹ * k)) [.power (int m) x]) := by
  have hnum : c⁻¹.num.natAbs = c.den := natAbs_num_inv hc.ne'
  have hden : c⁻¹.den = c.num.natAbs := den_inv hc.ne'
  have hnl := hb.num_le
  have hdl := hb.den_le
  refine productStep_scaledRoot (by omega) (by omega) ?_ ?_ (mul_ne_zero (inv_ne_zero hc.ne') h.pos.ne') (h.kept n)
  · rw [hnum, h.num_eq]
    omega
  · rw [hden]
    exact (Nat.mul_le_mul_left _ h.den_le).trans hb.scaled_le

/-- The reciprocal of `c * √m`, by way of the product that stands for it. -/
lemma powerAt_rooted (h : InverseRoot o m k x) (hm : m ≠ 1) (hb : RootBounds c m) (hc : 0 < c) (n : Nat) :
    powerAt o (n + 3) (rooted c m) (int (-1)) = .ok (assembled (.exact (c⁻¹ * k)) [.power (int m) x]) := by
  unfold rooted
  rw [if_neg hm]
  by_cases hone : c = 1
  · rw [if_pos hone, hone, inv_one, one_mul]
    exact h.powerAt_root (n + 1)
  · have hnl := hb.num_le
    have hdl := hb.den_le
    have hinv : powerAt o (n + 2) (.num (.exact c)) (int (-1)) = .ok (.num (.exact c⁻¹)) :=
      powerAt_inverse hc (by omega) (by omega) (n + 1)
    rw [if_neg hone]
    show [.num (.exact c), .power (int m) half].mapM (fun f => powerAt o (n + 2) f (int (-1))) >>=
      productAt o (n + 2) = _
    rw [List.mapM_cons, hinv, List.mapM_cons, h.powerAt_root n]
    exact h.scale hb hc n

lemma div_rooted (h : InverseRoot o m k x) (hm : m ≠ 1) (hb : RootBounds c m) (hc : 0 < c) :
    div o (int 1) (rooted c m) = .ok (assembled (.exact (c⁻¹ * k)) [.power (int m) x]) := by
  have hprod : productAt o 2 [.num (.exact 1), assembled (.exact (c⁻¹ * k)) [.power (int m) x]] =
      .ok (assembled (.exact (1 * (c⁻¹ * k))) [.power (int m) x]) := by
    have hnum : (c⁻¹ * k).num.natAbs ≤ 10 ^ 24 := by
      have hle := natAbs_num_mul_le (inv_ne_zero hc.ne') h.pos.ne'
      rw [natAbs_num_inv hc.ne', h.num_eq] at hle
      have hdl := hb.den_le
      omega
    have hden : (c⁻¹ * k).den ≤ 10 ^ 24 := by
      have hle := Nat.le_of_dvd (Nat.mul_pos c⁻¹.den_pos k.den_pos) (Rat.mul_den_dvd c⁻¹ k)
      rw [den_inv hc.ne'] at hle
      exact hle.trans ((Nat.mul_le_mul_left _ h.den_le).trans hb.scaled_le)
    have hne : 1 * (c⁻¹ * k) ≠ 0 := by
      rw [one_mul]
      exact mul_ne_zero (inv_ne_zero hc.ne') h.pos.ne'
    exact productStep_scaledRoot (by decide) (by decide) (by simpa using hnum) (by simpa using hden) hne (h.kept 0)
  rw [one_mul] at hprod
  show pow o (rooted c m) (int (-1)) >>= (fun r => product o [int 1, r]) = _
  rw [pow_of_powerAt (h.powerAt_rooted hm hb hc 0)]
  exact product_of_productAt hprod

end InverseRoot

lemma inverseRoot_of_le (o : Overflow) (hm : Squarefree m) (h1 : m ≠ 1) (hle : m ≤ 10 ^ 12) :
    InverseRoot o m (m : ℚ)⁻¹ half := by
  have hpos : (0 : ℚ) < m := by exact_mod_cast Nat.pos_of_ne_zero hm.ne_zero
  have hnum : (m : ℚ)⁻¹.num.natAbs = 1 := (natAbs_num_inv hpos.ne').trans (Rat.den_natCast m)
  have hden : (m : ℚ)⁻¹.den = m := by rw [den_inv hpos.ne', Rat.num_natCast, Int.natAbs_natCast]
  have hroot : ofFraction? (m : ℚ)⁻¹.num (m : ℚ)⁻¹.den = some (rooted (m : ℚ)⁻¹ m) := by
    refine ofFraction?_eq ?_ ?_ (inv_pos.mpr hpos) hm (by rw [mul_assoc, inv_mul_cancel₀ hpos.ne', mul_one])
    · simp only [fractionLimit]
      omega
    · simp only [hden, fractionLimit]
      omega
  refine ⟨fun n => ?_, fun n => ?_, inv_pos.mpr hpos, hnum, hden.le⟩
  · have hfold : foldPower o (int m) (frac (-1) 2) = .ok (some (rooted (m : ℚ)⁻¹ m)) := by
      rw [← hroot]
      exact foldPower_reciprocalRoot o hpos
    rw [← rooted_of_ne_one h1]
    refine powerStep_folded rfl rfl (fun hone => ?_) hfold
    rw [isInt_one_nat h1] at hone
    cases hone
  · exact powerStep_root o _ _ h1 hm.ne_zero (squareParts_squarefree hm)

lemma inverseRoot_of_lt (o : Overflow) (hm : Squarefree m) (h1 : m ≠ 1) (hlt : 10 ^ 12 < m) :
    InverseRoot o m 1 (frac (-1) 2) := by
  have hpos : (0 : ℚ) < m := by exact_mod_cast Nat.pos_of_ne_zero hm.ne_zero
  have hden : (m : ℚ)⁻¹.den = m := by rw [den_inv hpos.ne', Rat.num_natCast, Int.natAbs_natCast]
  have hroot : ofFraction? (m : ℚ)⁻¹.num (m : ℚ)⁻¹.den = none := by
    unfold ofFraction?
    rw [if_pos]
    simp only [hden, fractionLimit]
    omega
  have hkept (n : Nat) : powerAt o (n + 1) (int m) (frac (-1) 2) = .ok (.power (int m) (frac (-1) 2)) := by
    have hfold : foldPower o (int m) (frac (-1) 2) = .ok none := by
      rw [← hroot]
      exact foldPower_reciprocalRoot o hpos
    exact powerStep_unfolded rfl rfl (isInt_one_nat h1) hfold
  exact ⟨hkept, hkept, one_pos, rfl, Nat.one_le_iff_ne_zero.mpr hm.ne_zero⟩

/-! ### The three spellings -/

lemma pow_reciprocalRoot (o : Overflow) (hn : q.num ≤ fractionLimit) (hd : (q.den : ℤ) ≤ fractionLimit) (hc : 0 < c)
    (hm : Squarefree m) (h : c * c * m = q) : pow o (.num (.exact q)) (frac (-1) 2) = .ok (rooted (c * m)⁻¹ m) ∧
      pow o (.num (.exact q⁻¹)) half = .ok (rooted (c * m)⁻¹ m) := by
  have hpos : (0 : ℚ) < m := by exact_mod_cast Nat.pos_of_ne_zero hm.ne_zero
  have hq : 0 < q := h ▸ mul_pos (mul_pos hc hc) hpos
  have hroot : ofFraction? q⁻¹.num q⁻¹.den = some (rooted (c * m)⁻¹ m) := by
    have hnum : q⁻¹.num.natAbs = q.den := natAbs_num_inv hq.ne'
    have hden : q⁻¹.den = q.num.natAbs := den_inv hq.ne'
    refine ofFraction?_eq (by omega) ?_ (inv_pos.mpr (mul_pos hc hpos)) hm ?_
    · rw [hden, Int.natAbs_of_nonneg (Rat.num_pos.mpr hq).le]
      exact hn
    · rw [← h]
      field_simp
  have hone (h1 : q = 1) : rooted (c * m)⁻¹ m = int 1 := by
    obtain ⟨rfl, rfl⟩ := root_unique hc one_pos hm squarefree_one (h.trans (by rw [h1]; norm_num))
    rw [rooted_one, Nat.cast_one, mul_one, inv_one]
    rfl
  refine ⟨?_, pow_half o (inv_pos.mpr hq) (fun h1 => hone (inv_eq_one.mp h1)) hroot⟩
  have hfold : foldPower o (.num (.exact q)) (frac (-1) 2) = .ok (some (rooted (c * m)⁻¹ m)) := by
    rw [foldPower_reciprocalRoot o hq, hroot]
  exact pow_of_powerAt (n := 1) (powerStep_folded rfl rfl (fun h1 => hone (eq_one_of_isInt h1)) hfold)

lemma div_one_root (o : Overflow) (hn : q.num ≤ fractionLimit) (hd : (q.den : ℤ) ≤ fractionLimit) (hc : 0 < c)
    (hm : Squarefree m) (h : c * c * m = q) : div o (int 1) (rooted c m) =
      .ok (if m ≤ 10 ^ 12 then rooted (c * m)⁻¹ m
        else .times [.num (.exact c⁻¹), .power (int m) (frac (-1) 2)]) := by
  have hb := rootBounds hn hd hc hm h
  by_cases h1 : m = 1
  · subst h1
    have hnl := hb.num_le
    have hdl := hb.den_le
    have hinv : pow o (.num (.exact c)) (int (-1)) = .ok (.num (.exact c⁻¹)) :=
      pow_of_powerAt (n := 1) (powerAt_inverse hc (by omega) (by omega) 0)
    have hprod : product o [int 1, .num (.exact c⁻¹)] = .ok (.num (.exact c⁻¹)) := by
      have hnum := natAbs_num_inv hc.ne'
      have hden := den_inv hc.ne'
      have hmul : MultiplyTo o [1, c⁻¹] c⁻¹ := multiplyTo_one_left (by omega) (by omega)
      exact product_of_productAt (n := 1) (productStep_exacts rfl hmul)
    show pow o (.num (.exact c)) (int (-1)) >>= (fun r => product o [int 1, r]) = _
    rw [hinv, if_pos (by decide), rooted_one, Nat.cast_one, mul_one]
    exact hprod
  · by_cases hle : m ≤ 10 ^ 12
    · rw [(inverseRoot_of_le o hm h1 hle).div_rooted h1 hb hc, if_pos hle, rooted_of_ne_one h1, mul_inv]
    · have hc1 : c ≠ 1 := by
        rintro rfl
        rw [one_mul, one_mul] at h
        rw [← h, Rat.num_natCast, fractionLimit] at hn
        omega
      rw [(inverseRoot_of_lt o hm h1 (by omega)).div_rooted h1 hb hc, if_neg hle, mul_one,
        assembled_of_ne_one (inv_ne_one.mpr hc1)]

/-- The spellings of a reciprocal square root, for a fraction `q = c * c * m` with `m` square-free and with numerator
and denominator up to a million squared. The power of `q` and the root of its reciprocal are the same tree,
`1 / (c * m)` times the root of `m`. Dividing by the root gives this tree as well for just those `m` that are themselves
at most a million squared; a larger one keeps its negative exponent. -/
theorem reciprocalRoot_spellings (o : Overflow) {q : ℚ} (hq : 0 < q) (hn : q.num ≤ 10 ^ 12) (hd : q.den ≤ 10 ^ 12) :
    ∃ (c : ℚ) (m : ℕ), 0 < c ∧ Squarefree m ∧ c * c * m = q ∧
      pow o (.num (.exact q)) (frac (-1) 2) = .ok (rooted (c * m)⁻¹ m) ∧
      pow o (.num (.exact q⁻¹)) half = .ok (rooted (c * m)⁻¹ m) ∧
      (do div o (int 1) (← sqrt o (.num (.exact q)))) = .ok (if m ≤ 10 ^ 12 then rooted (c * m)⁻¹ m
        else .times [.num (.exact c⁻¹), .power (int m) (frac (-1) 2)]) ∧
      ((do div o (int 1) (← sqrt o (.num (.exact q)))) = pow o (.num (.exact q)) (frac (-1) 2) ↔ m ≤ 10 ^ 12) := by
  have hd' : (q.den : ℤ) ≤ fractionLimit := by
    simp only [fractionLimit]
    omega
  obtain ⟨c, m, hroot, hc, hm, hval⟩ := ofFraction?_rooted hq hn hd'
  obtain ⟨hpow, hhalf⟩ := pow_reciprocalRoot o hn hd' hc hm hval
  have hsqrt : sqrt o (.num (.exact q)) = .ok (rooted c m) := by
    refine pow_half o hq (fun h1 => ?_) hroot
    obtain ⟨rfl, rfl⟩ := root_unique hc one_pos hm squarefree_one (hval.trans (by rw [h1]; norm_num))
    rfl
  have hdiv := div_one_root o hn hd' hc hm hval
  have hdivided : (do div o (int 1) (← sqrt o (.num (.exact q)))) = .ok (if m ≤ 10 ^ 12 then rooted (c * m)⁻¹ m
      else .times [.num (.exact c⁻¹), .power (int m) (frac (-1) 2)]) := by
    rw [hsqrt]
    exact hdiv
  refine ⟨c, m, hc, hm, hval, hpow, hhalf, hdivided, ?_⟩
  rw [hdivided, hpow]
  split
  · next hle => exact iff_of_true rfl hle
  · next hlt => exact iff_of_false (fun h => rooted_ne_times _ _ m (Except.ok.inj h)) hlt

/-- The square-free part of 1000003 * 1000033 passes a million squared, and the root of the quotient divided into one is
not the root of the reciprocal. -/
theorem reciprocalRoot_spellings_large :
    pow .approximate (frac 1000003 1000033) (frac (-1) 2) =
      .ok (.times [frac 1 1000003, .power (int 1000036000099) half]) ∧
    pow .approximate (frac 1000033 1000003) half =
      .ok (.times [frac 1 1000003, .power (int 1000036000099) half]) ∧
    (do div .approximate (int 1) (← sqrt .approximate (frac 1000003 1000033))) =
      .ok (.times [int 1000033, .power (int 1000036000099) (frac (-1) 2)]) := by
  obtain ⟨c, m, hc, hm, hval, hpow, hhalf, hdiv, -⟩ :=
    reciprocalRoot_spellings .approximate (q := Rat.divInt 1000003 1000033) (by decide) (by decide) (by decide)
  have hfree : Squarefree (1000036000099 : ℕ) := by
    have hp : Nat.Prime 1000003 := by norm_num
    have hp' : Nat.Prime 1000033 := by norm_num
    have hco : Nat.Coprime 1000003 1000033 := by norm_num
    exact (Nat.squarefree_mul hco).mpr ⟨hp.prime.squarefree, hp'.prime.squarefree⟩
  have hsquare : Rat.divInt 1 1000033 * Rat.divInt 1 1000033 * (1000036000099 : ℕ) = Rat.divInt 1000003 1000033 := by
    simp only [Rat.divInt_eq_div]
    norm_num
  obtain ⟨rfl, rfl⟩ := root_unique hc (by decide) hm hfree (hval.trans hsquare.symm)
  have hscaled : (Rat.divInt 1 1000033 * (1000036000099 : ℕ))⁻¹ = Rat.divInt 1 1000003 := by
    simp only [Rat.divInt_eq_div]
    norm_num
  have hinv : (Rat.divInt 1 1000033)⁻¹ = 1000033 := by
    simp only [Rat.divInt_eq_div]
    norm_num
  rw [hscaled] at hpow hhalf
  rw [Rat.inv_divInt] at hhalf
  rw [if_neg (by decide), hinv] at hdiv
  exact ⟨hpow, hhalf, hdiv⟩

end Expr

end PlaneCalculus
