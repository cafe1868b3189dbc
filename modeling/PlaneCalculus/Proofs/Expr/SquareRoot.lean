import Mathlib.Algebra.Squarefree.Basic
import Mathlib.Data.Nat.Squarefree
import Mathlib.Tactic.LinearCombination
import Mathlib.Tactic.NormNum
import PlaneCalculus.Proofs.Expr.PowerForm
import PlaneCalculus.Proofs.Expr.Radical

/-!
Square roots of positive fractions are canonical: a positive rational times the root of a square-free number, of which
there is only one. The trial division stops at `trialLimit`, so what it leaves under the root is square-free only
because numerator and denominator have no common factor and neither is as large as the square of the next prime. The
rounded floating-point root has no part in this: it is only believed when it squares to what is left.
-/

namespace PlaneCalculus

namespace Radical

/-- Trying all divisors from 2 on leaves no square of a number up to `trialLimit`. `factor` is the next one to try, and
no square of a smaller one is left. -/
lemma pullSquares_leaves_no_square {factor inside : Nat} (outside : Nat) (hin : 0 < inside)
    (htried : ∀ k, 2 ≤ k → k < factor → ¬ k * k ∣ inside) (hf : 2 ≤ factor) :
    ∀ k, 2 ≤ k → k ≤ trialLimit → ¬ k * k ∣ (pullSquares factor outside inside).2 := by
  fun_induction pullSquares factor outside inside with
  | case1 factor outside inside hc hd ih =>
    have hdvd : factor * factor ∣ inside := Nat.dvd_of_mod_eq_zero hd
    refine ih (Nat.div_pos hc.2.2.2 (Nat.mul_pos (by omega) (by omega))) (fun k h2 hk hkd => ?_) hf
    exact htried k h2 hk (hkd.trans (Nat.div_dvd_of_dvd hdvd))
  | case2 factor outside inside hc hd ih =>
    refine ih hin (fun k h2 hk hkd => ?_) (by omega)
    rcases Nat.lt_succ_iff_lt_or_eq.mp hk with hk | rfl
    · exact htried k h2 hk hkd
    · exact hd (Nat.mod_eq_zero_of_dvd hkd)
  | case3 factor outside inside hc =>
    intro k h2 hk hkd
    rcases Nat.lt_or_ge k factor with hlt | hge
    · exact htried k h2 hlt hkd
    · -- the loop has stopped below its limit, so the square of `factor` is already too large
      have hstop : ¬ factor * factor ≤ inside := fun h => hc ⟨hf, hge.trans hk, hin, h⟩
      exact hstop ((Nat.mul_le_mul hge hge).trans (Nat.le_of_dvd hin hkd))

/-- Which of the two is returned depends on the floating-point guess, what is said of it here does not. -/
lemma squareParts_leaves_no_square {m : Int} (hm : 0 < m) : ∃ o i : Nat, squareParts m = ((o : Int), (i : Int)) ∧
    (o * o * i : Int) = m ∧ ∀ k, 2 ≤ k → k ≤ trialLimit → ¬ k * k ∣ i := by
  obtain ⟨o, i, hparts, hval, -⟩ := squareParts_spec hm
  refine ⟨o, i, hparts, hval, fun k h2 hk hkd => ?_⟩
  obtain ⟨m, rfl⟩ := Int.eq_ofNat_of_zero_le hm.le
  have hm : 0 < m := by exact_mod_cast hm
  rw [squareParts_pos hm] at hparts
  cases hr : exactRoot? (pullSquares 2 1 m).2 with
  | some root =>
    rw [hr, Option.elim_some, Prod.mk.injEq] at hparts
    have hi : i = 1 := by exact_mod_cast hparts.2.symm
    rw [hi, Nat.dvd_one] at hkd
    exact absurd (Nat.eq_one_of_mul_eq_one_left hkd) (by omega)
  | none =>
    rw [hr, Option.elim_none, Prod.mk.injEq] at hparts
    have hi : (pullSquares 2 1 m).2 = i := by exact_mod_cast hparts.2
    have htried : ∀ k, 2 ≤ k → k < 2 → ¬ k * k ∣ m := fun k h2 hk => absurd hk (by omega)
    exact pullSquares_leaves_no_square 1 hm htried le_rfl k h2 hk (hi ▸ hkd)

/-- A prime beyond `trialLimit` could only divide a product of two coprime numbers twice by dividing one of them
twice. -/
lemma squarefree_of_coprime {n d i : Nat} (hnd : n.Coprime d) (hn : 0 < n) (hd : 0 < d) (hnl : n ≤ trialLimit ^ 2)
    (hdl : d ≤ trialLimit ^ 2) (hi : i ∣ n * d) (hsmall : ∀ k, 2 ≤ k → k ≤ trialLimit → ¬ k * k ∣ i) :
    Squarefree i := by
  rw [Nat.squarefree_iff_prime_squarefree]
  intro p hp hpi
  have hlarge : trialLimit < p := by
    by_contra hle
    exact hsmall p hp.two_le (not_lt.mp hle) hpi
  have hsq : trialLimit ^ 2 < p * p := by
    rw [pow_two]
    exact Nat.mul_lt_mul'' hlarge hlarge
  have hpp : p * p ∣ n * d := hpi.trans hi
  by_cases hpn : p ∣ n
  · have hpd : (p * p).Coprime d :=
      Nat.Coprime.mul_left (Nat.Coprime.coprime_dvd_left hpn hnd) (Nat.Coprime.coprime_dvd_left hpn hnd)
    exact absurd (Nat.le_of_dvd hn (hpd.dvd_of_dvd_mul_right hpp)) (by omega)
  · have hpn : (p * p).Coprime n :=
      Nat.Coprime.mul_left ((hp.coprime_iff_not_dvd).mpr hpn) ((hp.coprime_iff_not_dvd).mpr hpn)
    exact absurd (Nat.le_of_dvd hd (hpn.dvd_of_dvd_mul_left hpp)) (by omega)

/-- The square-free part of a number is determined. -/
lemma squarefree_part_unique {a b m m' : Nat} (ha : 0 < a) (hm : Squarefree m) (hm' : Squarefree m')
    (h : a * a * m = b * b * m') : m = m' := by
  obtain ⟨x, y, hxy, hax, hby⟩ := Nat.exists_coprime a b
  have hg : 0 < a.gcd b := Nat.gcd_pos_of_pos_left b ha
  generalize a.gcd b = g at hax hby hg
  subst hax hby
  have hred : x * x * m = y * y * m' := by
    apply Nat.eq_of_mul_eq_mul_left (Nat.mul_pos hg hg)
    linarith [h]
  have hx : x * x ∣ m' := by
    have hco : (x * x).Coprime (y * y) := Nat.Coprime.mul_left (hxy.mul_right hxy) (hxy.mul_right hxy)
    exact hco.dvd_of_dvd_mul_left ⟨m, hred.symm⟩
  have hy : y * y ∣ m := by
    have hco : (y * y).Coprime (x * x) :=
      Nat.Coprime.mul_left (hxy.symm.mul_right hxy.symm) (hxy.symm.mul_right hxy.symm)
    exact hco.dvd_of_dvd_mul_left ⟨m', hred⟩
  have hx1 : x = 1 := Nat.isUnit_iff.mp (hm' x hx)
  have hy1 : y = 1 := Nat.isUnit_iff.mp (hm y hy)
  simpa [hx1, hy1] using hred

lemma num_toNat {c : ℚ} (hc : 0 < c) : (c.num.toNat : ℚ) = c * c.den := by
  have hnum : 0 < c.num := Rat.num_pos.mpr hc
  rw [Rat.mul_den_eq_num]
  exact_mod_cast Int.toNat_of_nonneg hnum.le

/-- A positive rational is the square of a positive rational times a square-free number in one way only. -/
lemma root_unique {c c' : ℚ} {m m' : Nat} (hc : 0 < c) (hc' : 0 < c') (hm : Squarefree m) (hm' : Squarefree m')
    (h : c * c * m = c' * c' * m') : c = c' ∧ m = m' := by
  have hmm : m = m' := by
    have hnum : 0 < c.num := Rat.num_pos.mpr hc
    have hleft : 0 < c.num.toNat * c'.den := Nat.mul_pos (by omega) c'.den_pos
    refine squarefree_part_unique (b := c'.num.toNat * c.den) hleft hm hm' ?_
    have hcast : ((c.num.toNat * c'.den * (c.num.toNat * c'.den) * m : Nat) : ℚ) =
        (c'.num.toNat * c.den * (c'.num.toNat * c.den) * m' : Nat) := by
      push_cast
      rw [num_toNat hc, num_toNat hc']
      linear_combination (c.den * c.den * (c'.den * c'.den) : ℚ) * h
    exact Nat.cast_injective hcast
  subst hmm
  refine ⟨?_, rfl⟩
  have hm0 : (m : ℚ) ≠ 0 := by exact_mod_cast hm.ne_zero
  have hsq : c * c = c' * c' := mul_right_cancel₀ hm0 h
  exact (mul_self_inj hc.le hc'.le).mp hsq

lemma squareParts_neg {n : Int} (hn : n < 0) : squareParts n = (1, n) := by
  unfold squareParts
  rw [if_neg hn.ne, if_pos hn]

lemma squareParts_canonical (n : Int) :
    (squareParts n).1 * (squareParts n).1 * (squareParts n).2 = n ∧
      (0 < n → 0 < (squareParts n).2 ∧ ∀ k : Int, 2 ≤ k → k ≤ 1000000 → ¬ k * k ∣ (squareParts n).2) := by
  rcases lt_trichotomy n 0 with hneg | rfl | hpos
  · rw [squareParts_neg hneg]
    exact ⟨by ring, fun h => absurd h (by omega)⟩
  · exact ⟨rfl, fun h => absurd h (by omega)⟩
  · obtain ⟨a, i, hparts, hval, hsmall⟩ := squareParts_leaves_no_square hpos
    have hi : i ≠ 0 := by
      rintro rfl
      simp at hval
      omega
    rw [hparts]
    dsimp only
    refine ⟨hval, fun _ => ⟨by omega, fun k h2 hk hkd => ?_⟩⟩
    obtain ⟨k, rfl⟩ := Int.eq_ofNat_of_zero_le (by omega : 0 ≤ k)
    exact hsmall k (by omega) (by simp only [trialLimit]; omega) (by exact_mod_cast hkd)

/-- `c * √m`: a lone number if nothing is under the root, a lone root if the number is one. -/
def rooted (c : ℚ) (m : Nat) : Expr :=
  if m = 1 then .num (.exact c)
  else if c = 1 then .power (.int m) .half
  else .times [.num (.exact c), .power (.int m) .half]

/-- The parts that the root of a reduced fraction in range is made of: a square-free number and what was taken out. -/
lemma root_parts {q : ℚ} (hq : 0 < q) (hn : q.num ≤ fractionLimit) (hd : (q.den : Int) ≤ fractionLimit) :
    ∃ a i : Nat, squareParts (q.num * q.den) = ((a : Int), (i : Int)) ∧ RootParts a i q.den ∧
      (a * a * i : Int) = q.num * q.den ∧ Squarefree i ∧ (a / q.den * (a / q.den) * i : ℚ) = q := by
  have hnum : 0 < q.num := Rat.num_pos.mpr hq
  have hden : (0 : Int) < q.den := by exact_mod_cast q.den_pos
  obtain ⟨a, i, hparts, hval, hsmall⟩ := squareParts_leaves_no_square (Int.mul_pos hnum hden)
  refine ⟨a, i, hparts, rootParts hnum hn hden hd hval, hval, ?_, ?_⟩
  · have hnat : a * a * i = q.num.toNat * q.den := by
      have := Int.toNat_of_nonneg hnum.le
      zify
      rw [this]
      exact_mod_cast hval
    refine squarefree_of_coprime (n := q.num.toNat) (d := q.den) ?_ (by omega) q.den_pos ?_ ?_ ?_ hsmall
    · have := q.reduced
      rwa [show q.num.toNat = q.num.natAbs by omega]
    · simp only [fractionLimit, trialLimit] at *
      omega
    · simp only [fractionLimit, trialLimit] at *
      omega
    · exact hnat ▸ Nat.dvd_mul_left i (a * a)
  · have hq' : (q.den : ℚ) ≠ 0 := by exact_mod_cast q.den_nz
    have hvalq : (a * a * i : ℚ) = q.num * q.den := by exact_mod_cast hval
    rw [div_mul_div_comm, div_mul_eq_mul_div, hvalq, mul_div_mul_right _ _ hq', Rat.num_div_den]

/-- What is computed as the root of a reduced fraction in range is `c * √m` with `m` square-free. -/
lemma ofFraction?_rooted {q : ℚ} (hq : 0 < q) (hn : q.num ≤ fractionLimit) (hd : (q.den : Int) ≤ fractionLimit) :
    ∃ (c : ℚ) (m : Nat), ofFraction? q.num q.den = some (rooted c m) ∧ 0 < c ∧ Squarefree m ∧ c * c * m = q := by
  obtain ⟨a, i, hparts, hp, -, hfree, hsquare⟩ := root_parts hq hn hd
  have hcoeff : Number.ofParts a q.den = .exact (a / q.den) := by rw [hp.coeff, Rat.divInt_eq_div]; rfl
  have ha : a ≠ 0 := by
    rintro rfl
    simp at hsquare
    exact hq.ne hsquare
  refine ⟨a / q.den, i, ?_, div_pos (by positivity) (by exact_mod_cast q.den_pos), hfree, hsquare⟩
  have hnum : 0 < q.num := Rat.num_pos.mpr hq
  have hden : (0 : Int) < q.den := by exact_mod_cast q.den_pos
  have hrange : ¬ (q.num < 0 ∨ (q.den : Int) ≤ 0 ∨ q.num > fractionLimit ∨ (q.den : Int) > fractionLimit) := by omega
  simp only [ofFraction?, if_neg hrange, hparts, hcoeff, rooted]
  have hone : (Number.exact (a / q.den : ℚ)).isOne = true ↔ (a / q.den : ℚ) = 1 := by
    refine ⟨Number.isOne_exact, fun h => ?_⟩
    rw [h]
    rfl
  by_cases hi : i = 1
  · simp [hi]
  · by_cases hc : (a / q.den : ℚ) = 1
    · simp [hi, hc]
      rfl
    · simp [hi, hc, hone]

end Radical

namespace Expr

/-- The root of one is one, that of any other positive fraction in range is taken by `Radical.ofFraction?`. -/
lemma pow_half (o : Overflow) {q : ℚ} {r : Expr} (hq : 0 < q) (h1 : q = 1 → r = int 1)
    (h : Radical.ofFraction? q.num q.den = some r) : pow o (.num (.exact q)) half = .ok r := by
  show (if (Expr.num (.exact q)).isInt 1 then _ else foldPower o (.num (.exact q)) half >>= _) = _
  split
  · next hone =>
    rw [isInt_one] at hone
    rw [h1 (Number.isOne_exact hone)]
    rfl
  · have hz : (Number.exact q).isZero = false := by
      rw [Bool.eq_false_iff, ne_eq, Number.isZero_exact]
      exact hq.ne'
    have hfold : foldPower o (.num (.exact q)) half = .ok (some r) := by
      show (if (Number.exact q).isZero && _ then _ else pure (Radical.ofFraction? q.num q.den)) = _
      rw [hz, Bool.false_and, if_neg (by decide), h]
      rfl
    rw [hfold]
    rfl

/-- Square roots are canonical. The integer under the root keeps no square of a number up to a million, and a positive
fraction with numerator and denominator up to a million squared has the root `c * √m` with the only positive rational
`c` and square-free number `m` for which `c * c * m` is the fraction. -/
theorem squareRoot_canonical :
    (∀ n : Int, (Radical.squareParts n).1 * (Radical.squareParts n).1 * (Radical.squareParts n).2 = n ∧
      (0 < n → 0 < (Radical.squareParts n).2 ∧
        ∀ k : Int, 2 ≤ k → k ≤ 1000000 → ¬ k * k ∣ (Radical.squareParts n).2)) ∧
    ∀ (o : Overflow) (q : ℚ), 0 < q → q.num ≤ 10 ^ 12 → q.den ≤ 10 ^ 12 → ∃ (c : ℚ) (m : Nat),
      pow o (.num (.exact q)) half = .ok (Radical.rooted c m) ∧ 0 < c ∧ 0 < m ∧ Squarefree m ∧ c * c * m = q ∧
        ∀ (c' : ℚ) (m' : Nat), 0 < c' → Squarefree m' → c' * c' * m' = q → c' = c ∧ m' = m := by
  refine ⟨Radical.squareParts_canonical, fun o q hq hn hd => ?_⟩
  have hd' : (q.den : Int) ≤ Radical.fractionLimit := by
    simp only [Radical.fractionLimit]
    omega
  obtain ⟨c, m, hroot, hc, hm, hval⟩ := Radical.ofFraction?_rooted hq hn hd'
  have hunique : ∀ (c' : ℚ) (m' : Nat), 0 < c' → Squarefree m' → c' * c' * m' = q → c' = c ∧ m' = m :=
    fun c' m' hc' hm' hval' => Radical.root_unique hc' hc hm' hm (hval'.trans hval.symm)
  refine ⟨c, m, pow_half o hq (fun h1 => ?_) hroot, hc, Nat.pos_of_ne_zero hm.ne_zero, hm, hval, hunique⟩
  obtain ⟨rfl, rfl⟩ := hunique 1 1 one_pos squarefree_one (by rw [h1]; norm_num)
  rfl

/-- The root of 8/9 is 2/3 times the root of 2, and 72 is 36 times 2, in which no square is left. -/
theorem squareRoot_canonical_fraction :
    pow .approximate (frac 8 9) half = .ok (.times [frac 2 3, .power (int 2) half]) ∧
    (Radical.squareParts 72).1 * (Radical.squareParts 72).1 * (Radical.squareParts 72).2 = 72 ∧
    ¬ (3 : Int) * 3 ∣ (Radical.squareParts 72).2 := by
  have h := squareRoot_canonical.1 72
  refine ⟨?_, h.1, (h.2 (by decide)).2 3 (by decide) (by decide)⟩
  obtain ⟨c, m, hroot, -, -, -, -, hunique⟩ :=
    squareRoot_canonical.2 .approximate (Rat.divInt 8 9) (by decide) (by decide) (by decide)
  have hsquare : Rat.divInt 2 3 * Rat.divInt 2 3 * (2 : Nat) = Rat.divInt 8 9 := by
    rw [Rat.divInt_eq_div, Rat.divInt_eq_div]
    norm_num
  obtain ⟨rfl, rfl⟩ := hunique (Rat.divInt 2 3) 2 (by decide) Nat.prime_two.prime.squarefree hsquare
  exact hroot

end Expr

end PlaneCalculus
