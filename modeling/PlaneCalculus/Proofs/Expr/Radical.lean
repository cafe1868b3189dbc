import Mathlib.Algebra.GroupWithZero.Divisibility
import Mathlib.Tactic.Ring
import PlaneCalculus.Expr.Radical
import PlaneCalculus.Proofs.Number.Exact
import PlaneCalculus.Proofs.Number.Range

/-! What is left under a root has no square to give any more: taking its root again changes nothing. -/

namespace PlaneCalculus.Radical

lemma pullSquares_dvd (factor outside inside : Nat) : (pullSquares factor outside inside).2 ∣ inside := by
  fun_induction pullSquares factor outside inside with
  | case1 factor outside inside _ hd ih => exact ih.trans (Nat.div_dvd_of_dvd (Nat.dvd_of_mod_eq_zero hd))
  | case2 _ _ _ _ _ ih => exact ih
  | case3 => exact dvd_rfl

lemma pullSquares_again (factor outside inside k : Nat) :
    pullSquares factor k (pullSquares factor outside inside).2 = (k, (pullSquares factor outside inside).2) := by
  fun_induction pullSquares factor outside inside with
  | case1 _ _ _ _ _ ih => exact ih
  | case2 factor outside inside hc hd ih =>
    rw [pullSquares]
    split
    · rw [if_neg, ih]
      intro hj
      have hdvd := (Nat.dvd_of_mod_eq_zero hj).trans (pullSquares_dvd (factor + 1) outside inside)
      exact hd (Nat.mod_eq_zero_of_dvd hdvd)
    · rfl
  | case3 factor outside inside hc => rw [pullSquares, if_neg hc]

lemma exactRoot?_eq {n r : Nat} (h : exactRoot? n = some r) : r * r = n := by
  have hr := List.find?_some h
  simp only [Bool.and_eq_true, decide_eq_true_eq] at hr
  exact hr.2

lemma squareParts_pos {k : Nat} (hk : 0 < k) : squareParts k =
    (exactRoot? (pullSquares 2 1 k).2).elim (((pullSquares 2 1 k).1 : Int), ((pullSquares 2 1 k).2 : Int))
      fun root => (((pullSquares 2 1 k).1 * root : Int), (1 : Int)) := by
  unfold squareParts
  rw [if_neg (by omega), if_neg (by omega), Int.toNat_natCast]
  obtain ⟨outside, inside⟩ := pullSquares 2 1 k
  dsimp only
  cases exactRoot? inside <;> rfl

lemma squareParts_spec {m : Int} (hm : 0 < m) : ∃ o i : Nat,
    squareParts m = ((o : Int), (i : Int)) ∧ (o * o * i : Int) = m ∧ (i ≠ 1 → squareParts i = (1, (i : Int))) := by
  obtain ⟨m, rfl⟩ := Int.eq_ofNat_of_zero_le hm.le
  have hv := pullSquares_value 2 1 m
  have hagain := pullSquares_again 2 1 m 1
  rw [Nat.one_mul] at hv
  have hpos : 0 < (pullSquares 2 1 m).2 := by
    rcases Nat.eq_zero_or_pos (pullSquares 2 1 m).2 with h | h
    · rw [h] at hv
      omega
    · exact h
  have hm' := squareParts_pos (k := m) (by omega)
  cases hr : exactRoot? (pullSquares 2 1 m).2 with
  | some root =>
    rw [hr] at hm'
    refine ⟨(pullSquares 2 1 m).1 * root, 1, hm', ?_, fun h => absurd rfl h⟩
    have hz : ((pullSquares 2 1 m).1 * (pullSquares 2 1 m).1 * (root * root) : Int) = m := by
      rw [← exactRoot?_eq hr] at hv
      exact_mod_cast hv
    rw [← hz]
    push_cast
    ring
  | none =>
    rw [hr] at hm'
    refine ⟨(pullSquares 2 1 m).1, (pullSquares 2 1 m).2, hm', by exact_mod_cast hv, fun _ => ?_⟩
    rw [squareParts_pos hpos, hagain, hr]
    rfl

/-- The parts are small enough to be counted exactly, and the coefficient does not vanish. -/
structure RootParts (a i : Nat) (d : Int) : Prop where
  outside : Number.fits a = true
  denominator : Number.fits d = true
  coeff : Number.ofParts a d = .exact (Rat.divInt a d)
  nonzero : (Number.ofParts a d).isZero = false
  inside_pos : i ≠ 0
  inside_le : i ≤ 1000000000000000000000000

lemma rootParts {n d : Int} {a i : Nat} (hn : 0 < n) (hnl : n ≤ fractionLimit) (hd : 0 < d) (hdl : d ≤ fractionLimit)
    (h : (a * a * i : Int) = n * d) : RootParts a i d := by
  have hm : 0 < n * d := Int.mul_pos hn hd
  have hml : n * d ≤ fractionLimit * fractionLimit := Int.mul_le_mul hnl hdl (by omega) (by decide)
  rw [← h] at hm hml
  have ha : a ≠ 0 := by
    rintro rfl
    simp at hm
  have hi : i ≠ 0 := by
    rintro rfl
    simp at hm
  have hal : a ≤ a * a * i := by
    rw [Nat.mul_assoc]
    exact Nat.le_mul_of_pos_right a (Nat.pos_of_ne_zero (Nat.mul_ne_zero ha hi))
  have hil : i ≤ a * a * i := Nat.le_mul_of_pos_left i (Nat.pos_of_ne_zero (Nat.mul_ne_zero ha ha))
  have hml' : a * a * i ≤ 1000000000000000000000000 := by
    simp only [fractionLimit] at hml
    exact_mod_cast hml
  simp only [fractionLimit] at hdl
  have hcoeff : Number.ofParts a d = .exact (Rat.divInt a d) := by
    refine Number.ofParts_eq_exact (by omega) ?_ ?_ <;> simp only [Number.bound] <;> omega
  refine ⟨?_, ?_, hcoeff, ?_, hi, by omega⟩
  · exact Number.fits_of_natAbs_le (by omega)
  · exact Number.fits_of_natAbs_le (by omega)
  · rw [hcoeff, Bool.eq_false_iff, ne_eq, Number.isZero_exact, Rat.divInt_eq_zero (by omega)]
    exact_mod_cast ha

lemma ofFraction?_cases {n d : Int} {r : Expr} (hn : n ≠ 0) (h : ofFraction? n d = some r) :
    ∃ a i : Nat, RootParts a i d ∧ (r = .num (.ofParts a d) ∨ (i ≠ 1 ∧ squareParts i = (1, (i : Int))) ∧
      (r = .power (.int i) .half ∨ (Number.ofParts a d).isOne = false ∧
        r = .times [.num (.ofParts a d), .power (.int i) .half])) := by
  unfold ofFraction? at h
  split at h
  · cases h
  · next hrange =>
    simp only [not_or, not_lt, not_le] at hrange
    obtain ⟨hn0, hd0, hnl, hdl⟩ := hrange
    obtain ⟨a, i, hparts, hai, hagain⟩ := squareParts_spec (Int.mul_pos (by omega : 0 < n) hd0)
    refine ⟨a, i, rootParts (by omega) hnl hd0 hdl hai, ?_⟩
    simp only [hparts] at h
    split at h
    · cases h
      exact Or.inl rfl
    · next hi =>
      have hi1 : i ≠ 1 := by exact_mod_cast hi
      refine Or.inr ⟨⟨hi1, hagain hi1⟩, ?_⟩
      split at h
      · cases h
        exact Or.inl rfl
      · next hone =>
        cases h
        exact Or.inr ⟨by simpa using hone, rfl⟩

end PlaneCalculus.Radical
