import Mathlib.Algebra.Order.Field.Rat
import Mathlib.Algebra.Group.Int.Even
import Mathlib.Tactic.FieldSimp
import PlaneCalculus.Number.Overflow

/-! An exact result of an operation on exact numbers is the result in the rationals. -/

namespace PlaneCalculus.Number

@[simp] lemma isZero_ofInt (k : Int) : (ofInt k).isZero = decide (k = 0) := rfl

@[simp] lemma isNegative_ofInt (k : Int) : (ofInt k).isNegative = decide (k < 0) := rfl

@[simp] lemma isZero_exact (q : Rat) : (exact q).isZero = true ↔ q = 0 := by simp [isZero]

lemma isOne_exact {q : Rat} (h : (exact q).isOne = true) : q = 1 := by
  simp only [isOne, Bool.and_eq_true, decide_eq_true_eq] at h
  exact Rat.ext h.1 h.2

lemma eq_of_isOne {n : Number} (h : n.isOne = true) : n = ofInt 1 := by
  cases n with
  | exact q => exact congrArg exact (isOne_exact h)
  | approx v => cases h

variable {p q r : Rat}

lemma ofParts_exact {n d : Int} (h : ofParts n d = .exact r) : r = n / d ∧ d ≠ 0 := by
  rw [ofParts_eq] at h
  split at h
  · cases h
  · next hd =>
    split at h
    · cases h
    · cases h
      exact ⟨Rat.divInt_eq_div n d, hd⟩

lemma ofParts_eq_exact {n d : Int} (hd : d ≠ 0) (hn : n ≠ -bound) (hd' : d ≠ -bound) :
    ofParts n d = .exact (Rat.divInt n d) := by
  rw [ofParts_eq]
  rw [if_neg hd, if_neg (not_or.mpr ⟨hn, hd'⟩)]

lemma add_exact (h : (exact p).add (exact q) = .exact r) : r = p + q := by
  simp only [add] at h
  split at h
  · obtain ⟨rfl, -⟩ := ofParts_exact h
    have hp : (p.den : Rat) ≠ 0 := by exact_mod_cast p.den_nz
    have hq : (q.den : Rat) ≠ 0 := by exact_mod_cast q.den_nz
    conv_rhs => rw [← Rat.num_div_den p, ← Rat.num_div_den q]
    push_cast
    field_simp
  · cases h

lemma mul_exact (h : (exact p).mul (exact q) = .exact r) : r = p * q := by
  simp only [mul] at h
  split at h
  · obtain ⟨rfl, -⟩ := ofParts_exact h
    conv_rhs => rw [← Rat.num_div_den p, ← Rat.num_div_den q]
    push_cast
    rw [div_mul_div_comm]
  · cases h

lemma div_exact (h : (exact p).div (exact q) = .exact r) : r = p / q := by
  simp only [div] at h
  split at h
  · obtain ⟨rfl, -⟩ := ofParts_exact h
    conv_rhs => rw [← Rat.num_div_den p, ← Rat.num_div_den q]
    push_cast
    rw [div_div_div_eq]
  · cases h

lemma powFits_eq {b : Int} {e : Nat} {r : Int} (h : powFits b e = some r) : r = b ^ e := by
  unfold powFits at h
  split at h
  · cases h
  · next hl =>
    split at h
    · next he =>
      have hb : b = 0 ∨ b = 1 ∨ b = -1 := by omega
      cases h
      rcases hb with rfl | rfl | rfl
      · simp [zero_pow (by omega : e ≠ 0)]
      · simp
      · rcases Nat.even_or_odd e with hev | hod
        · simp [Nat.even_iff.mp hev, hev.neg_one_pow]
        · simp [Nat.odd_iff.mp hod, hod.neg_one_pow]
    · split at h
      · cases h
        rfl
      · cases h

lemma powInt_exact {e : Int} (h : (exact q).powInt e = .exact r) : r = q ^ e ∧ (q ≠ 0 ∨ 0 ≤ e) := by
  unfold powInt at h
  simp only at h
  split at h
  · cases h
  · split at h
    · next n d hn hd =>
      obtain ⟨rfl, hz⟩ := ofParts_exact h
      obtain rfl := powFits_eq hn
      obtain rfl := powFits_eq hd
      rcases lt_or_ge e 0 with he | he
      · obtain ⟨k, rfl⟩ : ∃ k : Nat, e = -(k : Int) := ⟨e.natAbs, by omega⟩
        simp only [he, if_true, Int.natAbs_neg, Int.natAbs_natCast] at hz ⊢
        have hq : q ≠ 0 := by
          rintro rfl
          exact hz (zero_pow (by omega))
        refine ⟨?_, Or.inl hq⟩
        rw [zpow_neg, zpow_natCast]
        conv_rhs => rw [← Rat.num_div_den q, div_pow, inv_div]
        push_cast
        rfl
      · obtain ⟨k, rfl⟩ : ∃ k : Nat, e = (k : Int) := ⟨e.natAbs, by omega⟩
        simp only [not_lt.mpr he, if_false, Int.natAbs_natCast] at hz ⊢
        refine ⟨?_, Or.inr he⟩
        rw [zpow_natCast]
        conv_rhs => rw [← Rat.num_div_den q, div_pow]
        push_cast
        rfl
    · cases h

end PlaneCalculus.Number
