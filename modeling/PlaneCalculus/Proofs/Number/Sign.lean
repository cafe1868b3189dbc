import Mathlib
import PlaneCalculus.Proofs.Number.Exact

/-! The sign of a double through multiplication and division. Main statement: what a number below zero is negated to is
not below zero, also where the number or its negation has no exact form. -/

namespace PlaneCalculus.Double

open Float.Model Float.Model.UnpackedFloat

variable {spec : Format} {s t : Sign}

/-- A number with the given sign bit, or no number at all. -/
def Signed (s : Sign) : UnpackedFloat → Prop
  | .notANumber => True
  | .infinity r => r = s
  | .zero r => r = s
  | .finite r _ _ _ => r = s

lemma signed_round (m : Nat) (e : Int) (a : Accuracy) : Signed s (roundWithAccuracy spec s m e a) := by
  unfold roundWithAccuracy
  dsimp only
  split <;> exact rfl

lemma signed_mul {a b : UnpackedFloat} (ha : Signed s a) (hb : Signed t b) : Signed (s * t) (mul spec a b) := by
  cases a <;> cases b <;> simp only [Signed] at ha hb <;> subst_vars <;>
    first | exact trivial | exact rfl | exact signed_round _ _ _

lemma signed_div {a b : UnpackedFloat} (ha : Signed s a) (hb : Signed t b) : Signed (s / t) (div spec a b) := by
  cases a <;> cases b <;> simp only [Signed] at ha hb <;> subst_vars <;>
    first | exact trivial | exact rfl | exact signed_round _ _ _

lemma signed_unpack_packComponents (e : BitVec spec.exponentBits) (m : BitVec spec.mantissaBitsWithoutImplicit) :
    Signed s (UnpackedFloat.unpack spec (packComponents spec s e m)) := by
  have hs : Sign.ofBitVec (unpackSign (packComponents spec s e m)) = s := by
    have hb : unpackSign (packComponents spec s e m) = s.toBitVec := by
      ext i hi
      obtain rfl : i = 0 := by omega
      simp [unpackSign, packComponents, BitVec.getLsbD_append, BitVec.getElem_append]
    rw [hb]
    cases s <;> rfl
  unfold UnpackedFloat.unpack
  dsimp only
  rw [hs]
  split
  · split <;> trivial
  · split
    · split <;> rfl
    · rfl

lemma signed_unpack_pack {a : UnpackedFloat} (ha : Signed s a) : Signed s (Float.Model.pack a).unpack := by
  change Signed s (UnpackedFloat.unpack .binary64 (UnpackedFloat.pack .binary64 a))
  unfold UnpackedFloat.pack
  cases a with
  | notANumber => exact trivial
  | infinity r => exact ha ▸ signed_unpack_packComponents _ _
  | zero r => exact ha ▸ signed_unpack_packComponents _ _
  | finite r m e hm =>
    obtain rfl : r = s := ha
    dsimp only
    split
    · exact signed_unpack_packComponents _ _
    · split <;> exact signed_unpack_packComponents _ _

def HasSign (s : Sign) (v : Float) : Prop := Signed s v.toModel.unpack

lemma HasSign.mul {v w : Float} (hv : HasSign s v) (hw : HasSign t w) : HasSign (s * t) (v * w) :=
  signed_unpack_pack (signed_mul hv hw)

lemma HasSign.div {v w : Float} (hv : HasSign s v) (hw : HasSign t w) : HasSign (s / t) (v / w) :=
  signed_unpack_pack (signed_div hv hw)

lemma unpack_zero : (0.0 : Float).toModel.unpack = .zero .positive := rfl

lemma hasSign_of_lt_zero {v : Float} (h : v < 0.0) : HasSign .negative v := by
  have hl : UnpackedFloat.lt v.toModel.unpack (0.0 : Float).toModel.unpack = true := of_decide_eq_true h
  rw [unpack_zero] at hl
  unfold HasSign
  generalize v.toModel.unpack = a at hl ⊢
  cases a with
  | notANumber => exact trivial
  | infinity r => cases r <;> first | rfl | cases hl
  | zero r => cases hl
  | finite r m e hm => cases r <;> first | rfl | cases hl

lemma not_lt_zero_of_hasSign {v : Float} (h : HasSign .positive v) : ¬ v < 0.0 := by
  intro hl
  have hl : UnpackedFloat.lt v.toModel.unpack (0.0 : Float).toModel.unpack = true := of_decide_eq_true hl
  rw [unpack_zero] at hl
  unfold HasSign at h
  generalize v.toModel.unpack = a at hl h
  cases a with
  | notANumber => cases hl
  | infinity r => obtain rfl : r = .positive := h; cases hl
  | zero r => cases hl
  | finite r m e hm => obtain rfl : r = .positive := h; cases hl

lemma signed_normalize (n : Int) (h : 0 ≤ n) : Signed .positive (UnpackedFloat.normalize spec n 0 .positive) := by
  unfold UnpackedFloat.normalize
  split
  · next hc => exact absurd (compare_lt_iff_lt.mp hc) (not_lt.mpr h)
  · rfl
  · exact signed_round _ _ _

lemma signed_ofScientific (m : Nat) (e : Int) : Signed .positive (UnpackedFloat.ofScientific spec m e) := by
  unfold UnpackedFloat.ofScientific
  split
  · rfl
  · split
    · rfl
    · split
      · rfl
      · split
        · exact signed_mul (s := .positive) (t := .positive) rfl rfl
        · exact signed_div (s := .positive) (t := .positive) rfl rfl

lemma hasSign_ofNat (n : Nat) : HasSign .positive (Float.ofNat n) := by
  change HasSign .positive (Float.ofScientific n false 0)
  unfold Float.ofScientific
  split
  · have hn : HasSign .positive n.toUInt64.toFloat := signed_unpack_pack (signed_normalize _ (by omega))
    have h1 : HasSign .positive (getElem Float.exactlyRepresentablePowersOfTen 0 (by decide)) := by
      change Sign.positive = Sign.positive
      rfl
    exact hn.mul h1
  · exact signed_unpack_pack (signed_ofScientific _ _)

lemma hasSign_neg {v : Float} (h : HasSign .positive v) : HasSign .negative (-v) := by
  have hn : Signed .negative v.toModel.unpack.neg := by
    unfold HasSign at h
    generalize v.toModel.unpack = a at h ⊢
    cases a <;> simp only [Signed] at h <;> subst_vars <;> first | exact trivial | exact rfl
  exact signed_unpack_pack hn

lemma hasSign_ofInt {n : Int} (h : n < 0) : HasSign .negative (Float.ofInt n) := by
  cases n with
  | ofNat n => exact absurd h (by simp)
  | negSucc n => exact hasSign_neg (hasSign_ofNat _)

end PlaneCalculus.Double

namespace PlaneCalculus.Number

open Double Float.Model.UnpackedFloat

lemma hasSign_toFloat {a : Number} (h : a.isNegative = true) : HasSign .negative a.toFloat := by
  cases a with
  | exact q => exact (hasSign_ofInt (of_decide_eq_true h)).div (t := .positive) (hasSign_ofNat _)
  | approx v => exact hasSign_of_lt_zero (of_decide_eq_true h)

lemma hasSign_minusOne : HasSign .negative (ofInt (-1)).toFloat := rfl

lemma isNegative_neg {a : Number} (h : a.isNegative = true) : a.neg.isNegative = false := by
  have hf : (Number.approx (a.toFloat * (ofInt (-1)).toFloat)).isNegative = false :=
    decide_eq_false (not_lt_zero_of_hasSign ((hasSign_toFloat h).mul hasSign_minusOne))
  cases a with
  | approx v => exact hf
  | exact q =>
    have hq : q.num < 0 := of_decide_eq_true h
    cases hn : (exact q).neg with
    | exact r =>
      obtain rfl := mul_exact hn
      have hr : q ≤ 0 := Rat.num_nonpos.mp hq.le
      simpa [isNegative] using hr
    | approx v =>
      rw [← hn]
      simp only [neg, mul, ofInt] at hn ⊢
      split
      · next hc =>
        -- The one fitting integer without a fitting negation cannot be met: the numerator is below zero.
        rw [if_pos hc] at hn
        have hden := q.den_pos
        have he := ofParts_eq_exact (n := q.num * ((-1 : Int) : Rat).num) (d := (q.den : Int) * ((-1 : Int) : Rat).den)
          (by simp) (by rw [Rat.num_intCast, bound]; omega) (by rw [Rat.den_intCast, bound]; omega)
        rw [he] at hn
        cases hn
      · exact hf

end PlaneCalculus.Number
