import Mathlib.Data.Rat.Lemmas
import PlaneCalculus.Proofs.Calc.Meets

/-! The exact range. A number is in range when it is exact and its negation is exact as well; calculations that refuse
inexact results stay in range. -/

namespace PlaneCalculus

namespace Number

def InRange (n : Number) : Prop := ∃ q : Rat, n = .exact q ∧ q.num ≠ -bound

lemma InRange.isExact {n : Number} (h : InRange n) : n.isExact = true := by
  obtain ⟨q, rfl, -⟩ := h
  rfl

lemma inRange_ofInt {k : Int} (h : k ≠ -bound) : InRange (ofInt k) := ⟨k, rfl, h⟩

lemma fits_of_natAbs_le {n : Int} (h : n.natAbs ≤ 1000000000000000000000000) : fits n = true := by
  simp only [fits, Bool.and_eq_true, decide_eq_true_eq]
  simp only [bound]
  omega

lemma ofParts_inRange {n d : Int} (hn : fits n = true) (h : (ofParts n d).isExact = true) : InRange (ofParts n d) := by
  rw [ofParts_eq] at h ⊢
  split at h
  · cases h
  · next hd =>
    split at h
    · cases h
    · next hb =>
      rw [if_neg hd, if_neg hb]
      refine ⟨_, rfl, fun hnum => ?_⟩
      obtain ⟨c, hc⟩ := Rat.num_dvd n hd
      rw [hnum] at hc
      simp only [fits, Bool.and_eq_true, decide_eq_true_eq] at hn
      simp only [bound] at hn hb hc
      obtain rfl : n = 0 := by omega
      rw [Rat.zero_divInt] at hnum
      exact absurd hnum (by decide)

lemma powFits_fits {b : Int} {e : Nat} {r : Int} (h : powFits b e = some r) : fits r = true := by
  unfold powFits at h
  split at h
  · cases h
  · next hl =>
    split at h
    · next he =>
      have hb : b = 0 ∨ b = 1 ∨ b = -1 := by omega
      cases h
      rcases hb with rfl | rfl | rfl <;> split <;> decide
    · split at h
      · next hf =>
        cases h
        exact hf
      · cases h

/-- A property of doubles and of reduced fractions of fitting parts, which are all the results there are. -/
structure ResultLaw (Q : Number → Prop) : Prop where
  approx : ∀ v, Q (.approx v)
  parts : ∀ n d, fits n = true → fits d = true → Q (ofParts n d)

namespace ResultLaw

variable {Q : Number → Prop} (L : ResultLaw Q)
include L

lemma add (a b : Number) : Q (a.add b) := by
  unfold Number.add
  split
  · simp only
    split
    · next hf =>
      simp only [Bool.and_eq_true] at hf
      exact L.parts _ _ hf.1.2 hf.2
    · exact L.approx _
  · exact L.approx _

lemma mul (a b : Number) : Q (a.mul b) := by
  unfold Number.mul
  split
  · simp only
    split
    · next hf =>
      simp only [Bool.and_eq_true] at hf
      exact L.parts _ _ hf.1 hf.2
    · exact L.approx _
  · exact L.approx _

lemma div (a b : Number) : Q (a.div b) := by
  unfold Number.div
  split
  · simp only
    split
    · next hf =>
      simp only [Bool.and_eq_true] at hf
      exact L.parts _ _ hf.1.2 hf.2
    · exact L.approx _
  · exact L.approx _

lemma powInt (a : Number) (k : Int) : Q (a.powInt k) := by
  unfold Number.powInt
  split
  · simp only
    split
    · exact L.approx _
    · split
      · next hn hd => exact L.parts _ _ (powFits_fits hn) (powFits_fits hd)
      · exact L.approx _
  · exact L.approx _

end ResultLaw

lemma inRange_resultLaw : ResultLaw fun r => r.isExact = true → InRange r where
  approx _ := nofun
  parts _ _ hn _ := ofParts_inRange hn

/-- Numerator and denominator of an exact number fit, and so do their negations. -/
def Bounded : Number → Prop
  | .exact q => (q.num.natAbs : Int) < bound ∧ (q.den : Int) < bound
  | .approx _ => True

lemma Bounded.inRange {q : Rat} (h : Bounded (.exact q)) : InRange (.exact q) := by
  refine ⟨q, rfl, fun hq => ?_⟩
  have hlt := h.1
  rw [hq] at hlt
  exact absurd hlt (by decide)

lemma ofParts_bounded {n d : Int} (hn : fits n = true) (hd : fits d = true) : Bounded (ofParts n d) := by
  rw [ofParts_eq]
  split
  · trivial
  · next hd0 =>
    split
    · trivial
    · next hb =>
      simp only [fits, Bool.and_eq_true, decide_eq_true_eq] at hn hd
      have hnum : (Rat.divInt n d).num.natAbs ≤ n.natAbs := by
        rcases eq_or_ne n 0 with rfl | hn0
        · simp
        · exact Nat.le_of_dvd (by omega) (Int.natAbs_dvd_natAbs.mpr (Rat.num_dvd n hd0))
      have hden : (Rat.divInt n d).den ≤ d.natAbs :=
        Nat.le_of_dvd (by omega) (Int.natCast_dvd.mp (Rat.den_dvd n d))
      simp only [Bounded, bound] at *
      omega

lemma bounded_resultLaw : ResultLaw Bounded where
  approx _ := trivial
  parts _ _ := ofParts_bounded

lemma abs_bounded {a : Number} (h : Bounded a) : Bounded a.abs := by
  cases a with
  | approx v => trivial
  | exact q =>
    show Bounded (if q.num = -bound then _ else .exact (if q.num < 0 then -q else q))
    split
    · trivial
    · split
      · simpa [Bounded, Rat.num_neg_eq_neg_num] using h
      · exact h

lemma abs_inRange {a : Number} (h : InRange a) : InRange a.abs := by
  obtain ⟨q, rfl, hq⟩ := h
  rw [abs, if_neg hq]
  refine ⟨_, rfl, ?_⟩
  split
  · next hneg =>
    rw [Rat.num_neg_eq_neg_num]
    simp only [bound]
    omega
  · exact hq

end Number

open Calc Number

lemma meets_inRange {exact : Bool} {r : Number} (he : exact = true) (hr : r.isExact = true → InRange r) :
    Meets anyHalt (Overflow.refuse.settle exact r) fun s => s = r ∧ InRange s := by
  refine meets_anyHalt_iff.mpr fun s hs => ?_
  obtain ⟨rfl, h⟩ := Overflow.refuse_settle hs
  exact ⟨rfl, hr (h he)⟩

end PlaneCalculus
