import PlaneCalculus.Calculus.Derivative
import PlaneCalculus.Proofs.Expr.RationalArithmetic
import PlaneCalculus.Proofs.Number.DualNumber

/-! The derivative of a rational expression has the value of the formal derivative: the infinitesimal part of the
expression at dual numbers, with the symbol moved by an infinitesimal. -/

namespace PlaneCalculus

open Calc TrivSqZeroExt

-- As for the constructors, nothing depends on where the exact range ends.
attribute [local irreducible] Number.fits

namespace Func

variable (u : Expr)

lemma square_consistent : Consistent (square · u) := Expr.pow_consistent u _

lemma reciprocal_consistent : Consistent (reciprocal · u) := Expr.pow_consistent u _

lemma oneMinusSquare_consistent : Consistent (oneMinusSquare · u) :=
  (square_consistent u).bind fun _ => Expr.sub_consistent _ _

lemma squarePlusOne_consistent : Consistent (squarePlusOne · u) :=
  (square_consistent u).bind fun _ => Expr.sum_consistent _

lemma sqrt_consistent : Consistent (Expr.sqrt · u) := Expr.pow_consistent u _

lemma inverseSecantRadical_consistent : Consistent (inverseSecantRadical · u) :=
  (square_consistent u).bind fun s => (reciprocal_consistent s).bind fun r => (Expr.sub_consistent _ r).bind fun d =>
    (sqrt_consistent d).bind fun _ => (square_consistent u).bind fun _ => Expr.product_consistent _

lemma derivativeAt_consistent (f : Func) : Consistent (derivativeAt · u f) := by
  have hneg (c : Overflow → Calc Expr) (hc : Consistent c) : Consistent fun o => c o >>= fun e => Expr.neg o e :=
    hc.bind fun e => Expr.neg_consistent e
  have hrec (c : Overflow → Calc Expr) (hc : Consistent c) : Consistent fun o => c o >>= fun e => reciprocal o e :=
    hc.bind fun e => reciprocal_consistent e
  have hroot (c : Overflow → Calc Expr) (hc : Consistent c) :
      Consistent fun o => c o >>= fun e => Expr.sqrt o e >>= fun r => reciprocal o r :=
    hc.bind fun e => (sqrt_consistent e).bind fun r => reciprocal_consistent r
  cases f with
  | sin | sinh | cosh | exp => exact .pure _
  | cos => exact Expr.neg_consistent _
  | tan => exact squarePlusOne_consistent _
  | csc | csch | sech => exact hneg _ (Expr.product_consistent _)
  | sec => exact Expr.product_consistent _
  | cot => exact hneg _ (squarePlusOne_consistent _)
  | asin => exact hroot _ (oneMinusSquare_consistent u)
  | acos => exact (oneMinusSquare_consistent u).bind fun d => (sqrt_consistent d).bind fun r =>
      (reciprocal_consistent r).bind fun e => Expr.neg_consistent e
  | atan => exact hrec _ (squarePlusOne_consistent u)
  | acsc => exact (inverseSecantRadical_consistent u).bind fun d => hneg _ (reciprocal_consistent d)
  | asec => exact hrec _ (inverseSecantRadical_consistent u)
  | acot => exact (squarePlusOne_consistent u).bind fun d => hneg _ (reciprocal_consistent d)
  | tanh | coth => exact oneMinusSquare_consistent _
  | asinh => exact hroot _ (squarePlusOne_consistent u)
  | acosh => exact (square_consistent u).bind fun _ => hroot _ (Expr.sum_consistent _)
  | atanh => exact hrec _ (oneMinusSquare_consistent u)
  | log => exact reciprocal_consistent u
  | abs => exact (reciprocal_consistent _).bind fun _ => Expr.product_consistent _

end Func

namespace Expr

lemma productRule_consistent (before fs ds : List Expr) : Consistent (productRule · before fs ds) := by
  induction fs generalizing before ds with
  | nil => exact .pure _
  | cons f fs ih =>
    cases ds with
    | nil => exact .pure _
    | cons d ds => exact (ih _ ds).bind fun _ => .ite (.pure _) ((product_consistent _).bind fun _ => .pure _)

mutual

lemma derivative_consistent (v : String) : (e : Expr) → Consistent (derivative · v e)
  | .num _ => .pure _
  | .symbol _ => .pure _
  | .constant _ => .pure _
  | .plus ts => by
    simp only [derivative]
    exact .ite (.pure _) ((derivatives_consistent v ts).bind fun _ => sum_consistent _)
  | .times fs => by
    simp only [derivative]
    refine .ite (.pure _) ((derivatives_consistent v fs).bind fun ds => ?_)
    exact (productRule_consistent [] fs ds).bind fun _ => sum_consistent _
  | .power b e => by
    simp only [derivative]
    refine .ite (.pure _) (.ite ?_ (.ite ?_ ?_))
    · refine (sum_consistent _).bind fun x => (pow_consistent b x).bind fun l => ?_
      exact (derivative_consistent v b).bind fun _ => product_consistent _
    · exact (derivative_consistent v e).bind fun _ => product_consistent _
    · refine (derivative_consistent v e).bind fun de => (product_consistent _).bind fun first => ?_
      refine (derivative_consistent v b).bind fun db => (pow_consistent b _).bind fun r => ?_
      refine (product_consistent _).bind fun second => (sum_consistent _).bind fun s => ?_
      exact product_consistent _
  | .call f a => by
    simp only [derivative]
    refine .ite (.pure _) ((derivative_consistent v a).bind fun da => ?_)
    exact (f.derivativeAt_consistent a).bind fun _ => product_consistent _

lemma derivatives_consistent (v : String) : (es : List Expr) → Consistent (derivatives · v es)
  | [] => .pure _
  | e :: es => by
    simp only [derivatives]
    exact (derivative_consistent v e).bind fun _ => (derivatives_consistent v es).bind fun _ => .pure _

end

/-! ### Dual numbers -/

section Dual

variable {R : Type} [CommRing R] [Algebra ℚ R] [Inv R] (ρ : String → R) (v : String)

def dualPoint : String → DualNumber R := fun s => if s = v then inl (ρ s) + DualNumber.eps else inl (ρ s)

/-- The formal derivative of an expression: the infinitesimal part of its value at dual numbers. -/
def dualPart (e : Expr) : R := snd (value (dualPoint ρ v) e)

/-- The formal second derivative of an expression, by `v` and then by `w`. -/
def secondPart (w : String) (e : Expr) : R := snd (dualPart (dualPoint ρ w) v e)

omit [Algebra ℚ R] [Inv R] in
lemma fst_dualPoint (s : String) : fst (dualPoint ρ v s) = ρ s := by
  unfold dualPoint
  split <;> simp

omit [Inv R] in
lemma algebraMap_dual (q : ℚ) : algebraMap ℚ (DualNumber R) q = inl (algebraMap ℚ R q) := rfl

mutual

lemma fst_value : (e : Expr) → fst (value (dualPoint ρ v) e) = value ρ e
  | .num n => by rw [value, value, algebraMap_dual, fst_inl]
  | .symbol s => fst_dualPoint ρ v s
  | .constant _ | .call _ _ => fst_zero
  | .plus ts => (fst_values ts).1
  | .times fs => (fst_values fs).2
  | .power b e => by rw [value, value, fst_wholePower, fst_value b]

lemma fst_values : (es : List Expr) → fst (sumValue (dualPoint ρ v) es) = sumValue ρ es ∧
    fst (productValue (dualPoint ρ v) es) = productValue ρ es
  | [] => ⟨fst_zero, fst_one⟩
  | e :: es => by
    obtain ⟨hs, hp⟩ := fst_values es
    rw [sumValue, sumValue, productValue, productValue, fst_add, fst_mul, fst_value e, hs, hp]
    exact ⟨rfl, rfl⟩

end

mutual

lemma defined_dualPoint : (e : Expr) → Defined (dualPoint ρ v) e ↔ Defined ρ e
  | .num _ | .symbol _ | .constant _ | .call _ _ => Iff.rfl
  | .plus ts => allDefined_dualPoint ts
  | .times fs => allDefined_dualPoint fs
  | .power b e => by simp only [Defined, defined_dualPoint b, raisable_dual, fst_value]

lemma allDefined_dualPoint : (es : List Expr) → AllDefined (dualPoint ρ v) es ↔ AllDefined ρ es
  | [] => Iff.rfl
  | e :: es => by simp only [AllDefined, defined_dualPoint e, allDefined_dualPoint es]

end

lemma dualPart_num (n : Number) : dualPart ρ v (.num n) = 0 := by rw [dualPart, value, algebraMap_dual, snd_inl]

lemma dualPart_symbol (s : String) : dualPart ρ v (.symbol s) = if s = v then 1 else 0 := by
  rw [dualPart, value, dualPoint]
  split <;> simp

lemma dualPart_plus (ts : List Expr) : dualPart ρ v (.plus ts) = (ts.map (dualPart ρ v)).sum := by
  rw [dualPart, value_plus]
  induction ts with
  | nil => simp
  | cons t ts ih => rw [List.map_cons, List.sum_cons, snd_add, ih, List.map_cons, List.sum_cons, dualPart]

def productDualPart : List Expr → R
  | [] => 0
  | f :: fs => dualPart ρ v f * (fs.map (value ρ)).prod + value ρ f * productDualPart fs

lemma dualPart_times (fs : List Expr) : dualPart ρ v (.times fs) = productDualPart ρ v fs := by
  rw [dualPart, value_times]
  induction fs with
  | nil => exact snd_one
  | cons f fs ih =>
    have hf := (fst_values ρ v fs).2
    rw [productValue_eq, productValue_eq] at hf
    rw [List.map_cons, List.prod_cons, DualNumber.snd_mul, ih, fst_value, hf, productDualPart, dualPart]
    ring

lemma productDualPart_eq_zero {fs : List Expr} (h : ∀ f ∈ fs, dualPart ρ v f = 0) : productDualPart ρ v fs = 0 := by
  induction fs with
  | nil => rfl
  | cons f fs ih =>
    rw [List.forall_mem_cons] at h
    rw [productDualPart, h.1, ih h.2, zero_mul, mul_zero, add_zero]

lemma dualPart_power (b : Expr) {k : Int} (hk : k ≠ 0) :
    dualPart ρ v (.power b (int k)) = k * wholePower (value ρ b) (k - 1) * dualPart ρ v b := by
  rw [dualPart, value_power, snd_wholePower _ hk, fst_value, dualPart]

lemma dualPart_power_zero (b : Expr) : dualPart ρ v (.power b (int 0)) = 0 := by
  rw [dualPart, value_power, wholePower_zero, snd_one]

mutual

lemma dualPart_eq_zero : (e : Expr) → e.isConstantIn v = true → dualPart ρ v e = 0
  | .num n, _ => dualPart_num ρ v n
  | .symbol s, h => by
    have hs : s ≠ v := by simpa [isConstantIn] using h
    rw [dualPart_symbol, if_neg hs]
  | .constant _, _ | .call _ _, _ => snd_zero
  | .plus ts, h => by
    rw [dualPart_plus]
    exact List.sum_eq_zero (by simpa using dualParts_eq_zero ts h)
  | .times fs, h => by
    rw [dualPart_times]
    exact productDualPart_eq_zero ρ v (dualParts_eq_zero fs h)
  | .power b e, h => by
    simp only [isConstantIn, Bool.and_eq_true] at h
    by_cases hk : e.integer?.getD 0 = 0
    · rw [dualPart, value, hk, wholePower_zero, snd_one]
    · have hb : snd (value (dualPoint ρ v) b) = 0 := dualPart_eq_zero b h.1
      rw [dualPart, value, snd_wholePower _ hk, hb, mul_zero]

lemma dualParts_eq_zero : (es : List Expr) → allConstantIn v es = true → ∀ e ∈ es, dualPart ρ v e = 0
  | [], _ => by simp
  | e :: es, h => by
    simp only [allConstantIn, Bool.and_eq_true] at h
    exact List.forall_mem_cons.mpr ⟨dualPart_eq_zero e h.1, dualParts_eq_zero es h.2⟩

end

variable {ρ}

lemma value_of_isZero {e : Expr} (hd : Defined ρ e) (h : e.isZero = true) : value ρ e = 0 := by
  cases e with
  | num n =>
    obtain ⟨q, rfl⟩ := Number.exists_exact hd
    have hq : q = 0 := by simpa [isZero] using h
    rw [value_exact, hq, map_zero]
  | symbol | constant | plus | times | power | call => cases h

lemma productRule_value [HasInverses R] {before fs ds : List Expr} (hb : ∀ e ∈ before, Defined ρ e)
    (hf : ∀ e ∈ fs, Defined ρ e)
    (hd : List.Forall₂ (fun f d => HasValue ρ d (dualPart ρ v f)) fs ds) :
    Meets anyHalt (productRule .refuse before fs ds) fun rs =>
      (∀ r ∈ rs, Defined ρ r) ∧ (rs.map (value ρ)).sum = (before.map (value ρ)).prod * productDualPart ρ v fs := by
  induction hd generalizing before with
  | nil => simp [productRule, productDualPart]
  | @cons f d fs ds hd hds ih =>
    rw [List.forall_mem_cons] at hf
    have hbefore : ∀ e ∈ before ++ [f], Defined ρ e := by simpa [or_imp, forall_and] using ⟨hb, hf.1⟩
    refine (ih hbefore hf.2).bind fun rs ⟨hrs, hsum⟩ => ?_
    rw [List.map_append, List.prod_append] at hsum
    simp only [List.map_cons, List.map_nil, List.prod_cons, List.prod_nil, mul_one] at hsum
    split
    · next hz =>
      have h0 := hd.2 ▸ value_of_isZero hd.1 hz
      refine ⟨hrs, ?_⟩
      rw [hsum, productDualPart, h0]
      ring
    · have hargs : ∀ e ∈ before ++ fs ++ [d], Defined ρ e := by
        simpa [or_imp, forall_and] using ⟨hb, hf.2, hd.1⟩
      refine (product_value hargs).bind fun r ⟨hr, hrv⟩ => ?_
      refine ⟨List.forall_mem_cons.mpr ⟨hr, hrs⟩, ?_⟩
      simp only [List.map_append, List.prod_append, List.map_cons, List.map_nil, List.prod_cons, List.prod_nil, hd.2,
        mul_one] at hrv
      rw [List.map_cons, List.sum_cons, hrv, hsum, productDualPart]
      ring

lemma power_derivative_value [HasInverses R] {b : Expr} {k : Int} {c : Calc Expr} (h : Defined ρ (.power b (int k)))
    (hc : Meets anyHalt c (HasValue ρ · (dualPart ρ v b))) :
    Meets anyHalt (do
        let lowered ← Expr.pow .refuse b (← Expr.sum .refuse [int k, int (-1)])
        Expr.product .refuse [int k, lowered, ← c])
      (HasValue ρ · (dualPart ρ v (.power b (int k)))) := by
  obtain ⟨hb, hk⟩ := (defined_power ρ b k).mp h
  refine (sum_ints k (-1)).bind fun x hx => ?_
  rw [hx, ← sub_eq_add_neg]
  by_cases hk0 : k = 0
  · -- The lowered power may have no value here, but it is multiplied by zero.
    subst hk0
    refine (pow_isRational _ (isRational_of_defined ρ b hb)).bind fun l hl => hc.bind fun db hdb => ?_
    have hrat := isRational_of_defined ρ db hdb.1
    refine (product_zero (List.forall_mem_cons.mpr ⟨hl, List.forall_mem_singleton.mpr hrat⟩)).mono fun r hr => ?_
    rw [dualPart_power_zero, hr]
    exact ⟨defined_exact ρ 0, by rw [value_exact, map_zero]⟩
  · have hr : Raisable (value ρ b) (k - 1) := hk.imp_right fun hn => by omega
    refine (pow_value hb hr).bind fun l hl => hc.bind fun db hdb => ?_
    have hargs : ∀ e ∈ [int k, l, db], Defined ρ e := by simpa using ⟨hl.1, hdb.1⟩
    refine (product_value hargs).mono fun r hv => ?_
    rw [dualPart_power ρ v b hk0]
    simpa [hl.2, hdb.2, mul_assoc] using hv

lemma values_of_derivatives {es ds : List Expr} (h : List.Forall₂ (fun e d => HasValue ρ d (dualPart ρ v e)) es ds) :
    (∀ d ∈ ds, Defined ρ d) ∧ (ds.map (value ρ)).sum = (es.map (dualPart ρ v)).sum := by
  induction h with
  | nil => simp
  | cons hd _ ih => exact ⟨List.forall_mem_cons.mpr ⟨hd.1, ih.1⟩, by simp [hd.2, ih.2]⟩

mutual

lemma derivative_value [HasInverses R] : (e : Expr) → Defined ρ e →
    Meets anyHalt (derivative .refuse v e) (HasValue ρ · (dualPart ρ v e))
  | .num n, _ => by simp [derivative, HasValue, dualPart_num]
  | .symbol s, _ => by
    rw [dualPart_symbol]
    by_cases hs : s = v
    · simp [derivative, HasValue, hs]
    · simp [derivative, HasValue, hs]
  | .plus ts, h => by
    simp only [derivative]
    split
    · next hc => exact ⟨defined_int ρ 0, by rw [dualPart_eq_zero ρ v (.plus ts) hc, value_int, Int.cast_zero]⟩
    · rw [dualPart_plus]
      refine (derivatives_value ts h).bind fun ds hds => ?_
      obtain ⟨hd, hv⟩ := values_of_derivatives v hds
      exact hv ▸ sum_value hd
  | .times fs, h => by
    simp only [derivative]
    split
    · next hc => exact ⟨defined_int ρ 0, by rw [dualPart_eq_zero ρ v (.times fs) hc, value_int, Int.cast_zero]⟩
    · rw [dualPart_times]
      refine (derivatives_value fs h).bind fun ds hds => ?_
      refine (productRule_value v (by simp) ((defined_times ρ fs).mp h) hds).bind fun rs ⟨hr, hv⟩ => ?_
      rw [List.map_nil, List.prod_nil, one_mul] at hv
      exact hv ▸ sum_value hr
  | .power b e, h => by
    obtain ⟨k, rfl⟩ := exists_int_of_defined_power ρ h
    have hk : (int k).isConstantIn v = true := rfl
    simp only [derivative, hk, Bool.and_true, if_true]
    split
    · next hc =>
      have hconst : (power b (int k)).isConstantIn v = true := by simp [isConstantIn, hc, hk]
      exact ⟨defined_int ρ 0, by rw [dualPart_eq_zero ρ v _ hconst, value_int, Int.cast_zero]⟩
    · exact power_derivative_value v h (derivative_value b ((defined_power ρ b k).mp h).1)

lemma derivatives_value [HasInverses R] : (es : List Expr) → AllDefined ρ es →
    Meets anyHalt (derivatives .refuse v es) (List.Forall₂ (fun e d => HasValue ρ d (dualPart ρ v e)) es)
  | [], _ => List.Forall₂.nil
  | e :: es, h => by
    simp only [derivatives]
    exact (derivative_value e h.1).bind fun d hd => (derivatives_value es h.2).bind fun ds hds => .cons hd hds

end

end Dual

/-- Unless an operation leaves the exact range, the derivative of a rational expression is defined wherever the
expression is, and is worth the formal derivative there. -/
theorem derivative_computes (ρ : String → ℚ) (v : String) (e : Expr) (h : Defined ρ e) :
    Defined (dualPoint ρ v) e ∧ fst (value (dualPoint ρ v) e) = value ρ e ∧
      Computes ρ (derivative · v e) (snd (value (dualPoint ρ v) e)) :=
  ⟨(defined_dualPoint ρ v e).mpr h, fst_value ρ v e,
    computes_of_value (derivative_consistent v e) (derivative_value v e h)⟩

theorem derivative_computes_square : ∃ r, derivative .approximate "x" (power (symbol "x") (int 2)) = .ok r ∧
    value (fun _ => (3 : ℚ)) r = 6 := by
  have hd : Defined (fun _ => (3 : ℚ)) (power (symbol "x") (int 2)) := ⟨trivial, 2, rfl, Or.inr (by decide)⟩
  have hrun : derivative .refuse "x" (power (symbol "x") (int 2)) = .ok (times [int 2, symbol "x"]) := by cbv
  have hdual : snd (value (dualPoint (fun _ => (3 : ℚ)) "x") (power (symbol "x") (int 2))) = 6 := by
    change dualPart (fun _ => (3 : ℚ)) "x" (power (symbol "x") (int 2)) = 6
    rw [dualPart_power _ _ _ (by decide), dualPart_symbol, if_pos rfl]
    norm_num [value]
  obtain ⟨-, -, hc⟩ := derivative_computes (fun _ => 3) "x" _ hd
  obtain ⟨r, hr, -, -, hv⟩ := hc (by simp [hrun])
  exact ⟨r, hr, hv.trans hdual⟩

end Expr

end PlaneCalculus
