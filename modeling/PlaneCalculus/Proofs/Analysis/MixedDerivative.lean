import Mathlib.LinearAlgebra.Matrix.Determinant.Basic
import Mathlib.LinearAlgebra.Matrix.Symmetric
import PlaneCalculus.Analysis.CriticalPoints
import PlaneCalculus.Proofs.Calculus.Derivative
import PlaneCalculus.Proofs.Equations.LinearSystem

/-!
Second derivatives. Taken by way of dual numbers over dual numbers, the second derivative by two symbols does not depend
on which of them comes first: exchanging the two infinitesimals is a ring homomorphism, and values go along with those.
-/

namespace PlaneCalculus

open Calc TrivSqZeroExt

section Homomorphism

variable {R S : Type} [CommRing R] [Inv R] [CommRing S] [Inv S] (f : R →+* S)

lemma map_wholePower (hf : ∀ x, f x⁻¹ = (f x)⁻¹) (x : R) (k : Int) : f (wholePower x k) = wholePower (f x) k := by
  cases k with
  | ofNat n => exact map_pow f x n
  | negSucc n => rw [wholePower, wholePower, map_pow, hf]

variable [Algebra ℚ R] [Algebra ℚ S]

namespace Expr

mutual

lemma value_map (hf : ∀ x, f x⁻¹ = (f x)⁻¹) (ρ : String → R) : (e : Expr) → value (f ∘ ρ) e = f (value ρ e)
  | .num n => (RingHom.map_rat_algebraMap f n.value).symm
  | .symbol _ => rfl
  | .constant _ | .call _ _ => (map_zero f).symm
  | .plus ts => (values_map hf ρ ts).1
  | .times fs => (values_map hf ρ fs).2
  | .power b e => by rw [value, value, value_map hf ρ b, map_wholePower f hf]

lemma values_map (hf : ∀ x, f x⁻¹ = (f x)⁻¹) (ρ : String → R) : (es : List Expr) →
    sumValue (f ∘ ρ) es = f (sumValue ρ es) ∧ productValue (f ∘ ρ) es = f (productValue ρ es)
  | [] => ⟨(map_zero f).symm, (map_one f).symm⟩
  | e :: es => by
    obtain ⟨hs, hp⟩ := values_map hf ρ es
    rw [sumValue, sumValue, productValue, productValue, map_add, map_mul, value_map hf ρ e, hs, hp]
    exact ⟨rfl, rfl⟩

end

end Expr

end Homomorphism

/-! ### Two infinitesimals -/

section Exchange

variable {R : Type} [CommRing R]

/-- Exchanges the infinitesimals of dual numbers over dual numbers. -/
def exchange : DualNumber (DualNumber R) →+* DualNumber (DualNumber R) where
  toFun z := inl (inl (fst (fst z)) + inr (fst (snd z))) + inr (inl (snd (fst z)) + inr (snd (snd z)))
  map_zero' := by ext <;> simp
  map_one' := by ext <;> simp
  map_add' x y := by ext <;> simp
  map_mul' x y := by
    ext <;> simp
    ring

lemma exchange_inv [Inv R] (z : DualNumber (DualNumber R)) : exchange z⁻¹ = (exchange z)⁻¹ := by
  ext <;> simp [exchange, fst_inv, snd_inv]
  ring

lemma snd_snd_exchange (z : DualNumber (DualNumber R)) : snd (snd (exchange z)) = snd (snd z) := by
  simp [exchange]

end Exchange

namespace Expr

section Second

variable {R : Type} [CommRing R]

lemma exchange_dualPoint (ρ : String → R) (v w : String) :
    exchange ∘ dualPoint (dualPoint ρ w) v = dualPoint (dualPoint ρ v) w := by
  funext s
  simp only [Function.comp_apply, dualPoint]
  split <;> split <;> ext <;> simp [exchange]

variable [Algebra ℚ R] [Inv R]

/-- Exchanging the infinitesimals exchanges the symbols that are moved by them. -/
lemma secondPart_comm (ρ : String → R) (v w : String) (e : Expr) : secondPart ρ v w e = secondPart ρ w v e := by
  have h := value_map (S := DualNumber (DualNumber R)) exchange exchange_inv (dualPoint (dualPoint ρ w) v) e
  rw [exchange_dualPoint] at h
  rw [secondPart, secondPart, dualPart, dualPart, h, snd_snd_exchange]

end Second

/-- The derivative by `v`, derived by `w`. -/
def secondDerivative (o : Overflow) (v w : String) (e : Expr) : Calc Expr := do (← derivative o v e).derivative o w

variable {ρ : String → ℚ} {e : Expr}

lemma secondDerivative_consistent (v w : String) (e : Expr) : Consistent (secondDerivative · v w e) :=
  (derivative_consistent v e).bind fun d => derivative_consistent w d

/-- The first derivative is compared with the formal one at dual numbers, where its own infinitesimal part is the formal
second derivative. -/
lemma secondDerivative_value (v w : String) (h : Defined ρ e) :
    Meets anyHalt (secondDerivative .refuse v w e) (HasValue ρ · (secondPart ρ v w e)) := by
  have hdual : Defined (dualPoint ρ w) e := (defined_dualPoint ρ w e).mpr h
  refine (derivative_value v e hdual).bind fun d hd => ?_
  refine (derivative_value w d ((defined_dualPoint ρ w d).mp hd.1)).mono fun r hr => ?_
  rwa [dualPart, hd.2] at hr

lemma secondDerivative_computes (v w : String) (h : Defined ρ e) :
    Computes ρ (secondDerivative · v w e) (secondPart ρ v w e) :=
  computes_of_value (secondDerivative_consistent v w e) (secondDerivative_value v w h)

/-! ### The Hessian matrix -/

/-- The formal second derivatives by `x` and `y`. -/
def hessian (ρ : String → ℚ) (e : Expr) : Matrix (Fin 2) (Fin 2) ℚ :=
  .of fun i j => secondPart ρ (!["x", "y"] i) (!["x", "y"] j) e

lemma hessian_isSymm (ρ : String → ℚ) (e : Expr) : (hessian ρ e).IsSymm :=
  Matrix.IsSymm.ext fun _ _ => secondPart_comm ρ _ _ e

lemma det_hessian (ρ : String → ℚ) (e : Expr) : (hessian ρ e).det =
    secondPart ρ "x" "x" e * secondPart ρ "y" "y" e - secondPart ρ "x" "y" e * secondPart ρ "y" "x" e :=
  Matrix.det_fin_two _

end Expr

namespace CriticalPoints

open PlaneCalculus.Expr

lemma of_consistent (f : Expr) : Consistent (of · f) := by
  refine (derivative_consistent "x" f).bind fun fx => (derivative_consistent "y" f).bind fun fy => ?_
  refine (derivative_consistent "x" fx).bind fun _ => (derivative_consistent "y" fy).bind fun _ => ?_
  refine (derivative_consistent "y" fx).bind fun _ => ?_
  exact (solveSystem_consistent [fx, fy] ["x", "y"] seeds).bind fun _ => .pure _

/-- The expressions in the answer are the second derivatives, and its points take their values from them. -/
lemma of_inv {o : Overflow} {f : Expr} {c : CriticalPoints} (h : of o f = .ok c) :
    secondDerivative o "x" "x" f = .ok c.fxx ∧ secondDerivative o "y" "y" f = .ok c.fyy ∧
      secondDerivative o "x" "y" f = .ok c.fxy ∧
      ∃ solutions : List Solution, c.points = solutions.filterMap (pointAt f c.fxx c.fyy c.fxy) := by
  unfold of at h
  obtain ⟨fx, hx, h⟩ := bind_ok h
  obtain ⟨fy, hy, h⟩ := bind_ok h
  obtain ⟨fxx, hxx, h⟩ := bind_ok h
  obtain ⟨fyy, hyy, h⟩ := bind_ok h
  obtain ⟨fxy, hxy, h⟩ := bind_ok h
  obtain ⟨solutions, -, h⟩ := bind_ok h
  cases h
  simp only [secondDerivative, hx, hy]
  exact ⟨hxx, hyy, hxy, solutions, rfl⟩

lemma determinant_pointAt {f fxx fyy fxy : Expr} {s : Solution} {p : CriticalPoint}
    (h : pointAt f fxx fyy fxy s = some p) :
    p.determinant = fxx.evalAt p.x p.y * fyy.evalAt p.x p.y - fxy.evalAt p.x p.y * fxy.evalAt p.x p.y := by
  unfold pointAt at h
  split at h
  · dsimp only at h
    split at h
    · cases h
      rfl
    · cases h
  · cases h

end CriticalPoints

namespace Expr

/-- Mixed partial derivatives agree. Wherever a rational expression is defined, deriving it by `v` and then by `w` gives
an expression that is defined and has the value that deriving by `w` and then by `v` has, unless one of the operations
leaves the exact range. So the three second derivatives of the critical point analysis have the entries of a symmetric
matrix for their values, and the determinant that a point is classified by, formed of them, is that of the matrix. -/
theorem mixedPartials_agree {ρ : String → ℚ} {e : Expr} (h : Defined ρ e) :
    (∀ v w, Computes ρ (secondDerivative · v w e) (secondPart ρ v w e) ∧
      Computes ρ (secondDerivative · w v e) (secondPart ρ v w e)) ∧
    (hessian ρ e).IsSymm ∧
    ∃ c, CriticalPoints.of .approximate e = .ok c ∧
      (secondDerivative .refuse "x" "x" e ≠ .error .overflow → secondDerivative .refuse "y" "y" e ≠ .error .overflow →
        secondDerivative .refuse "x" "y" e ≠ .error .overflow →
        HasValue ρ c.fxx (hessian ρ e 0 0) ∧ HasValue ρ c.fyy (hessian ρ e 1 1) ∧ HasValue ρ c.fxy (hessian ρ e 0 1) ∧
          value ρ c.fxx * value ρ c.fyy - value ρ c.fxy * value ρ c.fxy = (hessian ρ e).det) ∧
      ∀ p ∈ c.points, p.determinant = c.fxx.evalAt p.x p.y * c.fyy.evalAt p.x p.y -
        c.fxy.evalAt p.x p.y * c.fxy.evalAt p.x p.y := by
  refine ⟨fun v w => ⟨secondDerivative_computes v w h, ?_⟩, hessian_isSymm ρ e, ?_⟩
  · rw [secondPart_comm]
    exact secondDerivative_computes w v h
  · obtain ⟨c, hc, -⟩ := ((CriticalPoints.of_consistent e).ends .approximate).exists_value
    obtain ⟨hxx, hyy, hxy, solutions, hpoints⟩ := CriticalPoints.of_inv hc
    have hentry (v w : String) (d : Expr) (hd : secondDerivative .approximate v w e = .ok d)
        (hr : secondDerivative .refuse v w e ≠ .error .overflow) : HasValue ρ d (secondPart ρ v w e) := by
      obtain ⟨r, hr, -, hdef, hval⟩ := secondDerivative_computes v w h hr
      cases hd.symm.trans hr
      exact ⟨hdef, hval⟩
    refine ⟨c, hc, fun h1 h2 h3 => ?_, fun p hp => ?_⟩
    · have hfxx := hentry _ _ _ hxx h1
      have hfyy := hentry _ _ _ hyy h2
      have hfxy := hentry _ _ _ hxy h3
      refine ⟨hfxx, hfyy, hfxy, ?_⟩
      rw [det_hessian, secondPart_comm ρ "y" "x", hfxx.2, hfyy.2, hfxy.2]
    · obtain ⟨s, -, hs⟩ := List.mem_filterMap.mp (hpoints ▸ hp)
      exact CriticalPoints.determinant_pointAt hs

/-- At `x = y = 3` the mixed derivatives of `x / y` are -1/9, and the determinant is -1/81. -/
theorem mixedPartials_agree_quotient :
    (∃ r s, secondDerivative .approximate "x" "y" (times [symbol "x", power (symbol "y") (int (-1))]) = .ok r ∧
      secondDerivative .approximate "y" "x" (times [symbol "x", power (symbol "y") (int (-1))]) = .ok s ∧
      value (fun _ => (3 : ℚ)) r = -1 / 9 ∧ value (fun _ => (3 : ℚ)) s = -1 / 9) ∧
    ∃ c, CriticalPoints.of .approximate (times [symbol "x", power (symbol "y") (int (-1))]) = .ok c ∧
      value (fun _ => (3 : ℚ)) c.fxx * value (fun _ => (3 : ℚ)) c.fyy -
        value (fun _ => (3 : ℚ)) c.fxy * value (fun _ => (3 : ℚ)) c.fxy = -1 / 81 := by
  have hd : Defined (fun _ => (3 : ℚ)) (times [symbol "x", power (symbol "y") (int (-1))]) := by
    simp [raisable_rat]
  have hxx : secondDerivative .refuse "x" "x" (times [symbol "x", power (symbol "y") (int (-1))]) =
      .ok (int 0) := by cbv
  have hyy : secondDerivative .refuse "y" "y" (times [symbol "x", power (symbol "y") (int (-1))]) =
      .ok (times [int 2, symbol "x", power (symbol "y") (int (-3))]) := by cbv
  have hxy : secondDerivative .refuse "x" "y" (times [symbol "x", power (symbol "y") (int (-1))]) =
      .ok (times [int (-1), power (symbol "y") (int (-2))]) := by cbv
  have hyx : secondDerivative .refuse "y" "x" (times [symbol "x", power (symbol "y") (int (-1))]) =
      .ok (times [int (-1), power (symbol "y") (int (-2))]) := by cbv
  obtain ⟨hmixed, -, c, hc, hentries, -⟩ := mixedPartials_agree hd
  obtain ⟨r, hr, -, -, hrv⟩ := (hmixed "x" "y").1 (by simp [hxy])
  obtain ⟨s, hs, -, -, hsv⟩ := (hmixed "x" "y").2 (by simp [hyx])
  obtain ⟨t, ht, -, -, htv⟩ := (hmixed "x" "x").1 (by simp [hxx])
  obtain ⟨hfxx, -, hfxy, -⟩ := hentries (by simp [hxx]) (by simp [hyy]) (by simp [hxy])
  cases hr.symm.trans ((secondDerivative_consistent "x" "y" _).agrees _ hxy)
  cases ht.symm.trans ((secondDerivative_consistent "x" "x" _).agrees _ hxx)
  have hxy9 : secondPart (fun _ => (3 : ℚ)) "x" "y" (times [symbol "x", power (symbol "y") (int (-1))]) = -1 / 9 := by
    rw [← hrv]
    norm_num [wholePower_rat]
  have hxx0 : secondPart (fun _ => (3 : ℚ)) "x" "x" (times [symbol "x", power (symbol "y") (int (-1))]) = 0 := by
    rw [← htv, value_int, Int.cast_zero]
  refine ⟨⟨_, s, hr, hs, hrv.trans hxy9, hsv.trans hxy9⟩, c, hc, ?_⟩
  have hfxx : value (fun _ => (3 : ℚ)) c.fxx = 0 := hfxx.2.trans hxx0
  have hfxy : value (fun _ => (3 : ℚ)) c.fxy = -1 / 9 := hfxy.2.trans hxy9
  rw [hfxx, hfxy]
  norm_num

end Expr

end PlaneCalculus
