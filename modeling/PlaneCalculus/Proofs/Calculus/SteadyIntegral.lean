import PlaneCalculus.Proofs.Calculus.Attempt
import PlaneCalculus.Proofs.Expr.Expansion

/-! Integration does not depend on the policy for numbers that leave the exact range, as long as none does. -/

namespace PlaneCalculus.Expr

open Calc hiding Steady
open Attempt

variable {v : String}

lemma steady_consistent {α : Type} {c : Overflow → Calc α} (h : Consistent c) : Steady fun o => OptionT.lift (c o) :=
  steady_lift h.steady

lemma slope_steady (u : Expr) : Steady fun o => slope o v u :=
  (steady_consistent (derivative_consistent v u)).bind fun _ => (steady_const _).bind fun _ => steady_const _

lemma doubledSine_consistent (u a : Expr) : Consistent fun o => doubledSine o u a :=
  (product_consistent _).bind fun _ => (product_consistent _).bind fun _ => div_consistent _ _

lemma squaredCallTable_steady (u a : Expr) (f : Func) : Steady fun o => squaredCallTable o v u a f := by
  have hhalf := steady_consistent (div_consistent (.symbol v) (int 2))
  have hsine := steady_consistent (doubledSine_consistent u a)
  cases f with
  | sin => exact hhalf.bind fun _ => hsine.bind fun _ => steady_consistent (sub_consistent _ _)
  | cos => exact hhalf.bind fun _ => hsine.bind fun _ => steady_consistent (sum_consistent _)
  | sec => exact steady_consistent (div_consistent _ _)
  | csc => exact (steady_consistent (div_consistent _ _)).bind fun _ => steady_consistent (neg_consistent _)
  | _ => exact steady_const failure

lemma squaredCallRule_steady (b x : Expr) : Steady fun o => squaredCallRule o v b x := by
  refine (steady_const _).bind fun _ => ?_
  cases b with
  | call f u => exact (slope_steady u).bind fun a => squaredCallTable_steady u a f
  | num | symbol | constant | plus | times | power => exact steady_const failure

lemma inverseQuadraticRule_steady (b x : Expr) : Steady fun o => inverseQuadraticRule o v b x := by
  refine (steady_const _).bind fun _ => ?_
  split
  · refine (steady_consistent (pow_consistent _ _)).bind fun _ => (steady_const _).bind fun _ => ?_
    refine (steady_const _).bind fun _ => (steady_consistent (Func.sqrt_consistent _)).bind fun _ => ?_
    exact (steady_consistent (div_consistent _ _)).bind fun _ => steady_consistent (div_consistent _ _)
  · exact steady_const failure

lemma linearPowerRule_steady (b x : Expr) : Steady fun o => linearPowerRule o v b x := by
  refine (slope_steady b).bind fun a => .ite (steady_consistent (div_consistent _ _)) ?_
  refine (steady_consistent (sum_consistent _)).bind fun r => (steady_consistent (pow_consistent b r)).bind fun p => ?_
  exact (steady_consistent (product_consistent _)).bind fun d => steady_consistent (div_consistent p d)

lemma exponentialRule_steady (b x : Expr) : Steady fun o => exponentialRule o v b x :=
  (slope_steady x).bind fun _ => (steady_consistent (product_consistent _)).bind fun _ =>
    steady_consistent (div_consistent _ _)

lemma powerRule_steady (b x : Expr) : Steady fun o => powerRule o v b x := by
  refine .ite ?_ (.ite (exponentialRule_steady b x) (steady_const _))
  exact (squaredCallRule_steady b x).orElse ((inverseQuadraticRule_steady b x).orElse (linearPowerRule_steady b x))

lemma callTable_steady (u : Expr) (f : Func) : Steady fun o => callTable o u f := by
  cases f with
  | sin => exact steady_consistent (neg_consistent _)
  | tan => exact steady_consistent (neg_consistent _)
  | log => exact (steady_consistent (product_consistent _)).bind fun _ => steady_consistent (sub_consistent _ _)
  | _ => exact steady_const _

lemma factorRule_steady (e : Expr) : Steady fun o => factorRule o v e := by
  cases e with
  | symbol x => exact (steady_consistent (pow_consistent _ _)).bind fun _ => steady_consistent (div_consistent _ _)
  | power b x => exact powerRule_steady b x
  | call f u => exact (slope_steady u).bind fun _ => (callTable_steady u f).bind fun _ =>
      steady_consistent (div_consistent _ _)
  | num | constant | plus | times => exact steady_const failure

lemma isRepeatableFactor_steady (f : Expr) : Calc.Steady fun o => isRepeatableFactor o v f := by
  cases f with
  | call f u =>
    by_cases hf : isRepeatable f = true
    · simp only [isRepeatableFactor, if_pos hf]
      exact Calc.Steady.bind (f := fun r _ => pure r.isSome) (slope_steady u) fun _ _ => rfl
    · simp only [isRepeatableFactor, if_neg hf]
      exact fun _ => rfl
  | num | symbol | constant | plus | times | power => exact fun _ => rfl

lemma splitRepeatable_steady (before fs : List Expr) : Steady fun o => splitRepeatable o v before fs := by
  induction fs generalizing before with
  | nil => exact steady_const failure
  | cons f fs ih =>
    refine (steady_lift (isRepeatableFactor_steady f)).bind fun r => ?_
    exact .ite (steady_const _) (ih _)

section

variable {integrate : Overflow → Expr → Attempt Expr} (hi : ∀ e, Steady fun o => integrate o e)
include hi

lemma partsLoop_steady (n : Nat) (sign : Int) (p g : Expr) (terms : List Expr) :
    Steady fun o => partsLoop o v (integrate o) n sign p g terms := by
  induction n generalizing sign p g terms with
  | zero => exact steady_const failure
  | succ n ih =>
    refine (steady_consistent (product_consistent _)).bind fun t => (steady_consistent (derivative_consistent v p)).bind fun d => ?_
    exact .ite (steady_consistent (sum_consistent _)) ((hi g).bind fun h => ih _ _ _ _)

lemma partsRule_steady (fs : List Expr) : Steady fun o => partsRule o v (integrate o) fs :=
  (splitRepeatable_steady [] fs).bind fun (before, f, after) =>
    (steady_consistent (product_consistent (before ++ after))).bind fun p =>
      (steady_const _).bind fun _ => (factorRule_steady f).bind fun g => partsLoop_steady hi _ _ p g _

lemma expandedRule_steady (e : Expr) : Steady fun o => expandedRule o (integrate o) e :=
  (steady_consistent (expand_consistent e)).bind fun x => (steady_const _).bind fun _ => hi x

lemma productIntegral_steady (fs : List Expr) : Steady fun o => productIntegral o v (integrate o) fs := by
  unfold productIntegral
  rw [List.partition_eq_filter_filter]
  refine (steady_consistent (product_consistent _)).bind fun c => (steady_consistent (product_consistent _)).bind fun d => ?_
  refine Steady.bind ?_ fun x => steady_consistent (product_consistent _)
  refine Steady.orElse ?_ ((expandedRule_steady hi d).orElse (partsRule_steady hi _))
  split
  · exact factorRule_steady _
  · exact steady_const failure

end

lemma antiderivativeAt_steady (n : Nat) (e : Expr) : Steady fun o => antiderivativeAt o v n e := by
  induction n generalizing e with
  | zero => exact steady_const _
  | succ n ih =>
    refine .ite (steady_consistent (product_consistent _)) ?_
    cases e with
    | plus ts => exact (Steady.mapM ih ts).bind fun us => steady_consistent (sum_consistent us)
    | times fs => exact productIntegral_steady ih fs
    | num | symbol | constant | power | call => exact (factorRule_steady _).orElse (expandedRule_steady ih _)

/-- Integration that is not refused gives the same antiderivative, or none, where numbers are approximated. -/
lemma antiderivative_steady (v : String) (e : Expr) : Calc.Steady fun o => antiderivative o v e :=
  antiderivativeAt_steady _ e

end PlaneCalculus.Expr
