import PlaneCalculus.Proofs.Calculus.NormalDerivative
import PlaneCalculus.Proofs.Equations.Solution
import PlaneCalculus.Proofs.Expr.Substitution

/-! Systems of linear polynomials in normal form. They are recognised by their partial derivatives, and elimination answers
with their solution. -/

namespace PlaneCalculus

open Calc PlaneCalculus.Expr
open MvPolynomial (X C pderiv)

/-! ### Both policies -/

namespace EquationSystem

lemma ofEquations_consistent (equations : List Expr) (symbols : List String) :
    Consistent (ofEquations · equations symbols) :=
  (Consistent.mapM (fun e => Consistent.mapM (fun v => derivative_consistent v e) symbols) equations).bind fun _ => .pure _

lemma atOrigin_consistent (symbols : List String) (e : Expr) : Consistent (atOrigin · symbols e) :=
  Consistent.foldlM (fun e v => substitute_consistent v (int 0) e) symbols e

lemma linearRows_consistent (s : EquationSystem) : Consistent (linearRows? · s) := by
  unfold linearRows?
  split
  · exact .pure _
  · refine (Consistent.mapM (fun e => (atOrigin_consistent s.symbols e).bind fun r => neg_consistent r) _).bind fun cs => ?_
    split <;> exact .pure _

lemma linearSolution_consistent (s : EquationSystem) : Consistent (linearSolution? · s) := by
  unfold linearSolution?
  refine (linearRows_consistent s).bind fun r => ?_
  cases r with
  | none => exact .pure _
  | some rows => exact Elimination.rounds_consistent _ _ _

end EquationSystem

lemma Recognition.identify_consistent (v : Float) : Consistent (Recognition.identify · v) := by
  unfold Recognition.identify
  refine Consistent.ite (.pure _) ?_
  split
  · exact .pure _
  · split
    · refine Consistent.ite ((pow_consistent _ _).bind fun root => ?_) (.pure _)
      exact Consistent.ite (neg_consistent root) (.pure _)
    · exact .pure _

lemma Solution.ofRoot_consistent (point : List Float) : Consistent (Solution.ofRoot · point) :=
  (Consistent.mapM Recognition.identify_consistent _).bind fun _ => .pure _

lemma solveSystem_consistent (equations : List Expr) (symbols : List String) (seeds : List (List Float)) :
    Consistent (solveSystem · equations symbols seeds) := by
  unfold solveSystem
  refine (EquationSystem.ofEquations_consistent equations symbols).bind fun s => ?_
  refine (EquationSystem.linearSolution_consistent s).bind fun r => ?_
  cases r with
  | some values => exact .pure _
  | none => exact (Consistent.mapM Solution.ofRoot_consistent _).bind fun _ => .pure _

/-! ### Recognition -/

open EquationSystem

variable {n : ℕ} {symbols : Fin n → String}

lemma meets_mapM_ofFn {α β : Type} {f : Fin n → α} {g : α → Calc β} {h : Fin n → β}
    (hg : ∀ i, Meets anyHalt (g (f i)) (· = h i)) : Meets anyHalt ((List.ofFn f).mapM g) (· = List.ofFn h) := by
  rw [List.ofFn_eq_map, List.ofFn_eq_map, List.mapM_map]
  exact meets_mapM_eq fun i _ => hg i

/-- With zero for each of its symbols an expression becomes the number it is at the origin. -/
lemma atOrigin_number {l : List String} (hne : l ≠ []) {e : Expr} (hd : Defined (0 : String → ℚ) e)
    (hs : ∀ s ∈ e.occurrences, s ∈ l) : Meets anyHalt (atOrigin .refuse l e) (· = .num (.exact (value (0 : String → ℚ) e))) := by
  have hzero (v : String) : HasValue (0 : String → ℚ) (int 0) ((0 : String → ℚ) v) := ⟨defined_int _ 0, by simp⟩
  induction l generalizing e with
  | nil => exact absurd rfl hne
  | cons v l ih =>
    have hvalue := substitute_value (hzero v) e hd
    rw [atOrigin, List.foldlM_cons]
    cases l with
    | nil =>
      have hnumber := substitute_number (hzero v) rfl e hd fun s hs' => List.mem_singleton.mp (hs s hs')
      exact (hvalue.and hnumber).bind fun r hr => eq_exact_of_number hr.2 hr.1
    | cons w l =>
      have hover : Everywhere (NodeOver (· ∈ w :: l)) (int 0) := trivial
      refine (hvalue.and (substitute_over hover e fun s hs' => List.mem_cons.mp (hs s hs'))).bind fun r h => ?_
      obtain ⟨hr, ho⟩ := h
      have hrest := ih (List.cons_ne_nil w l) hr.1 (occurrences_over r ho)
      rwa [hr.2] at hrest

/-- The equations `e = 0` stand for `A v = b` in the unknowns `symbols`. -/
structure IsLinear (equations : Fin n → Expr) (symbols : Fin n → String) (A : Matrix (Fin n) (Fin n) ℚ) (b : Fin n → ℚ) :
    Prop where
  normal : ∀ i, IsNormal (equations i)
  polynomial : ∀ i, (equations i).polynomial = ∑ j, C (A i j) * X (symbols j) - C (b i)

namespace IsLinear

variable {equations : Fin n → Expr} {A : Matrix (Fin n) (Fin n) ℚ} {b : Fin n → ℚ}

lemma partials (h : IsLinear equations symbols A b) (hs : Function.Injective symbols) (i j : Fin n) :
    Meets anyHalt ((equations i).derivative .refuse (symbols j)) (· = .num (.exact (A i j))) := by
  have hpartial : pderiv (symbols j) (equations i).polynomial = C (A i j) := by
    rw [h.polynomial, map_sub, map_sum, MvPolynomial.pderiv_C, sub_zero, Finset.sum_eq_single j]
    · rw [MvPolynomial.pderiv_C_mul, MvPolynomial.pderiv_X_self, mul_one]
    · intro k _ hk
      rw [MvPolynomial.pderiv_C_mul, MvPolynomial.pderiv_X_of_ne (hs.ne hk), mul_zero]
    · exact fun hj => absurd (Finset.mem_univ j) hj
  exact (derivative_normal (h.normal i)).mono fun d ⟨hd, hv⟩ => hd.eq_exact (hv.trans hpartial)

lemma vars_subset (h : IsLinear equations symbols A b) (i : Fin n) :
    ∀ s ∈ (equations i).polynomial.vars, s ∈ List.ofFn symbols := by
  have hmem : (equations i).polynomial ∈ MvPolynomial.supported ℚ (Set.range symbols) := by
    rw [h.polynomial]
    refine Subalgebra.sub_mem _ (Subalgebra.sum_mem _ fun j _ => ?_) (Subalgebra.algebraMap_mem _ _)
    exact Subalgebra.mul_mem _ (Subalgebra.algebraMap_mem _ _) (MvPolynomial.X_mem_supported.mpr ⟨j, rfl⟩)
  intro s hs
  obtain ⟨j, rfl⟩ := MvPolynomial.mem_supported.mp hmem hs
  exact List.mem_ofFn.mpr ⟨j, rfl⟩

lemma constants (h : IsLinear equations symbols A b) (i : Fin n) :
    Meets anyHalt (do
      let e ← atOrigin .refuse (List.ofFn symbols) (equations i)
      Expr.neg .refuse e) (· = .num (.exact (b i))) := by
  have hring := (h.normal i).isRing
  have horigin : value (0 : String → ℚ) (equations i) = -b i := by
    rw [value_of_ring _ _ hring, h.polynomial]
    simp
  have hne : List.ofFn symbols ≠ [] := by
    rw [Ne, List.ofFn_eq_nil_iff]
    rintro rfl
    exact i.elim0
  have hatOrigin := atOrigin_number hne (defined_of_ring 0 _ hring) fun s hs =>
    h.vars_subset i s ((everywhere_symbolNode _).mp (h.normal i).symbols s hs)
  refine hatOrigin.bind fun r hr => ?_
  rw [hr, horigin]
  have hnumber : Meets anyHalt (Expr.neg .refuse (.num (.exact (-b i)))) (·.isNumber = true) := 
    product_numbers (List.forall_mem_cons.mpr ⟨rfl, List.forall_mem_singleton.mpr rfl⟩)
  refine ((neg_value (defined_exact (0 : String → ℚ) _)).and hnumber).mono fun r ⟨hr, hn⟩ => ?_
  rw [eq_exact_of_number hn hr, value_exact]
  simp

lemma linearSolution (h : IsLinear equations symbols A b) (hdet : A.det ≠ 0) :
    Meets anyHalt ((withPartials equations symbols A).linearSolution? .refuse) fun r =>
      ∃ v, A.mulVec v = b ∧ r = some (List.ofFn fun i => .exact (v i)) := by
  have hmatrix : (withPartials equations symbols A).jacobian.mapM (·.mapM Expr.number?) =
      some (List.ofFn fun i => List.ofFn fun j => .exact (A i j)) :=
    mapM_ofFn fun i => mapM_ofFn fun j => rfl
  have hrhs : (List.ofFn fun i => Expr.num (.exact (b i))).mapM Expr.number? = some (List.ofFn fun i => .exact (b i)) :=
    mapM_ofFn fun i => rfl
  have hrows : Meets anyHalt ((withPartials equations symbols A).linearRows? .refuse)
      (· = some (Elimination.system A b)) := by
    simp only [linearRows?, hmatrix]
    refine (meets_mapM_ofFn h.constants).bind fun cs hcs => ?_
    simp only [hcs, hrhs, zip_ofFn, List.map_ofFn]
    rfl
  refine hrows.bind fun r hr => ?_
  subst hr
  refine (Elimination.solve_spec A b).mono fun r hr => ?_
  cases r with
  | none => exact absurd hr hdet
  | some values =>
    obtain ⟨-, v, hv, rfl⟩ := hr
    exact ⟨v, (hv v).mpr rfl, rfl⟩

/-- A system that is not singular is answered with its solution. -/
lemma solveSystem (h : IsLinear equations symbols A b) (hs : Function.Injective symbols) (hdet : A.det ≠ 0)
    (seeds : List (List Float)) :
    Meets anyHalt (PlaneCalculus.solveSystem .refuse (List.ofFn equations) (List.ofFn symbols) seeds) fun solutions =>
      ∃ v, A.mulVec v = b ∧ solutions = [Solution.ofNumbers (List.ofFn fun i => .exact (v i))] := by
  have hsystem : Meets anyHalt (ofEquations .refuse (List.ofFn equations) (List.ofFn symbols))
      (· = withPartials equations symbols A) := by
    have hrow (i : Fin n) : Meets anyHalt ((List.ofFn symbols).mapM fun v => (equations i).derivative .refuse v)
        (· = List.ofFn fun j => .num (.exact (A i j))) := meets_mapM_ofFn (h.partials hs i)
    refine (meets_mapM_ofFn hrow).bind fun rows hrows => ?_
    subst hrows
    rfl
  refine hsystem.bind fun s hsys => ?_
  subst hsys
  refine (h.linearSolution hdet).bind fun r ⟨v, hv, hr⟩ => ?_
  subst hr
  exact ⟨v, hv, rfl⟩

end IsLinear

end PlaneCalculus
