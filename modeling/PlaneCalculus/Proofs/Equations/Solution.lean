import Mathlib
import PlaneCalculus.Equations.Solution
import PlaneCalculus.Proofs.Equations.Elimination

/-! Linear systems with as many equations as unknowns are solved exactly: elimination gives up on the singular ones
only, and otherwise finds the one solution there is. -/

namespace PlaneCalculus

open Calc

variable {n : Nat}

lemma mapM_ofFn {m : Type → Type} [Monad m] [LawfulMonad m] {α β : Type} {f : Fin n → α} {g : α → m β} {h : Fin n → β}
    (hg : ∀ i, g (f i) = pure (h i)) : (List.ofFn f).mapM g = pure (List.ofFn h) := by
  rw [List.ofFn_eq_map, List.ofFn_eq_map, List.mapM_map, ← List.mapM_pure]
  exact congrArg (List.mapM · (List.finRange n)) (funext hg)

lemma zip_ofFn {α β : Type} (f : Fin n → α) (g : Fin n → β) :
    (List.ofFn f).zip (List.ofFn g) = List.ofFn fun i => (f i, g i) := by
  rw [List.ofFn_eq_map, List.ofFn_eq_map, List.ofFn_eq_map, List.zip_map']

variable {A : Matrix (Fin n) (Fin n) ℚ} {b : Fin n → ℚ}

lemma Row.dot_ofFn (c z : Fin n → ℚ) : Row.dot (List.ofFn c) (List.ofFn z) = c ⬝ᵥ z := by
  induction n with
  | zero => simp
  | succ n ih =>
    rw [List.ofFn_succ, List.ofFn_succ, Row.dot_cons, ih, dotProduct, dotProduct, Fin.sum_univ_succ]

namespace Elimination

/-- The rows of the system `A v = b`. -/
def system (A : Matrix (Fin n) (Fin n) ℚ) (b : Fin n → ℚ) : List (Row Number) :=
  List.ofFn fun i => ⟨List.ofFn fun j => .exact (A i j), .exact (b i)⟩

def rationalSystem (A : Matrix (Fin n) (Fin n) ℚ) (b : Fin n → ℚ) : List (Row ℚ) :=
  List.ofFn fun i => ⟨List.ofFn (A i), b i⟩

lemma system_eq : system A b = (rationalSystem A b).map Row.ofRationals := by
  simp [system, rationalSystem, Row.ofRationals, List.map_ofFn, Function.comp_def]

lemma solves_system (t : ℚ) (u : Fin n → ℚ) :
    Solves t [] (rationalSystem A b) [] (List.ofFn u) ↔ A.mulVec u = t • b := by
  have hrow (i : Fin n) : Row.remainder t (List.ofFn u) ⟨List.ofFn (A i), b i⟩ = 0 ↔ A.mulVec u i = (t • b) i := by
    rw [Row.remainder, Row.dot_ofFn, sub_eq_zero, eq_comm]
    rfl
  have hall : (∀ r ∈ rationalSystem A b, r.remainder t (List.ofFn u) = 0) ↔ A.mulVec u = t • b := by
    simp only [rationalSystem, List.forall_mem_ofFn_iff, hrow, funext_iff]
  exact ⟨fun h => hall.mp h.satisfied, fun h => ⟨rfl, hall.mpr h⟩⟩

/-- What elimination answers about the system `A v = b`: its one solution, or that it is singular. -/
def Answers (A : Matrix (Fin n) (Fin n) ℚ) (b : Fin n → ℚ) : Option (List Number) → Prop
  | some values => A.det ≠ 0 ∧ ∃ v, (∀ u, A.mulVec u = b ↔ u = v) ∧ values = List.ofFn fun i => .exact (v i)
  | none => A.det = 0

lemma answers_of_settles {result : Option (List Number)} (h : Settles n [] (rationalSystem A b) result) :
    Answers A b result := by
  cases result with
  | some values =>
    obtain ⟨qs, rfl, hlen, h⟩ := h
    obtain ⟨v, rfl⟩ : ∃ v : Fin n → ℚ, qs = List.ofFn v := by
      obtain rfl : qs.length = n := by simpa using hlen
      exact ⟨qs.get, (List.ofFn_get qs).symm⟩
    have hscaled (t : ℚ) (u : Fin n → ℚ) : A.mulVec u = t • b ↔ u = t • v := by
      rw [← solves_system, h t [] _ (List.length_ofFn), List.nil_append, List.map_ofFn, List.ofFn_inj]
      rfl
    refine ⟨fun hdet => ?_, v, fun u => by simpa using hscaled 1 u, by simp [List.map_ofFn, Function.comp_def]⟩
    obtain ⟨u, hu, hzero⟩ := Matrix.exists_mulVec_eq_zero_iff.mpr hdet
    exact hu (by simpa [hzero] using hscaled 0 u)
  | none =>
    obtain ⟨ys, zs, hlen, ⟨z, hmem, hz⟩, hsolves⟩ := h
    obtain rfl := hsolves.eliminated
    obtain ⟨u, rfl⟩ : ∃ u : Fin n → ℚ, zs = List.ofFn u := by
      subst hlen
      exact ⟨zs.get, (List.ofFn_get zs).symm⟩
    refine Matrix.exists_mulVec_eq_zero_iff.mp ⟨u, ?_, ?_⟩
    · rintro rfl
      obtain ⟨i, rfl⟩ := List.mem_ofFn.mp hmem
      exact hz rfl
    · simpa using (solves_system 0 u).mp hsolves

lemma solve_spec (A : Matrix (Fin n) (Fin n) ℚ) (b : Fin n → ℚ) :
    Meets anyHalt (solve .refuse (system A b)) (Answers A b) := by
  have hlen : (rationalSystem A b).length = n := List.length_ofFn
  have hrow : ∀ r ∈ rationalSystem A b, r.coeffs.length = n := by simp [rationalSystem]
  rw [solve, system_eq, List.length_map, hlen]
  exact (rounds_spec hlen (List.forall_mem_nil _) hrow).mono fun _ => answers_of_settles

lemma exists_answer (h : solve .refuse (system A b) ≠ .error .overflow) :
    ∃ result, solve .approximate (system A b) = .ok result ∧ Answers A b result :=
  (rounds_consistent _ _ _).exists_value (solve_spec A b) h

end Elimination

/-- The equations `e = 0` are linear in the symbols: `A` and `b` are what their partial derivatives and their negated
constant terms come to. -/
structure HasCoefficients (equations : Fin n → Expr) (symbols : Fin n → String) (A : Matrix (Fin n) (Fin n) ℚ)
    (b : Fin n → ℚ) : Prop where
  partials : ∀ i j, (equations i).derivative .approximate (symbols j) = .ok (.num (.exact (A i j)))
  constants : ∀ i, (do
    let e ← EquationSystem.atOrigin .approximate (List.ofFn symbols) (equations i)
    Expr.neg .approximate e) = .ok (.num (.exact (b i)))

variable {equations : Fin n → Expr} {symbols : Fin n → String}

/-- The equations with the partial derivatives `A`. -/
def EquationSystem.withPartials (equations : Fin n → Expr) (symbols : Fin n → String) (A : Matrix (Fin n) (Fin n) ℚ) :
    EquationSystem :=
  ⟨List.ofFn equations, List.ofFn symbols, List.ofFn fun i => List.ofFn fun j => .num (.exact (A i j))⟩

namespace HasCoefficients

open EquationSystem

lemma ofEquations_eq (h : HasCoefficients equations symbols A b) :
    ofEquations .approximate (List.ofFn equations) (List.ofFn symbols) = .ok (withPartials equations symbols A) := by
  have hrows : (List.ofFn equations).mapM (fun e => (List.ofFn symbols).mapM fun v => e.derivative .approximate v) =
      .ok (List.ofFn fun i => List.ofFn fun j => .num (.exact (A i j))) :=
    mapM_ofFn fun i => mapM_ofFn (h.partials i)
  rw [ofEquations, hrows]
  rfl

lemma linearRows_eq (h : HasCoefficients equations symbols A b) :
    (withPartials equations symbols A).linearRows? .approximate = .ok (some (Elimination.system A b)) := by
  have hmatrix : (withPartials equations symbols A).jacobian.mapM (·.mapM Expr.number?) =
      some (List.ofFn fun i => List.ofFn fun j => .exact (A i j)) :=
    mapM_ofFn fun i => mapM_ofFn fun j => rfl
  have hconstants : (withPartials equations symbols A).equations.mapM
      (fun e => do Expr.neg .approximate (← atOrigin .approximate (withPartials equations symbols A).symbols e)) =
        pure (List.ofFn fun i => .num (.exact (b i))) :=
    mapM_ofFn h.constants
  have hrhs : (List.ofFn fun i => Expr.num (.exact (b i))).mapM Expr.number? = some (List.ofFn fun i => .exact (b i)) :=
    mapM_ofFn fun i => rfl
  simp only [linearRows?, hmatrix, hconstants, pure_bind, hrhs, zip_ofFn, List.map_ofFn]
  rfl

lemma linearSolution_eq (h : HasCoefficients equations symbols A b) :
    (withPartials equations symbols A).linearSolution? .approximate =
      Elimination.solve .approximate (Elimination.system A b) := by
  rw [linearSolution?, h.linearRows_eq]
  rfl

end HasCoefficients

/-- Elimination gives up exactly on singular systems. A system that is not singular has one solution, which is the
answer for all starting points. -/
theorem solveSystem_exact (h : HasCoefficients equations symbols A b)
    (ho : Elimination.solve .refuse (Elimination.system A b) ≠ .error .overflow) :
    (EquationSystem.ofEquations .approximate (List.ofFn equations) (List.ofFn symbols) >>=
        (EquationSystem.linearRows? .approximate ·)) = .ok (some (Elimination.system A b)) ∧
      (Elimination.solve .approximate (Elimination.system A b) = .ok none ↔ A.det = 0) ∧
      (A.det ≠ 0 → ∃ v, (∀ u, A.mulVec u = b ↔ u = v) ∧
        ∀ seeds, solveSystem .approximate (List.ofFn equations) (List.ofFn symbols) seeds =
          .ok [Solution.ofNumbers (List.ofFn fun i => .exact (v i))]) := by
  have hrows : (EquationSystem.ofEquations .approximate (List.ofFn equations) (List.ofFn symbols) >>=
      (EquationSystem.linearRows? .approximate ·)) = .ok (some (Elimination.system A b)) := by
    rw [h.ofEquations_eq]
    exact h.linearRows_eq
  obtain ⟨result, hresult, hanswer⟩ := Elimination.exists_answer ho
  refine ⟨hrows, ?_, fun hdet => ?_⟩
  · rw [hresult]
    cases result with
    | some values => simpa using hanswer.1
    | none => exact iff_of_true rfl hanswer
  · cases result with
    | none => exact absurd hanswer hdet
    | some values =>
      obtain ⟨-, v, hv, rfl⟩ := hanswer
      refine ⟨v, hv, fun seeds => ?_⟩
      rw [solveSystem, h.ofEquations_eq]
      change (EquationSystem.linearSolution? .approximate _ >>= _) = _
      rw [h.linearSolution_eq, hresult]
      rfl

/-- The first coefficient of `y - 2 = 0, x + 2*y - 5 = 0` is zero, so that the rows are exchanged. -/
theorem solveSystem_exact_exchange :
    Elimination.solve .approximate (Elimination.system !![0, 1; 1, 2] ![2, 5]) ≠ .ok none ∧
    ∀ seeds, solveSystem .approximate
      [.plus [.symbol "y", Expr.int (-2)], .plus [.symbol "x", .times [Expr.int 2, .symbol "y"], Expr.int (-5)]]
      ["x", "y"] seeds = .ok [Solution.ofNumbers [.exact 1, .exact 2]] := by
  have h : HasCoefficients
      ![.plus [.symbol "y", Expr.int (-2)], .plus [.symbol "x", .times [Expr.int 2, .symbol "y"], Expr.int (-5)]]
      ![("x" : String), "y"] !![0, 1; 1, 2] ![2, 5] := by
    constructor
    · simp only [Fin.forall_fin_two]
      exact ⟨⟨by cbv, by cbv⟩, by cbv, by cbv⟩
    · simp only [Fin.forall_fin_two]
      exact ⟨by cbv, by cbv⟩
  have hrun : Elimination.solve .refuse (Elimination.system !![0, 1; 1, 2] ![2, 5]) =
      .ok (some [.exact 1, .exact 2]) := by cbv
  have hdet : (!![0, 1; 1, 2] : Matrix (Fin 2) (Fin 2) ℚ).det ≠ 0 := by
    rw [Matrix.det_fin_two_of]
    norm_num
  obtain ⟨-, hnone, hsome⟩ := solveSystem_exact h (by simp [hrun])
  obtain ⟨v, hv, hseeds⟩ := hsome hdet
  have hsolves : (!![0, 1; 1, 2] : Matrix (Fin 2) (Fin 2) ℚ).mulVec ![1, 2] = ![2, 5] := by
    funext i
    fin_cases i <;> norm_num [Matrix.mulVec, dotProduct, Fin.sum_univ_two]
  obtain rfl := (hv _).mp hsolves
  exact ⟨fun hn => hdet (hnone.mp hn), hseeds⟩

end PlaneCalculus
