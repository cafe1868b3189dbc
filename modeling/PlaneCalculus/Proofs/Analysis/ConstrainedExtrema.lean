import PlaneCalculus.Analysis.ConstrainedExtrema
import PlaneCalculus.Proofs.Calculus.ScaledSum
import PlaneCalculus.Proofs.Equations.LinearSystem
import PlaneCalculus.Proofs.Formula.Expanded
import PlaneCalculus.Proofs.Formula.Writing

/-! Quadratic functions under linear constraints. The derivatives of the Lagrangian are linear, so that its one stationary
point is found exactly. -/

namespace PlaneCalculus.ConstrainedExtrema

open Calc PlaneCalculus.Expr
open MvPolynomial (X C aeval pderiv)

/-! ### Stationary points of the Lagrangian -/

/-- The Lagrangian, its derivatives for the three unknowns, and the solutions of the conditions. -/
def stationary (o : Overflow) (f g : Expr) : Calc ((Expr × Expr × Expr × Expr) × List Solution) := do
  let m ← Expr.product o [.symbol "lambda", g]
  let lagrangian ← Expr.sum o [f, m]
  let lx ← lagrangian.derivative o "x"
  let ly ← lagrangian.derivative o "y"
  let lmultiplier ← lagrangian.derivative o "lambda"
  let solutions ← solveSystem o [lx, ly, g] ["x", "y", "lambda"] seeds
  return ((lagrangian, lx, ly, lmultiplier), solutions)

def ofStationary (f g : Expr) : (Expr × Expr × Expr × Expr) × List Solution → Outcome ConstrainedExtrema
  | ((lagrangian, lx, ly, lmultiplier), solutions) =>
    if solutions.isEmpty then throw .noCriticalPoints
    else return ⟨f, g, lagrangian, lx, ly, lmultiplier, solutions.filterMap (ConstrainedPoint.ofSolution f)⟩

lemma lift_bind {α β : Type} (c : Calc α) (f : α → Calc β) :
    (liftM (c >>= f) : Outcome β) = (liftM c : Outcome α) >>= fun a => liftM (f a) := by
  cases c <;> rfl

lemma of_eq (o : Overflow) (f g : Expr) :
    ConstrainedExtrema.of o f g = (liftM (stationary o f g) : Outcome _) >>= ofStationary f g := by
  unfold ConstrainedExtrema.of stationary
  simp only [lift_bind, bind_assoc]
  rfl

lemma stationary_consistent (f g : Expr) : Consistent (stationary · f g) :=
  (product_consistent _).bind fun _ => (sum_consistent _).bind fun l => (derivative_consistent "x" l).bind fun _ =>
    (derivative_consistent "y" l).bind fun _ => (derivative_consistent "lambda" l).bind fun _ =>
      (solveSystem_consistent _ _ _).bind fun _ => .pure _

section Quadratic

variable (a b c d e k p q r : ℚ)

noncomputable def quadratic : MvPolynomial String ℚ :=
  C a * X "x" ^ 2 + C b * X "x" * X "y" + C c * X "y" ^ 2 + C d * X "x" + C e * X "y" + C k

noncomputable def linear : MvPolynomial String ℚ := C p * X "x" + C q * X "y" + C r

/-- The matrix of the conditions for a stationary point. -/
def conditions : Matrix (Fin 3) (Fin 3) ℚ := !![2 * a, b, p; b, 2 * c, q; p, q, 0]

end Quadratic

variable {a b c d e k p q r : ℚ}

lemma stationary_quadratic {f g : Expr} (hf : IsNormal f) (hfp : polynomial f = quadratic a b c d e k) (hg : IsNormal g)
    (hgp : polynomial g = linear p q r) (hdet : (conditions a b c p q).det ≠ 0) :
    Meets anyHalt (stationary .refuse f g) fun s => ∃ v : Fin 3 → ℚ,
      (conditions a b c p q).mulVec v = ![-d, -e, -r] ∧ s.2 = [Solution.ofNumbers (List.ofFn fun i => .exact (v i))] := by
  unfold stationary
  rw [← bind_assoc]
  refine (derivative_scaledSum (s := "lambda") hf hg).bind fun l hl => ?_
  refine (hl "x" (by decide) ⟨p, ?_⟩).bind fun lx ⟨hlx, hlxp⟩ => ?_
  · rw [hgp]
    simp [linear, MvPolynomial.pderiv_X]
  refine (hl "y" (by decide) ⟨q, ?_⟩).bind fun ly ⟨hly, hlyp⟩ => ?_
  · rw [hgp]
    simp [linear, MvPolynomial.pderiv_X]
  refine (meets_anyHalt_true _).bind fun ll _ => ?_
  have hlinear : IsLinear ![lx, ly, g] ![("x" : String), "y", "lambda"] (conditions a b c p q) ![-d, -e, -r] := by
    constructor
    · intro i
      fin_cases i
      · exact hlx
      · exact hly
      · exact hg
    · have htwo : (C 2 : MvPolynomial String ℚ) = 2 := map_ofNat C 2
      intro i
      rw [Fin.sum_univ_three]
      fin_cases i
      · show polynomial lx = _
        rw [hlxp, hfp, hgp]
        simp [quadratic, linear, conditions, MvPolynomial.pderiv_X, htwo]
        ring
      · show polynomial ly = _
        rw [hlyp, hfp, hgp]
        simp [quadratic, linear, conditions, MvPolynomial.pderiv_X, htwo]
        ring
      · show polynomial g = _
        rw [hgp]
        simp [linear, conditions]
  exact (hlinear.solveSystem (by decide) hdet seeds).bind fun sols ⟨v, hv, hsols⟩ => ⟨v, hv, hsols⟩

/-! ### Texts -/

/-- The candidates for a function and a constraint that are given as texts. -/
def ofTexts (o : Overflow) (function constraint : String) : Outcome ConstrainedExtrema := do
  let f ← Formula.read o function
  let g ← Formula.readConstraint o constraint
  ConstrainedExtrema.of o f g

/-- The one point is a rational solution of the conditions. -/
def FindsSolution (a b c d e p q r : ℚ) (points : List ConstrainedPoint) : Prop :=
  ∃ (x y l : ℚ) (point : ConstrainedPoint), points = [point] ∧ point.x = .num (.exact x) ∧ point.y = .num (.exact y) ∧
    point.multiplier = .num (.exact l) ∧ p * x + q * y + r = 0 ∧ 2 * a * x + b * y + d + l * p = 0 ∧
      b * x + 2 * c * y + e + l * q = 0

lemma of_quadratic {f g : Expr} (hf : IsNormal f) (hfp : polynomial f = quadratic a b c d e k) (hg : IsNormal g)
    (hgp : polynomial g = linear p q r) (hdet : (conditions a b c p q).det ≠ 0)
    (ho : ConstrainedExtrema.of .refuse f g ≠ .error (.halted .overflow)) :
    ∃ E, ConstrainedExtrema.of .approximate f g = .ok E ∧ FindsSolution a b c d e p q r E.points := by
  rw [of_eq] at ho
  have hoverflow : stationary .refuse f g ≠ .error .overflow := by
    intro h
    rw [h] at ho
    exact ho rfl
  obtain ⟨⟨⟨l, lx, ly, ll⟩, solutions⟩, hrun, v, hv, rfl⟩ :=
    (stationary_consistent f g).exists_value (stationary_quadratic hf hfp hg hgp hdet) hoverflow
  rw [of_eq, hrun]
  have hrow (i : Fin 3) := congrFun hv i
  refine ⟨_, rfl, v 0, v 1, v 2, _, rfl, rfl, rfl, rfl, ?_, ?_, ?_⟩
  · have h := hrow 2
    simp [conditions, Matrix.mulVec, dotProduct, Fin.sum_univ_three] at h
    linarith
  · have h := hrow 0
    simp [conditions, Matrix.mulVec, dotProduct, Fin.sum_univ_three] at h
    linarith
  · have h := hrow 1
    simp [conditions, Matrix.mulVec, dotProduct, Fin.sum_univ_three] at h
    linarith

lemma ofTexts_eq {o : Overflow} {function constraint : String} {f g : Expr} (hf : Formula.read o function = .ok f)
    (hg : Formula.readConstraint o constraint = .ok g) : ofTexts o function constraint = ConstrainedExtrema.of o f g := by
  unfold ofTexts
  rw [hf]
  show Formula.readConstraint o constraint >>= _ = _
  rw [hg]
  rfl

/-- Where the conditions have one solution, it is found exactly, whether the constraint is written as `g` or as an equation;
the only other outcome is that a number leaves the exact range. -/
theorem quadratic_exact {function constraint equation : String} {a b c d e k p q r : ℚ}
    (hf : Formula.WrittenOut function fun ρ =>
      a * ρ "x" ^ 2 + b * ρ "x" * ρ "y" + c * ρ "y" ^ 2 + d * ρ "x" + e * ρ "y" + k)
    (hg : Formula.WrittenOut constraint fun ρ => p * ρ "x" + q * ρ "y" + r)
    (heq : Formula.WrittenEquation equation (fun ρ => p * ρ "x" + q * ρ "y") fun _ => -r)
    (hdet : (conditions a b c p q).det ≠ 0)
    (ho : ofTexts .refuse function constraint ≠ .error (.halted .overflow))
    (ho' : ofTexts .refuse function equation ≠ .error (.halted .overflow)) :
    ∃ E, ofTexts .approximate function constraint = .ok E ∧ ofTexts .approximate function equation = .ok E ∧
      FindsSolution a b c d e p q r E.points := by
  have hf' : Formula.WrittenOut function fun ρ => aeval ρ (quadratic a b c d e k) := by simpa [quadratic] using hf
  have hg' : Formula.WrittenOut constraint fun ρ => aeval ρ (linear p q r) := by simpa [linear] using hg
  have heq' : Formula.WrittenEquation equation (fun ρ => aeval ρ (linear p q 0)) fun _ => -r := by simpa [linear] using heq
  have hsides : linear p q 0 - C (-r) = linear p q r := by simp [linear]
  obtain ⟨f, hf⟩ := hf'.readsNormal (Formula.ne_error_of_bind ho)
  have hread : (do
      let g ← Formula.readConstraint .refuse constraint
      ConstrainedExtrema.of .refuse f g) ≠ .error (.halted .overflow) := by
    unfold ofTexts at ho
    rwa [show Formula.read .refuse function = .ok f from hf.refuse] at ho
  have hread' : (do
      let g ← Formula.readConstraint .refuse equation
      ConstrainedExtrema.of .refuse f g) ≠ .error (.halted .overflow) := by
    unfold ofTexts at ho'
    rwa [show Formula.read .refuse function = .ok f from hf.refuse] at ho'
  obtain ⟨g, hg⟩ := hg'.readsConstraint (Formula.ne_error_of_bind hread)
  obtain ⟨g', hg''⟩ := heq'.readsConstraint (Formula.ne_error_of_bind hread')
  rw [hsides] at hg''
  obtain rfl : g = g' := hg.normal.eq_of_value hg''.normal (hg.polynomial.trans hg''.polynomial.symm)
  rw [ofTexts_eq hf.refuse hg.refuse] at ho
  obtain ⟨E, hE, hpoints⟩ := of_quadratic hf.normal hf.polynomial hg.normal hg.polynomial hdet ho
  exact ⟨E, (ofTexts_eq hf.approximate hg.approximate).trans hE, (ofTexts_eq hf.approximate hg''.approximate).trans hE,
    hpoints⟩

/-! ### A saddle on a line -/

section Saddle

open Formula

def numeral (n : ℕ) : SignedForm := .bare (.single (.number (literal n)))

def variableForm (x : String) : SignedForm := .bare (.single (.name x))

def squareForm (x : String) : SignedForm := .bare (.raised (.name x) (numeral 2))

lemma saddle_writtenOut : WrittenOut "x**2 - y**2/2 + 3" fun ρ =>
    1 * ρ "x" ^ 2 + 0 * ρ "x" * ρ "y" + (-1 / 2) * ρ "y" ^ 2 + 0 * ρ "x" + 0 * ρ "y" + 3 := by
  have hx : ¬IsFunctionName "x" := by decide
  have hy : ¬IsFunctionName "y" := by decide
  have htwo : whole? (literal 2) = some 2 := whole?_literal (by decide)
  have hthree : whole? (literal 3) = some 3 := whole?_literal (by decide)
  refine ⟨.chain (.chain (.single (.single (squareForm "x"))) .minus (.chain (.single (squareForm "y")) .over (numeral 2)))
    .plus (.single (numeral 3)), (parse_eq_ok_iff _ _).mp (by cbv), ?_, fun ρ => ?_⟩
  · exact ⟨⟨trivial, trivial, trivial⟩, trivial⟩
  · simp only [SumForm.HasValue, ProductForm.HasValue, SignedForm.HasValue, PowerForm.HasValue, AtomForm.HasValue,
      SignedForm.whole?, squareForm, numeral, htwo, hthree, Sign.apply]
    simp [hx, hy]
    ring

/-- The left side of the equation. -/
def sideForm : SumForm :=
  .chain (.single (.single (variableForm "x"))) .plus (.chain (.single (numeral 2)) .times (variableForm "y"))

lemma sideForm_hasValue (ρ : String → ℚ) : sideForm.HasValue ρ (1 * ρ "x" + 2 * ρ "y") := by
  have hx : ¬IsFunctionName "x" := by decide
  have hy : ¬IsFunctionName "y" := by decide
  have htwo : whole? (literal 2) = some 2 := whole?_literal (by decide)
  simp [sideForm, SumForm.HasValue, ProductForm.HasValue, SignedForm.HasValue, PowerForm.HasValue, AtomForm.HasValue,
    variableForm, numeral, htwo, hx, hy, Sign.apply]

lemma one_hasValue (ρ : String → ℚ) : (ProductForm.single (numeral 1)).HasValue ρ 1 := ⟨1, whole?_literal (by decide), by simp⟩

lemma line_writtenOut : WrittenOut "x + 2*y - 1" fun ρ => 1 * ρ "x" + 2 * ρ "y" + -1 :=
  ⟨.chain sideForm .minus (.single (numeral 1)), (parse_eq_ok_iff _ _).mp (by cbv), ⟨⟨trivial, trivial, trivial⟩, trivial⟩,
    fun ρ => ⟨_, _, sideForm_hasValue ρ, one_hasValue ρ, sub_eq_add_neg _ _⟩⟩

lemma line_writtenEquation : WrittenEquation "x + 2*y = 1" (fun ρ => 1 * ρ "x" + 2 * ρ "y") fun _ => - -1 := by
  refine ⟨sideForm, .single (.single (numeral 1)), ⟨_, _, rfl, (parse_eq_ok_iff "x + 2*y " _).mp (by cbv),
    (parse_eq_ok_iff " 1" _).mp (by cbv)⟩, ⟨⟨trivial, trivial, trivial⟩, sideForm_hasValue⟩, trivial, fun ρ => ?_⟩
  rw [neg_neg]
  exact one_hasValue ρ

def saddle : Expr :=
  .plus [.power (.symbol "x") (int 2), .times [frac (-1) 2, .power (.symbol "y") (int 2)], int 3]

def line : Expr := .plus [.symbol "x", .times [int 2, .symbol "y"], int (-1)]

def saddleOnLine : Expr :=
  .plus [.power (.symbol "x") (int 2), .times [frac (-1) 2, .power (.symbol "y") (int 2)],
    .times [.symbol "lambda", line], int 3]

/-- Nothing leaves the exact range on the way to the solution. -/
lemma saddle_candidates : ∃ E, ConstrainedExtrema.of .refuse saddle line = .ok E := by
  have hm : Expr.product .refuse [.symbol "lambda", line] = .ok (.times [.symbol "lambda", line]) := by cbv
  have hl : Expr.sum .refuse [saddle, .times [.symbol "lambda", line]] = .ok saddleOnLine := by cbv
  have hx : derivative .refuse "x" saddleOnLine = .ok (.plus [.symbol "lambda", .times [int 2, .symbol "x"]]) := by cbv
  have hy : derivative .refuse "y" saddleOnLine =
    .ok (.plus [.times [int 2, .symbol "lambda"], .times [int (-1), .symbol "y"]]) := by cbv
  have hmultiplier : derivative .refuse "lambda" saddleOnLine = .ok line := by cbv
  have hsystem : (EquationSystem.ofEquations .refuse [.plus [.symbol "lambda", .times [int 2, .symbol "x"]],
      .plus [.times [int 2, .symbol "lambda"], .times [int (-1), .symbol "y"]], line] ["x", "y", "lambda"] >>=
        (EquationSystem.linearSolution? .refuse ·)) = .ok (some [.exact (-1 / 7), .exact (4 / 7), .exact (2 / 7)]) := by
    cbv
  obtain ⟨system, hequations, hsolution⟩ := bind_ok hsystem
  have hrun : ∃ derivatives, stationary .refuse saddle line =
      .ok (derivatives, [Solution.ofNumbers [.exact (-1 / 7), .exact (4 / 7), .exact (2 / 7)]]) := by
    simp only [stationary, hm, hl, hx, hy, hmultiplier, solveSystem, hequations, hsolution, bind, Except.bind]
    exact ⟨_, rfl⟩
  obtain ⟨derivatives, hrun⟩ := hrun
  rw [of_eq, hrun]
  exact ⟨_, rfl⟩

theorem quadratic_exact_saddle : ∃ E, ofTexts .approximate "x**2 - y**2/2 + 3" "x + 2*y - 1" = .ok E ∧
    ofTexts .approximate "x**2 - y**2/2 + 3" "x + 2*y = 1" = .ok E ∧
    ∃ point, E.points = [point] ∧ point.x = .num (.exact (-1 / 7)) ∧ point.y = .num (.exact (4 / 7)) ∧
      point.multiplier = .num (.exact (2 / 7)) := by
  have hdet : (conditions 1 0 (-1 / 2) 1 2).det ≠ 0 := by
    rw [conditions, Matrix.det_fin_three]
    simp
    norm_num
  have hf : Formula.read .refuse "x**2 - y**2/2 + 3" = .ok saddle := by cbv
  have hg : Formula.readConstraint .refuse "x + 2*y - 1" = .ok line := by
    have hread : Formula.read .refuse "x + 2*y - 1" = .ok line := by cbv
    rwa [readConstraint, if_neg (by decide)]
  have hequation : Formula.readConstraint .refuse "x + 2*y = 1" = .ok line := by
    have hparse : parseEquation "x + 2*y = 1" = .ok (sideForm, .single (.single (numeral 1))) := by cbv
    rw [readConstraint, if_pos (by decide), hparse]
    cbv
  obtain ⟨E₀, hE₀⟩ := saddle_candidates
  obtain ⟨E, hE, hE', x, y, l, point, hpoints, hx, hy, hl, h0, h1, h2⟩ := quadratic_exact saddle_writtenOut line_writtenOut
    line_writtenEquation hdet (by simp [ofTexts_eq hf hg, hE₀]) (by simp [ofTexts_eq hf hequation, hE₀])
  obtain rfl : x = -1 / 7 := by linarith
  obtain rfl : y = 4 / 7 := by linarith
  obtain rfl : l = 2 / 7 := by linarith
  exact ⟨E, hE, hE', point, hpoints, hx, hy, hl⟩

end Saddle

end PlaneCalculus.ConstrainedExtrema
