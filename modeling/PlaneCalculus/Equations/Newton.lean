import PlaneCalculus.Equations.Row
import PlaneCalculus.Expr.Evaluation

/-!
Newton's method for systems of equations in doubles. A step solves the linearized system by elimination with partial
pivoting. The method fails where a value is not finite or the linearized system is singular, and when the point reached
after the last step does not satisfy the equations.
-/

namespace PlaneCalculus

/-- Equations `e = 0` in the given symbols, with their partial derivatives, one row for each equation. -/
structure EquationSystem where
  equations : List Expr
  symbols : List String
  jacobian : List (List Expr)

namespace Newton

def maxSteps : Nat := 100

/-- A step shorter than this in every coordinate is the last one. -/
def stepTolerance : Float := 1e-12

/-- Greatest residual of a point that is accepted as a root. -/
def residualTolerance : Float := 1e-9

/-- Roots that are closer than this in every coordinate are one. -/
def separation : Float := 1e-6

/-- A pivot below this makes the linearized system singular. -/
def pivotTolerance : Float := 1e-14

/-! ### Linear steps -/

def leading (r : Row Float) : Float := r.coeffs.headD 0.0

/-- Position of the row with the greatest leading coefficient in magnitude, the last one of several. -/
def pivotIndex (rows : List (Row Float)) : Nat :=
  let keys := rows.map fun r => Double.orderKey (leading r).abs
  ((keys.zipIdx.foldl fun best (k, i) => if best.1 ≤ k then (k, i) else best) (keys.headD 0, 0)).2

def clear (pivot r : Row Float) : Row Float :=
  let factor := leading r / leading pivot
  ⟨(r.coeffs.zip pivot.coeffs).tail.map fun (a, b) => a - factor * b, r.rhs - factor * pivot.rhs⟩

/-- The pivot rows in turn, each one unknown shorter than the one before; none when a pivot is too small. -/
def triangular : Nat → List (Row Float) → Option (List (Row Float))
  | 0, _ => some []
  | n + 1, rows => do
    let (pivot, rest) ← Row.exchange (pivotIndex rows) rows
    if (leading pivot).abs < pivotTolerance then none
    else return pivot :: (← triangular n (rest.map (clear pivot)))

def backSubstitute : List (Row Float) → List Float
  | [] => []
  | r :: rows =>
    let xs := backSubstitute rows
    let known := ((r.coeffs.tail.zip xs).map fun (a, x) => a * x).foldl (· + ·) (-0.0)
    (r.rhs - known) / leading r :: xs

def solveLinear (rows : List (Row Float)) : Option (List Float) := (triangular rows.length rows).map backSubstitute

/-! ### Iteration -/

def valuesAt (s : EquationSystem) (point : List Float) (es : List Expr) : List Float :=
  let bindings := s.symbols.zip point
  es.map (·.eval bindings)

def step (s : EquationSystem) (point : List Float) : Option (List Float) := do
  let residual := valuesAt s point s.equations
  guard (residual.all (·.isFinite))
  let matrix := s.jacobian.map (valuesAt s point)
  guard (matrix.all (·.all (·.isFinite)))
  solveLinear ((matrix.zip residual).map fun (cs, r) => ⟨cs, -r⟩)

def advance : List Float → List Float → List Float
  | p :: ps, s :: ss => (p + s) :: advance ps ss
  | ps, _ => ps

def iterate (s : EquationSystem) : Nat → List Float → Option (List Float)
  | 0, point => some point
  | n + 1, point => do
    let d ← step s point
    if d.all (·.abs < stepTolerance) then return advance point d else iterate s n (advance point d)

def root? (s : EquationSystem) (seed : List Float) : Option (List Float) := do
  let point ← iterate s maxSteps seed
  guard ((valuesAt s point s.equations).all (·.abs < residualTolerance))
  return point

def isNear (p q : List Float) : Bool := (p.zip q).all fun (a, b) => (a - b).abs < separation

def roots (s : EquationSystem) (seeds : List (List Float)) : List (List Float) :=
  (seeds.filterMap (root? s)).foldl (fun found p => if found.any (isNear · p) then found else found ++ [p]) []

end Newton

end PlaneCalculus
