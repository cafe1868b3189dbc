import PlaneCalculus.Calculus.Derivative
import PlaneCalculus.Calculus.Recognition
import PlaneCalculus.Equations.Elimination
import PlaneCalculus.Equations.Newton
import PlaneCalculus.Expr.Substitution

/-!
Solutions of systems of equations `e = 0`. A system all of whose partial derivatives are numbers is linear and is solved
exactly; a singular one, like every other system, is left to Newton's method from the given starting points.
-/

namespace PlaneCalculus

structure Solution where
  values : List Expr
  numeric : List Float

/-- Lexicographic comparison in the total order of doubles; the shorter of two lists decides how many count. -/
def compareCoordinates : List Float → List Float → Ordering
  | a :: as, b :: bs => (compare (Double.orderKey a) (Double.orderKey b)).then (compareCoordinates as bs)
  | _, _ => .eq

namespace EquationSystem

def ofEquations (o : Overflow) (equations : List Expr) (symbols : List String) : Calc EquationSystem := do
  let jacobian ← equations.mapM fun e => symbols.mapM fun v => e.derivative o v
  return ⟨equations, symbols, jacobian⟩

def atOrigin (o : Overflow) (symbols : List String) (e : Expr) : Calc Expr :=
  symbols.foldlM (fun e v => e.substitute o v (.int 0)) e

/-- The rows of a linear system, when all partial derivatives and constant terms are numbers. -/
def linearRows? (o : Overflow) (s : EquationSystem) : Calc (Option (List (Row Number))) := do
  match s.jacobian.mapM (·.mapM Expr.number?) with
  | none => return none
  | some matrix =>
    let constants ← s.equations.mapM fun e => do Expr.neg o (← atOrigin o s.symbols e)
    match constants.mapM Expr.number? with
    | none => return none
    | some rhs => return some ((matrix.zip rhs).map fun (cs, r) => ⟨cs, r⟩)

def linearSolution? (o : Overflow) (s : EquationSystem) : Calc (Option (List Number)) := do
  match ← s.linearRows? o with
  | none => return none
  | some rows => Elimination.solve o rows

end EquationSystem

namespace Solution

def ofNumbers (values : List Number) : Solution :=
  ⟨values.map .num, values.map fun n => Double.snap n.toFloat 0.0⟩

/-- A numeric root; its coordinates are recognised as fractions and roots of fractions where possible. -/
def ofRoot (o : Overflow) (point : List Float) : Calc Solution := do
  let numeric := point.map (Double.snap · 1e-9)
  return ⟨← numeric.mapM (Recognition.identify o), numeric⟩

end Solution

/-- The solutions of `equations = 0` for the unknowns `symbols`, in the order of their coordinates. -/
def solveSystem (o : Overflow) (equations : List Expr) (symbols : List String) (seeds : List (List Float)) :
    Calc (List Solution) := do
  let s ← EquationSystem.ofEquations o equations symbols
  match ← s.linearSolution? o with
  | some values => return [Solution.ofNumbers values]
  | none =>
    let solutions ← (Newton.roots s seeds).mapM (Solution.ofRoot o)
    return solutions.mergeSort fun a b => (compareCoordinates a.numeric b.numeric).isLE

end PlaneCalculus
