import PlaneCalculus.Equations.Row
import PlaneCalculus.Number.Overflow

/-!
Linear systems over numbers, solved by elimination. Each round takes the first remaining row whose leading coefficient is
not zero, divides it by that coefficient and clears the leading coefficient of every other row, finished ones included. A
cleared column is dropped, so that at the end the right sides are the solution.
-/

namespace PlaneCalculus.Elimination

def leads (r : Row Number) : Bool :=
  match r.coeffs with
  | c :: _ => !c.isZero
  | [] => false

def normalize (o : Overflow) (r : Row Number) : Calc (Row Number) :=
  match r.coeffs with
  | [] => return r
  | c :: cs => do return ⟨← cs.mapM (o.div · c), ← o.div r.rhs c⟩

def subtractMultiple (o : Overflow) (factor a b : Number) : Calc Number := do o.sub a (← o.mul factor b)

def clear (o : Overflow) (pivot r : Row Number) : Calc (Row Number) :=
  match r.coeffs with
  | [] => return r
  | c :: cs => do
    if c.isZero then return ⟨cs, r.rhs⟩
    else
      let coeffs ← (cs.zip pivot.coeffs).mapM fun (a, b) => subtractMultiple o c a b
      return ⟨coeffs, ← subtractMultiple o c r.rhs pivot.rhs⟩

/-- Rounds of elimination for the remaining rows, as many as there are; none when no row leads. -/
def rounds (o : Overflow) : Nat → List (Row Number) → List (Row Number) → Calc (Option (List Number))
  | 0, finished, _ => return some (finished.map (·.rhs))
  | n + 1, finished, remaining =>
    match (remaining.findIdx? leads).bind fun i => Row.exchange i remaining with
    | none => return none
    | some (r, rest) => do
      let pivot ← normalize o r
      let finished ← finished.mapM (clear o pivot)
      let rest ← rest.mapM (clear o pivot)
      rounds o n (finished ++ [pivot]) rest

def solve (o : Overflow) (rows : List (Row Number)) : Calc (Option (List Number)) := rounds o rows.length [] rows

end PlaneCalculus.Elimination
