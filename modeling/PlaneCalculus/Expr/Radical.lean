import PlaneCalculus.Expr.Basic

/-!
Square roots of integers and fractions in the form "rational times the root of a square-free integer". Square factors
are found by trial up to `trialLimit`; a larger one stays under the root unless all that is left is a perfect square.
-/

namespace PlaneCalculus.Radical

def trialLimit : Nat := 1000000

/-- Moves square divisors from `inside` to `outside`, trying `factor` and all above it. -/
def pullSquares (factor outside inside : Nat) : Nat × Nat :=
  if 2 ≤ factor ∧ factor ≤ trialLimit ∧ 0 < inside ∧ factor * factor ≤ inside then
    if inside % (factor * factor) = 0 then pullSquares factor (outside * factor) (inside / (factor * factor))
    else pullSquares (factor + 1) outside inside
  else (outside, inside)
termination_by (trialLimit + 1 - factor, inside)
decreasing_by
  · exact Prod.Lex.right _ (Nat.div_lt_self (by omega) (Nat.lt_of_lt_of_le (by omega : 1 < 2 * 2)
      (Nat.mul_le_mul (by omega) (by omega))))
  · exact Prod.Lex.left _ _ (by omega)

/-- Pulling out squares keeps `outside ^ 2 * inside`. -/
theorem pullSquares_value (factor outside inside : Nat) :
    (pullSquares factor outside inside).1 * (pullSquares factor outside inside).1 *
      (pullSquares factor outside inside).2 = outside * outside * inside := by
  fun_induction pullSquares factor outside inside with
  | case1 factor outside inside _ hd ih =>
    rw [ih]
    have := Nat.div_mul_cancel (Nat.dvd_of_mod_eq_zero hd)
    generalize inside / (factor * factor) = q at *
    subst this
    simp only [Nat.mul_comm, Nat.mul_left_comm]
  | case2 _ _ _ _ _ ih => exact ih
  | case3 => rfl

/-- The root of a perfect square, searched beside the rounded floating-point root. -/
def exactRoot? (n : Nat) : Option Nat :=
  let guess := (Float.ofNat n).sqrt.round.toUInt64.toNat
  [guess - 1, guess, guess + 1].find? fun r => 0 < r && r * r = n

/-- `(outside, inside)` with `outside * √inside = √n`; a negative number stays inside. -/
def squareParts (n : Int) : Int × Int :=
  if n = 0 then (0, 1)
  else if n < 0 then (1, n)
  else
    let (outside, inside) := pullSquares 2 1 n.toNat
    match exactRoot? inside with
    | some root => (outside * root, 1)
    | none => (outside, inside)

/-- Numerators and denominators up to this size have their roots extracted. -/
def fractionLimit : Int := 1000000000000

/-- The root of `n / d` as a number, a bare root, or a number times a root. -/
def ofFraction? (n d : Int) : Option Expr :=
  if n < 0 ∨ d ≤ 0 ∨ n > fractionLimit ∨ d > fractionLimit then none
  else
    let (outside, inside) := squareParts (n * d)
    let coeff := Number.ofParts outside d
    let root := Expr.power (Expr.int inside) Expr.half
    if inside = 1 then some (.num coeff)
    else if coeff.isOne then some root
    else some (.times [.num coeff, root])

end PlaneCalculus.Radical
