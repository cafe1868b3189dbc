import PlaneCalculus.Double

/-!
Numbers used while folding constants: exact rationals as long as the integers involved fit into 128 bits, doubles after
that. The check is made on the cross products before they are reduced, so an operation may turn inexact although its
reduced result would fit.
-/

namespace PlaneCalculus

inductive Number where
  | exact (value : Rat)
  | approx (value : Float)

namespace Number

/-- Signed 128-bit integers lie in `-bound ≤ n < bound`, where `bound = 2 ^ 127`. -/
def bound : Int := 170141183460469231731687303715884105728

def fits (n : Int) : Bool := -bound ≤ n && n < bound

def ofInt (n : Int) : Number := .exact n

/-- Numerator and denominator divided by their greatest common divisor, the sign moved above the line. -/
def lowest (n d : Int) : Int × Int :=
  let g : Int := max (Int.gcd n d) 1
  if d / g < 0 then (-(n / g), -(d / g)) else (n / g, d / g)

/-- The reduced fraction of two fitting integers. A zero denominator and the one integer whose negation does not fit go
over to doubles. -/
def ofParts (n d : Int) : Number :=
  if d = 0 then .approx (Float.ofInt n / 0.0)
  else if n = -bound ∨ d = -bound then .approx (Float.ofInt n / Float.ofInt d)
  else .exact (Rat.divInt (lowest n d).1 (lowest n d).2)

theorem lowest_cases (n : Int) {d : Int} (hd : d ≠ 0) : ∃ g m c : Int, 0 < g ∧ n = m * g ∧ d = c * g ∧ Int.gcd m c = 1 ∧
    (0 < c ∧ lowest n d = (m, c) ∨ c < 0 ∧ lowest n d = (-m, -c)) := by
  have hpos : 0 < Int.gcd n d := Int.gcd_pos_of_ne_zero_right n hd
  have hg : max (Int.gcd n d : Int) 1 = Int.gcd n d := by omega
  have hn : n / Int.gcd n d * Int.gcd n d = n := Int.ediv_mul_cancel (Int.gcd_dvd_left n d)
  have hc : d / Int.gcd n d * Int.gcd n d = d := Int.ediv_mul_cancel (Int.gcd_dvd_right n d)
  refine ⟨Int.gcd n d, n / Int.gcd n d, d / Int.gcd n d, by omega, hn.symm, hc.symm, Int.gcd_ediv_gcd_ediv_gcd hpos, ?_⟩
  simp only [lowest, hg]
  split
  · next h => exact Or.inr ⟨h, rfl⟩
  · next h =>
    refine Or.inl ⟨?_, rfl⟩
    have hne : d / Int.gcd n d ≠ 0 := by
      intro h0
      rw [h0, Int.zero_mul] at hc
      exact hd hc.symm
    omega

theorem divInt_lowest (n : Int) {d : Int} (hd : d ≠ 0) : Rat.divInt (lowest n d).1 (lowest n d).2 = Rat.divInt n d := by
  obtain ⟨g, m, c, hg, hn, hc, -, h⟩ := lowest_cases n hd
  have hmc : Rat.divInt n d = Rat.divInt m c := by
    rw [hn, hc]
    exact Rat.divInt_mul_right (by omega)
  obtain ⟨-, h⟩ | ⟨-, h⟩ := h
  · rw [h, hmc]
  · rw [h, Rat.neg_divInt_neg, hmc]

theorem ofParts_eq (n d : Int) : ofParts n d =
    if d = 0 then .approx (Float.ofInt n / 0.0)
    else if n = -bound ∨ d = -bound then .approx (Float.ofInt n / Float.ofInt d)
    else .exact (Rat.divInt n d) := by
  unfold ofParts
  split
  · rfl
  · next hd => rw [divInt_lowest n hd]

def toFloat : Number → Float
  | .exact q => Float.ofInt q.num / Float.ofInt q.den
  | .approx v => v

def isExact : Number → Bool
  | .exact _ => true
  | .approx _ => false

def isZero : Number → Bool
  | .exact q => q.num = 0
  | .approx v => v == 0.0

/-- Only the exact one counts. -/
def isOne : Number → Bool
  | .exact q => q.num = 1 && q.den = 1
  | .approx _ => false

def isNegative : Number → Bool
  | .exact q => q.num < 0
  | .approx v => v < 0.0

def isInteger : Number → Bool
  | .exact q => q.den = 1
  | .approx _ => false

def toInt? : Number → Option Int
  | .exact q => if q.den = 1 then some q.num else none
  | .approx _ => none

/-- Equality of values, as doubles compare: a NaN differs from itself and the two zeros agree. -/
def same : Number → Number → Bool
  | .exact p, .exact q => p = q
  | .approx v, .approx w => v == w
  | _, _ => false

instance : BEq Number := ⟨same⟩

def add (a b : Number) : Number :=
  match a, b with
  | .exact p, .exact q =>
    let l := p.num * q.den
    let r := q.num * p.den
    let d := (p.den : Int) * q.den
    if fits l && fits r && fits (l + r) && fits d then ofParts (l + r) d else .approx (a.toFloat + b.toFloat)
  | _, _ => .approx (a.toFloat + b.toFloat)

def mul (a b : Number) : Number :=
  match a, b with
  | .exact p, .exact q =>
    let n := p.num * q.num
    let d := (p.den : Int) * q.den
    if fits n && fits d then ofParts n d else .approx (a.toFloat * b.toFloat)
  | _, _ => .approx (a.toFloat * b.toFloat)

def neg (a : Number) : Number := a.mul (ofInt (-1))

def sub (a b : Number) : Number := a.add b.neg

def div (a b : Number) : Number :=
  match a, b with
  | .exact p, .exact q =>
    let n := p.num * q.den
    let d := (p.den : Int) * q.num
    if q.num ≠ 0 && fits n && fits d then ofParts n d else .approx (a.toFloat / b.toFloat)
  | _, _ => .approx (a.toFloat / b.toFloat)

def abs : Number → Number
  | .exact q =>
    if q.num = -bound then .approx (Float.ofInt q.num / Float.ofInt q.den).abs
    else .exact (if q.num < 0 then -q else q)
  | .approx v => .approx v.abs

/-- The power of an integer when it fits. Exponents from 128 on are refused at once for bases of two or more. -/
def powFits (b : Int) (e : Nat) : Option Int :=
  if 128 ≤ e ∧ 2 ≤ b.natAbs then none
  else if 128 ≤ e then some (if e % 2 = 0 then b * b else b)
  else if fits (Int.pow b e) then some (Int.pow b e)
  else none

/-- Exponents from here on, `2 ^ 32`, are not tried exactly. -/
def exponentLimit : Nat := 4294967296

/-- Integer power. A negative exponent exchanges numerator and denominator first. -/
def powInt (a : Number) (e : Int) : Number :=
  match a with
  | .exact q =>
    let n : Int := if e < 0 then q.den else q.num
    let d : Int := if e < 0 then q.num else q.den
    let rounded := Number.approx (Float.pow (Float.ofInt n / Float.ofInt d) (Float.ofInt e.natAbs))
    if e.natAbs ≥ exponentLimit then rounded
    else match powFits n e.natAbs, powFits d e.natAbs with
      | some n, some d => ofParts n d
      | _, _ => rounded
  | .approx v => .approx (Float.pow v (Float.ofInt e))

end Number

end PlaneCalculus
