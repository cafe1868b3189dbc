/-!
The shortest decimal that reads back as a given double. A positive double is `mantissa * 2 ^ exponent`; the reals that
round to it form an interval, closed exactly when the mantissa is even. Among the decimal grids of one, two, …
significant digits the first with a point in that interval is taken, and on it the point nearest to the double.
-/

namespace PlaneCalculus.Decimal

/-- Magnitude of a finite double: the value `mantissa * 2 ^ exponent`. -/
structure Binary where
  mantissa : Nat
  exponent : Int
  deriving DecidableEq, Repr

/-- The leading bit of a mantissa of full length, `2 ^ 52`; it is not among the bits of the double. -/
def leadingBit : Nat := 4503599627370496

/-- Reads the magnitude off the bits of a finite double; the sign is dropped. -/
def Binary.ofFloat (v : Float) : Binary :=
  let bits := v.toBits.toNat
  let field := (bits >>> 52) % 2048
  let fraction := bits % leadingBit
  if field = 0 then ⟨fraction, -1074⟩ else ⟨fraction + leadingBit, (field : Int) - 1075⟩

structure Scientific where
  digits : Nat
  exponent : Int
  deriving DecidableEq, Repr

/-- The reals between `low / den` and `high / den` that round to the double `mid / den`; the ends belong to it when
`closed` holds. -/
structure Basin where
  low : Nat
  mid : Nat
  high : Nat
  den : Nat
  closed : Bool
  deriving Repr

/-- All bounds are multiples of a quarter of the last binary place. Below a power of two the gap to the previous double
is halved. -/
def Binary.basin (b : Binary) : Basin :=
  let below := if b.mantissa = leadingBit ∧ b.exponent ≠ -1074 then 1 else 2
  let up := Nat.pow 2 (b.exponent - 2).toNat
  let down := Nat.pow 2 (2 - b.exponent).toNat
  { low := (4 * b.mantissa - below) * up, mid := 4 * b.mantissa * up, high := (4 * b.mantissa + 2) * up,
    den := down, closed := b.mantissa % 2 = 0 }

def Basin.contains (s : Basin) (num den : Nat) : Bool :=
  if s.closed then s.low * den ≤ num * s.den && num * s.den ≤ s.high * den
  else s.low * den < num * s.den && num * s.den < s.high * den

def scaled (n : Nat) (e : Int) : Nat × Nat := (n * Nat.pow 10 e.toNat, Nat.pow 10 (-e).toNat)

def Basin.holds (s : Basin) (d : Scientific) : Bool :=
  let (num, den) := scaled d.digits d.exponent
  s.contains num den

/-- The grid of multiples of `10 ^ e`: of the two neighbours of the double those inside the basin, the nearer of two,
the upper one at equal distance. -/
def Basin.onGrid (s : Basin) (e : Int) : Option Scientific :=
  let num := s.mid * Nat.pow 10 (-e).toNat
  let den := s.den * Nat.pow 10 e.toNat
  let lower := num / den
  let rest := num % den
  match s.holds ⟨lower, e⟩, s.holds ⟨lower + 1, e⟩ with
  | true, true => some ⟨if 2 * rest < den then lower else lower + 1, e⟩
  | true, false => some ⟨lower, e⟩
  | false, true => some ⟨lower + 1, e⟩
  | false, false => none

/-- The least `k` with `mid / den < 10 ^ k`, searched upwards from `k`. -/
def Basin.magnitudeFrom (s : Basin) : Nat → Int → Int
  | 0, k => k
  | fuel + 1, k =>
    let (num, den) := scaled 1 k
    if s.mid * den < num * s.den then k else s.magnitudeFrom fuel (k + 1)

/-- A double with leading bit `2 ^ p` is at least `10 ^ (p * 3 / 10)` below one, so few steps are needed. -/
def Binary.magnitude (b : Binary) : Int :=
  let p := (b.mantissa.log2 : Int) + b.exponent
  b.basin.magnitudeFrom 40 ((p * 30103).fdiv 100000 - 1)

/-- The first grid with a hit, from `n` digits on. -/
def Basin.search (s : Basin) (magnitude : Int) : Nat → Nat → Option Scientific
  | 0, _ => none
  | fuel + 1, n =>
    match s.onGrid (magnitude - n) with
    | some d => some d
    | none => s.search magnitude fuel (n + 1)

/-- Drops trailing zeros, counting them into the exponent. -/
def Scientific.strip (d : Scientific) : Nat → Scientific
  | 0 => d
  | fuel + 1 => if d.digits ≠ 0 ∧ d.digits % 10 = 0 then Scientific.strip ⟨d.digits / 10, d.exponent + 1⟩ fuel else d

/-- The shortest decimal of a positive finite double; seventeen digits always suffice. -/
def shortest (v : Float) : Scientific :=
  let b := Binary.ofFloat v
  if b.mantissa = 0 then ⟨0, 0⟩
  else match b.basin.search b.magnitude 17 1 with
    | some d => d.strip 20
    | none => ⟨0, 0⟩

end PlaneCalculus.Decimal
