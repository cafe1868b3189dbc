import PlaneCalculus.Expr.Fraction
import PlaneCalculus.Expr.Size

/-!
The constructors of sums, products and powers. They flatten nested operands, fold numbers, collect like terms and like
bases and sort the operands, so that expressions differing in the order or grouping of operands become equal trees.

Sorting needs the text of operands, and the text of a sum needs the negation of its terms, so the four activities call
each other. Each is first written with the others as arguments (`sumStep`, `productStep`, `powerStep`, `textStep`); the
recursion `sumAt`, `productAt`, `powerAt`, `textAt` then ties them together, descending on the depth of calls that is
left. The public `sum`, `product`, `pow` and `text` allot a depth from the size of the input.
-/

namespace PlaneCalculus

namespace Expr

/-- Adds a coefficient to the entry of a term, opening one at the end if there is none. -/
def addCoefficient (o : Overflow) (rest : Expr) (c : Number) : List (Expr × Number) → Calc (List (Expr × Number))
  | [] => return [(rest, c)]
  | (e, d) :: entries => do
    if e == rest then return (e, ← o.add d c) :: entries
    else return (e, d) :: (← addCoefficient o rest c entries)

/-- Terms collected so far: the numeric part, and one coefficient for each different rest. -/
structure Collected where
  number : Number
  entries : List (Expr × Number)

def Collected.push (o : Overflow) (s : Collected) (e : Expr) : Calc Collected :=
  match e with
  | .num n => do return { s with number := ← o.add s.number n }
  | e => do return { s with entries := ← addCoefficient o e.coeffRest.2 e.coeffRest.1 s.entries }

/-- A list of operands as one expression: the neutral element, the operand itself, or a node. -/
def collapse (neutral : Int) (node : List Expr → Expr) : List Expr → Expr
  | [] => int neutral
  | [e] => e
  | es => node es

def sumStep (o : Overflow) (product : List Expr → Calc Expr) (text : Expr → Calc String) (args : List Expr) :
    Calc Expr := do
  let s ← (args.flatMap terms).foldlM (Collected.push o) ⟨.ofInt 0, []⟩
  let ts ← (s.entries.filter fun (_, c) => !c.isZero).mapM fun (rest, c) => product [.num c, rest]
  let ts ← sortTerms text ts
  return collapse 0 .plus (if !s.number.isZero || ts.isEmpty then ts ++ [.num s.number] else ts)

def addExponent (sum : List Expr → Calc Expr) (base exponent : Expr) : List (Expr × Expr) → Calc (List (Expr × Expr))
  | [] => return [(base, exponent)]
  | (b, e) :: entries => do
    if b == base then return (b, ← sum [e, exponent]) :: entries
    else return (b, e) :: (← addExponent sum base exponent entries)

/-- Factors gathered so far: the coefficient, one exponent for each different base, and the arguments of `exp`. -/
structure Gathered where
  coeff : Number
  bases : List (Expr × Expr)
  exponentials : List Expr

def Gathered.push (o : Overflow) (sum : List Expr → Calc Expr) (s : Gathered) (e : Expr) : Calc Gathered :=
  match e with
  | .num n => do return { s with coeff := ← o.mul s.coeff n }
  | .call .exp arg => return { s with exponentials := s.exponentials ++ [arg] }
  | e => do return { s with bases := ← addExponent sum e.baseExponent.1 e.baseExponent.2 s.bases }

/-- Puts the exponential of an argument with the bases, a number into the coefficient. -/
def Gathered.putExponential (o : Overflow) (s : Gathered) (arg : Expr) : Calc Gathered :=
  match Func.exp.of arg with
  | .num n => do return { s with coeff := ← o.mul s.coeff n }
  | e => return { s with bases := s.bases ++ [(e, int 1)] }

/-- All exponentials become one, of the sum of their arguments. -/
def Gathered.mergeExponentials (o : Overflow) (sum : List Expr → Calc Expr) (s : Gathered) : Calc Gathered :=
  match s.exponentials with
  | [] => return s
  | [arg] => s.putExponential o arg
  | args => do s.putExponential o (← sum args)

def absorb (o : Overflow) (s : Number × List Expr) : Expr → Calc (Number × List Expr)
  | .num n => do return (← o.mul s.1 n, s.2)
  | e => return (s.1, s.2 ++ [e])

def productStep (o : Overflow) (sum product : List Expr → Calc Expr) (pow : Expr → Expr → Calc Expr)
    (text : Expr → Calc String) (args : List Expr) : Calc Expr := do
  let g ← (args.flatMap factors).foldlM (Gathered.push o sum) ⟨.ofInt 1, [], []⟩
  if g.coeff.isZero then return .num g.coeff
  let g ← g.mergeExponentials o sum
  let built ← g.bases.mapM fun (b, e) => pow b e
  let (coeff, fs) ← (built.flatMap factors).foldlM (absorb o) (g.coeff, [])
  if coeff.isZero then return .num coeff
  match fs, coeff.isOne with
  | [.plus ts], false => sum (← ts.mapM fun t => product [.num coeff, t])
  | fs, one =>
    let fs ← sortFactors text fs
    return collapse 1 .times (if one then fs else .num coeff :: fs)

/-- Powers of numbers; `none` leaves the power as it stands. -/
def numericPower (o : Overflow) : Number → Number → Calc (Option Expr)
  | .exact p, .exact q => do
    if q.den = 1 then
      if p.num = 0 ∧ q.num < 0 then return none
      else return some (.num (← o.powInt (.exact p) q.num))
    else if q.den = 2 ∧ q.num = 1 then return Radical.ofFraction? p.num p.den
    else if q.den = 2 ∧ q.num = -1 ∧ p.num > 0 then return Radical.ofFraction? p.den p.num
    else return none
  | b, e => return some (real (b.toFloat.pow e.toFloat))

def foldPower (o : Overflow) (base exponent : Expr) : Calc (Option Expr) :=
  match base, exponent with
  | .num b, .num e => if b.isZero && !e.isNegative then return some (int 0) else numericPower o b e
  | _, _ => return none

/-- An integer exponent goes into powers, products and exponentials. -/
def distributePower (product : List Expr → Calc Expr) (pow : Expr → Expr → Calc Expr) (base exponent : Expr) :
    Calc Expr := do
  match base, exponent.integer? with
  | .constant .e, _ => return Func.exp.of exponent
  | .power b e, some _ => pow b (← product [e, exponent])
  | .times fs, some _ => product (← fs.mapM fun f => pow f exponent)
  | .call .exp arg, some _ => return Func.exp.of (← product [arg, exponent])
  | _, _ => return .power base exponent

def powerStep (o : Overflow) (product : List Expr → Calc Expr) (pow : Expr → Expr → Calc Expr)
    (base exponent : Expr) : Calc Expr := do
  if exponent.isZero then return int 1
  else if exponent.isInt 1 then return base
  else if base.isInt 1 then return int 1
  else match ← foldPower o base exponent with
    | some e => return e
    | none => distributePower product pow base exponent

def restText (product : List Expr → Calc Expr) (text : Expr → Calc String) (e : Expr) : Calc String := do
  if e.isNegativeTerm then return " - " ++ (← text (← product [int (-1), e]))
  else return " + " ++ (← text e)

def textStep (o : Overflow) (product : List Expr → Calc Expr) (pow : Expr → Expr → Calc Expr)
    (text : Expr → Calc String) (e : Expr) : Calc String := do
  match e with
  | .num n => return n.text
  | .symbol name => return name
  | .constant .pi => return "pi"
  | .constant .e => return "E"
  | .plus [] => return ""
  | .plus (t :: ts) => return (← text t) ++ String.join (← ts.mapM (restText product text))
  | .times fs => productText o pow text fs
  | .power base exponent => powerText o pow text base exponent
  | .call f arg => return f.name ++ "(" ++ (← text arg) ++ ")"

mutual

def sumAt (o : Overflow) : Nat → List Expr → Calc Expr
  | 0, _ => .error .exhausted
  | n + 1, args => sumStep o (productAt o n) (textAt o n) args

def productAt (o : Overflow) : Nat → List Expr → Calc Expr
  | 0, _ => .error .exhausted
  | n + 1, args => productStep o (sumAt o n) (productAt o n) (powerAt o n) (textAt o n) args

def powerAt (o : Overflow) : Nat → Expr → Expr → Calc Expr
  | 0, _, _ => .error .exhausted
  | n + 1, base, exponent => powerStep o (productAt o n) (powerAt o n) base exponent

def textAt (o : Overflow) : Nat → Expr → Calc String
  | 0, _ => .error .exhausted
  | n + 1, e => textStep o (productAt o n) (powerAt o n) (textAt o n) e

end

/-- Depth of calls allotted to an analysis of an expression of the given weight. -/
def depthFor (w : Nat) : Nat := (w + 8) * (w + 8)

def sum (o : Overflow) (args : List Expr) : Calc Expr := sumAt o (callDepth (sumSize args)) args

def product (o : Overflow) (args : List Expr) : Calc Expr := productAt o (callDepth (productSize args)) args

def pow (o : Overflow) (base exponent : Expr) : Calc Expr :=
  powerAt o (callDepth (base.size.base * exponent.size.sum)) base exponent

def text (o : Overflow) (e : Expr) : Calc String := textAt o (callDepth e.size.product) e

def neg (o : Overflow) (e : Expr) : Calc Expr := product o [int (-1), e]

def sub (o : Overflow) (a b : Expr) : Calc Expr := do sum o [a, ← neg o b]

def div (o : Overflow) (a b : Expr) : Calc Expr := do product o [a, ← pow o b (int (-1))]

def sqrt (o : Overflow) (e : Expr) : Calc Expr := pow o e half

end Expr

end PlaneCalculus
