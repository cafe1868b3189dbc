import PlaneCalculus.Number.Overflow

/-!
Expressions in named symbols: number leaves, the constants, sums, products, powers and calls of the elementary
functions. The trees met in practice are built by the constructors of `PlaneCalculus.Expr.Canonical`; nothing in this
module relies on that.
-/

namespace PlaneCalculus

inductive Constant where
  | pi
  | e
  deriving DecidableEq, Repr

def Constant.value : Constant → Float
  | .pi => Float.ofBits 0x400921fb54442d18
  | .e => Float.ofBits 0x4005bf0a8b145769

inductive Func where
  | sin | cos | tan | asin | acos | atan
  | csc | sec | cot | acsc | asec | acot
  | sinh | cosh | tanh | asinh | acosh | atanh
  | csch | sech | coth
  | exp | log | abs
  deriving DecidableEq, Repr

namespace Func

def all : List Func :=
  [sin, cos, tan, asin, acos, atan, csc, sec, cot, acsc, asec, acot,
    sinh, cosh, tanh, asinh, acosh, atanh, csch, sech, coth, exp, log, abs]

def name : Func → String
  | sin => "sin" | cos => "cos" | tan => "tan" | asin => "asin" | acos => "acos" | atan => "atan"
  | csc => "csc" | sec => "sec" | cot => "cot" | acsc => "acsc" | asec => "asec" | acot => "acot"
  | sinh => "sinh" | cosh => "cosh" | tanh => "tanh" | asinh => "asinh" | acosh => "acosh" | atanh => "atanh"
  | csch => "csch" | sech => "sech" | coth => "coth"
  | exp => "exp" | log => "log" | abs => "abs"

def ofName? (name : String) : Option Func := all.find? (·.name == name)

def apply : Func → Float → Float
  | sin, v => v.sin
  | cos, v => v.cos
  | tan, v => v.tan
  | asin, v => v.asin
  | acos, v => v.acos
  | atan, v => v.atan
  | csc, v => 1.0 / v.sin
  | sec, v => 1.0 / v.cos
  | cot, v => v.cos / v.sin
  | acsc, v => (1.0 / v).asin
  | asec, v => (1.0 / v).acos
  | acot, v => (1.0 / v).atan
  | sinh, v => v.sinh
  | cosh, v => v.cosh
  | tanh, v => v.tanh
  | asinh, v => v.asinh
  | acosh, v => v.acosh
  | atanh, v => Double.artanh v
  | csch, v => 1.0 / v.sinh
  | sech, v => 1.0 / v.cosh
  | coth, v => v.cosh / v.sinh
  | exp, v => v.exp
  | log, v => v.log
  | abs, v => v.abs

theorem mem_all (f : Func) : f ∈ all := by cases f <;> decide

theorem ofName?_name (f : Func) : ofName? f.name = some f := by cases f <;> decide

end Func

inductive Expr where
  | num (value : Number)
  | symbol (name : String)
  | constant (c : Constant)
  | plus (terms : List Expr)
  | times (factors : List Expr)
  | power (base exponent : Expr)
  | call (f : Func) (arg : Expr)

namespace Expr

instance : Inhabited Expr := ⟨.num (.exact 0)⟩

def int (n : Int) : Expr := .num (.ofInt n)

def frac (n d : Int) : Expr := .num (.exact (Rat.divInt n d))

def real (v : Float) : Expr := .num (.approx v)

def half : Expr := frac 1 2

mutual

/-- Equality of trees, numbers compared as values. -/
def same : Expr → Expr → Bool
  | .num a, .num b => a == b
  | .symbol a, .symbol b => a == b
  | .constant a, .constant b => a = b
  | .plus as, .plus bs => sameAll as bs
  | .times as, .times bs => sameAll as bs
  | .power a b, .power c d => same a c && same b d
  | .call f a, .call g b => f = g && same a b
  | _, _ => false

def sameAll : List Expr → List Expr → Bool
  | [], [] => true
  | a :: as, b :: bs => same a b && sameAll as bs
  | _, _ => false

end

instance : BEq Expr := ⟨same⟩

mutual

def weight : Expr → Nat
  | .num _ => 1
  | .symbol _ => 1
  | .constant _ => 1
  | .plus terms => weightAll terms + 1
  | .times factors => weightAll factors + 1
  | .power base exponent => weight base + weight exponent + 1
  | .call _ arg => weight arg + 1

def weightAll : List Expr → Nat
  | [] => 0
  | e :: es => weight e + weightAll es

end

theorem weight_pos (e : Expr) : 0 < e.weight := by cases e <;> simp [weight]

def number? : Expr → Option Number
  | .num n => some n
  | _ => none

def isNumber : Expr → Bool
  | .num _ => true
  | _ => false

def isZero : Expr → Bool
  | .num n => n.isZero
  | _ => false

def integer? : Expr → Option Int
  | .num n => n.toInt?
  | _ => none

def isInt (n : Int) (e : Expr) : Bool := e.integer? == some n

def isHalf : Expr → Bool
  | .num (.exact q) => q.num = 1 && q.den = 2
  | _ => false

def isNegativeNumber : Expr → Bool
  | .num n => n.isNegative
  | _ => false

/-- The terms of a sum; any other expression is its own only term. -/
def terms : Expr → List Expr
  | .plus ts => ts
  | e => [e]

/-- The factors of a product; any other expression is its own only factor. -/
def factors : Expr → List Expr
  | .times fs => fs
  | e => [e]

/-- The leading number of a product and the product of the rest; a number alone has rest one. -/
def coeffRest : Expr → Number × Expr
  | .times (.num c :: [e]) => (c, e)
  | .times (.num c :: rest) => (c, .times rest)
  | .num c => (c, int 1)
  | e => (.ofInt 1, e)

/-- A power is cut into base and exponent; everything else has exponent one. -/
def baseExponent : Expr → Expr × Expr
  | .power base exponent => (base, exponent)
  | e => (e, int 1)

def isNegativeTerm : Expr → Bool
  | .num n => n.isNegative
  | .times (.num c :: _) => c.isNegative
  | _ => false

mutual

def isConstantIn (v : String) : Expr → Bool
  | .num _ => true
  | .symbol name => name != v
  | .constant _ => true
  | .plus terms => allConstantIn v terms
  | .times factors => allConstantIn v factors
  | .power base exponent => isConstantIn v base && isConstantIn v exponent
  | .call _ arg => isConstantIn v arg

def allConstantIn (v : String) : List Expr → Bool
  | [] => true
  | e :: es => isConstantIn v e && allConstantIn v es

end

mutual

def occurrences : Expr → List String
  | .num _ => []
  | .symbol name => [name]
  | .constant _ => []
  | .plus terms => occurrencesAll terms
  | .times factors => occurrencesAll factors
  | .power base exponent => occurrences base ++ occurrences exponent
  | .call _ arg => occurrences arg

def occurrencesAll : List Expr → List String
  | [] => []
  | e :: es => occurrences e ++ occurrencesAll es

end

mutual

theorem isConstantIn_iff (v : String) : (e : Expr) → e.isConstantIn v = true ↔ v ∉ e.occurrences
  | .num _ => by simp [isConstantIn, occurrences]
  | .symbol name => by simpa [isConstantIn, occurrences] using ne_comm
  | .constant _ => by simp [isConstantIn, occurrences]
  | .plus ts => by simpa [isConstantIn, occurrences] using allConstantIn_iff v ts
  | .times fs => by simpa [isConstantIn, occurrences] using allConstantIn_iff v fs
  | .power b e => by simp [isConstantIn, occurrences, isConstantIn_iff v b, isConstantIn_iff v e]
  | .call _ a => by simpa [isConstantIn, occurrences] using isConstantIn_iff v a

theorem allConstantIn_iff (v : String) : (es : List Expr) → allConstantIn v es = true ↔ v ∉ occurrencesAll es
  | [] => by simp [allConstantIn, occurrencesAll]
  | e :: es => by simp [allConstantIn, occurrencesAll, isConstantIn_iff v e, allConstantIn_iff v es]

end

/-- The symbols that occur, each once, in alphabetical order. -/
def freeSymbols (e : Expr) : List String := (e.occurrences.mergeSort (· ≤ ·)).eraseDups

theorem mem_freeSymbols {v : String} {e : Expr} : v ∈ e.freeSymbols ↔ v ∈ e.occurrences := by simp [freeSymbols]

end Expr

end PlaneCalculus
