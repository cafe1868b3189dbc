import PlaneCalculus.Formula.Parser
import PlaneCalculus.Expr.Canonical
import PlaneCalculus.Expr.Error

/-!
The expression that a formula denotes. Sums and products are built from the left, an odd number of minus signs negates
once, after the power, and powers are built from the right. A name is a constant, a symbol, or the name of a function; the
last needs an argument.
-/

namespace PlaneCalculus.Formula

/-- The one function that is no elementary function of its own: it stands for the power with exponent one half. -/
def rootName : String := "sqrt"

def ofName (name : String) : Outcome Expr :=
  if name = "pi" then return .constant .pi
  else if name = "E" then return .constant .e
  else if name = rootName ∨ (Func.ofName? name).isSome then throw (.missingArgument name)
  else return .symbol name

def ofCall (o : Overflow) (name : String) (arg : Expr) : Outcome Expr :=
  if name = rootName then liftM (Expr.sqrt o arg)
  else match Func.ofName? name with
    | some f => return f.of arg
    | none => throw (.notAFunction name)

/-- Digits alone are an exact integer while it fits; any other literal is a double. -/
def ofLiteral (l : Decimal.Literal) : Expr :=
  let n : Int := Decimal.natOfDigits l.whole
  if l.isWhole && Number.fits n then .int n else .real l.toFloat

mutual

def SumForm.toExpr (o : Overflow) : SumForm → Outcome Expr
  | .single t => t.toExpr o
  | .chain s sign t => do
    let a ← s.toExpr o
    let b ← t.toExpr o
    match sign with
    | .plus => Expr.sum o [a, b]
    | .minus => Expr.sub o a b

def ProductForm.toExpr (o : Overflow) : ProductForm → Outcome Expr
  | .single u => u.toExpr o false
  | .chain p op u => do
    let a ← p.toExpr o
    let b ← u.toExpr o false
    match op with
    | .times => Expr.product o [a, b]
    | .over => Expr.div o a b

/-- The flag says whether an odd number of minus signs has been read so far. -/
def SignedForm.toExpr (o : Overflow) : SignedForm → Bool → Outcome Expr
  | .bare p, negative => do
    let e ← p.toExpr o
    if negative then Expr.neg o e else return e
  | .signed sign u, negative => u.toExpr o (negative != (sign = .minus))

def PowerForm.toExpr (o : Overflow) : PowerForm → Outcome Expr
  | .single a => a.toExpr o
  | .raised a u => do
    let base ← a.toExpr o
    let exponent ← u.toExpr o false
    Expr.pow o base exponent

def AtomForm.toExpr (o : Overflow) : AtomForm → Outcome Expr
  | .number l => return ofLiteral l
  | .call name arg => do ofCall o name (← arg.toExpr o)
  | .name name => ofName name
  | .group s => s.toExpr o

end

def read (o : Overflow) (text : String) : Outcome Expr :=
  match parse text with
  | .ok s => s.toExpr o
  | .error place => throw (.malformed place)

/-- A constraint `g = 0`, written as `g` or as an equation, the right side of which is subtracted. -/
def readConstraint (o : Overflow) (text : String) : Outcome Expr :=
  if text.toList.contains '=' then
    match parseEquation text with
    | .ok (l, r) => do
      let a ← l.toExpr o
      let b ← r.toExpr o
      Expr.sub o a b
    | .error place => throw (.malformed place)
  else read o text

end PlaneCalculus.Formula
