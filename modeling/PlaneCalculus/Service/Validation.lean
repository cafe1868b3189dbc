import PlaneCalculus.Expr.Evaluation
import PlaneCalculus.Formula.Meaning
import PlaneCalculus.Json.Basic
import PlaneCalculus.Text.Blank
import PlaneCalculus.Text.Search

/-!
Checks on the fields of a request before the engine sees them. An expression is checked word by word, not parsed: it may hold
the names of the two coordinates, the functions and the constants, and no other words. A coordinate is a number, or an
expression with a finite value.
-/

namespace PlaneCalculus

inductive ValidationError where
  | notText
  | tooLong
  | forbidden
  | unknownToken (token : String)
  | notNumeric (field : String)
  deriving DecidableEq, Repr

def ValidationError.message : ValidationError → String
  | notText => "Expression must be a string"
  | tooLong => "Expression is too long"
  | forbidden => "Expression contains forbidden tokens"
  | unknownToken token => "Unknown token: " ++ token
  | notNumeric field => field ++ " must be numeric (supports pi, E and basic operations)"

namespace Validation

def allowedTokens : List String := ["x", "y"] ++ Func.all.map Func.name ++ [Formula.rootName, "pi", "E"]

/-- Words refused anywhere in an expression, in capital or small letters. -/
def forbiddenWords : List String :=
  ["__", "import", "eval", "exec", "lambda", "open", "subprocess", "os.", "sys."]

def isTokenChar (c : Char) : Bool := c.isAlpha || c = '_'

def tokens (text : String) : List String := Text.runs isTokenChar text

/-- Only the letters of the basic alphabet are lowered; no other letter becomes one of a forbidden word. -/
def hasForbiddenWord (text : String) : Bool :=
  let lowered := text.toList.map Char.toLower
  forbiddenWords.any fun word => Text.occursIn word.toList lowered

def checkExpression (limit : Nat) (text : String) : Except ValidationError Unit :=
  if text.utf8ByteSize > limit then .error .tooLong
  else if hasForbiddenWord text then .error .forbidden
  else match (tokens text).find? fun token => !allowedTokens.contains token with
    | some token => .error (.unknownToken token)
    | none => .ok ()

def expressionText (limit : Nat) (value : Json) : Except ValidationError String := do
  match value with
  | .string text =>
    checkExpression limit text
    return text
  | _ => throw .notText

/-- A finite constant written in a text, blanks around it ignored. -/
def constantOf? (o : Overflow) (text : String) : Option Expr := do
  match Formula.read o (Text.trim text) with
  | .ok e => if e.freeSymbols.isEmpty && e.value?.isSome then some e else none
  | .error _ => none

def number (o : Overflow) (field : String) (value : Json) : Except ValidationError Expr :=
  match value with
  | .integer n => .ok (.int n)
  | .real v => if v.isFinite then .ok (.real v) else .error (.notNumeric field)
  | .string text =>
    match constantOf? o text with
    | some e => .ok e
    | none => .error (.notNumeric field)
  | _ => .error (.notNumeric field)

end Validation

end PlaneCalculus
