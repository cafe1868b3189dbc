import PlaneCalculus.Number.Overflow
import PlaneCalculus.Formula.Parser

/-!
Causes for which a request to the engine has no answer, with their wording.
-/

namespace PlaneCalculus

inductive CalcError where
  | malformed (place : Formula.Place)
  | notAFunction (name : String)
  | missingArgument (name : String)
  | unknownSymbols (names : List String)
  | notANumber
  | unboundedLimit (limit : String)
  | noAntiderivative (integrand symbol : String)
  | divergent (integrand : String)
  | noCriticalPoints
  | halted (cause : Halt)
  deriving DecidableEq, Repr

abbrev Outcome (α : Type) := Except CalcError α

instance : MonadLift Calc Outcome := ⟨fun c => c.mapError .halted⟩

inductive CalcError.Stage where
  | parsing
  | evaluation
  | integration
  | solving
  | internal
  deriving DecidableEq, Repr

namespace CalcError

def stage : CalcError → Stage
  | malformed _ => .parsing
  | notAFunction _ | missingArgument _ | unknownSymbols _ | notANumber | unboundedLimit _ => .evaluation
  | noAntiderivative _ _ | divergent _ => .integration
  | noCriticalPoints => .solving
  | halted _ => .internal

def detail : CalcError → String
  | malformed p => " --> " ++ toString p.line ++ ":" ++ toString p.column
  | notAFunction name => name ++ " is not a function"
  | missingArgument name => name ++ " needs an argument"
  | unknownSymbols names => "cannot evaluate, unknown symbols: " ++ ", ".intercalate names
  | notANumber => "result is not a number"
  | unboundedLimit limit => "limit " ++ limit ++ " is not a finite number"
  | noAntiderivative integrand symbol => "no antiderivative of " ++ integrand ++ " with respect to " ++ symbol
  | divergent integrand => "the integral of " ++ integrand ++ " does not converge over the region"
  | noCriticalPoints => "No critical points found"
  | halted .exhausted => "the expression nests too deeply"
  | halted .overflow => "a number leaves the exact range"

def message (e : CalcError) : String :=
  match e.stage with
  | .parsing => "Parse error: " ++ e.detail
  | .evaluation => "Evaluation error: " ++ e.detail
  | .integration => "Integration error: " ++ e.detail
  | .solving => e.detail
  | .internal => e.detail

end CalcError

end PlaneCalculus
