import PlaneCalculus.Json.Basic

/-!
The operations offered by the service, with their paths and descriptions.
-/

namespace PlaneCalculus

inductive Operation where
  | partials
  | gradient
  | evaluate
  | doubleIntegral
  | lagrange
  | optimize
  | analyzeDomain
  deriving DecidableEq, Repr

namespace Operation

def all : List Operation := [partials, gradient, evaluate, doubleIntegral, lagrange, optimize, analyzeDomain]

theorem mem_all (op : Operation) : op ∈ all := by cases op <;> decide

def path : Operation → String
  | partials => "/partials"
  | gradient => "/gradient"
  | evaluate => "/evaluate"
  | doubleIntegral => "/double-integral"
  | lagrange => "/lagrange"
  | optimize => "/optimize"
  | analyzeDomain => "/analyze_domain"

def ofPath? (path : String) : Option Operation := all.find? (·.path == path)

theorem ofPath?_path (op : Operation) : ofPath? op.path = some op := by cases op <;> decide

def description : Operation → String
  | partials => "Compute partial derivatives df/dx and df/dy"
  | gradient => "Compute gradient (fx, fy)"
  | evaluate => "Evaluate function at (x0, y0)"
  | doubleIntegral => "Compute a double integral, definite over rectangular limits or indefinite without them"
  | lagrange => "Apply Lagrange multipliers with constraint g(x,y)=0"
  | optimize => "Unconstrained optimization for f(x,y)"
  | analyzeDomain => "Analyze domain conditions, estimate the range and compute a limit"

def fields : Operation → List (String × String)
  | partials | gradient | optimize => [("expression", "string")]
  | evaluate => [("expression", "string"), ("x0", "number"), ("y0", "number")]
  | doubleIntegral => [("function", "string"), ("xlim", "[a,b] (optional)"), ("ylim", "[c,d] (optional)")]
  | lagrange => [("expression", "string"), ("constraint", "string")]
  | analyzeDomain => [("expression", "string"), ("x0", "number (optional)"), ("y0", "number (optional)")]

def catalogEntry (op : Operation) : Json :=
  .object [("path", .string op.path), ("method", .string "POST"), ("description", .string op.description),
    ("body", .object (op.fields.map fun (name, kind) => (name, .string kind)))]

end Operation

end PlaneCalculus
