import PlaneCalculus.Service.Operation
import PlaneCalculus.Service.Report.ConstrainedExtrema
import PlaneCalculus.Service.Report.CriticalPoints
import PlaneCalculus.Service.Report.Domain
import PlaneCalculus.Service.Report.DoubleIntegral
import PlaneCalculus.Service.Report.Gradient
import PlaneCalculus.Service.Report.PointValue
import PlaneCalculus.Service.Validation

/-!
Requests: the fields of a request are taken from its document and checked in a fixed order, the engine is asked, and its
answer is made a report. The first fault found is the one reported.
-/

namespace PlaneCalculus

inductive Rejection where
  | missing (fields : List String)
  | invalid (cause : ValidationError)
  | engine (cause : CalcError)
  deriving DecidableEq, Repr

def Rejection.message : Rejection → String
  | missing fields => (if fields.length = 1 then "Missing field: " else "Missing fields: ") ++ ", ".intercalate fields
  | invalid cause => cause.message
  | engine cause => "Error: " ++ cause.message

abbrev Handling (α : Type) := Except Rejection α

instance : MonadLift Outcome Handling := ⟨fun r => r.mapError .engine⟩

instance : MonadLift (Except ValidationError) Handling := ⟨fun r => r.mapError .invalid⟩

namespace Request

abbrev Fields := List (String × Json)

/-- Neither null, false, zero nor empty. -/
def isFilled : Json → Bool
  | .null => false
  | .bool b => b
  | .integer n => n ≠ 0
  | .real v => v != 0.0
  | .string s => !s.isEmpty
  | .array items => !items.isEmpty
  | .object fields => !fields.isEmpty

def isNull : Json → Bool
  | .null => true
  | _ => false

/-- The first field if it is filled, else whatever the second holds. -/
def fieldOr (fields : Fields) (first second : String) : Option Json :=
  match Json.get? first fields with
  | some v => if isFilled v then some v else Json.get? second fields
  | none => Json.get? second fields

def nonNull (fields : Fields) (name : String) : Option Json := (Json.get? name fields).filter (!isNull ·)

def require (missing : List String) (value : Option Json) : Handling Json :=
  match value with
  | some v => .ok v
  | none => .error (.missing missing)

def interval? : Option Json → Option (Json × Json)
  | some (.array [a, b]) => some (a, b)
  | _ => none

section Handlers

variable (o : Overflow) (limit : Nat) (fields : Fields)

def expressionField : Handling String := do
  let value ← require ["expression"] (Json.get? "expression" fields)
  Validation.expressionText limit value

/-- Reads the function of a request that has no other fields, and reports on it. -/
def onFunction {α : Type} (analyse : Expr → Outcome α) (draft : String → α → Rendering Report.Draft) :
    Handling Report := do
  let text ← expressionField limit fields
  let f ← Formula.read o text
  let answer ← analyse f
  Report.compose (draft text answer)

def partials : Handling Report := onFunction o limit fields (fun f => Gradient.of o f) (Report.ofPartials o)

def gradient : Handling Report := onFunction o limit fields (fun f => Gradient.of o f) (Report.ofGradient o)

def optimize : Handling Report := onFunction o limit fields (fun f => CriticalPoints.of o f) (Report.ofCriticalPoints o)

def evaluate : Handling Report := do
  let missing := ["func/expression", "x0", "y0"]
  let expression ← require missing ((fieldOr fields "expression" "func").filter (!isNull ·))
  let x0 ← require missing (nonNull fields "x0")
  let y0 ← require missing (nonNull fields "y0")
  let text ← Validation.expressionText limit expression
  let x ← Validation.number o "x0" x0
  let y ← Validation.number o "y0" y0
  let f ← Formula.read o text
  let answer ← PointValue.of o f x y
  Report.compose (Report.ofPointValue o text answer)

def region? : Handling (Option Region) := do
  match interval? (fieldOr fields "xlim" "x_limits"), interval? (fieldOr fields "ylim" "y_limits") with
  | some (left, right), some (bottom, top) =>
    let left ← Validation.number o "xlim[0]" left
    let right ← Validation.number o "xlim[1]" right
    let bottom ← Validation.number o "ylim[0]" bottom
    let top ← Validation.number o "ylim[1]" top
    return some ⟨left, right, bottom, top⟩
  | _, _ => return none

def doubleIntegral : Handling Report := do
  let function ← require ["function/expression"] ((fieldOr fields "function" "expression").filter isFilled)
  let text ← Validation.expressionText limit function
  let region ← region? o fields
  let f ← Formula.read o text
  match region with
  | some r => do
    let answer ← DefiniteIntegral.of o f r
    Report.compose (Report.ofDefiniteIntegral o text answer)
  | none => do
    let answer ← IndefiniteIntegral.of o f
    Report.compose (Report.ofIndefiniteIntegral o text answer)

def lagrange : Handling Report := do
  let missing := ["expression", "constraint"]
  let expression ← require missing (Json.get? "expression" fields)
  let constraint ← require missing (Json.get? "constraint" fields)
  let text ← Validation.expressionText limit expression
  let constraintText ← Validation.expressionText limit constraint
  let f ← Formula.read o text
  let g ← Formula.readConstraint o constraintText
  let answer ← ConstrainedExtrema.of o f g
  Report.compose (Report.ofConstrainedExtrema o text answer)

def optionalNumber (name : String) : Handling (Option Expr) := do
  match nonNull fields name with
  | some value => return some (← Validation.number o name value)
  | none => return none

def bothOf {α β : Type} : Option α → Option β → Option (α × β)
  | some a, some b => some (a, b)
  | _, _ => none

def analyzeDomain : Handling Report := do
  let text ← expressionField limit fields
  let x ← optionalNumber o fields "x0"
  let y ← optionalNumber o fields "y0"
  let f ← Formula.read o text
  let answer ← DomainAnalysis.of o f (bothOf (x.bind (·.value?)) (y.bind (·.value?)))
  Report.compose (Report.ofDomain o text (bothOf x y) answer)

end Handlers

/-- Answers a request. A document that is no object has no fields. -/
def handle (o : Overflow) (limit : Nat) (op : Operation) (body : Json) : Handling Report :=
  match op with
  | .partials => partials o limit body.fields
  | .gradient => gradient o limit body.fields
  | .evaluate => evaluate o limit body.fields
  | .doubleIntegral => doubleIntegral o limit body.fields
  | .lagrange => lagrange o limit body.fields
  | .optimize => optimize o limit body.fields
  | .analyzeDomain => analyzeDomain o limit body.fields

end Request

end PlaneCalculus
