import PlaneCalculus.Expr.Latex
import PlaneCalculus.Formula.Meaning
import PlaneCalculus.Json.Basic
import PlaneCalculus.Service.Surface
import PlaneCalculus.Text.Blank

/-!
Answers of the service: values, typeset formulas, a list of steps and explanations in prose. A formula that cannot be typeset
is left out of the answer, and the cause is put on record as a diagnostic; it does not make the request fail.
-/

namespace PlaneCalculus

/-! ### Formulas -/

/-- Already set as a formula, in a paragraph of its own or in the line. -/
def isSet (markup : String) : Bool :=
  let cs := Text.trimChars markup.toList
  Text.isEnclosed "$$" "$$" cs || Text.isEnclosed "\\(" "\\)" cs

def displayMath (markup : String) : String := if isSet markup then markup else "$$ " ++ markup ++ " $$"

def inlineMath (markup : String) : String := if isSet markup then markup else "\\(" ++ markup ++ "\\)"

inductive Diagnostic.Subject where
  | formula
  | function
  | graph
  deriving DecidableEq, Repr

def Diagnostic.Subject.name : Diagnostic.Subject → String
  | formula => "latex"
  | function => "func_latex"
  | graph => "graph"

structure Diagnostic where
  subject : Diagnostic.Subject
  cause : CalcError
  deriving DecidableEq, Repr

def Diagnostic.text (d : Diagnostic) : String := d.subject.name ++ ": " ++ d.cause.message

abbrev Rendering := StateT (List Diagnostic) Calc

namespace Rendering

/-- The answer, or a diagnostic in its place. A halted calculation stays halted. -/
def record {α : Type} (subject : Diagnostic.Subject) (answer : Outcome α) : Rendering (Option α) :=
  match answer with
  | .ok a => return some a
  | .error (.halted cause) => throw cause
  | .error cause => do
    modify (· ++ [⟨subject, cause⟩])
    return none

def typeset (o : Overflow) (e : Expr) : Rendering (Option String) := record .formula (e.latex o)

end Rendering

/-! ### Parts of a report -/

inductive Step where
  | plain (description : String)
  | formula (description : String) (latex : Option String)
  deriving DecidableEq, Repr

namespace Step

def description : Step → String
  | plain d => d
  | formula d _ => d

def latex : Step → Option String
  | plain _ => none
  | formula _ l => l

def display (description : String) (markup : Option String) : Step := formula description (markup.map displayMath)

def identify (f : Option String) : Step :=
  display "Identify the function f(x,y)." (f.map fun t => "f(x,y) = " ++ t)

def toJson (s : Step) : Json :=
  .object [("description", .string s.description), ("latex", .ofOption .string s.latex)]

end Step

structure Narrative where
  title : String
  summary : String
  explanation : String
  detailed : Option String

structure Portrait where
  formula : Option String
  brief : String
  detailed : String

namespace Portrait

def unread : Portrait :=
  ⟨none, "The surface is plotted as z = f(x,y).",
    "Explore the graph: rotate and zoom to study slopes and local variations."⟩

def ofExpr (o : Overflow) (e : Expr) : Rendering Portrait := do
  let text ← e.text o
  let formula ← Rendering.record .function (e.latex o)
  return ⟨formula.map displayMath, (Surface.ofText text).brief, (Surface.ofTextCoarsely text).detailed⟩

def ofText (o : Overflow) (text : String) : Rendering Portrait := do
  match ← Rendering.record .graph (Formula.read o text) with
  | some e => ofExpr o e
  | none => return unread

end Portrait

/-- The answer to a request, apart from the diagnostics met in composing it. -/
structure Report.Draft where
  values : List (String × Json)
  formulas : List (String × Option String)
  steps : List Step
  narrative : Narrative
  portrait : Portrait

structure Report extends Report.Draft where
  diagnostics : List Diagnostic

namespace Report

def compose (draft : Rendering Draft) : Calc Report := do
  let (d, diagnostics) ← draft.run []
  return ⟨d, diagnostics⟩

def toJson (r : Report) : Json :=
  .object (r.values ++ r.formulas.map (fun (name, markup) => (name, .ofOption .string markup)) ++
    [("steps", .array (r.steps.map Step.toJson)),
      ("title", .string r.narrative.title),
      ("summary", .string r.narrative.summary),
      ("explanation", .string r.narrative.explanation)] ++
    (r.narrative.detailed.map fun text => ("explanation_detailed", Json.string text)).toList ++
    [("func_latex", .ofOption .string r.portrait.formula),
      ("graph_explanation", .string r.portrait.brief),
      ("graph_explanation_detailed", .string r.portrait.detailed),
      ("diagnostics", .array (r.diagnostics.map fun d => .string d.text))])

end Report

end PlaneCalculus
