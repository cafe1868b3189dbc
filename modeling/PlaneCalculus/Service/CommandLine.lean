import PlaneCalculus.Json.Printer
import PlaneCalculus.Service.Request
import PlaneCalculus.Service.Settings

/-!
The command line: each command is one request to the service. Arguments are values in a fixed order and options, which may
stand anywhere after the command, as `--name value` or `--name=value`. An argument that begins with a hyphen is a value only
where the command says so, as a value of an option, or after a lone `--`.
-/

namespace PlaneCalculus.CommandLine

structure Positional where
  field : String
  hyphens : Bool

structure Switch where
  name : String
  /-- Number of values that follow the name. -/
  arity : Nat
  /-- May be given more than once; the values are collected. -/
  repeats : Bool

structure Command where
  name : String
  operation : Operation
  positionals : List Positional
  options : List Switch

def commands : List Command := [
  ⟨"partials", .partials, [⟨"expression", false⟩], []⟩,
  ⟨"gradient", .gradient, [⟨"expression", false⟩], []⟩,
  ⟨"evaluate", .evaluate, [⟨"expression", false⟩, ⟨"x0", true⟩, ⟨"y0", true⟩], []⟩,
  ⟨"integrate", .doubleIntegral, [⟨"function", false⟩], [⟨"xlim", 2, true⟩, ⟨"ylim", 2, true⟩]⟩,
  ⟨"lagrange", .lagrange, [⟨"expression", false⟩, ⟨"constraint", false⟩], []⟩,
  ⟨"optimize", .optimize, [⟨"expression", false⟩], []⟩,
  ⟨"domain", .analyzeDomain, [⟨"expression", false⟩], [⟨"x0", 1, false⟩, ⟨"y0", 1, false⟩]⟩]

structure Scan where
  positionals : List String
  options : List (String × List String)
  /-- The option that still takes values, with those it has. -/
  pending : Option (Switch × List String)
  escaped : Bool

def Scan.start : Scan := ⟨[], [], none, false⟩

def longForm? (arg : String) : Option (String × Option String) :=
  match arg.toList with
  | '-' :: '-' :: rest =>
    let name := String.ofList (rest.takeWhile (· ≠ '='))
    match rest.dropWhile (· ≠ '=') with
    | _ :: value => some (name, some (String.ofList value))
    | [] => some (name, none)
  | _ => none

def isHyphenated (arg : String) : Bool :=
  match arg.toList with
  | '-' :: _ :: _ => true
  | _ => false

section Scanning

variable (c : Command)

def acceptsHyphens (s : Scan) : Bool :=
  match c.positionals[s.positionals.length]? with
  | some p => p.hyphens
  | none => false

def addPositional (s : Scan) (value : String) : Option Scan :=
  if s.positionals.length < c.positionals.length then some { s with positionals := s.positionals ++ [value] } else none

/-- Gives an option its values. Only an option that repeats may have got some before. -/
def addOption (s : Scan) (option : Switch) (values : List String) : Option Scan :=
  let given := s.options.any (·.1 == option.name)
  if values.length = option.arity && (option.repeats || !given) then
    some { s with options := s.options ++ [(option.name, values)], pending := none }
  else none

def openOption (s : Scan) (option : Switch) : Option String → Option Scan
  | some value => addOption s option [value]
  | none => some { s with pending := some (option, []) }

def feed (s : Scan) (option : Switch) (values : List String) : Option Scan :=
  if values.length = option.arity then addOption s option values else some { s with pending := some (option, values) }

def scanOpen (s : Scan) (arg : String) : Option Scan :=
  match longForm? arg with
  | some ("", none) => some { s with escaped := true }
  | some (name, attached) =>
    match c.options.find? (·.name == name) with
    | some option => openOption s option attached
    | none => if name ≠ "help" && acceptsHyphens c s then addPositional c s arg else none
  | none => if isHyphenated arg && !acceptsHyphens c s then none else addPositional c s arg

def scanOne (s : Scan) (arg : String) : Option Scan :=
  match s.pending with
  | some (option, values) => feed s option (values ++ [arg])
  | none => if s.escaped then addPositional c s arg else scanOpen c s arg

def isComplete (s : Scan) : Bool := s.pending.isNone && s.positionals.length = c.positionals.length

def scan (args : List String) : Option Scan := do
  let s ← args.foldlM (scanOne c) Scan.start
  if isComplete c s then some s else none

/-- The values of an option: one as a text, two as a list, none as null. -/
def optionField (s : Scan) (option : Switch) : String × Json :=
  let values := (s.options.filter (·.1 == option.name)).flatMap (·.2)
  (option.name,
    if values.isEmpty then .null
    else if option.repeats then .array (values.map .string)
    else .string (values.headD ""))

def body (s : Scan) : Json :=
  .object ((c.positionals.zip s.positionals).map (fun (p, value) => (p.field, .string value)) ++
    c.options.map (optionField s))

end Scanning

inductive Exit where
  | answered (document : Json)
  | rejected (message : String)
  | usage

def Exit.written : Exit → String
  | answered document => document.pretty
  | rejected message => message
  | usage => "usage: " ++ " | ".intercalate (commands.map (·.name))

def Exit.code : Exit → UInt32
  | answered _ => 0
  | rejected _ => 1
  | usage => 2

def run (o : Overflow) (s : Settings) (args : List String) : Exit :=
  match args with
  | [] => .usage
  | name :: rest =>
    match commands.find? (·.name == name) with
    | none => .usage
    | some c =>
      match scan c rest with
      | none => .usage
      | some found =>
        match Request.handle o s.maxExpression c.operation (body c found) with
        | .ok report => .answered report.toJson
        | .error rejection => .rejected rejection.message

end PlaneCalculus.CommandLine
