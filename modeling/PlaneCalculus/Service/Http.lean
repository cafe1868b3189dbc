import PlaneCalculus.Json.Parser
import PlaneCalculus.Json.Printer
import PlaneCalculus.Service.Request
import PlaneCalculus.Service.Settings

/-!
The service over HTTP: which requests are answered, by which method, and with which status. A body too long is refused
before anything else when its length is declared, and otherwise once an operation has to read it.
-/

namespace PlaneCalculus.Http

structure Message where
  method : String
  uri : String
  body : String
  declaresLength : Bool

inductive Content where
  | text (s : String)
  | document (j : Json)

def Content.written : Content → String
  | text s => s
  | document j => j.compact

structure Response where
  status : Nat
  allow : Option String
  allowOrigin : Option String
  content : Content

inductive Route where
  | home
  | ping
  | catalog
  | operation (op : Operation)
  deriving DecidableEq, Repr

namespace Route

def ofPath? (path : String) : Option Route :=
  if path = "/" then some home
  else if path = "/ping" then some ping
  else if path = "/info" then some catalog
  else (Operation.ofPath? path).map operation

def methods : Route → List String
  | operation _ => ["POST"]
  | _ => ["GET", "HEAD"]

end Route

def pathOf (uri : String) : String := String.ofList (uri.toList.takeWhile fun c => c ≠ '?' && c ≠ '#')

def shared (status : Nat) (content : Content) : Response := ⟨status, none, some "*", content⟩

def empty : Content := .text ""

def homeDocument : Json :=
  .object [
    ("message", .string "Welcome to the Multivariable Calculus API"),
    ("endpoints", .object ([
        ("GET /ping", .string "Health check"),
        ("GET /info", .string "Available operations")] ++
      Operation.all.map fun op => ("POST " ++ op.path, .string op.description)))]

def pingDocument : Json := .object [("status", .string "ok")]

def catalogDocument : Json := .object [("operations", .array (Operation.all.map Operation.catalogEntry))]

/-- The longest body that is read at all, whatever the settings say. -/
def bodyCeiling : Nat := 2097152

/-- Runs an operation on a body. A body that is no document counts as null. -/
def run (o : Overflow) (s : Settings) (op : Operation) (body : String) : Response :=
  match Request.handle o s.maxExpression op ((Json.parse? body).getD .null) with
  | .ok report => shared 200 (.document report.toJson)
  | .error rejection => shared 400 (.document (.object [("error", .string rejection.message)]))

def answer (o : Overflow) (s : Settings) (m : Message) (route : Route) : Response :=
  if !route.methods.contains m.method then
    { shared 405 empty with allow := some (",".intercalate route.methods) }
  else match route with
    | .operation op =>
      if m.body.utf8ByteSize > min s.maxBody bodyCeiling then
        shared 413 (.text "Failed to buffer the request body: length limit exceeded")
      else run o s op m.body
    | .home => shared 200 (if m.method = "HEAD" then empty else .document homeDocument)
    | .ping => shared 200 (if m.method = "HEAD" then empty else .document pingDocument)
    | .catalog => shared 200 (if m.method = "HEAD" then empty else .document catalogDocument)

/-- The response to a request. Every path answers `OPTIONS`, so that a page can ask what it may send. -/
def respond (o : Overflow) (s : Settings) (m : Message) : Response :=
  if m.declaresLength && m.body.utf8ByteSize > s.maxBody then ⟨413, none, none, .text "length limit exceeded"⟩
  else if m.method = "OPTIONS" then shared 200 empty
  else match Route.ofPath? (pathOf m.uri) with
    | some route => answer o s m route
    | none => shared 404 empty

end PlaneCalculus.Http
