import PlaneCalculus.Formula.Tree

/-!
Reading formulas from text. The grammar is

    sum     = product (sign product)*
    product = signed (("*" | "/") signed)*        -- no "*" that begins "**"
    signed  = sign* power
    power   = atom (("**" | "^") signed)?
    atom    = number | name "(" sum ")" | name | "(" sum ")"

with blanks allowed between elements. Alternatives are tried in this order and repetitions take as much as they can.
Every reader also reports the farthest position at which a named element was refused: a sign, an operator, a number, a
name, a call or the end of the text, but no bracket or equality sign. A text that is not a formula is reported there.
-/

namespace PlaneCalculus.Formula

/-- A position in the text and what is left from there. -/
structure Cursor where
  pos : Nat
  rest : List Char
  deriving DecidableEq, Repr

/-- Result of a reader, with the farthest refusal met. -/
structure Reply (α : Type) where
  farthest : Nat
  result : Option (α × Cursor)

namespace Reply

/-- Refusal of a named element. -/
def refuse {α : Type} (c : Cursor) : Reply α := ⟨c.pos, none⟩

/-- Refusal of a bracket or an equality sign. -/
def fail {α : Type} : Reply α := ⟨0, none⟩

def accept {α : Type} (a : α) (c : Cursor) : Reply α := ⟨0, some (a, c)⟩

def andThen {α β : Type} (r : Reply α) (f : α → Cursor → Reply β) : Reply β :=
  match r.result with
  | none => ⟨r.farthest, none⟩
  | some (a, c) =>
    let s := f a c
    ⟨max r.farthest s.farthest, s.result⟩

/-- The second alternative is read only when the first is refused. -/
def orElse {α : Type} (r : Reply α) (alternative : Unit → Reply α) : Reply α :=
  match r.result with
  | none =>
    let s := alternative ()
    ⟨max r.farthest s.farthest, s.result⟩
  | some _ => r

end Reply

/-! ### Tokens -/

def isBlank (c : Char) : Bool := c = ' ' || c = '\t' || c = '\r' || c = '\n'

def isNameStart (c : Char) : Bool := c.isAlpha || c = '_'

def isNameChar (c : Char) : Bool := c.isAlphanum || c = '_'

def Cursor.span (p : Char → Bool) (c : Cursor) : List Char × Cursor :=
  (c.rest.takeWhile p, ⟨c.pos + (c.rest.takeWhile p).length, c.rest.dropWhile p⟩)

theorem Cursor.span_append (p : Char → Bool) (c : Cursor) : (c.span p).1 ++ (c.span p).2.rest = c.rest :=
  List.takeWhile_append_dropWhile

theorem Cursor.span_length (p : Char → Bool) (c : Cursor) :
    (c.span p).2.pos + (c.span p).2.rest.length = c.pos + c.rest.length := by
  have h := congrArg List.length (c.span_append p)
  rw [List.length_append] at h
  simp only [Cursor.span] at h ⊢
  omega

def Cursor.skip (c : Cursor) : Cursor := (c.span isBlank).2

def Cursor.step (c : Cursor) (rest : List Char) : Cursor := ⟨c.pos + 1, rest⟩

def mark (x : Char) (c : Cursor) : Reply Unit :=
  match c.rest with
  | y :: rest => if x = y then .accept () (c.step rest) else .fail
  | [] => .fail

def sign (c : Cursor) : Reply Sign :=
  match c.rest with
  | '+' :: rest => .accept .plus (c.step rest)
  | '-' :: rest => .accept .minus (c.step rest)
  | _ => .refuse c

def factoring (c : Cursor) : Reply Factoring :=
  match c.rest with
  | '*' :: '*' :: _ => .refuse c
  | '*' :: rest => .accept .times (c.step rest)
  | '/' :: rest => .accept .over (c.step rest)
  | _ => .refuse c

def powerSign (c : Cursor) : Reply Unit :=
  match c.rest with
  | '*' :: '*' :: rest => .accept () ⟨c.pos + 2, rest⟩
  | '^' :: rest => .accept () (c.step rest)
  | _ => .fail

def name (c : Cursor) : Reply String :=
  match c.rest with
  | x :: _ =>
    if isNameStart x then
      let (run, after) := c.span isNameChar
      .accept (String.ofList run) after
    else .refuse c
  | [] => .refuse c

/-- The exponent of a number, taken only when digits follow. -/
def exponentPart (c : Cursor) : Option (Int × Cursor) :=
  let signed (negative : Bool) (c : Cursor) : Option (Int × Cursor) :=
    let (digits, after) := c.span Decimal.isDigit
    if digits.isEmpty then none else some (Decimal.signedExponent negative digits, after)
  match c.rest with
  | e :: '+' :: rest => if e = 'e' ∨ e = 'E' then signed false ⟨c.pos + 2, rest⟩ else none
  | e :: '-' :: rest => if e = 'e' ∨ e = 'E' then signed true ⟨c.pos + 2, rest⟩ else none
  | e :: rest => if e = 'e' ∨ e = 'E' then signed false (c.step rest) else none
  | [] => none

def withExponentPart (whole : List Char) (fraction : Option (List Char)) (c : Cursor) : Reply Decimal.Literal :=
  match exponentPart c with
  | some (e, after) => .accept ⟨whole, fraction, some e⟩ after
  | none => .accept ⟨whole, fraction, none⟩ c

def number (c : Cursor) : Reply Decimal.Literal :=
  let (whole, after) := c.span Decimal.isDigit
  match after.rest with
  | '.' :: rest =>
    let (fraction, last) := (after.step rest).span Decimal.isDigit
    if whole.isEmpty && fraction.isEmpty then .refuse c else withExponentPart whole (some fraction) last
  | _ => if whole.isEmpty then .refuse c else withExponentPart whole none after

def finish (c : Cursor) : Reply Unit :=
  match c.rest with
  | [] => .accept () c
  | _ => .refuse c

/-! ### Formulas

The first argument bounds the depth of calls; `depthFor` allots enough for any text. -/

mutual

def sum : Nat → Cursor → Reply SumForm
  | 0, c => .refuse c
  | n + 1, c => (product n c).andThen fun t c => sumChain n (.single t) c

def sumChain : Nat → SumForm → Cursor → Reply SumForm
  | 0, _, c => .refuse c
  | n + 1, s, c =>
    let next := (sign c.skip).andThen fun op c => (product n c.skip).andThen fun t c => .accept (op, t) c
    match next.result with
    | none => ⟨next.farthest, some (s, c)⟩
    | some ((op, t), after) =>
      let r := sumChain n (.chain s op t) after
      ⟨max next.farthest r.farthest, r.result⟩

def product : Nat → Cursor → Reply ProductForm
  | 0, c => .refuse c
  | n + 1, c => (signed n c).andThen fun u c => productChain n (.single u) c

def productChain : Nat → ProductForm → Cursor → Reply ProductForm
  | 0, _, c => .refuse c
  | n + 1, p, c =>
    let next := (factoring c.skip).andThen fun op c => (signed n c.skip).andThen fun u c => .accept (op, u) c
    match next.result with
    | none => ⟨next.farthest, some (p, c)⟩
    | some ((op, u), after) =>
      let r := productChain n (.chain p op u) after
      ⟨max next.farthest r.farthest, r.result⟩

def signed : Nat → Cursor → Reply SignedForm
  | 0, c => .refuse c
  | n + 1, c =>
    let s := sign c
    match s.result with
    | some (op, after) => (signed n after.skip).andThen fun u c => .accept (.signed op u) c
    | none =>
      let r := (power n c).andThen fun p c => .accept (.bare p) c
      ⟨max s.farthest r.farthest, r.result⟩

def power : Nat → Cursor → Reply PowerForm
  | 0, c => .refuse c
  | n + 1, c =>
    (atom n c).andThen fun a c =>
      let exponent := (powerSign c.skip).andThen fun _ c => signed n c.skip
      match exponent.result with
      | some (e, after) => ⟨exponent.farthest, some (.raised a e, after)⟩
      | none => ⟨exponent.farthest, some (.single a, c)⟩

def atom : Nat → Cursor → Reply AtomForm
  | 0, c => .refuse c
  | n + 1, c =>
    ((number c).andThen fun l c => .accept (.number l) c).orElse fun _ =>
    ((name c).andThen fun f c => (group n c.skip).andThen fun s c => .accept (.call f s) c).orElse fun _ =>
    ((name c).andThen fun x c => .accept (.name x) c).orElse fun _ =>
    (group n c).andThen fun s c => .accept (.group s) c

def group : Nat → Cursor → Reply SumForm
  | 0, c => .refuse c
  | n + 1, c =>
    (mark '(' c).andThen fun _ c => (sum n c.skip).andThen fun s c => (mark ')' c.skip).andThen fun _ c => .accept s c

end

def depthFor (length : Nat) : Nat := 8 * length + 16

def whole (text : List Char) : Reply SumForm :=
  (sum (depthFor text.length) (Cursor.mk 0 text).skip).andThen fun s c => (finish c.skip).andThen fun _ c => .accept s c

def equation (text : List Char) : Reply (SumForm × SumForm) :=
  let depth := depthFor text.length
  (sum depth (Cursor.mk 0 text).skip).andThen fun l c => (mark '=' c.skip).andThen fun _ c =>
    (sum depth c.skip).andThen fun r c => (finish c.skip).andThen fun _ c => .accept (l, r) c

/-- A place in a text: lines end with a line feed, columns count characters, both start at one. -/
structure Place where
  line : Nat
  column : Nat
  deriving DecidableEq, Repr

def placeAfter (read : List Char) : Place :=
  read.foldl (fun p c => if c = '\n' then ⟨p.line + 1, 1⟩ else ⟨p.line, p.column + 1⟩) ⟨1, 1⟩

def Reply.toExcept {α : Type} (text : List Char) (r : Reply α) : Except Place α :=
  match r.result with
  | some (a, _) => .ok a
  | none => .error (placeAfter (text.take r.farthest))

def parse (text : String) : Except Place SumForm := (whole text.toList).toExcept text.toList

def parseEquation (text : String) : Except Place (SumForm × SumForm) := (equation text.toList).toExcept text.toList

end PlaneCalculus.Formula
