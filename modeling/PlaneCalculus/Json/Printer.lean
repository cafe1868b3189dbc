import PlaneCalculus.Json.Basic

/-!
Writing documents, on one line or indented by two blanks with the fields in alphabetical order. A double that is not
finite is written as `null`.
-/

namespace PlaneCalculus.Json

def hexChar (n : Nat) : Char := Char.ofNat (if n < 10 then 48 + n else 87 + n)

def escape (c : Char) : List Char :=
  match c with
  | '"' => ['\\', '"']
  | '\\' => ['\\', '\\']
  | '\x08' => ['\\', 'b']
  | '\x0c' => ['\\', 'f']
  | '\n' => ['\\', 'n']
  | '\r' => ['\\', 'r']
  | '\t' => ['\\', 't']
  | c => if c.toNat < 0x20 then ['\\', 'u', '0', '0', hexChar (c.toNat / 16), hexChar (c.toNat % 16)] else [c]

def quote (s : String) : String := String.ofList ('"' :: s.toList.flatMap escape ++ ['"'])

def realText (v : Float) : String := if v.isFinite then Decimal.Layout.document.render v else "null"

mutual

def compact : Json → String
  | .null => "null"
  | .bool b => if b then "true" else "false"
  | .integer n => toString n
  | .real v => realText v
  | .string s => quote s
  | .array items => "[" ++ compactItems items ++ "]"
  | .object fields => "\x7b" ++ compactFields fields ++ "\x7d"

def compactItems : List Json → String
  | [] => ""
  | [item] => compact item
  | item :: items => compact item ++ "," ++ compactItems items

def compactFields : List (String × Json) → String
  | [] => ""
  | [(key, item)] => quote key ++ ":" ++ compact item
  | (key, item) :: fields => quote key ++ ":" ++ compact item ++ "," ++ compactFields fields

end

mutual

def sorted : Json → Json
  | .array items => .array (sortedItems items)
  | .object fields => .object ((sortedFields fields).mergeSort fun a b => a.1 ≤ b.1)
  | j => j

def sortedItems : List Json → List Json
  | [] => []
  | item :: items => sorted item :: sortedItems items

def sortedFields : List (String × Json) → List (String × Json)
  | [] => []
  | (key, item) :: fields => (key, sorted item) :: sortedFields fields

end

mutual

/-- Indented form; the first argument is the line break with the indentation so far. -/
def indented (line : String) : Json → String
  | .array [] => "[]"
  | .array (item :: items) => "[" ++ indentedItems (line ++ "  ") (item :: items) ++ line ++ "]"
  | .object [] => "\x7b\x7d"
  | .object (f :: fields) => "\x7b" ++ indentedFields (line ++ "  ") (f :: fields) ++ line ++ "\x7d"
  | j => compact j

def indentedItems (line : String) : List Json → String
  | [] => ""
  | [item] => line ++ indented line item
  | item :: items => line ++ indented line item ++ "," ++ indentedItems line items

def indentedFields (line : String) : List (String × Json) → String
  | [] => ""
  | [(key, item)] => line ++ quote key ++ ": " ++ indented line item
  | (key, item) :: fields => line ++ quote key ++ ": " ++ indented line item ++ "," ++ indentedFields line fields

end

def pretty (j : Json) : String := indented "\n" j.sorted

end PlaneCalculus.Json
