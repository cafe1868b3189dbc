import PlaneCalculus.Formula.Parser

/-! The grammar of formulas, read as an ordinary context-free grammar with optional blanks between tokens. A formula tree
is a derivation; what is defined here is which texts it derives, without regard to the order in which alternatives are
tried or to how much a repetition takes. -/

namespace PlaneCalculus.Formula

def Sign.char : Sign → Char
  | .plus => '+'
  | .minus => '-'

def Factoring.char : Factoring → Char
  | .times => '*'
  | .over => '/'

def Blank (w : List Char) : Prop := ∀ c ∈ w, isBlank c = true

def Digits (w : List Char) : Prop := ∀ c ∈ w, Decimal.isDigit c = true

def IsName (w : List Char) : Prop := ∃ c cs, w = c :: cs ∧ isNameStart c = true ∧ ∀ d ∈ cs, isNameChar d = true

def PowerMark (w : List Char) : Prop := w = ['*', '*'] ∨ w = ['^']

def fractionText : Option (List Char) → List Char
  | none => []
  | some digits => '.' :: digits

def ExponentText : Option Int → List Char → Prop
  | none, w => w = []
  | some k, w => ∃ e sign digits, w = e :: (sign ++ digits) ∧ (e = 'e' ∨ e = 'E') ∧ digits ≠ [] ∧ Digits digits ∧
      ((sign = [] ∨ sign = ['+']) ∧ k = Decimal.signedExponent false digits ∨
        sign = ['-'] ∧ k = Decimal.signedExponent true digits)

/-- A number has digits before or after its point, and no blanks inside. -/
def NumberText (l : Decimal.Literal) (w : List Char) : Prop :=
  ∃ x, w = l.whole ++ (fractionText l.fraction ++ x) ∧ Digits l.whole ∧ Digits (l.fraction.getD []) ∧
    (l.whole ≠ [] ∨ l.fraction.getD [] ≠ []) ∧ ExponentText l.exponent x

mutual

def SumForm.Derives : SumForm → List Char → Prop
  | .single t, w => t.Derives w
  | .chain s sign t, w => ∃ w₁ g₁ g₂ w₂, w = w₁ ++ (g₁ ++ sign.char :: (g₂ ++ w₂)) ∧
      s.Derives w₁ ∧ Blank g₁ ∧ Blank g₂ ∧ t.Derives w₂

def ProductForm.Derives : ProductForm → List Char → Prop
  | .single u, w => u.Derives w
  | .chain p op u, w => ∃ w₁ g₁ g₂ w₂, w = w₁ ++ (g₁ ++ op.char :: (g₂ ++ w₂)) ∧
      p.Derives w₁ ∧ Blank g₁ ∧ Blank g₂ ∧ u.Derives w₂

def SignedForm.Derives : SignedForm → List Char → Prop
  | .bare p, w => p.Derives w
  | .signed sign u, w => ∃ g w₁, w = sign.char :: (g ++ w₁) ∧ Blank g ∧ u.Derives w₁

def PowerForm.Derives : PowerForm → List Char → Prop
  | .single a, w => a.Derives w
  | .raised a u, w => ∃ w₁ g₁ op g₂ w₂, w = w₁ ++ (g₁ ++ (op ++ (g₂ ++ w₂))) ∧
      a.Derives w₁ ∧ Blank g₁ ∧ PowerMark op ∧ Blank g₂ ∧ u.Derives w₂

def AtomForm.Derives : AtomForm → List Char → Prop
  | .number l, w => NumberText l w
  | .call name s, w => ∃ g g₁ w₁ g₂, w = name.toList ++ (g ++ '(' :: (g₁ ++ (w₁ ++ (g₂ ++ [')'])))) ∧
      IsName name.toList ∧ Blank g ∧ Blank g₁ ∧ s.Derives w₁ ∧ Blank g₂
  | .name name, w => w = name.toList ∧ IsName name.toList
  | .group s, w => ∃ g₁ w₁ g₂, w = '(' :: (g₁ ++ (w₁ ++ (g₂ ++ [')']))) ∧ Blank g₁ ∧ s.Derives w₁ ∧ Blank g₂

end

/-- The text is the sentence that the tree derives, with blanks around it. -/
def Sentence (s : SumForm) (text : List Char) : Prop :=
  ∃ g₁ w g₂, text = g₁ ++ (w ++ g₂) ∧ Blank g₁ ∧ s.Derives w ∧ Blank g₂

end PlaneCalculus.Formula
