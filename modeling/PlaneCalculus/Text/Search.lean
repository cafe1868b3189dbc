/-!
Words inside texts.
-/

namespace PlaneCalculus.Text

def occursIn (word : List Char) : List Char → Bool
  | [] => word.isEmpty
  | c :: cs => word.isPrefixOf (c :: cs) || occursIn word cs

theorem occursIn_iff (word cs : List Char) : occursIn word cs = true ↔ word <:+: cs := by
  induction cs with
  | nil => simp [occursIn]
  | cons c cs ih => simp [occursIn, ih, List.infix_cons_iff]

def contains (text word : String) : Bool := occursIn word.toList text.toList

/-- Is the text enclosed by the two marks? They may overlap in a short text. -/
def isEnclosed (opening closing : String) (cs : List Char) : Bool :=
  opening.toList.isPrefixOf cs && closing.toList.isSuffixOf cs

def closeRun (run : List Char) : List String := if run.isEmpty then [] else [String.ofList run.reverse]

/-- The runs of characters in a class, each as long as possible; `run` is the current one, read backwards. -/
def runsFrom (p : Char → Bool) (run : List Char) : List Char → List String
  | [] => closeRun run
  | c :: cs => if p c then runsFrom p (c :: run) cs else closeRun run ++ runsFrom p [] cs

def runs (p : Char → Bool) (text : String) : List String := runsFrom p [] text.toList

end PlaneCalculus.Text
