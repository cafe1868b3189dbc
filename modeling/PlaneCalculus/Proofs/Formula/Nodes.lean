import PlaneCalculus.Proofs.Expr.NodeLaw
import PlaneCalculus.Proofs.Formula.Parts

/-! What holds at every node of an expression put together by the constructors holds of what is read from a text. The
symbols of an expression are the names in the text that mean nothing else. -/

open PlaneCalculus.Expr

namespace PlaneCalculus.Formula

open Calc

def IsSymbolName (x : String) : Prop := IsName x.toList ∧ ¬ IsFunctionName x ∧ x ≠ "pi" ∧ x ≠ "E"

structure ReadingLaw (P : Expr → Prop) : Prop extends NodeLaw P where
  symbol : ∀ x, IsSymbolName x → P (.symbol x)

variable {P : Expr → Prop} {o : Overflow}

section Combine

variable (L : NodeLaw P) {a b : Expr}
include L

lemma sign_combine_nodes (sign : Sign) (ha : Everywhere P a) (hb : Everywhere P b) :
    Meets anyHalt (sign.combine o a b) (Everywhere P) := by
  cases sign with
  | plus => exact L.kept.sum_pair ha hb
  | minus => exact L.kept.sub ha hb

lemma factoring_combine_nodes (op : Factoring) (ha : Everywhere P a) (hb : Everywhere P b) :
    Meets anyHalt (op.combine o a b) (Everywhere P) := by
  cases op with
  | times => exact L.kept.product_pair ha hb
  | «over» => exact L.kept.div ha hb

lemma ofCall_nodes (ha : Everywhere P a) (name : String) : Holds (Everywhere P) (ofCall o name a) := by
  unfold ofCall
  split
  · exact holds_lift (L.kept.sqrt ha)
  · split
    · exact holds_ok (L.of _ ha)
    · nofun

lemma ofLiteral_nodes (l : Decimal.Literal) : Everywhere P (ofLiteral l) := by
  simp only [ofLiteral]
  split
  · next h =>
    simp only [Bool.and_eq_true] at h
    have hp := L.parts _ 1 h.2 (by decide)
    rwa [Number.ofParts_eq_exact (by decide) (by simp only [Number.bound]; omega) (by decide), Rat.divInt_one] at hp
  · exact L.real _

end Combine

/-! ### Names -/

mutual

/-- The names in a formula, those of functions included. -/
def SumForm.names : SumForm → List String
  | .single t => t.names
  | .chain s _ t => s.names ++ t.names

def ProductForm.names : ProductForm → List String
  | .single u => u.names
  | .chain p _ u => p.names ++ u.names

def SignedForm.names : SignedForm → List String
  | .bare p => p.names
  | .signed _ u => u.names

def PowerForm.names : PowerForm → List String
  | .single a => a.names
  | .raised a u => a.names ++ u.names

def AtomForm.names : AtomForm → List String
  | .number _ => []
  | .call name s => name :: s.names
  | .name name => [name]
  | .group s => s.names

end

/-- The names that are read as symbols. -/
def IsFreeName (x : String) : Prop := ¬ IsFunctionName x ∧ x ≠ "pi" ∧ x ≠ "E"

/-- The names that are read as symbols may stand in an expression. -/
def SymbolsHold (P : Expr → Prop) (names : List String) : Prop := ∀ x ∈ names, IsFreeName x → P (.symbol x)

lemma symbolsHold_append {xs ys : List String} : SymbolsHold P (xs ++ ys) ↔ SymbolsHold P xs ∧ SymbolsHold P ys :=
  List.forall_mem_append

lemma ofName_nodes (L : NodeLaw P) {x : String} (h : IsFreeName x → P (.symbol x)) : Holds (Everywhere P) (ofName x) := by
  unfold ofName
  split
  · exact holds_ok (L.constant .pi)
  · split
    · exact holds_ok (L.constant .e)
    · split
      · nofun
      · next hpi he hf => exact holds_ok (h ⟨fun hx => hf ((isFunctionName_iff x).mp hx), hpi, he⟩)

mutual

lemma SumForm.holds_nodes (L : NodeLaw P) : (s : SumForm) → SymbolsHold P s.names → Holds (Everywhere P) (s.toExpr o)
  | .single t, h => by
    rw [SumForm.toExpr]
    exact t.holds_nodes L h
  | .chain s sign t, h => by
    obtain ⟨hs, ht⟩ := symbolsHold_append.mp h
    rw [SumForm.toExpr_chain]
    exact (s.holds_nodes L hs).bind fun a ha => (t.holds_nodes L ht).bind fun b hb =>
      holds_lift (sign_combine_nodes L sign ha hb)

lemma ProductForm.holds_nodes (L : NodeLaw P) : (p : ProductForm) → SymbolsHold P p.names →
    Holds (Everywhere P) (p.toExpr o)
  | .single u, h => by
    rw [ProductForm.toExpr]
    exact u.holds_nodes L h false
  | .chain p op u, h => by
    obtain ⟨hp, hu⟩ := symbolsHold_append.mp h
    rw [ProductForm.toExpr_chain]
    exact (p.holds_nodes L hp).bind fun a ha => (u.holds_nodes L hu false).bind fun b hb =>
      holds_lift (factoring_combine_nodes L op ha hb)

lemma SignedForm.holds_nodes (L : NodeLaw P) : (u : SignedForm) → SymbolsHold P u.names → (negative : Bool) →
    Holds (Everywhere P) (u.toExpr o negative)
  | .bare p, h, negative => by
    rw [SignedForm.toExpr]
    refine (p.holds_nodes L h).bind fun e he => ?_
    split
    · exact holds_lift (L.kept.neg he)
    · exact holds_ok he
  | .signed sign u, h, negative => by
    rw [SignedForm.toExpr]
    exact u.holds_nodes L h _

lemma PowerForm.holds_nodes (L : NodeLaw P) : (p : PowerForm) → SymbolsHold P p.names → Holds (Everywhere P) (p.toExpr o)
  | .single a, h => by
    rw [PowerForm.toExpr]
    exact a.holds_nodes L h
  | .raised a u, h => by
    obtain ⟨ha, hu⟩ := symbolsHold_append.mp h
    rw [PowerForm.toExpr]
    exact (a.holds_nodes L ha).bind fun b hb => (u.holds_nodes L hu false).bind fun e he =>
      holds_lift (pow_nodes L hb he)

lemma AtomForm.holds_nodes (L : NodeLaw P) : (a : AtomForm) → SymbolsHold P a.names → Holds (Everywhere P) (a.toExpr o)
  | .number l, _ => by
    rw [AtomForm.toExpr]
    exact holds_ok (ofLiteral_nodes L l)
  | .call name s, h => by
    rw [AtomForm.toExpr]
    exact (s.holds_nodes L (List.forall_mem_cons.mp h).2).bind fun a ha => ofCall_nodes L ha name
  | .name name, h => by
    rw [AtomForm.toExpr]
    exact ofName_nodes L (h name (List.mem_singleton_self name))
  | .group s, h => by
    rw [AtomForm.toExpr]
    exact s.holds_nodes L h

end

/-! ### Names in texts -/

/-- A property of texts that goes over to both parts when they are cut at a character that stands in no name. -/
def Cuts (T : List Char → Prop) : Prop := ∀ v c w, isNameChar c = false → T (v ++ c :: w) → T v ∧ T w

def Nameless (g : List Char) : Prop := ∀ c ∈ g, isNameChar c = false

lemma Blank.nameless {g : List Char} (h : Blank g) : Nameless g := fun c hc => (blank_not_name (h c hc)).1

lemma PowerMark.nameless {w : List Char} (h : PowerMark w) : Nameless w := by
  rcases h with rfl | rfl <;> simp [Nameless, isNameChar, Char.isAlphanum]

lemma Nameless.append {g g' : List Char} (h : Nameless g) (h' : Nameless g') : Nameless (g ++ g') :=
  List.forall_mem_append.mpr ⟨h, h'⟩

section Names

variable {T : List Char → Prop} (hT : Cuts T) {g v w : List Char}
include hT

lemma Cuts.after (hg : Nameless g) (h : T (g ++ w)) : T w := by
  induction g with
  | nil => exact h
  | cons c g ih =>
    have hcut := hT [] c (g ++ w) (hg c List.mem_cons_self) h
    exact ih (fun d hd => hg d (List.mem_cons_of_mem c hd)) hcut.2

lemma Cuts.before (hg : Nameless g) (h : T (w ++ g)) : T w := by
  cases g with
  | nil => rwa [List.append_nil] at h
  | cons c g => exact (hT w c g (hg c List.mem_cons_self) h).1

lemma Cuts.around (hne : g ≠ []) (hg : Nameless g) (h : T (v ++ (g ++ w))) : T v ∧ T w := by
  obtain ⟨c, g, rfl⟩ := List.exists_cons_of_ne_nil hne
  have hcut := hT v c (g ++ w) (hg c List.mem_cons_self) h
  exact ⟨hcut.1, hT.after (fun d hd => hg d (List.mem_cons_of_mem c hd)) hcut.2⟩

/-- Two parts with a mark and blanks between them. -/
lemma Cuts.operands {g₁ op g₂ : List Char} (hne : op ≠ []) (hop : Nameless op) (hg₁ : Blank g₁) (hg₂ : Blank g₂)
    (h : T (v ++ (g₁ ++ (op ++ (g₂ ++ w))))) : T v ∧ T w := by
  refine hT.around (g := g₁ ++ (op ++ g₂)) (by simp [hne]) (hg₁.nameless.append (hop.append hg₂.nameless)) ?_
  simpa using h

mutual

lemma SumForm.names_hold : (s : SumForm) → (w : List Char) → s.Derives w → T w →
    ∀ x ∈ s.names, IsName x.toList ∧ T x.toList
  | .single t, w, h, hw => t.names_hold w h hw
  | .chain s sign t, _, ⟨w₁, _, _, w₂, rfl, hs, hg₁, hg₂, ht⟩, hw => by
    have hop : Nameless [sign.char] := by cases sign <;> simp [Nameless, Sign.char, isNameChar]
    obtain ⟨h₁, h₂⟩ := hT.operands (List.cons_ne_nil _ _) hop hg₁ hg₂ hw
    exact List.forall_mem_append.mpr ⟨s.names_hold w₁ hs h₁, t.names_hold w₂ ht h₂⟩

lemma ProductForm.names_hold : (p : ProductForm) → (w : List Char) → p.Derives w → T w →
    ∀ x ∈ p.names, IsName x.toList ∧ T x.toList
  | .single u, w, h, hw => u.names_hold w h hw
  | .chain p op u, _, ⟨w₁, _, _, w₂, rfl, hp, hg₁, hg₂, hu⟩, hw => by
    have hop : Nameless [op.char] := by cases op <;> simp [Nameless, Factoring.char, isNameChar]
    obtain ⟨h₁, h₂⟩ := hT.operands (List.cons_ne_nil _ _) hop hg₁ hg₂ hw
    exact List.forall_mem_append.mpr ⟨p.names_hold w₁ hp h₁, u.names_hold w₂ hu h₂⟩

lemma SignedForm.names_hold : (u : SignedForm) → (w : List Char) → u.Derives w → T w →
    ∀ x ∈ u.names, IsName x.toList ∧ T x.toList
  | .bare p, w, h, hw => p.names_hold w h hw
  | .signed sign u, _, ⟨_, w₁, rfl, hg, hu⟩, hw => by
    have hop : Nameless [sign.char] := by cases sign <;> simp [Nameless, Sign.char, isNameChar]
    exact u.names_hold w₁ hu (hT.after (hop.append hg.nameless) hw)

lemma PowerForm.names_hold : (p : PowerForm) → (w : List Char) → p.Derives w → T w →
    ∀ x ∈ p.names, IsName x.toList ∧ T x.toList
  | .single a, w, h, hw => a.names_hold w h hw
  | .raised a u, _, ⟨w₁, _, op, _, w₂, rfl, ha, hg₁, hmark, hg₂, hu⟩, hw => by
    have hne : op ≠ [] := by rcases hmark with rfl | rfl <;> exact List.cons_ne_nil _ _
    obtain ⟨h₁, h₂⟩ := hT.operands hne hmark.nameless hg₁ hg₂ hw
    exact List.forall_mem_append.mpr ⟨a.names_hold w₁ ha h₁, u.names_hold w₂ hu h₂⟩

lemma AtomForm.names_hold : (a : AtomForm) → (w : List Char) → a.Derives w → T w →
    ∀ x ∈ a.names, IsName x.toList ∧ T x.toList
  | .number _, _, _, _ => nofun
  | .call name s, _, ⟨_, _, w₁, _, rfl, hname, hg, hg₁, hs, hg₂⟩, hw => by
    have hopen : Nameless ['('] := by simp [Nameless, isNameChar]
    have hclose : Nameless [')'] := by simp [Nameless, isNameChar]
    obtain ⟨h₁, h₂⟩ := hT.operands (List.cons_ne_nil _ _) hopen hg hg₁ hw
    exact List.forall_mem_cons.mpr ⟨⟨hname, h₁⟩, s.names_hold w₁ hs (hT.before (hg₂.nameless.append hclose) h₂)⟩
  | .name name, _, ⟨hw', hname⟩, hw => by
    subst hw'
    exact fun x hx => List.mem_singleton.mp hx ▸ ⟨hname, hw⟩
  | .group s, _, ⟨g₁, w₁, _, rfl, hg₁, hs, hg₂⟩, hw => by
    have hopen : Nameless ['('] := by simp [Nameless, isNameChar]
    have hclose : Nameless [')'] := by simp [Nameless, isNameChar]
    have hafter := hT.after (hopen.append hg₁.nameless) hw
    exact s.names_hold w₁ hs (hT.before (hg₂.nameless.append hclose) hafter)

end

lemma parse_names {text : String} {s : SumForm} (hs : parse text = .ok s) (h : T text.toList) :
    ∀ x ∈ s.names, IsName x.toList ∧ T x.toList := by
  obtain ⟨g₁, w, g₂, htext, hg₁, hw, hg₂⟩ := (parse_eq_ok_iff text s).mp hs
  rw [htext] at h
  exact s.names_hold hT w hw (hT.before hg₂.nameless (hT.after hg₁.nameless h))

end Names

lemma cuts_true : Cuts fun _ => True := fun _ _ _ _ _ => ⟨trivial, trivial⟩

lemma Sentence.holds_nodes (L : ReadingLaw P) {s : SumForm} {text : List Char} (h : Sentence s text) :
    Holds (Everywhere P) (s.toExpr o) := by
  obtain ⟨_, w, _, _, _, hw, _⟩ := h
  exact s.holds_nodes L.toNodeLaw fun x hx hfree => L.symbol x ⟨(s.names_hold cuts_true w hw trivial x hx).1, hfree⟩

lemma read_nodes (L : ReadingLaw P) (text : String) : Holds (Everywhere P) (read o text) := by
  unfold read
  split
  · next s hs => exact ((parse_eq_ok_iff text s).mp hs).holds_nodes L
  · nofun

lemma readConstraint_nodes (L : ReadingLaw P) (text : String) : Holds (Everywhere P) (readConstraint o text) := by
  unfold readConstraint
  split
  · split
    · next l r hparse =>
      unfold parseEquation Reply.toExcept at hparse
      split at hparse
      · next c hresult =>
        cases hparse
        obtain ⟨v, w, -, hl, hr⟩ := equation_sound hresult
        exact (hl.holds_nodes L).bind fun a ha => (hr.holds_nodes L).bind fun b hb => holds_lift (L.kept.sub ha hb)
      · cases hparse
    · nofun
  · exact read_nodes L text

end PlaneCalculus.Formula
