import PlaneCalculus.Proofs.Latex.Rows
import PlaneCalculus.Proofs.Service.Identifiers

/-! Where digits run together in a typeset expression: between neighbours in a row of factors of which one has a digit at
the end of its text and the next has one at the start. Sums are bracketed among factors, and so are the bases of powers
other than names and whole numbers from zero on; a number in front of a power of a whole number is kept apart by the blank
alone. -/

open PlaneCalculus.Expr

namespace PlaneCalculus

namespace Expr

/-- Factors with a digit at the end of their text. -/
def ClosesWithDigit : Expr → Prop
  | .num (.exact q) => q.den = 1
  | .num (.approx v) => v.isInf = false
  | .symbol x => Latex.EndsInDigit x.toList
  | _ => False

/-- Whole numbers from zero on. -/
def IsWhole : Expr → Prop
  | .num (.exact q) => q.den = 1 ∧ 0 ≤ q.num
  | _ => False

/-- Factors with a digit at the start of their text. -/
def OpensWithDigit : Expr → Prop
  | .num (.exact q) => q.den = 1 ∧ 0 ≤ q.num
  | .num (.approx v) => Latex.StartsWithDigit (realText v).toList
  | .power b x => b.IsWhole ∧ x.isHalf = false ∧ x.isNegativeNumber = false
  | _ => False

end Expr

namespace Latex

open Calc
open Decimal (isDigit)

def RowFuses (row : List Expr) : Prop := ∃ a b, [a, b] <:+: row ∧ a.ClosesWithDigit ∧ b.OpensWithDigit

/-- The factors of an expression that is set in rows. -/
def factors? : Expr → Option (List Expr)
  | .times fs => some fs
  | .power b x => if x.isNegativeNumber then some [.power b x] else none
  | _ => none

/-- Bases of powers that are set without brackets. -/
def IsBareBase : Expr → Prop
  | .symbol _ | .constant _ => True
  | b => b.IsWhole

/-- The expressions that are set inside an expression. -/
inductive Part (o : Overflow) : Expr → Expr → Prop
  | factor {e p : Expr} {fs : List Expr} {r : List Expr × List Expr} :
    factors? e = some fs → rows o fs = .ok r → p ∈ r.1 ∨ p ∈ r.2 → Part o e p
  | first {t : Expr} {ts : List Expr} : Part o (.plus (t :: ts)) t
  | added {s t : Expr} {ts : List Expr} : t ∈ ts → t.isNegativeTerm = false → Part o (.plus (s :: ts)) t
  | subtracted {s t u : Expr} {ts : List Expr} :
    t ∈ ts → t.isNegativeTerm = true → Expr.neg o t = .ok u → Part o (.plus (s :: ts)) u
  | base {b x : Expr} : x.isNegativeNumber = false → Part o (.power b x) b
  | exponent {b x : Expr} : x.isNegativeNumber = false → x.isHalf = false → Part o (.power b x) x
  | arg {f : Func} {a : Expr} : Part o (.call f a) a

/-- Somewhere in the expression neighbours in a row run together. -/
inductive Fuses (o : Overflow) : Expr → Prop
  | row {e : Expr} {fs : List Expr} {r : List Expr × List Expr} :
    factors? e = some fs → rows o fs = .ok r → RowFuses r.1 ∨ RowFuses r.2 → Fuses o e
  | part {e p : Expr} : Part o e p → Fuses o p → Fuses o e

/-- A term after the first, or its negation, has neighbours that run together. -/
def RestFuses (o : Overflow) (t : Expr) : Prop :=
  t.isNegativeTerm = false ∧ Fuses o t ∨ t.isNegativeTerm = true ∧ ∃ u, Expr.neg o t = .ok u ∧ Fuses o u

variable {o : Overflow} {b x e p : Expr}

/-! ### Expressions by their kind -/

lemma rowFuses_cons_cons {a b : Expr} {row : List Expr} :
    RowFuses (a :: b :: row) ↔ a.ClosesWithDigit ∧ b.OpensWithDigit ∨ RowFuses (b :: row) := by
  constructor
  · rintro ⟨c, d, h, hc, hd⟩
    rcases List.infix_cons_iff.mp h with h | h
    · obtain ⟨hca, hrest⟩ := List.cons_prefix_cons.mp h
      obtain ⟨hdb, -⟩ := List.cons_prefix_cons.mp hrest
      exact .inl ⟨hca ▸ hc, hdb ▸ hd⟩
    · exact .inr ⟨c, d, h, hc, hd⟩
  · rintro (⟨ha, hb⟩ | ⟨c, d, h, hc, hd⟩)
    · exact ⟨a, b, ⟨[], row, rfl⟩, ha, hb⟩
    · exact ⟨c, d, List.infix_cons h, hc, hd⟩

lemma not_rowFuses_of_short {row : List Expr} (h : row.length ≤ 1) : ¬ RowFuses row := by
  rintro ⟨a, b, hpart, -⟩
  have hlength := hpart.length_le
  simp only [List.length_cons, List.length_nil] at hlength
  omega

lemma part_rows {fs : List Expr} {r : List Expr × List Expr} (hf : factors? e = some fs) (hr : rows o fs = .ok r) :
    Part o e p ↔ p ∈ r.1 ∨ p ∈ r.2 := by
  constructor
  · rintro (⟨hf', hr', hp⟩ | _ | _ | _ | hx | hx | _)
    · obtain rfl : fs = _ := Option.some.inj (hf.symm.trans hf')
      obtain rfl : r = _ := Except.ok.inj (hr.symm.trans hr')
      exact hp
    all_goals simp_all [factors?]
  · exact .factor hf hr

lemma part_plus {t : Expr} {ts : List Expr} : Part o (.plus (t :: ts)) p ↔ p = t ∨ ∃ s ∈ ts,
    s.isNegativeTerm = false ∧ p = s ∨ s.isNegativeTerm = true ∧ Expr.neg o s = .ok p := by
  constructor
  · intro h
    cases h with
    | factor hf => cases hf
    | first => exact .inl rfl
    | added hmem hneg => exact .inr ⟨_, hmem, .inl ⟨hneg, rfl⟩⟩
    | subtracted hmem hneg hu => exact .inr ⟨_, hmem, .inr ⟨hneg, hu⟩⟩
  · rintro (rfl | ⟨s, hs, ⟨hneg, rfl⟩ | ⟨hneg, hu⟩⟩)
    · exact .first
    · exact .added hs hneg
    · exact .subtracted hs hneg hu

lemma part_power (hx : x.isNegativeNumber = false) : Part o (.power b x) p ↔ p = b ∨ x.isHalf = false ∧ p = x := by
  constructor
  · intro h
    cases h with
    | factor hf => simp [factors?, hx] at hf
    | base => exact .inl rfl
    | exponent _ hhalf => exact .inr ⟨hhalf, rfl⟩
  · rintro (rfl | ⟨hhalf, rfl⟩)
    · exact .base hx
    · exact .exponent hx hhalf

lemma part_call {f : Func} {a : Expr} : Part o (.call f a) p ↔ p = a := by
  constructor
  · intro h
    cases h with
    | factor hf => cases hf
    | arg => rfl
  · rintro rfl
    exact .arg

lemma fuses_rows {fs : List Expr} {r : List Expr × List Expr} (hf : factors? e = some fs) (hr : rows o fs = .ok r) :
    Fuses o e ↔ (RowFuses r.1 ∨ ∃ p ∈ r.1, Fuses o p) ∨ RowFuses r.2 ∨ ∃ p ∈ r.2, Fuses o p := by
  constructor
  · rintro (⟨hf', hr', h⟩ | ⟨hpart, h⟩)
    · obtain rfl : fs = _ := Option.some.inj (hf.symm.trans hf')
      obtain rfl : r = _ := Except.ok.inj (hr.symm.trans hr')
      exact h.imp .inl .inl
    · exact ((part_rows hf hr).mp hpart).imp (fun hmem => .inr ⟨_, hmem, h⟩) fun hmem => .inr ⟨_, hmem, h⟩
  · rintro ((h | ⟨p, hp, h⟩) | h | ⟨p, hp, h⟩)
    · exact .row hf hr (.inl h)
    · exact .part (.factor hf hr (.inl hp)) h
    · exact .row hf hr (.inr h)
    · exact .part (.factor hf hr (.inr hp)) h

lemma fuses_iff_part (hf : factors? e = none) : Fuses o e ↔ ∃ p, Part o e p ∧ Fuses o p := by
  constructor
  · rintro (⟨hf', -⟩ | ⟨hpart, h⟩)
    · cases hf.symm.trans hf'
    · exact ⟨_, hpart, h⟩
  · rintro ⟨p, hpart, h⟩
    exact .part hpart h

lemma fuses_plus {t : Expr} {ts : List Expr} :
    Fuses o (.plus (t :: ts)) ↔ Fuses o t ∨ ∃ s ∈ ts, RestFuses o s := by
  rw [fuses_iff_part rfl]
  constructor
  · rintro ⟨p, hpart, h⟩
    rcases part_plus.mp hpart with rfl | ⟨s, hs, ⟨hneg, rfl⟩ | ⟨hneg, hu⟩⟩
    · exact .inl h
    · exact .inr ⟨_, hs, .inl ⟨hneg, h⟩⟩
    · exact .inr ⟨s, hs, .inr ⟨hneg, p, hu, h⟩⟩
  · rintro (h | ⟨s, hs, ⟨hneg, h⟩ | ⟨hneg, u, hu, h⟩⟩)
    · exact ⟨t, .first, h⟩
    · exact ⟨s, .added hs hneg, h⟩
    · exact ⟨u, .subtracted hs hneg hu, h⟩

lemma fuses_power (hx : x.isNegativeNumber = false) :
    Fuses o (.power b x) ↔ Fuses o b ∨ x.isHalf = false ∧ Fuses o x := by
  rw [fuses_iff_part (by simp [factors?, hx])]
  simp only [part_power hx, or_and_right, and_assoc, exists_or, exists_eq_left, exists_and_left]

lemma fuses_call {f : Func} {a : Expr} : Fuses o (.call f a) ↔ Fuses o a := by
  rw [fuses_iff_part rfl]
  simp only [part_call, exists_eq_left]

lemma not_fuses_num {n : Number} : ¬ Fuses o (.num n) := by rintro (⟨⟨⟩⟩ | ⟨⟨⟨⟩⟩⟩)

lemma not_fuses_symbol {name : String} : ¬ Fuses o (.symbol name) := by rintro (⟨⟨⟩⟩ | ⟨⟨⟨⟩⟩⟩)

lemma not_fuses_constant {c : Constant} : ¬ Fuses o (.constant c) := by rintro (⟨⟨⟩⟩ | ⟨⟨⟨⟩⟩⟩)

lemma not_fuses_empty : ¬ Fuses o (.plus []) := by rintro (⟨⟨⟩⟩ | ⟨⟨⟨⟩⟩⟩)

/-! ### Texts by their kind -/

/-- What is known of the ends of the text of a factor. -/
structure Edges (e : Expr) (w : List Char) : Prop where
  ne_nil : w ≠ []
  ends : EndsInDigit w ↔ e.ClosesWithDigit
  starts : StartsWithDigit w ↔ e.OpensWithDigit

structure Framed (w : List Char) : Prop where
  ne_nil : w ≠ []
  ends : ¬ EndsInDigit w
  starts : ¬ StartsWithDigit w

lemma Framed.edges {w : List Char} (h : Framed w) (hc : ¬ e.ClosesWithDigit) (ho : ¬ e.OpensWithDigit) : Edges e w :=
  ⟨h.ne_nil, iff_of_false h.ends hc, iff_of_false h.starts ho⟩

lemma fused_minus (a : String) : Fused ("- " ++ a).toList ↔ Fused a.toList := by
  simp (disch := decide) [fused_cons]

lemma fused_term {sep : String} (h : sep = " - " ∨ sep = " + ") (v : List Char) (a : String) :
    Fused (v ++ (sep ++ a).toList) ↔ Fused v ∨ Fused a.toList := by
  rcases h with rfl | rfl <;> simp (disch := decide) [fused_cons, isDigit]

lemma fused_fraction (a b : String) : Fused (fraction a b).toList ↔ Fused a.toList ∨ Fused b.toList := by
  simp (disch := decide) [fraction, braced, fused_cons, fused_append_cons]

lemma framed_fraction (a b : String) : Framed (fraction a b).toList := by
  constructor <;> simp [fraction, braced, isDigit]

lemma framed_minus_fraction (a b : String) : Framed ("- " ++ fraction a b).toList := by
  constructor <;> simp [fraction, braced, isDigit]

lemma fused_bracketed (a : String) : Fused (bracketed a).toList ↔ Fused a.toList := by
  simp (disch := decide) [bracketed, fused_cons, fused_append_cons]

lemma framed_bracketed (a : String) : Framed (bracketed a).toList := by
  constructor <;> simp [bracketed, isDigit]

lemma fused_sqrt (a : String) : Fused ("\\sqrt" ++ braced a).toList ↔ Fused a.toList := by
  simp (disch := decide) [braced, fused_cons, fused_append_cons]

lemma framed_sqrt (a : String) : Framed ("\\sqrt" ++ braced a).toList := by
  constructor <;> simp [braced, isDigit]

lemma fused_raised (a b : String) : Fused (a ++ "^" ++ braced b).toList ↔ Fused a.toList ∨ Fused b.toList := by
  simp (disch := decide) [braced, fused_cons, fused_append_cons]

lemma not_fused_ofFunc (f : Func) : ¬ Fused (ofFunc f).toList := by
  refine not_fused_of_unspaced ?_
  cases f <;> decide

lemma ofFunc_cons (f : Func) : ∃ w, (ofFunc f).toList = '\\' :: w := by
  unfold ofFunc
  split
  · exact ⟨f.name.toList, by simp⟩
  · exact ⟨"operatorname".toList ++ (braced f.name).toList, by simp⟩

lemma fused_raisedCall (f : Func) (a b : String) :
    Fused (ofFunc f ++ "^" ++ braced b ++ braced ("\\left(" ++ a ++ " \\right)")).toList ↔
      Fused b.toList ∨ Fused a.toList := by
  simp (disch := decide) [braced, fused_cons, fused_append_cons, not_fused_ofFunc, isDigit]

lemma framed_raisedCall (f : Func) (a b : String) :
    Framed (ofFunc f ++ "^" ++ braced b ++ braced ("\\left(" ++ a ++ " \\right)")).toList := by
  obtain ⟨w, hw⟩ := ofFunc_cons f
  constructor <;> simp [braced, hw, isDigit]

lemma fused_ofCall (f : Func) (a : String) : Fused (ofCall f a).toList ↔ Fused a.toList := by
  unfold ofCall
  split
  · simp (disch := decide) [braced, fused_cons, fused_append_cons]
  · simp (disch := decide) [braced, fused_cons, fused_append_cons]
  · simp (disch := decide) [braced, fused_cons, fused_append_cons, not_fused_ofFunc, isDigit]

lemma framed_ofCall (f : Func) (a : String) : Framed (ofCall f a).toList := by
  obtain ⟨w, hw⟩ := ofFunc_cons f
  unfold ofCall
  split
  · constructor <;> simp [braced, isDigit]
  · constructor <;> simp [braced, isDigit]
  · constructor <;> simp [braced, hw, isDigit]

lemma IsBareBase.flat (h : IsBareBase b) : ∀ gs, b ≠ .times gs := by
  rintro gs rfl
  exact h

lemma IsBareBase.unsummed (h : IsBareBase b) : ∀ ts, b ≠ .plus ts := by
  rintro ts rfl
  exact h

lemma IsBareBase.opens (h : IsBareBase b) : b.OpensWithDigit ↔ b.IsWhole := by
  cases b with
  | num n =>
    cases n with
    | exact q => exact Iff.rfl
    | approx v => exact h.elim
  | symbol | constant => exact Iff.rfl
  | plus | times | power | call => exact h.elim

lemma isBareBase_of_isWhole (h : b.IsWhole) : IsBareBase b := by
  cases b with
  | symbol | constant => trivial
  | num | plus | times | power | call => exact h

lemma edges_num {n : Number} {t : String} (h : ofNumber n = .ok t) : Edges (.num n) t.toList ∧ ¬ Fused t.toList := by
  cases n with
  | exact q =>
    have hint (k : Int) : ¬ Fused (toString k).toList := not_fused_of_unspaced (closing_int k).unspaced
    have hnat (n : Nat) : ¬ Fused (toString n).toList := hint n
    unfold ofNumber at h
    dsimp only at h
    split at h
    · next hq =>
      cases h
      have hclosing := closing_int q.num
      refine ⟨⟨hclosing.ne_nil, ?_, ?_⟩, hint q.num⟩
      · simp only [ClosesWithDigit, hq, hclosing.ends]
      · simp only [OpensWithDigit, hq, startsWithDigit_int, true_and]
    · next hq =>
      have hcloses : ¬ ClosesWithDigit (.num (.exact q)) := hq
      have hopens : ¬ OpensWithDigit (.num (.exact q)) := fun h => hq h.1
      split at h
      · cases h
        refine ⟨(framed_minus_fraction _ _).edges hcloses hopens, ?_⟩
        rw [fused_minus, fused_fraction]
        exact not_or.mpr ⟨hnat _, hnat _⟩
      · cases h
        refine ⟨(framed_fraction _ _).edges hcloses hopens, ?_⟩
        rw [fused_fraction]
        exact not_or.mpr ⟨hint _, hnat _⟩
  | approx v =>
    unfold ofNumber ofReal at h
    dsimp only at h
    split at h
    · cases h
    · next hnan =>
      have hnan' : v.isNaN = false := by simpa using hnan
      split at h
      · next hinf =>
        have hcloses : ¬ ClosesWithDigit (.num (.approx v)) := by simp [ClosesWithDigit, hinf]
        have hopens : ¬ OpensWithDigit (.num (.approx v)) := by
          show ¬ StartsWithDigit (realText v).toList
          unfold realText
          rw [if_neg hnan, if_pos hinf]
          split <;> decide
        cases h
        split
        · exact ⟨Framed.edges ⟨by decide, by decide, by decide⟩ hcloses hopens, not_fused_of_unspaced (by decide)⟩
        · exact ⟨Framed.edges ⟨by decide, by decide, by decide⟩ hcloses hopens, not_fused_of_unspaced (by decide)⟩
      · next hinf =>
        have hinf' : v.isInf = false := by simpa using hinf
        cases h
        have hclosing := closing_realText hnan' hinf'
        exact ⟨⟨hclosing.ne_nil, iff_of_true hclosing.ends hinf', Iff.rfl⟩, not_fused_of_unspaced hclosing.unspaced⟩

lemma not_fused_symbol {name : String} (h : Formula.IsSymbolName name) : ' ' ∉ name.toList := by
  obtain ⟨c, cs, heq, hc, hcs⟩ := h.1
  rw [heq, List.mem_cons, not_or]
  constructor
  · rintro rfl
    exact absurd hc (by decide)
  · exact fun hmem => absurd (hcs ' ' hmem) (by decide)

lemma edges_symbol {name : String} (h : Formula.IsSymbolName name) :
    Edges (.symbol name) (ofSymbol name).toList ∧ ¬ Fused (ofSymbol name).toList := by
  have hunspaced := not_fused_symbol h
  obtain ⟨c, cs, heq, hc, -⟩ := h.1
  have hne : name.toList ≠ [] := by simp [heq]
  unfold ofSymbol
  split
  · rw [String.toList_append]
    refine ⟨⟨by simp, ?_, ?_⟩, not_fused_of_unspaced (by simpa using hunspaced)⟩
    · exact endsInDigit_append hne
    · simp [OpensWithDigit, isDigit]
  · refine ⟨⟨hne, Iff.rfl, ?_⟩, not_fused_of_unspaced hunspaced⟩
    simp [heq, OpensWithDigit, Formula.isNameStart_not_digit hc]

/-! ### Rows -/

/-- A text for an expression, from which neighbouring texts can be kept apart. -/
structure Sets (o : Overflow) (e : Expr) (t : String) : Prop where
  fused : Fused t.toList ↔ Fuses o e
  edges : Edges e t.toList

structure Typesets (o : Overflow) (latex : Expr → Outcome String) : Prop where
  number : ∀ n t, latex (.num n) = .ok t → ofNumber n = .ok t
  fused : ∀ e t, Everywhere SetNode e → latex e = .ok t → (Fused t.toList ↔ Fuses o e)
  edges : ∀ e t, Item e → (∀ ts, e ≠ .plus ts) → latex e = .ok t → Edges e t.toList

lemma forall₂_of_mapM {ε α β : Type} {f : α → Except ε β} {l : List α} {bs : List β} (h : l.mapM f = .ok bs) :
    List.Forall₂ (fun a b => f a = .ok b) l bs := by
  induction l generalizing bs with
  | nil =>
    cases h
    exact .nil
  | cons a l ih =>
    rw [List.mapM_cons] at h
    obtain ⟨b, hb, h⟩ := bind_ok h
    obtain ⟨bs, hbs, h⟩ := bind_ok h
    cases h
    exact .cons hb (ih hbs)

section Rows

variable {latex : Expr → Outcome String} (T : Typesets o latex)
include T

lemma factor_sets {e : Expr} {t : String} (he : Item e) (h : factor latex e = .ok t) : Sets o e t := by
  unfold factor at h
  split at h
  · next ts =>
    obtain ⟨s, hs, h⟩ := bind_ok h
    cases h
    exact ⟨(fused_bracketed s).trans (T.fused _ s he.nodes hs), (framed_bracketed s).edges id id⟩
  · next hplus => exact ⟨T.fused e t he.nodes h, T.edges e t he hplus h⟩

omit T in
lemma startsWithDigit_join {ts : List String} {e : Expr} {t : String} (h : Sets o e t) :
    StartsWithDigit (" ".intercalate (t :: ts)).toList ↔ e.OpensWithDigit := by
  rw [← h.edges.starts]
  cases ts with
  | nil => simp
  | cons s ts => simp [startsWithDigit_append h.edges.ne_nil]

omit T in
lemma fused_row {es : List Expr} {ts : List String} (h : List.Forall₂ (Sets o) es ts) :
    Fused (" ".intercalate ts).toList ↔ RowFuses es ∨ ∃ e ∈ es, Fuses o e := by
  induction h with
  | nil => simp [not_rowFuses_of_short]
  | @cons e t es ts he hes ih =>
    cases hes with
    | nil => simp [not_rowFuses_of_short, he.fused]
    | @cons e' t' es ts he' hes =>
      have hcut : (" ".intercalate (t :: t' :: ts)).toList = t.toList ++ ' ' :: (" ".intercalate (t' :: ts)).toList := by
        simp
      rw [hcut, fused_append_blank, startsWithDigit_join he', ih, he.fused, he.edges.ends, rowFuses_cons_cons,
        List.exists_mem_cons_iff _ e]
      generalize (∃ x ∈ e' :: es, Fuses o x) = rest
      tauto

lemma join_fused {es : List Expr} {t : String} (h : ∀ e ∈ es, Item e) (ht : join latex es = .ok t) :
    Fused t.toList ↔ RowFuses es ∨ ∃ e ∈ es, Fuses o e := by
  unfold join at ht
  split at ht
  · next e =>
    simp [not_rowFuses_of_short, T.fused e t (h e List.mem_cons_self).nodes ht]
  · obtain ⟨ts, hts, ht⟩ := bind_ok ht
    cases ht
    have hitems := (List.forall₂_and_left es ts).mpr ⟨h, forall₂_of_mapM hts⟩
    exact fused_row (hitems.imp fun _ _ he => factor_sets T he.1 he.2)

/-! ### Products -/

omit T in
lemma map_ok {ε α β : Type} {f : α → β} {c : Except ε α} {b : β} (h : f <$> c = .ok b) : ∃ a, c = .ok a ∧ f a = b := by
  cases c with
  | ok a => exact ⟨a, rfl, Except.ok.inj h⟩
  | error e => cases h

omit T in
lemma ofProduct_ok {fs : List Expr} {t : String} (h : ofProduct o latex fs = .ok t) : ∃ r a body, rows o fs = .ok r ∧
    join latex r.1 = .ok a ∧ (r.2 = [] ∧ body = a ∨ r.2 ≠ [] ∧ ∃ b, join latex r.2 = .ok b ∧ body = fraction a b) ∧
    (t = body ∨ t = "- " ++ body) := by
  obtain ⟨s, hs, h⟩ := bind_ok h
  obtain ⟨c, hc, h⟩ := bind_ok h
  have hrows : rows o fs = .ok (s.numerator (Fraction.coeffParts c).1, s.denominator (Fraction.coeffParts c).2) := by
    unfold rows
    rw [Formula.lift_eq_ok hs]
    show o.abs s.coeff >>= _ = _
    rw [Formula.lift_eq_ok hc]
    rfl
  have hsign (body : String) : (if s.coeff.isNegative then "- " ++ body else body) = body ∨
      (if s.coeff.isNegative then "- " ++ body else body) = "- " ++ body := by
    split
    · exact .inr rfl
    · exact .inl rfl
  rcases hparts : Fraction.coeffParts c with ⟨above, below⟩
  simp only [hparts] at h hrows
  obtain ⟨a, ha, h⟩ := bind_ok h
  split at h
  · next hempty =>
    cases h
    exact ⟨_, a, a, hrows, ha, .inl ⟨by simpa using hempty, rfl⟩, hsign a⟩
  · next hempty =>
    obtain ⟨body, hbody, h⟩ := bind_ok h
    obtain ⟨b, hb, rfl⟩ := map_ok hbody
    cases h
    exact ⟨_, a, _, hrows, ha, .inr ⟨by simpa using hempty, b, hb, rfl⟩, hsign _⟩

lemma product_fused {e : Expr} {fs : List Expr} {t : String} (hf : factors? e = some fs) (hitems : ∀ f ∈ fs, Item f)
    (h : ofProduct o latex fs = .ok t) : Fused t.toList ↔ Fuses o e := by
  obtain ⟨r, a, body, hrows, ha, hbody, ht⟩ := ofProduct_ok h
  obtain ⟨habove, hbelow⟩ := (rows_items hitems).value hrows
  have hsigned : Fused t.toList ↔ Fused body.toList := by
    rcases ht with rfl | rfl
    · exact Iff.rfl
    · exact fused_minus body
  rw [hsigned, fuses_rows hf hrows, ← join_fused T habove ha]
  rcases hbody with ⟨hnone, rfl⟩ | ⟨-, b, hb, rfl⟩
  · simp [hnone, not_rowFuses_of_short]
  · rw [fused_fraction, join_fused T hbelow hb]

omit T in
lemma framed_reciprocal {b x : Expr} {t : String} (hx : x.isNegativeNumber = true)
    (h : ofProduct o latex [.power b x] = .ok t) : Framed t.toList := by
  obtain ⟨r, a, body, hrows, -, hbody, ht⟩ := ofProduct_ok h
  have hsome := (rows_reciprocal hx).value hrows
  rcases hbody with ⟨hnone, -⟩ | ⟨-, b, -, rfl⟩
  · exact absurd hnone hsome
  · rcases ht with rfl | rfl
    · exact framed_fraction a b
    · exact framed_minus_fraction a b

/-! ### Powers -/

omit T in
lemma sqrt_ok {b x : Expr} {t : String} (hx : x.isNegativeNumber = false) (hhalf : x.isHalf = true)
    (h : ofPower o latex b x = .ok t) : ∃ s, latex b = .ok s ∧ t = "\\sqrt" ++ braced s := by
  simp only [ofPower, hx, hhalf, Bool.false_eq_true, if_false, if_true] at h
  obtain ⟨s, hs, h⟩ := bind_ok h
  cases h
  exact ⟨s, hs, rfl⟩

omit T in
lemma ofPower_ok {b x : Expr} {t : String} (hx : x.isNegativeNumber = false) (hhalf : x.isHalf = false)
    (h : ofPower o latex b x = .ok t) : ∃ w, latex x = .ok w ∧
      ((∃ f a s, b = .call f a ∧ latex a = .ok s ∧
          t = ofFunc f ++ "^" ++ braced w ++ braced ("\\left(" ++ s ++ " \\right)")) ∨
        ∃ s, latex b = .ok s ∧
          (IsBareBase b ∧ t = s ++ "^" ++ braced w ∨ ¬ IsBareBase b ∧ t = bracketed s ++ "^" ++ braced w)) := by
  simp only [ofPower, hx, hhalf, Bool.false_eq_true, if_false] at h
  obtain ⟨w, hw, h⟩ := bind_ok h
  refine ⟨w, hw, ?_⟩
  cases b with
  | symbol | constant =>
    obtain ⟨s, hs, h⟩ := bind_ok h
    cases h
    exact .inr ⟨s, hs, .inl ⟨trivial, rfl⟩⟩
  | call f a =>
    dsimp only at h
    split at h
    · obtain ⟨s, hs, h⟩ := bind_ok h
      cases h
      exact .inr ⟨s, hs, .inr ⟨nofun, rfl⟩⟩
    · obtain ⟨s, hs, h⟩ := bind_ok h
      cases h
      exact .inl ⟨f, a, s, rfl, hs, rfl⟩
  | plus | times | power =>
    obtain ⟨s, hs, h⟩ := bind_ok h
    cases h
    exact .inr ⟨s, hs, .inr ⟨nofun, rfl⟩⟩
  | num n =>
    obtain ⟨s, hs, h⟩ := bind_ok h
    refine .inr ⟨s, hs, ?_⟩
    have hbare : ((Expr.num n).integer?.isSome && !(Expr.num n).isNegativeTerm) = true ↔ IsBareBase (.num n) := by
      cases n with
      | exact q => by_cases hq : q.den = 1 <;>
          simp [Expr.integer?, Number.toInt?, Expr.isNegativeTerm, Number.isNegative, IsBareBase, IsWhole, hq]
      | approx v => simp [Expr.integer?, Number.toInt?, IsBareBase, IsWhole]
    split at h
    · next hb =>
      cases h
      exact .inl ⟨hbare.mp hb, rfl⟩
    · next hb =>
      cases h
      exact .inr ⟨fun hb' => hb (hbare.mpr hb'), rfl⟩

lemma power_fused {b x : Expr} {t : String} (hnodes : Everywhere SetNode (.power b x))
    (h : ofPower o latex b x = .ok t) : Fused t.toList ↔ Fuses o (.power b x) := by
  obtain ⟨-, hb, hxn⟩ := (everywhere_power b x).mp hnodes
  cases hx : x.isNegativeNumber with
  | true =>
    rw [ofPower, if_pos hx] at h
    exact product_fused T (by simp [factors?, hx]) (by simpa using Item.mk hnodes nofun) h
  | false =>
    rw [fuses_power hx]
    cases hhalf : x.isHalf with
    | true =>
      obtain ⟨s, hs, rfl⟩ := sqrt_ok hx hhalf h
      rw [fused_sqrt, T.fused b s hb hs]
      simp
    | false =>
      obtain ⟨w, hw, ⟨f, a, s, rfl, hs, rfl⟩ | ⟨s, hs, ⟨-, rfl⟩ | ⟨-, rfl⟩⟩⟩ := ofPower_ok hx hhalf h
      · rw [fused_raisedCall, T.fused x w hxn hw, T.fused a s hb.2 hs, fuses_call]
        tauto
      · rw [fused_raised, T.fused x w hxn hw, T.fused b s hb hs]
        tauto
      · rw [fused_raised, fused_bracketed, T.fused x w hxn hw, T.fused b s hb hs]
        tauto

omit T in
lemma raised_ends (a b : String) : (a ++ "^" ++ braced b).toList ≠ [] ∧ ¬ EndsInDigit (a ++ "^" ++ braced b).toList := by
  simp [braced, isDigit]

omit T in
lemma startsWithDigit_raised {a : String} (ha : a.toList ≠ []) (b : String) :
    StartsWithDigit (a ++ "^" ++ braced b).toList ↔ StartsWithDigit a.toList := by
  simp [startsWithDigit_append ha]

lemma power_edges {b x : Expr} {t : String} (hnodes : Everywhere SetNode (.power b x))
    (h : ofPower o latex b x = .ok t) : Edges (.power b x) t.toList := by
  obtain ⟨-, hb, hxn⟩ := (everywhere_power b x).mp hnodes
  cases hx : x.isNegativeNumber with
  | true =>
    rw [ofPower, if_pos hx] at h
    exact (framed_reciprocal hx h).edges id (by simp [OpensWithDigit, hx])
  | false =>
    cases hhalf : x.isHalf with
    | true =>
      obtain ⟨s, hs, rfl⟩ := sqrt_ok hx hhalf h
      exact (framed_sqrt s).edges id (by simp [OpensWithDigit, hhalf])
    | false =>
      have hopens : OpensWithDigit (.power b x) ↔ b.IsWhole := by simp [OpensWithDigit, hx, hhalf]
      obtain ⟨w, hw, ⟨f, a, s, rfl, hs, rfl⟩ | ⟨s, hs, ⟨hbare, rfl⟩ | ⟨hbare, rfl⟩⟩⟩ := ofPower_ok hx hhalf h
      · exact (framed_raisedCall f s w).edges id hopens.mp
      · obtain ⟨hne, hend⟩ := raised_ends s w
        have hbase := T.edges b s ⟨hb, hbare.flat⟩ hbare.unsummed hs
        refine ⟨hne, iff_of_false hend id, ?_⟩
        rw [startsWithDigit_raised hbase.ne_nil, hbase.starts, hopens, hbare.opens]
      · obtain ⟨hne, hend⟩ := raised_ends (bracketed s) w
        have hbase := framed_bracketed s
        refine ⟨hne, iff_of_false hend id, ?_⟩
        rw [startsWithDigit_raised hbase.ne_nil, hopens]
        exact iff_of_false hbase.starts fun hwhole => hbare (isBareBase_of_isWhole hwhole)

/-! ### Sums -/

lemma restTerm_fused {e : Expr} {t : String} (he : Everywhere SetNode e) (h : restTerm o latex e = .ok t) (v : List Char) :
    Fused (v ++ t.toList) ↔ Fused v ∨ RestFuses o e := by
  unfold restTerm at h
  split at h
  · next hneg =>
    obtain ⟨u, hu, h⟩ := bind_ok h
    obtain ⟨s, hs, h⟩ := bind_ok h
    cases h
    have hu' := Formula.lift_eq_ok hu
    have hnodes := (setNode_readingLaw.toNodeLaw.kept.neg he).value hu'
    rw [fused_term (.inl rfl), T.fused u s hnodes hs]
    simp [RestFuses, hneg, hu']
  · next hneg =>
    obtain ⟨s, hs, h⟩ := bind_ok h
    cases h
    rw [fused_term (.inr rfl), T.fused e s he hs]
    simp [RestFuses, hneg]

lemma restTerms_fused {es : List Expr} {ts : List String} (hes : ∀ e ∈ es, Everywhere SetNode e)
    (h : List.Forall₂ (fun e t => restTerm o latex e = .ok t) es ts) (v : List Char) :
    Fused (v ++ (String.join ts).toList) ↔ Fused v ∨ ∃ e ∈ es, RestFuses o e := by
  induction h generalizing v with
  | nil => simp
  | @cons e t es ts he _ ih =>
    rw [List.forall_mem_cons] at hes
    have hcut : v ++ (String.join (t :: ts)).toList = v ++ t.toList ++ (String.join ts).toList := by simp
    rw [hcut, ih hes.2, restTerm_fused T hes.1 he, List.exists_mem_cons_iff, or_assoc]

lemma sum_fused {ts : List Expr} {t : String} (hts : ∀ t ∈ ts, Everywhere SetNode t)
    (h : step o latex (.plus ts) = .ok t) : Fused t.toList ↔ Fuses o (.plus ts) := by
  cases ts with
  | nil =>
    cases h
    exact iff_of_false not_fused_nil not_fuses_empty
  | cons e es =>
    rw [List.forall_mem_cons] at hts
    obtain ⟨s, hs, h⟩ := bind_ok h
    obtain ⟨rest, hrest, h⟩ := bind_ok h
    cases h
    rw [String.toList_append, restTerms_fused T hts.2 (forall₂_of_mapM hrest), T.fused e s hts.1 hs, fuses_plus]

/-! ### Expressions -/

lemma typesets_step : Typesets o (step o latex) where
  number n t h := h
  fused e t he h := by
    cases e with
    | num n => exact iff_of_false (edges_num h).2 not_fuses_num
    | symbol name =>
      cases h
      exact iff_of_false (edges_symbol he).2 not_fuses_symbol
    | constant c =>
      refine iff_of_false (not_fused_of_unspaced ?_) not_fuses_constant
      cases c <;> cases h <;> decide
    | plus ts => exact sum_fused T ((everywhere_plus ts).mp he).2 h
    | times fs =>
      obtain ⟨hshape, hall⟩ := (everywhere_times fs).mp he
      exact product_fused T rfl (fun f hf => ⟨hall f hf, hshape.flat f hf⟩) h
    | power b x => exact power_fused T he h
    | call f a =>
      obtain ⟨s, hs, h⟩ := bind_ok h
      cases h
      rw [fused_ofCall, T.fused a s he.2 hs, fuses_call]
  edges e t he hplus h := by
    cases e with
    | num n => exact (edges_num h).1
    | symbol name =>
      cases h
      exact (edges_symbol he.nodes).1
    | constant c =>
      cases c <;> cases h
      · exact Framed.edges ⟨by decide, by decide, by decide⟩ id id
      · exact Framed.edges ⟨by decide, by decide, by decide⟩ id id
    | plus ts => exact absurd rfl (hplus ts)
    | times fs => exact absurd rfl (he.flat fs)
    | power b x => exact power_edges T he.nodes h
    | call f a =>
      obtain ⟨s, hs, h⟩ := bind_ok h
      cases h
      exact (framed_ofCall f s).edges id id

end Rows

lemma typesets_at (n : Nat) : Typesets o (Expr.latexAt o n) := by
  induction n with
  | zero => exact ⟨nofun, nofun, nofun⟩
  | succ n ih => exact typesets_step ih

/-- In the text set for a formula that is read, a digit, a blank and a digit follow each other exactly where in a row of
factors one that ends in a digit stands before one that starts with a digit. -/
theorem latex_fused_iff {text s : String} {e : Expr} (he : Formula.read o text = .ok e) (hs : e.latex o = .ok s) :
    Fused s.toList ↔ Fuses o e :=
  (typesets_at _).fused e s (Formula.read_nodes setNode_readingLaw text e he) hs

/-- Twice a power of three looks like a power of twenty-three. -/
theorem latex_fused_iff_power : ∃ e, Formula.read .approximate "2*3**x" = .ok e ∧
    Validation.checkExpression 500 "2*3**x" = .ok () ∧ e.latex .approximate = .ok "2 3^\x7bx\x7d" ∧
    Fused "2 3^\x7bx\x7d".toList ∧ Fuses .approximate e := by
  let e := Expr.times [.num (.ofInt 2), .power (.num (.ofInt 3)) (.symbol "x")]
  have hread : Formula.read .approximate "2*3**x" = .ok e := by cbv
  have hlatex : e.latex .approximate = .ok "2 3^\x7bx\x7d" := by cbv
  have hfused : Fused "2 3^\x7bx\x7d".toList := ⟨'2', '3', by decide, by decide, [], "^\x7bx\x7d".toList, by decide⟩
  have hcheck : Validation.checkExpression 500 "2*3**x" = .ok () :=
    Validation.checkExpression_iff.mpr ⟨by decide, by decide, by decide⟩
  exact ⟨e, hread, hcheck, hlatex, hfused, (latex_fused_iff hread hlatex).mp hfused⟩

end Latex

end PlaneCalculus
