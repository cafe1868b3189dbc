import PlaneCalculus.Expr.Substitution
import PlaneCalculus.Proofs.Expr.Monomial
import PlaneCalculus.Proofs.Expr.RationalArithmetic
import PlaneCalculus.Proofs.Expr.Shape
import PlaneCalculus.Proofs.Expr.Symbols

/-! Replacing a symbol by an expression of the same value keeps the value. When the last symbol is replaced by a number,
everything folds to a number. -/

namespace PlaneCalculus.Expr

open Calc

mutual

lemma substitute_consistent (v : String) (t : Expr) : (e : Expr) → Consistent (substitute · e v t)
  | .num _ | .constant _ | .symbol _ => by
    simp only [substitute]
    exact .pure _
  | .plus ts => by
    simp only [substitute]
    exact (substituteAll_consistent v t ts).bind fun _ => sum_consistent _
  | .times fs => by
    simp only [substitute]
    exact (substituteAll_consistent v t fs).bind fun _ => product_consistent _
  | .power b e => by
    simp only [substitute]
    exact (substitute_consistent v t b).bind fun _ => (substitute_consistent v t e).bind fun _ => pow_consistent _ _
  | .call _ a => by
    simp only [substitute]
    exact (substitute_consistent v t a).bind fun _ => .pure _

lemma substituteAll_consistent (v : String) (t : Expr) : (es : List Expr) → Consistent (substituteAll · es v t)
  | [] => .pure _
  | e :: es => by
    simp only [substituteAll]
    exact (substitute_consistent v t e).bind fun _ => (substituteAll_consistent v t es).bind fun _ => .pure _

end

/-! ### Values -/

section Value

variable {R : Type} [CommRing R] [Algebra ℚ R] [Inv R] {ρ : String → R} {v : String} {t : Expr}

mutual

lemma substitute_value [HasInverses R] (ht : HasValue ρ t (ρ v)) : (e : Expr) → Defined ρ e →
    Meets anyHalt (substitute .refuse e v t) (HasValue ρ · (value ρ e))
  | .num _, h => ⟨h, rfl⟩
  | .symbol s, h => by
    by_cases hs : s = v
    · simpa [substitute, hs] using ht
    · simp [substitute, hs, HasValue]
  | .plus ts, h => by
    simp only [substitute]
    refine (substituteAll_value ht ts h).bind fun us hus => ?_
    obtain ⟨hd, hv⟩ := values_of_operands hus
    rw [value_plus, ← hv]
    exact sum_value hd
  | .times fs, h => by
    simp only [substitute]
    refine (substituteAll_value ht fs h).bind fun gs hgs => ?_
    obtain ⟨hd, hv⟩ := values_of_operands hgs
    rw [value_times, ← hv]
    exact product_value hd
  | .power b e, h => by
    obtain ⟨k, rfl⟩ := exists_int_of_defined_power ρ h
    obtain ⟨hb, hk⟩ := (defined_power ρ b k).mp h
    simp only [substitute]
    refine (substitute_value ht b hb).bind fun c ⟨hc, hv⟩ => ?_
    rw [value_power, ← hv]
    exact pow_value hc (hv ▸ hk)

lemma substituteAll_value [HasInverses R] (ht : HasValue ρ t (ρ v)) : (es : List Expr) → AllDefined ρ es →
    Meets anyHalt (substituteAll .refuse es v t) (List.Forall₂ (fun e f => HasValue ρ f (value ρ e)) es)
  | [], _ => List.Forall₂.nil
  | e :: es, h => by
    simp only [substituteAll]
    exact (substitute_value ht e h.1).bind fun f hf => (substituteAll_value ht es h.2).bind fun fs hfs => .cons hf hfs

end

end Value

/-! ### Symbols -/

/-- Nodes of well-shaped expressions in the given symbols. -/
def NodeOver (S : String → Prop) : Expr → Prop
  | .symbol s => S s
  | e => ShapedNode e

lemma nodeOver_nodeLaw (S : String → Prop) : NodeLaw (NodeOver S) where
  real := shaped_nodeLaw.real
  parts := shaped_nodeLaw.parts
  abs := shaped_nodeLaw.abs
  constant := shaped_nodeLaw.constant
  call := shaped_nodeLaw.call
  plus := shaped_nodeLaw.plus
  times := shaped_nodeLaw.times
  shape := shaped_nodeLaw.shape
  power := shaped_nodeLaw.power

variable {o : Overflow} {S : String → Prop} {v : String} {t : Expr}

lemma occurrences_over (e : Expr) (h : Everywhere (NodeOver S) e) : ∀ s ∈ e.occurrences, S s := by
  refine (everywhere_symbolNode e).mp (Everywhere.mono (fun n hn => ?_) e h)
  cases n with
  | symbol s => exact hn
  | num | constant | plus | times | power | call => trivial

lemma substitute_over (ht : Everywhere (NodeOver S) t) (e : Expr) (h : ∀ s ∈ e.occurrences, s = v ∨ S s) :
    Meets anyHalt (substitute o e v t) (Everywhere (NodeOver S)) := by
  refine substitute_kept (nodeOver_nodeLaw S).kept ht e (Everywhere.mono (fun n hn => ?_) e ((everywhere_symbolNode e).mpr h))
  cases n with
  | symbol s => exact hn
  | num | constant | plus | times | power | call => trivial

/-! ### The last symbol -/

lemma sum_numbers {args : List Expr} (h : ∀ e ∈ args, e.isNumber = true) :
    Meets anyHalt (Expr.sum o args) (·.isNumber = true) := (keepsMonomials_at o _).sum_numbers args h

lemma product_numbers {args : List Expr} (h : ∀ e ∈ args, e.isNumber = true) :
    Meets anyHalt (Expr.product o args) (·.isNumber = true) := (keepsMonomials_at o _).product_numbers args h

lemma pow_number {b : Expr} {k : Int} (hb : b.isNumber = true) (hk : b ≠ int 0 ∨ 0 ≤ k) :
    Meets anyHalt (Expr.pow o b (int k)) (·.isNumber = true) := by
  obtain ⟨n, rfl⟩ := exists_num_of_isNumber hb
  exact powerStep_number (hk.imp_left fun hb hn => hb (congrArg num hn))

section Last

variable {ρ : String → ℚ}

mutual

/-- An expression in no other symbol than the one that is replaced becomes a number. -/
lemma substitute_number (ht : HasValue ρ t (ρ v)) (hn : t.isNumber = true) : (e : Expr) → Defined ρ e →
    (∀ s ∈ e.occurrences, s = v) → Meets anyHalt (substitute .refuse e v t) (·.isNumber = true)
  | .num _, _, _ => by
    rw [substitute]
    rfl
  | .symbol s, _, h => by
    simpa [substitute, h s (List.mem_singleton_self s)] using hn
  | .plus ts, hd, h => by
    simp only [substitute]
    exact (substituteAll_number ht hn ts hd h).bind fun us hus => sum_numbers hus
  | .times fs, hd, h => by
    simp only [substitute]
    exact (substituteAll_number ht hn fs hd h).bind fun gs hgs => product_numbers hgs
  | .power b e, hd, h => by
    obtain ⟨k, rfl⟩ := exists_int_of_defined_power ρ hd
    obtain ⟨hb, hk⟩ := (defined_power ρ b k).mp hd
    simp only [substitute]
    refine ((substitute_value ht b hb).and (substitute_number ht hn b hb fun s hs => ?_)).bind fun c ⟨hc, hnum⟩ => ?_
    · exact h s (List.mem_append_left _ hs)
    · refine pow_number hnum ((raisable_rat.mp hk).imp_left ?_)
      rintro hne rfl
      exact hne (hc.2.symm.trans (by simp))

lemma substituteAll_number (ht : HasValue ρ t (ρ v)) (hn : t.isNumber = true) : (es : List Expr) → AllDefined ρ es →
    (∀ s ∈ occurrencesAll es, s = v) →
    Meets anyHalt (substituteAll .refuse es v t) fun fs => ∀ f ∈ fs, f.isNumber = true
  | [], _, _ => by simp [substituteAll]
  | e :: es, hd, h => by
    obtain ⟨he, hes⟩ := List.forall_mem_append.mp h
    simp only [substituteAll]
    refine (substitute_number ht hn e hd.1 he).bind fun f hf => ?_
    exact (substituteAll_number ht hn es hd.2 hes).bind fun fs hfs => List.forall_mem_cons.mpr ⟨hf, hfs⟩

end

lemma eq_exact_of_number {e : Expr} {q : ℚ} (hn : e.isNumber = true) (h : HasValue ρ e q) : e = .num (.exact q) := by
  obtain ⟨n, rfl⟩ := exists_num_of_isNumber hn
  obtain ⟨p, rfl⟩ := Number.exists_exact h.1
  exact congrArg (fun q => Expr.num (.exact q)) h.2

end Last

end PlaneCalculus.Expr
