import PlaneCalculus.Proofs.Calculus.Kept
import PlaneCalculus.Proofs.Expr.Expansion
import PlaneCalculus.Proofs.Expr.Symbols
import PlaneCalculus.Proofs.Expr.Substitution

/-! No operation brings in a symbol. What is built, multiplied out, substituted, differentiated and integrated has no other
free symbols than the operands, the symbol of integration apart, and a symbol that is replaced is gone. -/

namespace PlaneCalculus.Expr

open Calc

/-- The free symbols of an expression that stay when a symbol is replaced. -/
def otherSymbols (v : String) (e : Expr) : List String := e.freeSymbols.filter (· ≠ v)

lemma symbolsIn_iff {S : String → Prop} {e : Expr} : SymbolsIn S e ↔ ∀ s ∈ e.freeSymbols, S s := by
  simp [everywhere_symbolNode, mem_freeSymbols]

lemma symbolsIn_of_subset {e : Expr} {l : List String} (h : e.freeSymbols ⊆ l) : SymbolsIn (· ∈ l) e :=
  symbolsIn_iff.mpr h

lemma symbolsIn_operands (args : List Expr) : ∀ e ∈ args, SymbolsIn (· ∈ args.flatMap freeSymbols) e :=
  fun _ he => symbolsIn_of_subset fun _ hs => List.mem_flatMap.mpr ⟨_, he, hs⟩

lemma symbolsIn_replaced {v : String} {e : Expr} {l : List String} (h : e.otherSymbols v ⊆ l) :
    SymbolsIn (fun s => s = v ∨ s ∈ l) e := by
  refine symbolsIn_iff.mpr fun s hs => or_iff_not_imp_left.mpr fun hv => h ?_
  simpa [otherSymbols] using ⟨hs, hv⟩

variable {o : Overflow} {S : String → Prop} {v : String}

lemma substitute_symbols {e t : Expr} (he : SymbolsIn (fun s => s = v ∨ S s) e) (ht : SymbolsIn S t) :
    Meets anyHalt (substitute o e v t) (SymbolsIn S) := by
  refine substitute_kept symbols_kept ht e (Everywhere.mono (fun n hn => ?_) e he)
  cases n with
  | symbol x => exact hn
  | num | constant | plus | times | power | call => trivial

lemma definiteIntegral_symbols {e lo hi : Expr} (he : SymbolsIn (fun s => s = v ∨ S s) e) (hlo : SymbolsIn S lo)
    (hhi : SymbolsIn S hi) :
    Meets anyHalt (definiteIntegral o v e lo hi) fun r => ∀ a, r = some a → SymbolsIn S a := by
  have hv : SymbolsIn (fun s => s = v ∨ S s) (.symbol v) := Or.inl rfl
  refine (antiderivative_kept symbols_kept hv he).bind fun r hr => ?_
  cases r with
  | none => nofun
  | some anti =>
    refine (substitute_symbols (hr anti rfl) hhi).bind fun upper hu => ?_
    refine (substitute_symbols (hr anti rfl) hlo).bind fun lower hl => ?_
    refine (symbols_kept.sub hu hl).bind fun result hresult => ?_
    rw [meets_pure]
    split
    · nofun
    · rintro a ⟨⟩
      exact hresult

/-- No operation invents or leaks a symbol. In particular, an integral between limits in which the symbol of integration
is not free is free of it. -/
theorem operations_freeSymbols (o : Overflow) (args : List Expr) (e t lo hi : Expr) (f : Func) (v : String) :
    Meets (refusal o) (Expr.sum o args) (·.freeSymbols ⊆ args.flatMap freeSymbols) ∧
    Meets (refusal o) (Expr.product o args) (·.freeSymbols ⊆ args.flatMap freeSymbols) ∧
    Meets (refusal o) (pow o e t) (·.freeSymbols ⊆ e.freeSymbols ++ t.freeSymbols) ∧
    (f.of e).freeSymbols ⊆ e.freeSymbols ∧
    Meets (refusal o) (substitute o e v t) (·.freeSymbols ⊆ e.otherSymbols v ++ t.freeSymbols) ∧
    Meets (refusal o) (expand o e) (·.freeSymbols ⊆ e.freeSymbols) ∧
    Meets (refusal o) (derivative o v e) (·.freeSymbols ⊆ e.freeSymbols) ∧
    Meets anyHalt (antiderivative o v e) (fun r => ∀ a, r = some a → a.freeSymbols ⊆ v :: e.freeSymbols) ∧
    Meets anyHalt (definiteIntegral o v e lo hi) (fun r => ∀ a, r = some a →
      a.freeSymbols ⊆ e.otherSymbols v ++ (lo.freeSymbols ++ hi.freeSymbols) ∧
      (v ∉ lo.freeSymbols ++ hi.freeSymbols → v ∉ a.freeSymbols)) := by
  have hself : SymbolsIn (· ∈ e.freeSymbols) e := symbolsIn_of_subset (List.Subset.refl _)
  have hleft (l : List String) : SymbolsIn (· ∈ e.freeSymbols ++ l) e := symbolsIn_of_subset (List.subset_append_left _ _)
  have hright (l : List String) : SymbolsIn (· ∈ l ++ t.freeSymbols) t := symbolsIn_of_subset (List.subset_append_right _ _)
  have hreplaced (l : List String) : SymbolsIn (fun s => s = v ∨ s ∈ e.otherSymbols v ++ l) e :=
    symbolsIn_replaced (List.subset_append_left _ _)
  have hv : SymbolsIn (· ∈ v :: e.freeSymbols) (.symbol v) := List.mem_cons_self
  refine ⟨?_, ?_, ?_, ?_, ?_, ?_, ?_, ?_, ?_⟩
  · exact ((sum_consistent args).ends o).within ((symbols_kept.sum (symbolsIn_operands args)).mono fun _ => symbolsIn_iff.mp)
  · exact ((product_consistent args).ends o).within
      ((symbols_kept.product (symbolsIn_operands args)).mono fun _ => symbolsIn_iff.mp)
  · exact ((pow_consistent e t).ends o).within ((symbols_kept.pow (hleft _) (hright _)).mono fun _ => symbolsIn_iff.mp)
  · exact symbolsIn_iff.mp (of_symbols f hself)
  · exact ((substitute_consistent v t e).ends o).within
      ((substitute_symbols (hreplaced _) (hright _)).mono fun _ => symbolsIn_iff.mp)
  · exact ((expand_consistent e).ends o).within ((expand_kept symbols_kept e hself).mono fun _ => symbolsIn_iff.mp)
  · exact ((derivative_consistent v e).ends o).within ((derivative_kept symbols_kept e hself).mono fun _ => symbolsIn_iff.mp)
  · have he : SymbolsIn (· ∈ v :: e.freeSymbols) e := symbolsIn_of_subset (List.subset_cons_self v _)
    exact (antiderivative_kept symbols_kept hv he).mono fun r hr a ha => symbolsIn_iff.mp (hr a ha)
  · have hlo : SymbolsIn (· ∈ e.otherSymbols v ++ (lo.freeSymbols ++ hi.freeSymbols)) lo :=
      symbolsIn_of_subset fun s hs => by simp [hs]
    have hhi : SymbolsIn (· ∈ e.otherSymbols v ++ (lo.freeSymbols ++ hi.freeSymbols)) hi :=
      symbolsIn_of_subset fun s hs => by simp [hs]
    refine (definiteIntegral_symbols (hreplaced _) hlo hhi).mono fun r hr a ha => ?_
    have hsub := symbolsIn_iff.mp (hr a ha)
    refine ⟨hsub, fun hlimits hmem => ?_⟩
    rcases List.mem_append.mp (hsub v hmem) with h | h
    · simp [otherSymbols] at h
    · exact hlimits h

end PlaneCalculus.Expr
