import PlaneCalculus.Proofs.Calculus.NormalDerivative
import PlaneCalculus.Proofs.Expr.Collecting
import PlaneCalculus.Proofs.Expr.Rebuilding

/-! Polynomials to which a symbol times a sum is added. The product is not multiplied out, yet the derivative is in normal
form where the sum has a number for its derivative. -/

namespace PlaneCalculus.Expr

open Calc
open MvPolynomial (X C pderiv)

-- Where the exact range ends does not matter here.
attribute [local irreducible] Number.fits

variable {sum product : List Expr → Calc Expr} {pow : Expr → Expr → Calc Expr} {text : Expr → Calc String}

/-! ### Terms of sums -/

/-- A property of single terms that is kept when like terms are collected; the rests may have another property. -/
structure KeepsTerm (product : List Expr → Calc Expr) (T R : Expr → Prop) : Prop where
  exact : ∀ n, n.isExact = true → T (.num n)
  number : ∀ n, T (.num n) → n.isExact = true
  coeffRest : ∀ t, T t → t.isNumber = false → R t.coeffRest.2 ∧ ∃ q, t.coeffRest.1 = .exact q
  scaled : ∀ q ≠ 0, ∀ r, R r → Meets anyHalt (product [.num (.exact q), r]) T
  terms : ∀ t, T t → t.terms = [t]

lemma KeepsTerm.multiple {T R : Expr → Prop} (K : KeepsTerm product T R) {t : Expr} (h : T t) : IsMultipleOf R t := by
  cases hn : t.isNumber with
  | true =>
    obtain ⟨n, rfl⟩ := exists_num_of_isNumber hn
    obtain ⟨q, rfl⟩ := Number.exists_exact (K.number n h)
    exact Or.inl ⟨q, rfl⟩
  | false =>
    obtain ⟨hr, hc⟩ := K.coeffRest t h hn
    exact Or.inr ⟨hn, hc, hr⟩

lemma collapse_terms {T : Expr → Prop} (hzero : T (int 0)) (hterms : ∀ t, T t → t.terms = [t]) {es : List Expr}
    (h : ∀ t ∈ es, T t) : ∀ t ∈ (collapse 0 .plus es).terms, T t := by
  rcases es with _ | ⟨e, _ | ⟨f, es⟩⟩
  · exact List.forall_mem_singleton.mpr hzero
  · have he := h e List.mem_cons_self
    rw [collapse, hterms e he]
    exact List.forall_mem_singleton.mpr he
  · exact h

/-- A sum of terms with a property that is kept has only such terms. -/
lemma sumStep_terms {T R : Expr → Prop} (K : KeepsTerm product T R) {args : List Expr}
    (h : ∀ t ∈ args.flatMap terms, T t) :
    Meets anyHalt (sumStep .refuse product text args) fun e => ∀ t ∈ e.terms, T t := by
  refine (sumStep_scaled (fun t ht => K.multiple (h t ht)) K.scaled).mono ?_
  rintro e ⟨us, n, hus, hn, rfl⟩
  refine collapse_terms (K.exact _ rfl) K.terms ?_
  split
  · exact List.forall_mem_append.mpr ⟨hus, List.forall_mem_singleton.mpr (K.exact n hn)⟩
  · exact hus

/-! ### A symbol times a sum -/

/-- The symbol and the sum, in either order. -/
def IsPair (s : String) (ts fs : List Expr) : Prop := fs = [.symbol s, .plus ts] ∨ fs = [.plus ts, .symbol s]

/-- A multiple of the product of a symbol and a sum. -/
def IsMultiple (s : String) (ts : List Expr) (e : Expr) : Prop :=
  ∃ fs, IsPair s ts fs ∧ (e = .times fs ∨ ∃ q, e = .times (.num (.exact q) :: fs))

variable {s v : String} {ts fs : List Expr}

namespace IsPair

lemma of_perm (h : fs.Perm [.symbol s, .plus ts]) : IsPair s ts fs := by
  obtain ⟨a, b, rfl⟩ := List.length_eq_two.mp h.length_eq
  rcases List.mem_cons.mp (h.mem_iff.mp List.mem_cons_self) with rfl | ha
  · exact Or.inl (congrArg _ (List.perm_singleton.mp (List.perm_cons _ |>.mp h)))
  · obtain rfl := List.mem_singleton.mp ha
    exact Or.inr (congrArg _ (List.perm_singleton.mp (List.perm_cons _ |>.mp (h.trans (.swap _ _ _)))))

lemma perm (h : IsPair s ts fs) : fs.Perm [.symbol s, .plus ts] := by
  rcases h with rfl | rfl
  · exact .refl _
  · exact .swap _ _ _

lemma distinct (h : IsPair s ts fs) : DistinctFactors fs := by
  rcases h with rfl | rfl
  · exact ⟨by simp [isNumber], by simp, by simp [isExponential], List.pairwise_pair.mpr rfl⟩
  · exact ⟨by simp [isNumber], by simp, by simp [isExponential], List.pairwise_pair.mpr rfl⟩

lemma baseExponent (h : IsPair s ts fs) : ∀ f ∈ fs, f.baseExponent = (f, int 1) := by
  rcases h with rfl | rfl <;> simp [Expr.baseExponent]

end IsPair

lemma IsMultiple.terms_eq {e : Expr} (h : IsMultiple s ts e) : e.terms = [e] := by
  obtain ⟨fs, -, rfl | ⟨q, rfl⟩⟩ := h <;> rfl

lemma IsMultiple.coeffRest {e : Expr} (h : IsMultiple s ts e) :
    (∃ fs, IsPair s ts fs ∧ e.coeffRest.2 = .times fs) ∧ ∃ q, e.coeffRest.1 = .exact q := by
  obtain ⟨fs, hfs, rfl | ⟨q, rfl⟩⟩ := h
  · refine ⟨⟨fs, hfs, ?_⟩, 1, ?_⟩ <;> rcases hfs with rfl | rfl <;> rfl
  · refine ⟨⟨fs, hfs, ?_⟩, q, ?_⟩ <;> rcases hfs with rfl | rfl <;> rfl

lemma powerAt_one (o : Overflow) (n : ℕ) (b : Expr) : Meets anyHalt (powerAt o n b (int 1)) (· = b) := by
  cases n with
  | zero => trivial
  | succ n => exact (rfl : b = b)

/-- The factors of a pair are left as they are, whatever numbers they are multiplied by. -/
lemma productAt_pair (h : IsPair s ts fs) {args : List Expr} (hargs : nonNumbers (args.flatMap factors) = fs)
    (hd : ∀ e ∈ args, Defined (X : String → MvPolynomial String ℚ) e) (n : ℕ) :
    Meets anyHalt (productAt .refuse n args) fun e => IsExact e ∨ IsMultiple s ts e := by
  cases n with
  | zero => trivial
  | succ n =>
    have hpow : ∀ f ∈ fs, Meets anyHalt (powerAt .refuse n f.baseExponent.1 f.baseExponent.2) (· = f) := by
      intro f hf
      rw [h.baseExponent f hf]
      exact powerAt_one _ n f
    have hlone : ∀ us, fs ≠ [.plus us] := by rcases h with rfl | rfl <;> simp
    have hvalue := (keepsValues_at (X : String → MvPolynomial String ℚ) (n + 1)).product_value args hd
    refine (hvalue.and (productStep_distinct hargs h.distinct hpow)).mono ?_
    rintro r ⟨⟨hdefined, -⟩, c, hr, -⟩
    rcases (finishProduct_apart hlone).value hr with rfl | ⟨gs, hgs, rfl⟩
    · exact Or.inl ((Number.exists_exact hdefined).imp fun q hq => congrArg _ hq)
    · have hpair : IsPair s ts gs := .of_perm (hgs.trans h.perm)
      obtain ⟨f, g, rfl⟩ : ∃ f g, gs = [f, g] := List.length_eq_two.mp (hpair.perm.length_eq)
      refine Or.inr ⟨[f, g], hpair, ?_⟩
      unfold assembled at hdefined ⊢
      split
      · exact Or.inl rfl
      · next hone =>
        rw [if_neg hone] at hdefined
        obtain ⟨q, rfl⟩ := Number.exists_exact hdefined.1
        exact Or.inr ⟨q, rfl⟩

/-! ### Sums with multiples -/

variable (hts : ∀ t ∈ ts, Defined (X : String → MvPolynomial String ℚ) t)
include hts

lemma keepsTerm_multiples (n : ℕ) : KeepsTerm (productAt .refuse n) (fun e => IsTerm e ∨ IsMultiple s ts e) fun r =>
    (∃ l, l ≠ [] ∧ Ascending l ∧ r = monomialTree 1 l) ∨ ∃ fs, IsPair s ts fs ∧ r = .times fs where
  exact n h := Or.inl (Or.inl ((Number.exists_exact h).imp fun q hq => congrArg _ hq))
  number n := by
    rintro (h | ⟨fs, -, h | ⟨q, h⟩⟩)
    · exact h.defined
    · cases h
    · cases h
  coeffRest t h hn := by
    rcases h with (⟨q, rfl⟩ | ⟨c, l, hc, hne, hl, rfl⟩) | h
    · cases hn
    · rw [coeffRest_monomialTree c hne]
      exact ⟨Or.inl ⟨l, hne, hl, rfl⟩, c, rfl⟩
    · exact ⟨Or.inr h.coeffRest.1, h.coeffRest.2⟩
  scaled q _ r h := by
    rcases h with ⟨l, hne, hl, rfl⟩ | ⟨fs, hfs, rfl⟩
    · refine ((keepsTerms_at n).product_terms _ fun f hf => ?_).mono fun e he => Or.inl he
      have hterm : IsTerm (monomialTree 1 l) := Or.inr ⟨1, l, one_ne_zero, hne, hl, rfl⟩
      rw [List.flatMap_cons, List.flatMap_singleton] at hf
      rcases List.mem_append.mp hf with hf | hf
      · exact Or.inl ⟨q, List.mem_singleton.mp hf⟩
      · exact hterm.factors f hf
    · have hd : ∀ f ∈ fs, Defined (X : String → MvPolynomial String ℚ) f := by
        rcases hfs with rfl | rfl <;> simpa using hts
      refine (productAt_pair hfs ?_ (by simpa using hd) n).mono fun e he => he.imp_left Or.inl
      show nonNumbers (.num (.exact q) :: (fs ++ [])) = fs
      rw [List.append_nil, nonNumbers_num, nonNumbers_eq hfs.distinct.number]
  terms t h := h.elim IsTerm.terms_eq IsMultiple.terms_eq

/-- A normal form to which a symbol times a sum is added. -/
lemma sum_multiples {args : List Expr} (h : ∀ t ∈ args.flatMap terms, IsTerm t ∨ IsMultiple s ts t) :
    Meets anyHalt (Expr.sum .refuse args) fun e => ∀ t ∈ e.terms, IsTerm t ∨ IsMultiple s ts t :=
  sumStep_terms (keepsTerm_multiples hts _) h

omit hts

lemma product_symbol {g : Expr} (hg : IsNormal g) :
    Meets anyHalt (Expr.product .refuse [.symbol s, g]) fun e => ∀ t ∈ e.terms, IsTerm t ∨ ∃ ts, g = .plus ts ∧ IsMultiple s ts t := by
  have hterm (h : IsTerm g) : Meets anyHalt (Expr.product .refuse [.symbol s, g]) fun e =>
      ∀ t ∈ e.terms, IsTerm t ∨ ∃ ts, g = .plus ts ∧ IsMultiple s ts t := by
    refine (product_of_terms (by simpa using ⟨isTerm_raised (p := (s, 1)) Nat.one_pos, h⟩)).mono fun e he => ?_
    rw [he.terms_eq]
    exact List.forall_mem_singleton.mpr (Or.inl he)
  cases g with
  | plus ts =>
    refine (productAt_pair (Or.inl rfl) rfl ?_ _).mono fun e he => ?_
    · simpa using hg.defined
    · have hterms : e.terms = [e] := he.elim (fun h => IsTerm.terms_eq (Or.inl h)) IsMultiple.terms_eq
      rw [hterms]
      exact List.forall_mem_singleton.mpr (he.imp Or.inl fun h => ⟨ts, rfl, h⟩)
  | num | symbol | constant | times | power | call => exact hterm (hg.terms _ (List.mem_singleton_self _))

/-! ### Derivatives -/

lemma derivative_symbol_ne (h : s ≠ v) : derivative .refuse v (.symbol s) = .ok (int 0) := by
  simp only [derivative]
  rw [if_neg (by simpa using h)]
  rfl

lemma IsPair.derivatives (h : IsPair s ts fs) (hs : s ≠ v) (hd : Meets anyHalt (derivative .refuse v (.plus ts)) IsExact)
    {before : List Expr} (hb : ∀ e ∈ before, IsTerm e) :
    Meets anyHalt (derivatives .refuse v fs) (LeavesTerms before fs) := by
  have hothers {d : Expr} (hd : IsExact d) : ∀ e ∈ before ++ [.symbol s] ++ [d], IsTerm e := by
    have hsymbol : IsTerm (.symbol s) := isTerm_raised (p := (s, 1)) Nat.one_pos
    refine List.forall_mem_append.mpr ⟨List.forall_mem_append.mpr ⟨hb, ?_⟩, ?_⟩
    · exact List.forall_mem_singleton.mpr hsymbol
    · exact List.forall_mem_singleton.mpr (Or.inl hd)
  rcases h with rfl | rfl
  · have hrest : Meets anyHalt (Expr.derivatives .refuse v [.plus ts]) fun ds => ∃ d, IsExact d ∧ ds = [d] :=
      hd.bind fun d hd => ⟨d, hd, rfl⟩
    simp only [Expr.derivatives, derivative_symbol_ne hs] at hrest ⊢
    refine hrest.bind fun ds ⟨d, hd, hds⟩ => ?_
    subst hds
    exact ⟨Or.inl rfl, Or.inr (by simpa using hothers hd), trivial⟩
  · simp only [Expr.derivatives, derivative_symbol_ne hs]
    exact hd.bind fun d hd => ⟨Or.inr (hothers hd), Or.inl rfl, trivial⟩

lemma IsMultiple.derivative {e : Expr} (h : IsMultiple s ts e) (hs : s ≠ v)
    (hd : Meets anyHalt (derivative .refuse v (.plus ts)) IsExact) : Meets anyHalt (derivative .refuse v e) IsNormal := by
  obtain ⟨fs, hfs, rfl | ⟨q, rfl⟩⟩ := h
  · exact derivative_times (hfs.derivatives hs hd nofun)
  · refine derivative_times ?_
    have hnumber : ∀ e ∈ [.num (.exact q)], IsTerm e := List.forall_mem_singleton.mpr (Or.inl ⟨q, rfl⟩)
    exact (hfs.derivatives hs hd hnumber).bind fun ds hds => ⟨Or.inl rfl, hds⟩

lemma IsMultiple.isRing {e : Expr} (h : IsMultiple s ts e) (hring : IsRing (.plus ts)) : e.IsRing := by
  obtain ⟨fs, hfs, he⟩ := h
  have hfactors : ∀ f ∈ fs, f.IsRing := by
    have hsymbol : IsRing (.symbol s) := trivial
    rcases hfs with rfl | rfl <;> simp [hring, hsymbol]
  rcases he with rfl | ⟨q, rfl⟩
  · exact (everywhere_times fs).mpr ⟨trivial, hfactors⟩
  · exact (everywhere_times _).mpr ⟨trivial, List.forall_mem_cons.mpr ⟨rfl, hfactors⟩⟩

lemma isRing_of_terms {e : Expr} (h : ∀ t ∈ e.terms, t.IsRing) : e.IsRing := by
  cases e with
  | plus ts => exact (everywhere_plus ts).mpr ⟨trivial, h⟩
  | num | symbol | constant | times | power | call => exact h _ (List.mem_singleton_self _)

/-- A symbol times a polynomial with a number for its derivative is added to a polynomial. -/
lemma derivative_scaledSum {f g : Expr} (hf : IsNormal f) (hg : IsNormal g) :
    Meets anyHalt (do
      let m ← Expr.product .refuse [.symbol s, g]
      Expr.sum .refuse [f, m]) fun l => ∀ v ≠ s, (∃ q, pderiv v (polynomial g) = C q) →
        Meets anyHalt (derivative .refuse v l) fun d =>
          IsNormal d ∧ polynomial d = pderiv v (polynomial f + X s * polynomial g) := by
  have hfactors : ∀ e ∈ [.symbol s, g], Defined (X : String → MvPolynomial String ℚ) e := by simpa using hg.defined
  refine ((product_symbol (s := s) hg).and (product_value hfactors)).bind fun m ⟨hterms, hdefined, hm⟩ => ?_
  have hterm : ∀ t ∈ [f, m].flatMap terms, IsTerm t ∨ ∃ ts, g = .plus ts ∧ IsMultiple s ts t := by
    rw [List.flatMap_cons, List.flatMap_singleton]
    exact List.forall_mem_append.mpr ⟨fun t ht => Or.inl (hf.terms t ht), hterms⟩
  have hsum : Meets anyHalt (Expr.sum .refuse [f, m]) fun l => ∀ t ∈ l.terms, IsTerm t ∨ ∃ ts, g = .plus ts ∧ IsMultiple s ts t := by
    cases g with
    | plus ts =>
      refine (sum_multiples (s := s) (by simpa using hg.defined) fun t ht => (hterm t ht).imp_right ?_).mono
        fun l hl t ht => (hl t ht).imp_right fun h => ⟨ts, rfl, h⟩
      rintro ⟨us, hus, h⟩
      cases hus
      exact h
    | num | symbol | constant | times | power | call =>
      refine (sum_normal fun t ht => (hterm t ht).resolve_right ?_).mono fun l hl t ht => Or.inl (hl.terms t ht)
      rintro ⟨us, hus, -⟩
      cases hus
  have hsummands : ∀ e ∈ [f, m], Defined (X : String → MvPolynomial String ℚ) e := by
    simpa using ⟨hf.defined, hdefined⟩
  refine (hsum.and (sum_value hsummands)).mono fun l ⟨hl, _, hlv⟩ v hv ⟨q, hq⟩ => ?_
  have hring : l.IsRing := by
    refine isRing_of_terms fun t ht => ?_
    rcases hl t ht with h | ⟨ts, rfl, h⟩
    · exact h.isRing
    · exact h.isRing hg.isRing
  have hnormal : Meets anyHalt (derivative .refuse v l) IsNormal := by
    refine derivative_terms fun t ht => ?_
    rcases hl t ht with h | ⟨ts, rfl, h⟩
    · exact derivative_term h
    · exact h.derivative hv.symm ((derivative_normal hg).mono fun d hd => ⟨q, hd.1.eq_exact (hd.2.trans hq)⟩)
  have hpolynomial : polynomial l = polynomial f + X s * polynomial g := by
    rw [polynomial, hlv]
    simp [hm, polynomial]
  exact (hnormal.and (derivative_polynomial hring)).mono fun d hd => ⟨hd.1, hpolynomial ▸ hd.2.2⟩

end PlaneCalculus.Expr
