import PlaneCalculus.Proofs.Calculus.FirstIntegral

/-! A polynomial in two symbols, integrated over the first between two numbers. What comes out is a sum of products of powers
of polynomials in the second symbol; some may stand in a denominator, but at almost every number the value is that of the
integral. -/

namespace PlaneCalculus.Expr

open Calc Attempt Filter Polynomial

-- Where the exact range ends does not matter here.
attribute [local irreducible] Number.fits

variable {e f t F hi lo : Expr} {v w : String} {a b q : ℚ} {ts : List Expr}

/-- What is between the limits is a difference of two values of an antiderivative. -/
lemma definiteIntegral_meets {A R : Expr → Prop}
    (hA : Yields A (antiderivativeAt .refuse v (integrationDepth e.weight) e))
    (hR : ∀ F, A F → Meets anyHalt (do sub .refuse (← F.substitute .refuse v hi) (← F.substitute .refuse v lo)) R) :
    Meets anyHalt (definiteIntegral .refuse v e lo hi) fun r => ∀ D, r = some D → R D := by
  have hrun : Meets anyHalt (antiderivative .refuse v e) fun r => ∀ F, r = some F → A F := hA
  refine hrun.bind fun r hr => ?_
  cases r with
  | none => exact (nofun : ∀ D, none = some D → R D)
  | some F =>
    have hsub := hR F (hr F rfl)
    refine (meets_anyHalt_true (F.substitute .refuse v hi)).self.bind fun upper hu => ?_
    refine (meets_anyHalt_true (F.substitute .refuse v lo)).self.bind fun lower hl => ?_
    refine ((hsub.of_bind hu).of_bind hl).bind fun result hresult => ?_
    rw [meets_pure]
    split
    · nofun
    · rintro D ⟨⟩
      exact hresult

/-! ### Fractions in one symbol -/

/-- A sum of products of powers of polynomials in one symbol, with a value at almost every number. -/
structure IsFractional (w : String) (e : Expr) : Prop where
  built : IsBuilt e
  carries : TermsCarry (· = w) anySymbol [] e
  symbols : SymbolsIn (· = w) e
  defined : ∀ᶠ y : ℚ in cofinite, Defined (fun _ => y) e

/-- In no other symbol than the second one the first one makes no difference. -/
lemma value_second (hvw : v ≠ w) (h : SymbolsIn (· = w) e) (t y : ℚ) :
    value (pointAt v w t y) e = value (fun _ => y) e ∧ (Defined (pointAt v w t y) e ↔ Defined (fun _ => y) e) := by
  refine value_congr h ?_
  rintro s rfl
  simp [pointAt, hvw.symm]

lemma isBuilt_num (n : Number) : IsBuilt (.num n) := trivial

lemma substitute_built (h : IsBuilt e) (q : ℚ) : Meets anyHalt (substitute .refuse e v (.num (.exact q))) IsBuilt :=
  substitute_kept built_nodeLaw.kept (isBuilt_num _) e (everywhere_otherLeaf h)

lemma IsPlanar.built (h : IsPlanar v w e) : IsBuilt e := by
  have hterms : ∀ t ∈ e.terms, IsBuilt t := fun t ht => by
    obtain ⟨q, rfl⟩ | ht := h.summands t ht
    · exact isBuilt_num _
    · exact ht.built
  cases e with
  | plus ts => exact (everywhere_plus ts).mpr ⟨trivial, hterms⟩
  | num | symbol | constant | times | power | call => exact hterms _ (List.mem_singleton_self _)

lemma IsPlanar.symbols (h : IsPlanar v w e) : SymbolsIn (InPlane v w) e := by
  have hterms : ∀ t ∈ e.terms, SymbolsIn (InPlane v w) t := fun t ht => by
    obtain ⟨q, rfl⟩ | ht := h.summands t ht
    · exact symbolsIn_num _
    · exact ht.symbols
  cases e with
  | plus ts => exact (everywhere_plus ts).mpr ⟨trivial, hterms⟩
  | num | symbol | constant | times | power | call => exact hterms _ (List.mem_singleton_self _)

/-- What is found for a polynomial: products that are added up, or the polynomial times the symbol. -/
def IsFound (v w : String) (e F : Expr) : Prop :=
  TermsCarry (InPlane v w) anySymbol [] F ∨ ∃ ts gs, e = .plus ts ∧ IsPair v ts gs ∧ F = .times gs

lemma substitute_found (h : IsPlanar v w e) (hF : IsFound v w e F) {y : ℚ} (hd : Defined (pointAt v w q y) F) :
    Meets anyHalt (substitute .refuse F v (.num (.exact q))) (TermsCarry (· = w) anySymbol []) := by
  have hpoint : pointAt v w q y v = q := Function.update_self _ _ _
  rcases hF with hF | ⟨ts, gs, rfl, hgs, rfl⟩
  · exact substitute_termsCarry hpoint (fun _ => id) hF hd
  · have hsum := substitute_termsCarry hpoint (fun _ => id) h.termsCarry (defined_of_ring (pointAt v w q y) _ h.ring)
    have hsymbol : Meets anyHalt (substitute .refuse (.symbol v) v (.num (.exact q))) (· = .num (.exact q)) := by
      simp [substitute]
    simp only [substitute]
    rcases hgs with rfl | rfl
    · refine (substituteAll_pair hsymbol hsum).bind ?_
      rintro rs ⟨_, r, rfl, rfl, hr⟩
      exact product_scaled (.refl _) hr
    · refine (substituteAll_pair hsum hsymbol).bind ?_
      rintro rs ⟨r, _, rfl, hr, rfl⟩
      exact product_scaled (.swap _ _ _) hr

/-! ### The integral -/

/-- The value of an antiderivative at a limit. -/
structure IsUpTo (v w : String) (F : Expr) (q : ℚ) (r : Expr) : Prop where
  built : IsBuilt r
  carries : TermsCarry (· = w) anySymbol [] r
  symbols : SymbolsIn (· = w) r
  values : ∀ y : ℚ, (∀ t, Defined (pointAt v w t y) F) → HasValue (fun _ => y) r (value (pointAt v w q y) F)

lemma substitute_upTo (hvw : v ≠ w) (h : IsPlanar v w e) (hF : IsFound v w e F) (hbuilt : IsBuilt F)
    (hs : SymbolsIn (InPlane v w) F) (hint : Integrates v w e F) (q : ℚ) :
    Meets anyHalt (substitute .refuse F v (.num (.exact q))) (IsUpTo v w F q) := by
  obtain ⟨y, hy, -⟩ := hint.exists
  have hvalues : Meets anyHalt (substitute .refuse F v (.num (.exact q))) fun r =>
      ∀ y : {y : ℚ // ∀ t, Defined (pointAt v w t y) F}, HasValue (pointAt v w q y.1) r (value (pointAt v w q y.1) F) :=
    meets_forall fun y => substitute_value ⟨defined_exact _ q, by simp [pointAt]⟩ F (y.2 q)
  have hsymbols := substitute_symbols (o := .refuse) (S := (· = w)) hs (symbolsIn_num (.exact q))
  refine ((substitute_found h hF (hy q)).and ((substitute_built hbuilt q).and (hsymbols.and hvalues))).mono ?_
  rintro r ⟨hcarries, hbuilt, hsymbols, hvalues⟩
  refine ⟨hbuilt, hcarries, hsymbols, fun y hy => ?_⟩
  obtain ⟨hvalue, hdefined⟩ := value_second hvw hsymbols q y
  exact ⟨hdefined.mp (hvalues ⟨y, hy⟩).1, hvalue.symm.trans (hvalues ⟨y, hy⟩).2⟩

lemma sub_fractional {r s : Expr} {Q : ℚ[X]} (hint : Integrates v w e F) (hr : IsUpTo v w F b r) (hs : IsUpTo v w F a s)
    (hQ : ∀ y : ℚ, ∃ G, IsPrimitive (fun t => value (pointAt v w t y) e) G ∧ Q.eval y = G b - G a) :
    Meets anyHalt (Expr.sub .refuse r s) fun D =>
      IsFractional w D ∧ ∀ᶠ y : ℚ in cofinite, value (fun _ => y) D = Q.eval y := by
  have hvalues : Meets anyHalt (Expr.sub .refuse r s) fun D => ∀ y : {y : ℚ // ∀ t, Defined (pointAt v w t y) F},
      HasValue (fun _ => y.1) D (value (pointAt v w b y.1) F - value (pointAt v w a y.1) F) := by
    refine meets_forall fun y => ?_
    obtain ⟨hrd, hrv⟩ := hr.values y.1 y.2
    obtain ⟨hsd, hsv⟩ := hs.values y.1 y.2
    exact hrv ▸ hsv ▸ sub_value hrd hsd
  have hbuilt := built_nodeLaw.kept.sub (o := .refuse) hr.built hs.built
  have hsymbols := (symbols_kept (S := (· = w))).sub (o := .refuse) hr.symbols hs.symbols
  refine ((sub_termsCarry hr.carries hs.carries).and (hbuilt.and (hsymbols.and hvalues))).mono ?_
  rintro D ⟨hcarries, hbuilt, hsymbols, hvalues⟩
  refine ⟨⟨hbuilt, hcarries, hsymbols, ?_⟩, ?_⟩
  · exact hint.mono fun y hy => (hvalues ⟨y, hy.1⟩).1
  · refine hint.mono fun y ⟨hdefined, hy⟩ => ?_
    obtain ⟨G, hG, hQ⟩ := hQ y
    rw [(hvalues ⟨y, hdefined⟩).2, hQ]
    exact hy.sub_eq hG a b

/-- The integral over the first symbol is a fraction in the second that has the values of a polynomial, those of the
integral. -/
theorem definiteIntegral_first (hvw : v ≠ w) (h : IsPlanar v w e) (a b : ℚ) :
    Meets anyHalt (definiteIntegral .refuse v e (.num (.exact a)) (.num (.exact b))) fun r => ∀ D, r = some D →
      IsFractional w D ∧ ∃ Q : ℚ[X], (∀ᶠ y : ℚ in cofinite, value (fun _ => y) D = Q.eval y) ∧
        ∀ s : ℝ, ∫ t in (a : ℝ)..b, MvPolynomial.aeval (pointAt v w t s) (polynomial e) = aeval s Q := by
  obtain ⟨Q, hQ, hreal⟩ := exists_integral (polynomial e) v w a b
  have hQ (y : ℚ) : ∃ G, IsPrimitive (fun t => value (pointAt v w t y) e) G ∧ Q.eval y = G b - G a := by
    simpa only [value_of_ring _ e h.ring] using hQ y
  have hv : SymbolsIn (InPlane v w) (.symbol v) := Or.inl rfl
  have hvb : IsBuilt (.symbol v) := trivial
  have hkept := (antiderivativeAt_kept (o := .refuse) built_nodeLaw.kept hvb (integrationDepth e.weight) h.built).and
    (antiderivativeAt_kept symbols_kept hv (integrationDepth e.weight) h.symbols)
  refine definiteIntegral_meets ((planar_first _ h).and hkept) fun F ⟨⟨hF, hint⟩, hbuilt, hs⟩ => ?_
  refine (substitute_upTo hvw h hF hbuilt hs hint b).bind fun r hr => ?_
  refine (substitute_upTo hvw h hF hbuilt hs hint a).bind fun s hs => ?_
  exact (sub_fractional hint hr hs hQ).mono fun D hD => ⟨hD.1, Q, hD.2, hreal⟩

end PlaneCalculus.Expr
