import PlaneCalculus.Proofs.Expr.Rebuilding

/-! Monomials: products of a number and powers of different symbols. Products and whole powers of monomials are monomials,
and sums of them come out as sums of monomials. -/

namespace PlaneCalculus.Expr

open Calc

def IsSymbolPower : Expr → Prop
  | .symbol _ => True
  | .power (.symbol _) (.num _) => True
  | _ => False

/-- Numbers and powers of symbols, which may have yet to be merged. -/
def IsLoose (e : Expr) : Prop := ∀ f ∈ e.factors, f.isNumber = true ∨ f.IsSymbolPower

structure IsMonomial (e : Expr) : Prop where
  loose : e.IsLoose
  apart : DistinctBases e

/-- A sum of monomials. -/
def IsMultipliedOut (e : Expr) : Prop := ∀ t ∈ e.terms, t.IsMonomial

/-! ### Forms -/

lemma IsSymbolPower.factors_eq {f : Expr} (h : f.IsSymbolPower) : f.factors = [f] := by
  cases f with
  | symbol | power => rfl
  | num | constant | plus | times | call => cases h

lemma IsSymbolPower.isNumber {f : Expr} (h : f.IsSymbolPower) : f.isNumber = false := by
  cases f with
  | symbol | power => rfl
  | num | constant | plus | times | call => cases h

lemma IsSymbolPower.baseExponent {f : Expr} (h : f.IsSymbolPower) : ∃ x n, f.baseExponent = (.symbol x, .num n) := by
  cases f with
  | symbol x => exact ⟨x, .ofInt 1, rfl⟩
  | power b e =>
    cases b with
    | symbol x =>
      cases e with
      | num n => exact ⟨x, n, rfl⟩
      | symbol | constant | plus | times | power | call => cases h
    | num | constant | plus | times | power | call => cases h
  | num | constant | plus | times | call => cases h

lemma isMonomial_number {e : Expr} (h : e.isNumber = true) : e.IsMonomial := by
  cases e with
  | num n => exact ⟨by simp [IsLoose, factors, isNumber], List.nodup_nil⟩
  | symbol | constant | plus | times | power | call => cases h

lemma IsSymbolPower.isMonomial {f : Expr} (h : f.IsSymbolPower) : f.IsMonomial where
  loose := by simp [IsLoose, h.factors_eq, h]
  apart := by simp [DistinctBases, h.factors_eq, nonNumbers, h.isNumber]

lemma isMonomial_int (k : Int) : (int k).IsMonomial := isMonomial_number rfl

lemma IsLoose.ne_plus {e : Expr} (h : e.IsLoose) (ts : List Expr) : e ≠ .plus ts := by
  rintro rfl
  rcases h _ List.mem_cons_self with h | h <;> cases h

lemma IsLoose.factor {e f : Expr} (h : e.IsLoose) (hf : f ∈ e.factors) : f.IsMonomial :=
  (h f hf).elim isMonomial_number IsSymbolPower.isMonomial

lemma IsMonomial.multipliedOut {e : Expr} (h : e.IsMonomial) : e.IsMultipliedOut := by
  have hterms : e.terms = [e] := by
    cases e with
    | plus ts => exact absurd rfl (h.loose.ne_plus ts)
    | num | symbol | constant | times | power | call => rfl
  rw [IsMultipliedOut, hterms]
  exact List.forall_mem_singleton.mpr h

lemma IsLoose.coeffRest {e : Expr} (h : e.IsLoose) : e.coeffRest.2.IsLoose := by
  unfold Expr.coeffRest
  split
  · next c f => exact (h.factor (f := f) (by simp [factors])).loose
  · next c fs _ => exact fun f hf => h f (List.mem_cons_of_mem _ hf)
  · exact (isMonomial_int 1).loose
  · exact h

variable {o : Overflow} {sum product : List Expr → Calc Expr} {pow : Expr → Expr → Calc Expr}
  {text : Expr → Calc String}

/-! ### Numbers -/

lemma push_number {s : Collected} {e : Expr} (he : e.isNumber = true) :
    Meets anyHalt (s.push o e) (·.entries = s.entries) := by
  cases e with
  | num n => exact (meets_anyHalt_true _).bind fun _ _ => rfl
  | symbol | constant | plus | times | power | call => cases he

lemma sumStep_numbers {args : List Expr} (h : ∀ e ∈ args, e.isNumber = true) :
    Meets anyHalt (sumStep o product text args) (·.isNumber = true) := by
  have hterms : ∀ t ∈ args.flatMap terms, t.isNumber = true := by
    intro t ht
    obtain ⟨e, he, ht⟩ := List.mem_flatMap.mp ht
    cases e with
    | num n => exact List.mem_singleton.mp ht ▸ rfl
    | symbol | constant | plus | times | power | call => cases h _ he
  have hfold : Meets anyHalt ((args.flatMap terms).foldlM (Collected.push o) ⟨.ofInt 0, []⟩) (·.entries = []) := by
    refine (meets_foldlM (fun rest s => (∀ e ∈ rest, e.isNumber = true) ∧ s.entries = []) ?_ ⟨hterms, rfl⟩).mono
      fun s hs => hs.2
    rintro e rest s ⟨hrest, hs⟩
    rw [List.forall_mem_cons] at hrest
    exact (push_number hrest.1).mono fun t ht => ⟨hrest.2, ht.trans hs⟩
  refine hfold.bind fun s hs => ?_
  rw [hs]
  simp [sortTerms, collapse, isNumber]

lemma productStep_numbers {args : List Expr} (h : ∀ e ∈ args, e.isNumber = true) :
    Meets anyHalt (productStep o sum product pow text args) (·.isNumber = true) := by
  have hfs : nonNumbers (args.flatMap factors) = [] := by
    refine List.filter_eq_nil_iff.mpr fun f hf => ?_
    obtain ⟨e, he, hf⟩ := List.mem_flatMap.mp hf
    cases e with
    | num n => simp [List.mem_singleton.mp hf, isNumber]
    | symbol | constant | plus | times | power | call => cases h _ he
  refine meets_anyHalt_iff.mpr fun r hr => ?_
  have hnil : DistinctFactors [] := ⟨by simp, by simp, by simp, List.Pairwise.nil⟩
  obtain ⟨c, hc, -⟩ := (productStep_distinct hfs hnil (by simp)).value hr
  have hapart : ∀ ts, ([] : List Expr) ≠ [.plus ts] := by simp
  rcases (finishProduct_apart hapart).value hc with rfl | ⟨gs, hp, rfl⟩
  · rfl
  · obtain rfl := hp.eq_nil
    unfold assembled
    split <;> rfl

/-! ### Gathering powers of symbols -/

/-- Symbols, each once, with the numbers that are their exponents. -/
structure SymbolBases (bases : List (Expr × Expr)) : Prop where
  symbols : ∀ p ∈ bases, ∃ x n, p = (.symbol x, .num n)
  nodup : (bases.map (·.1)).Nodup

lemma symbolBases_nil : SymbolBases [] := ⟨nofun, List.nodup_nil⟩

lemma symbolBases_cons {p : Expr × Expr} {bases : List (Expr × Expr)} :
    SymbolBases (p :: bases) ↔ (∃ x n, p = (.symbol x, .num n)) ∧ p.1 ∉ bases.map (·.1) ∧ SymbolBases bases := by
  constructor
  · rintro ⟨hs, hd⟩
    rw [List.forall_mem_cons] at hs
    rw [List.map_cons, List.nodup_cons] at hd
    exact ⟨hs.1, hd.1, hs.2, hd.2⟩
  · rintro ⟨hp, hd, hs⟩
    refine ⟨List.forall_mem_cons.mpr ⟨hp, hs.symbols⟩, ?_⟩
    rw [List.map_cons, List.nodup_cons]
    exact ⟨hd, hs.nodup⟩

lemma exists_num_of_isNumber {e : Expr} (h : e.isNumber = true) : ∃ n, e = .num n := by
  cases e with
  | num n => exact ⟨n, rfl⟩
  | symbol | constant | plus | times | power | call => cases h

section

variable (hs : ∀ args, (∀ e ∈ args, e.isNumber = true) → Meets anyHalt (sum args) (·.isNumber = true))
include hs

lemma addExponent_symbols {x : String} {n : Number} {bases : List (Expr × Expr)} (h : SymbolBases bases) :
    Meets anyHalt (addExponent sum (.symbol x) (.num n) bases) fun out => SymbolBases out ∧
      ∀ b ∈ out.map (·.1), b = .symbol x ∨ b ∈ bases.map (·.1) := by
  induction bases with
  | nil => exact ⟨symbolBases_cons.mpr ⟨⟨x, n, rfl⟩, by simp, h⟩, by simp⟩
  | cons p bases ih =>
    obtain ⟨⟨y, m, rfl⟩, hnew, hbases⟩ := symbolBases_cons.mp h
    unfold addExponent
    split
    · have hargs : ∀ e ∈ [Expr.num m, .num n], e.isNumber = true := by simp [isNumber]
      refine (hs _ hargs).bind fun e he => ?_
      obtain ⟨k, rfl⟩ := exists_num_of_isNumber he
      exact ⟨symbolBases_cons.mpr ⟨⟨y, k, rfl⟩, hnew, hbases⟩, fun b hb => Or.inr hb⟩
    · next hne =>
      have hne' : Expr.symbol y ≠ .symbol x := by
        rintro ⟨⟩
        exact hne (by simp [BEq.beq, same])
      refine (ih hbases).bind ?_
      rintro out ⟨hout, hkeys⟩
      refine ⟨symbolBases_cons.mpr ⟨⟨y, m, rfl⟩, fun hmem => ?_, hout⟩, ?_⟩
      · exact (hkeys _ hmem).elim hne' hnew
      · rw [List.map_cons, List.map_cons, List.forall_mem_cons]
        exact ⟨Or.inr List.mem_cons_self, fun b hb => (hkeys b hb).imp_right (List.mem_cons_of_mem _)⟩

lemma gathered_symbols {es : List Expr} (h : ∀ e ∈ es, e.isNumber = true ∨ e.IsSymbolPower) :
    Meets anyHalt (es.foldlM (Gathered.push o sum) ⟨.ofInt 1, [], []⟩) fun s =>
      SymbolBases s.bases ∧ s.exponentials = [] := by
  refine (meets_foldlM (fun rest s => (∀ e ∈ rest, e.isNumber = true ∨ e.IsSymbolPower) ∧ SymbolBases s.bases ∧
    s.exponentials = []) ?_ ⟨h, symbolBases_nil, rfl⟩).mono fun s hs => hs.2
  rintro e rest s ⟨hrest, hbases, hexp⟩
  rw [List.forall_mem_cons] at hrest
  obtain ⟨he, hrest⟩ := hrest
  have hbase (he : e.IsSymbolPower) : Meets anyHalt
      (do return { s with bases := ← addExponent sum e.baseExponent.1 e.baseExponent.2 s.bases } : Calc Gathered)
      fun t => (∀ e ∈ rest, e.isNumber = true ∨ e.IsSymbolPower) ∧ SymbolBases t.bases ∧ t.exponentials = [] := by
    obtain ⟨x, n, hx⟩ := he.baseExponent
    rw [hx]
    exact (addExponent_symbols hs hbases).bind fun out hout => ⟨hrest, hout.1, hexp⟩
  cases e with
  | num n => exact (meets_anyHalt_true _).bind fun _ _ => ⟨hrest, hbases, hexp⟩
  | symbol | power => exact hbase (he.resolve_left nofun)
  | constant | plus | times | call => rcases he with he | he <;> cases he

end

/-- What a power of a symbol becomes: the number one, or a power of the symbol. -/
def RaisedSymbol (b r : Expr) : Prop := r.isNumber = true ∨ r.IsSymbolPower ∧ r.baseExponent.1 = b

lemma RaisedSymbol.factors_eq {b r : Expr} (h : RaisedSymbol b r) : r.factors = [r] := by
  rcases h with h | ⟨h, -⟩
  · obtain ⟨n, rfl⟩ := exists_num_of_isNumber h
    rfl
  · exact h.factors_eq

lemma RaisedSymbol.isMonomial {b r : Expr} (h : RaisedSymbol b r) : r.IsMonomial :=
  h.elim isMonomial_number fun h => h.1.isMonomial

lemma nonNumbers_raised {bases : List (Expr × Expr)} {built : List Expr}
    (h : List.Forall₂ (fun p r => RaisedSymbol p.1 r) bases built) : built.flatMap factors = built ∧
      (∀ f ∈ nonNumbers built, f.IsSymbolPower) ∧
      ((nonNumbers built).map fun f => f.baseExponent.1).Sublist (bases.map (·.1)) := by
  induction h with
  | nil => exact ⟨rfl, nofun, List.Sublist.refl _⟩
  | @cons p r bases built hr _ ih =>
    obtain ⟨hfactors, hpowers, hsub⟩ := ih
    refine ⟨by rw [List.flatMap_cons, hfactors, hr.factors_eq]; rfl, ?_⟩
    rcases hr with hr | ⟨hr, hb⟩
    · have hcons : nonNumbers (r :: built) = nonNumbers built := by simp [nonNumbers, hr]
      rw [hcons]
      exact ⟨hpowers, hsub.cons _⟩
    · have hcons : nonNumbers (r :: built) = r :: nonNumbers built := by simp [nonNumbers, hr.isNumber]
      rw [hcons, List.map_cons, List.map_cons, hb]
      exact ⟨List.forall_mem_cons.mpr ⟨hr, hpowers⟩, hsub.cons_cons _⟩

lemma absorb_nonNumbers (es : List Expr) (c : Number) (fs : List Expr) :
    Meets anyHalt (es.foldlM (absorb o) (c, fs)) fun s => s.2 = fs ++ nonNumbers es := by
  refine (meets_foldlM (fun rest s => s.2 ++ nonNumbers rest = fs ++ nonNumbers es) ?_ rfl).mono fun s hs => ?_
  · rintro e rest ⟨d, gs⟩ hs
    cases e with
    | num n => exact (meets_anyHalt_true _).bind fun _ _ => hs
    | symbol | constant | plus | times | power | call => simpa [absorb, nonNumbers, isNumber] using hs
  · rwa [show nonNumbers ([] : List Expr) = [] from rfl, List.append_nil] at hs

lemma assembled_isMonomial {fs : List Expr} (h : ∀ f ∈ fs, f.IsSymbolPower)
    (hd : (fs.map fun f => f.baseExponent.1).Nodup) (c : Number) : (assembled c fs).IsMonomial := by
  have hfs : ∀ f ∈ fs, f.isNumber = true ∨ f.IsSymbolPower := fun f hf => Or.inr (h f hf)
  have hloose : (assembled c fs).IsLoose := by
    unfold assembled
    split
    · rcases fs with _ | ⟨f, _ | ⟨g, fs⟩⟩
      · exact (isMonomial_int 1).loose
      · exact (h f List.mem_cons_self).isMonomial.loose
      · exact hfs
    · cases fs with
      | nil => exact (isMonomial_number rfl).loose
      | cons f fs => exact List.forall_mem_cons.mpr ⟨Or.inl rfl, hfs⟩
  refine ⟨hloose, ?_⟩
  unfold DistinctBases
  rwa [factors_assembled (fun f hf => (h f hf).isNumber)]
  rintro f hf gs rfl
  exact h _ hf

/-! ### Constructors -/

structure KeepsMonomials (sum product : List Expr → Calc Expr) (pow : Expr → Expr → Calc Expr) : Prop where
  sum_numbers : ∀ args, (∀ e ∈ args, e.isNumber = true) → Meets anyHalt (sum args) (·.isNumber = true)
  product_numbers : ∀ args, (∀ e ∈ args, e.isNumber = true) → Meets anyHalt (product args) (·.isNumber = true)
  sum_monomials : ∀ args, (∀ t ∈ args.flatMap terms, t.IsLoose) → Meets anyHalt (sum args) IsMultipliedOut
  product_monomials : ∀ args, (∀ e ∈ args, e.IsLoose) → Meets anyHalt (product args) IsMonomial
  pow_symbol : ∀ x n, Meets anyHalt (pow (.symbol x) (.num n)) (RaisedSymbol (.symbol x))
  pow_monomial : ∀ b k, b.IsMonomial → 0 < k → Meets anyHalt (pow b (int k)) IsMonomial

variable (K : KeepsMonomials sum product pow)
include K

lemma sumStep_monomials {args : List Expr} (h : ∀ t ∈ args.flatMap terms, t.IsLoose) :
    Meets anyHalt (sumStep o product text args) IsMultipliedOut := by
  have hadd {rest : Expr} {c : Number} (hr : rest.IsLoose) {entries : List (Expr × Number)}
      (he : ∀ p ∈ entries, p.1.IsLoose) :
      Meets anyHalt (addCoefficient o rest c entries) fun out => ∀ p ∈ out, p.1.IsLoose := by
    induction entries with
    | nil => simpa [addCoefficient] using hr
    | cons p entries ih =>
      obtain ⟨e, d⟩ := p
      rw [List.forall_mem_cons] at he
      unfold addCoefficient
      split
      · exact (meets_anyHalt_true _).bind fun _ _ => List.forall_mem_cons.mpr he
      · exact (ih he.2).bind fun out hout => List.forall_mem_cons.mpr ⟨he.1, hout⟩
  have hfold : Meets anyHalt ((args.flatMap terms).foldlM (Collected.push o) ⟨.ofInt 0, []⟩)
      fun s => ∀ p ∈ s.entries, p.1.IsLoose := by
    refine (meets_foldlM (fun rest s => (∀ t ∈ rest, t.IsLoose) ∧ ∀ p ∈ s.entries, p.1.IsLoose) ?_
      ⟨h, by simp⟩).mono fun s hs => hs.2
    rintro e rest s ⟨hrest, hs⟩
    rw [List.forall_mem_cons] at hrest
    cases e with
    | num n => exact (meets_anyHalt_true _).bind fun _ _ => ⟨hrest.2, hs⟩
    | symbol | constant | plus | times | power | call =>
      exact (hadd hrest.1.coeffRest hs).bind fun out hout => ⟨hrest.2, hout⟩
  refine hfold.bind fun s hs => ?_
  have hbuilt : Meets anyHalt ((s.entries.filter fun p => !p.2.isZero).mapM fun p => product [.num p.2, p.1])
      fun ts => ∀ t ∈ ts, t.IsMonomial := by
    refine meets_mapM_forall fun p hp => K.product_monomials _ ?_
    have hrest := hs p (List.mem_filter.mp hp).1
    simpa using ⟨(isMonomial_number (e := .num p.2) rfl).loose, hrest⟩
  refine hbuilt.bind fun ts hts => ?_
  refine (meets_sortTerms_perm text ts).bind fun us hperm => ?_
  have hus : ∀ u ∈ us, u.IsMonomial := fun u hu => hts u (hperm.mem_iff.mp hu)
  have hall : ∀ u ∈ if !s.number.isZero || us.isEmpty then us ++ [.num s.number] else us, u.IsMonomial := by
    split
    · exact List.forall_mem_append.mpr ⟨hus, by simpa using isMonomial_number rfl⟩
    · exact hus
  rw [meets_pure]
  generalize (if !s.number.isZero || us.isEmpty then us ++ [Expr.num s.number] else us) = es at hall ⊢
  rcases es with _ | ⟨u, _ | ⟨w, ws⟩⟩
  · exact (isMonomial_int 0).multipliedOut
  · exact (hall u List.mem_cons_self).multipliedOut
  · exact hall

lemma productStep_monomials {args : List Expr} (h : ∀ e ∈ args, e.IsLoose) :
    Meets anyHalt (productStep o sum product pow text args) IsMonomial := by
  have hfactors : ∀ f ∈ args.flatMap factors, f.isNumber = true ∨ f.IsSymbolPower := by
    intro f hf
    obtain ⟨e, he, hf⟩ := List.mem_flatMap.mp hf
    exact h e he f hf
  refine (gathered_symbols K.sum_numbers hfactors).bind ?_
  rintro g ⟨hbases, hexp⟩
  split
  · exact isMonomial_number rfl
  · have hmerge : g.mergeExponentials o sum = .ok g := by
      unfold Gathered.mergeExponentials
      rw [hexp]
      rfl
    rw [hmerge]
    have hpowers : Meets anyHalt (g.bases.mapM fun p => pow p.1 p.2)
        (List.Forall₂ (fun p r => RaisedSymbol p.1 r) g.bases) := by
      refine meets_mapM fun p hp => ?_
      obtain ⟨x, n, rfl⟩ := hbases.symbols p hp
      exact K.pow_symbol x n
    refine hpowers.bind fun built hbuilt => ?_
    obtain ⟨hflat, hpower, hsub⟩ := nonNumbers_raised hbuilt
    rw [hflat]
    refine (absorb_nonNumbers built g.coeff []).bind ?_
    rintro ⟨c, fs⟩ hfs
    rw [List.nil_append] at hfs
    subst hfs
    have hd := hsub.nodup hbases.nodup
    refine meets_anyHalt_iff.mpr fun r hr => ?_
    have hapart : ∀ ts, nonNumbers built ≠ [.plus ts] := by
      intro ts hts
      cases hpower (.plus ts) (hts ▸ List.mem_cons_self)
    rcases (finishProduct_apart hapart).value hr with rfl | ⟨gs, hp, rfl⟩
    · exact isMonomial_number rfl
    · exact assembled_isMonomial (fun f hf => hpower f (hp.mem_iff.mp hf)) ((hp.map _).nodup_iff.mpr hd) c

omit K in
lemma powerStep_symbol (x : String) (n : Number) :
    Meets anyHalt (powerStep o product pow (.symbol x) (.num n)) (RaisedSymbol (.symbol x)) := by
  unfold powerStep
  split
  · exact Or.inl rfl
  · split
    · exact Or.inr ⟨trivial, rfl⟩
    · exact Or.inr ⟨trivial, rfl⟩

omit K in
lemma foldPower_number {n : Number} {k : Int} :
    Meets anyHalt (foldPower o (.num n) (int k)) fun r => ∀ x, r = some x → x.isNumber = true := by
  show Meets anyHalt (if n.isZero && _ then _ else numericPower o n (.ofInt k)) _
  split
  · rintro x ⟨⟩
    rfl
  · cases n with
    | exact q =>
      rw [numericPower_int]
      split
      · nofun
      · refine (meets_anyHalt_true _).bind fun m _ => ?_
        rintro x ⟨⟩
        rfl
    | approx v =>
      rintro x ⟨⟩
      rfl

omit K in
/-- Only negative powers of zero are left standing. -/
lemma powerStep_number {n : Number} {k : Int} (hk : n ≠ .ofInt 0 ∨ 0 ≤ k) :
    Meets anyHalt (powerStep o product pow (.num n) (int k)) (·.isNumber = true) := by
  unfold powerStep
  split
  · rfl
  · split
    · rfl
    · split
      · rfl
      · refine (foldPower_number.and (foldPower_none (integer?_int k))).bind fun r ⟨hx, hnone⟩ => ?_
        cases r with
        | some x => exact hx x rfl
        | none =>
          obtain ⟨hn, hneg⟩ := hnone rfl
          exact absurd hk (by simp [hn, hneg])

lemma powerStep_monomial {b : Expr} {k : Int} (hb : b.IsMonomial) (hk : 0 < k) :
    Meets anyHalt (powerStep o product pow b (int k)) IsMonomial := by
  unfold powerStep
  split
  · exact isMonomial_int 1
  · split
    · exact hb
    · split
      · exact isMonomial_int 1
      · cases b with
        | num n =>
          refine (foldPower_number.and (foldPower_none (integer?_int k))).bind fun r ⟨hx, hnone⟩ => ?_
          cases r with
          | none => exact absurd (hnone rfl).2 (by omega)
          | some x => exact isMonomial_number (hx x rfl)
        | symbol x => exact IsSymbolPower.isMonomial (f := .power (.symbol x) (int k)) trivial
        | times fs =>
          have hpowers : Meets anyHalt (fs.mapM fun f => pow f (int k)) fun gs => ∀ g ∈ gs, g.IsMonomial :=
            meets_mapM_forall fun f hf => K.pow_monomial f k (hb.loose.factor hf) hk
          exact hpowers.bind fun gs hgs => K.product_monomials gs fun g hg => (hgs g hg).loose
        | power b e =>
          obtain ⟨x, n, hx⟩ := ((hb.loose _ List.mem_cons_self).resolve_left nofun).baseExponent
          obtain ⟨rfl, rfl⟩ := Prod.mk.inj hx
          have hargs : ∀ e ∈ [Expr.num n, int k], e.isNumber = true := by simp [isNumber, int]
          refine (K.product_numbers _ hargs).bind fun e he => ?_
          obtain ⟨m, rfl⟩ := exists_num_of_isNumber he
          exact (K.pow_symbol x m).mono fun r hr => hr.isMonomial
        | constant | plus | call => rcases hb.loose _ List.mem_cons_self with h | h <;> cases h

omit K

lemma keepsMonomials_at (o : Overflow) (n : Nat) : KeepsMonomials (sumAt o n) (productAt o n) (powerAt o n) := by
  induction n with
  | zero =>
    exact ⟨fun _ _ => trivial, fun _ _ => trivial, fun _ _ => trivial, fun _ _ => trivial, fun _ _ => trivial,
      fun _ _ _ _ => trivial⟩
  | succ n K =>
    exact
      { sum_numbers := fun args => sumStep_numbers
        product_numbers := fun args => productStep_numbers
        sum_monomials := fun args => sumStep_monomials K
        product_monomials := fun args => productStep_monomials K
        pow_symbol := powerStep_symbol
        pow_monomial := fun b k => powerStep_monomial K }

end PlaneCalculus.Expr
