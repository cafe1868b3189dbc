import PlaneCalculus.Proofs.Expr.MonomialTree

/-! Products and whole powers of monomials are monomials in the form in which they are written, whatever powers of the
same symbols have to be merged and in whatever order they come. -/

namespace PlaneCalculus.Expr

open Calc
open MvPolynomial (X monomial)

-- Where the exact range ends does not matter here.
attribute [local irreducible] Number.fits

variable {sum product : List Expr → Calc Expr} {pow : Expr → Expr → Calc Expr} {text : Expr → Calc String}

/-! ### Gathering powers -/

/-- Positive powers of symbols, each symbol once. -/
structure Powers (l : List (String × ℕ)) : Prop where
  positive : ∀ p ∈ l, 0 < p.2
  nodup : (l.map (·.1)).Nodup

/-- The power as it stands among the bases. -/
def baseEntry (p : String × ℕ) : Expr × Expr := (.symbol p.1, int p.2)

lemma powers_cons {p : String × ℕ} {l : List (String × ℕ)} :
    Powers (p :: l) ↔ 0 < p.2 ∧ p.1 ∉ l.map (·.1) ∧ Powers l := by
  constructor
  · rintro ⟨hpos, hnodup⟩
    rw [List.forall_mem_cons] at hpos
    rw [List.map_cons, List.nodup_cons] at hnodup
    exact ⟨hpos.1, hnodup.1, hpos.2, hnodup.2⟩
  · rintro ⟨hp, hout, hpos, hnodup⟩
    exact ⟨List.forall_mem_cons.mpr ⟨hp, hpos⟩, List.nodup_cons.mpr ⟨hout, hnodup⟩⟩

lemma addExponent_powers (hs : ∀ a b, Meets anyHalt (sum [int a, int b]) (· = int (a + b))) {p : String × ℕ}
    (hp : 0 < p.2) {l : List (String × ℕ)} (hl : Powers l) :
    Meets anyHalt (addExponent sum (.symbol p.1) (int p.2) (l.map baseEntry)) fun out =>
      ∃ m, out = m.map baseEntry ∧ Powers m ∧ ∀ x ∈ m.map (·.1), x = p.1 ∨ x ∈ l.map (·.1) := by
  induction l with
  | nil => exact ⟨[p], rfl, powers_cons.mpr ⟨hp, nofun, hl⟩, by simp⟩
  | cons q l ih =>
    obtain ⟨hq, hout, hl⟩ := powers_cons.mp hl
    show Meets anyHalt (if same (.symbol q.1) (.symbol p.1) then _ else _) _
    split
    · refine (hs q.2 p.2).bind fun e he => ?_
      refine ⟨(q.1, q.2 + p.2) :: l, by rw [he, ← Nat.cast_add]; rfl, powers_cons.mpr ⟨by omega, hout, hl⟩, ?_⟩
      exact fun x hx => Or.inr hx
    · next hne =>
      have hne' : q.1 ≠ p.1 := by simpa [same] using hne
      refine (ih hl).bind fun out ⟨m, hm, hpowers, hnames⟩ => ?_
      refine ⟨q :: m, by rw [hm]; rfl, powers_cons.mpr ⟨hq, fun hx => ?_, hpowers⟩, ?_⟩
      · exact (hnames q.1 hx).elim hne' hout
      · rw [List.map_cons, List.map_cons, List.forall_mem_cons]
        exact ⟨Or.inr List.mem_cons_self, fun x hx => (hnames x hx).imp_right (List.mem_cons_of_mem _)⟩

lemma gathered_powers (hs : ∀ a b, Meets anyHalt (sum [int a, int b]) (· = int (a + b))) {es : List Expr}
    (h : ∀ f ∈ es, IsPlainFactor f) :
    Meets anyHalt (es.foldlM (Gathered.push .refuse sum) ⟨.ofInt 1, [], []⟩) fun s =>
      ∃ (c : ℚ) (l : List (String × ℕ)), Powers l ∧ s = ⟨.exact c, l.map baseEntry, []⟩ := by
  refine (meets_foldlM (fun rest s => (∀ f ∈ rest, IsPlainFactor f) ∧
    ∃ (c : ℚ) (l : List (String × ℕ)), Powers l ∧ s = ⟨.exact c, l.map baseEntry, []⟩) ?_
    ⟨h, 1, [], ⟨nofun, List.nodup_nil⟩, rfl⟩).mono fun s hs => hs.2
  rintro f rest s ⟨hrest, c, l, hl, rfl⟩
  rw [List.forall_mem_cons] at hrest
  obtain ⟨⟨q, rfl⟩ | ⟨p, hp, rfl⟩, hrest⟩ := hrest
  · exact (Overflow.meets_refuse_mul c q).bind fun d hd => ⟨hrest, c * q, l, hl, by rw [hd]⟩
  · have hpush : Gathered.push .refuse sum ⟨.exact c, l.map baseEntry, []⟩ (raised p) = (do
        return ⟨.exact c, ← addExponent sum (.symbol p.1) (int p.2) (l.map baseEntry), []⟩) := by
      rcases raised_cases p with ⟨h, h1⟩ | h
      · rw [h, h1]
        rfl
      · rw [h]
        rfl
    rw [hpush]
    exact (addExponent_powers hs hp hl).bind fun out ⟨m, hm, hpowers, _⟩ =>
      ⟨hrest, c, m, hpowers, by rw [hm]⟩

/-! ### Sorting powers -/

lemma sorted_powers {l : List (String × ℕ)} (hl : Powers l) :
    ∃ m : List (String × ℕ), Ascending m ∧ m.Perm l ∧
      (l.map fun p => ((⟨2, p.1⟩ : FactorKey), raised p)).mergeSort (fun a b => (FactorKey.compare a.1 b.1).isLE) =
        m.map fun p => (⟨2, p.1⟩, raised p) := by
  let le : String × ℕ → String × ℕ → Bool := fun p q => (FactorKey.compare ⟨2, p.1⟩ ⟨2, q.1⟩).isLE
  have hperm : (l.mergeSort le).Perm l := List.mergeSort_perm l le
  have hsorted : (l.mergeSort le).Pairwise fun p q => le p q = true :=
    List.pairwise_mergeSort (fun _ _ _ => Std.TransCmp.isLE_trans) (fun _ _ => isLE_total FactorKey.compare _ _) l
  have hnodup : (l.mergeSort le).Pairwise fun p q => p.1 ≠ q.1 :=
    List.pairwise_map.mp ((hperm.map _).nodup_iff.mpr hl.nodup)
  refine ⟨l.mergeSort le, ⟨fun p hp => hl.positive p (hperm.mem_iff.mp hp), ?_⟩, hperm, ?_⟩
  · refine (hsorted.and hnodup).imp fun {p q} ⟨hle, hne⟩ => ?_
    have hcompare : (compare p.1 q.1).isLE = true := hle
    rw [← compare_lt_iff_lt]
    cases hc : compare p.1 q.1 with
    | lt => rfl
    | eq => exact absurd (compare_eq_iff_eq.mp hc) hne
    | gt => rw [hc] at hcompare; cases hcompare
  · have hmap := List.map_mergeSort (r := le) (s := fun a b => (FactorKey.compare a.1 b.1).isLE)
      (f := fun p => ((⟨2, p.1⟩ : FactorKey), raised p)) (l := l) fun _ _ _ _ => rfl
    exact hmap.symm

lemma sortFactors_raised (ht : ∀ x, Meets anyHalt (text (.symbol x)) (· = x)) {l : List (String × ℕ)} (hl : Powers l) :
    Meets anyHalt (sortFactors text (l.map raised)) fun gs => ∃ m, Ascending m ∧ m.Perm l ∧ gs = m.map raised := by
  rcases l with _ | ⟨p, _ | ⟨q, l⟩⟩
  · rw [List.map_nil, sortFactors_nil]
    exact ⟨[], ⟨nofun, List.Pairwise.nil⟩, .refl _, rfl⟩
  · rw [List.map_singleton, sortFactors_singleton]
    exact ⟨[p], ⟨hl.positive, List.pairwise_singleton _ _⟩, .refl _, rfl⟩
  · generalize hL : p :: q :: l = L at hl
    have hcount : ¬((L.map raised).map rank).count 2 ≤ 1 := by
      have hrank : (L.map raised).map rank = List.replicate L.length 2 := by
        have hall : ∀ r ∈ (L.map raised).map rank, r = 2 := by
          simp only [List.forall_mem_map, raised_rank, implies_true]
        simpa using List.eq_replicate_of_mem hall
      rw [hrank, List.count_replicate_self, ← hL]
      simp
    have hkeyed : Meets anyHalt ((L.map raised).mapM (keyAmong text ((L.map raised).map rank)))
        (· = L.map fun r => (⟨2, r.1⟩, raised r)) := by
      rw [List.mapM_map]
      refine meets_mapM_eq fun r _ => ?_
      rw [Function.comp_apply, keyAmong, raised_rank, if_neg hcount, factorKey, raised_rank, raised_baseExponent]
      have hkey : Meets anyHalt (do return ⟨2, ← text (.symbol r.1)⟩ : Calc FactorKey) (· = ⟨2, r.1⟩) :=
        (ht r.1).bind fun t h => congrArg (FactorKey.mk 2) h
      exact hkey.bind fun k h => congrArg (·, raised r) h
    refine hkeyed.bind fun entries hentries => ?_
    obtain ⟨m, hm, hperm, hsort⟩ := sorted_powers hl
    refine ⟨m, hm, hperm, ?_⟩
    rw [sortByKey, hentries, hsort, List.map_map]
    rfl

/-! ### Products and powers of terms -/

lemma isTerm_monomialTree {c : ℚ} (hc : c ≠ 0) {l : List (String × ℕ)} (hl : Ascending l) :
    IsTerm (monomialTree c l) := by
  by_cases hne : l = []
  · subst hne
    by_cases h1 : c = 1
    · subst h1
      exact isTerm_int 1
    · rw [monomialTree, assembled, isOne_exact_of_ne h1]
      exact Or.inl ⟨c, rfl⟩
  · exact Or.inr ⟨c, l, hc, hne, hl, rfl⟩

structure KeepsTerms (sum product : List Expr → Calc Expr) (pow : Expr → Expr → Calc Expr)
    (text : Expr → Calc String) : Prop extends KeepsValues (X : String → MvPolynomial String ℚ) sum product pow where
  product_terms : ∀ args, (∀ f ∈ args.flatMap factors, IsPlainFactor f) → Meets anyHalt (product args) IsTerm
  pow_symbol : ∀ p : String × ℕ, 0 < p.2 → Meets anyHalt (pow (.symbol p.1) (int p.2)) (· = raised p)
  pow_term : ∀ b (k : Int), IsTerm b → 0 < k → Meets anyHalt (pow b (int k)) IsTerm
  text_symbol : ∀ x, Meets anyHalt (text (.symbol x)) (· = x)

variable (K : KeepsTerms sum product pow text)
include K

lemma finishProduct_terms {c : ℚ} {l : List (String × ℕ)} (hl : Powers l) :
    Meets anyHalt (finishProduct sum product text (.exact c, l.map raised)) IsTerm := by
  unfold finishProduct
  split
  · exact Or.inl ⟨c, rfl⟩
  · next hz =>
    have hc : c ≠ 0 := by simpa using hz
    split
    · next ts hts _ =>
      have hmem : Expr.plus ts ∈ l.map raised := by
        rw [show l.map raised = [.plus ts] from hts]
        exact List.mem_cons_self
      obtain ⟨p, -, hp⟩ := List.mem_map.mp hmem
      cases hp ▸ raised_isSymbolPower p
    · refine (sortFactors_raised K.text_symbol hl).bind fun gs ⟨m, hm, _, hgs⟩ => ?_
      rw [hgs]
      exact isTerm_monomialTree hc hm

lemma productStep_terms {args : List Expr} (h : ∀ f ∈ args.flatMap factors, IsPlainFactor f) :
    Meets anyHalt (productStep .refuse sum product pow text args) IsTerm := by
  refine (gathered_powers K.sum_ints h).bind ?_
  rintro g ⟨c, l, hl, rfl⟩
  split
  · exact Or.inl ⟨c, rfl⟩
  · have hpowers : Meets anyHalt ((l.map baseEntry).mapM fun p => pow p.1 p.2) (· = l.map raised) := by
      rw [List.mapM_map]
      exact meets_mapM_eq fun p hp => K.pow_symbol p (hl.positive p hp)
    refine hpowers.bind fun built hbuilt => ?_
    rw [hbuilt, flatMap_factors (raised_list_flat l), absorb_factors (raised_list_isNumber l), List.nil_append]
    exact finishProduct_terms K hl

omit K in
lemma exists_nat_of_pos {k : Int} (hk : 0 < k) : ∃ n : ℕ, k = n ∧ 0 < n := by
  obtain ⟨n, rfl⟩ := Int.eq_ofNat_of_zero_le hk.le
  exact ⟨n, rfl, by exact_mod_cast hk⟩

omit K in
lemma powerStep_raised {p : String × ℕ} (hp : 0 < p.2) :
    Meets anyHalt (powerStep .refuse product pow (.symbol p.1) (int p.2)) (· = raised p) := by
  by_cases h1 : p.2 = 1
  · rw [raised, if_pos h1, h1]
    rfl
  · have h0 : (p.2 : Int) ≠ 0 := by omega
    have hne : (p.2 : Int) ≠ 1 := by omega
    have hkeep : KeepsExponent (.symbol p.1) (p.2 : Int) := trivial
    rw [powerStep_kept h0 hne hkeep, raised, if_neg h1]
    rfl

lemma powerStep_exact {q : ℚ} {k : Int} (hk : 0 < k) :
    Meets anyHalt (powerStep .refuse product pow (.num (.exact q)) (int k)) IsExact := by
  have hvalue := powerStep_value K.toKeepsValues (defined_exact _ q) (Or.inr hk.le)
  refine ((powerStep_number (Or.inr hk.le)).and hvalue).mono fun r ⟨hn, hd, _⟩ => ?_
  obtain ⟨n, rfl⟩ := exists_num_of_isNumber hn
  obtain ⟨p, rfl⟩ := Number.exists_exact hd
  exact ⟨p, rfl⟩

lemma pow_symbol_term (x : String) {k : Int} (hk : 0 < k) : Meets anyHalt (pow (.symbol x) (int k)) IsTerm := by
  obtain ⟨n, rfl, hn⟩ := exists_nat_of_pos hk
  exact (K.pow_symbol (x, n) hn).mono fun r hr => hr ▸ isTerm_raised hn

lemma distributePower_power (x : String) {j k : Int} (hj : 0 < j) (hk : 0 < k) :
    Meets anyHalt (distributePower product pow (.power (.symbol x) (int j)) (int k)) IsTerm := by
  refine (K.product_ints j k).bind fun e he => ?_
  rw [he]
  exact pow_symbol_term K x (Int.mul_pos hj hk)

lemma distributePower_times {fs : List Expr} (h : ∀ f ∈ fs, IsPlainFactor f) {k : Int} (hk : 0 < k) :
    Meets anyHalt (distributePower product pow (.times fs) (int k)) IsTerm := by
  have hpowers : Meets anyHalt (fs.mapM fun f => pow f (int k)) fun gs => ∀ g ∈ gs, IsTerm g :=
    meets_mapM_forall fun f hf => K.pow_term f k (h f hf).isTerm hk
  refine hpowers.bind fun gs hgs => K.product_terms gs fun f hf => ?_
  obtain ⟨g, hg, hf⟩ := List.mem_flatMap.mp hf
  exact (hgs g hg).factors f hf

lemma powerStep_terms {b : Expr} {k : Int} (hb : IsTerm b) (hk : 0 < k) :
    Meets anyHalt (powerStep .refuse product pow b (int k)) IsTerm := by
  by_cases h1 : k = 1
  · subst h1
    exact hb
  obtain ⟨hz, hone⟩ := int_exponent hk.ne' h1
  have hstep {b : Expr} (hbase : b.isInt 1 = false) (hfold : ∀ e, foldPower .refuse b e = .ok none)
      (hd : Meets anyHalt (distributePower product pow b (int k)) IsTerm) :
      Meets anyHalt (powerStep .refuse product pow b (int k)) IsTerm := by
    unfold powerStep
    rw [if_neg (by simp [hz]), if_neg (by simp [hone]), if_neg (by simp [hbase]), hfold]
    exact hd
  have hraised {p : String × ℕ} (hp : 0 < p.2) :
      Meets anyHalt (powerStep .refuse product pow (raised p) (int k)) IsTerm := by
    rcases raised_cases p with ⟨h, -⟩ | h <;> rw [h]
    · obtain ⟨n, rfl, hn⟩ := exists_nat_of_pos hk
      exact (powerStep_raised (p := (p.1, n)) hn).mono fun r hr => hr ▸ isTerm_raised hn
    · exact hstep rfl (fun _ => rfl) (distributePower_power K p.1 (by exact_mod_cast hp) hk)
  rcases hb with ⟨q, rfl⟩ | ⟨c, l, hc, hne, hl, rfl⟩
  · exact (powerStep_exact K hk).mono fun r hr => Or.inl hr
  · have hfactors := (isTerm_monomialTree hc hl).factors
    by_cases h1 : c = 1
    · subst h1
      rcases monomialTree_one_cases hne with ⟨p, rfl, h⟩ | ⟨p, q, m, rfl, h⟩
      · rw [h]
        exact hraised (hl.positive p List.mem_cons_self)
      · rw [h] at hfactors ⊢
        exact hstep rfl (fun _ => rfl) (distributePower_times K hfactors hk)
    · rw [monomialTree_cons h1 hne] at hfactors ⊢
      exact hstep rfl (fun _ => rfl) (distributePower_times K hfactors hk)

omit K

lemma text_symbol (n : Nat) (x : String) : Meets anyHalt (textAt .refuse n (.symbol x)) (· = x) := by
  cases n with
  | zero => trivial
  | succ n => rfl

lemma keepsTerms_at (n : Nat) :
    KeepsTerms (sumAt .refuse n) (productAt .refuse n) (powerAt .refuse n) (textAt .refuse n) := by
  induction n with
  | zero => exact ⟨keepsValues_at X 0, fun _ _ => trivial, fun _ _ => trivial, fun _ _ _ _ => trivial, text_symbol 0⟩
  | succ n K =>
    exact
      { toKeepsValues := keepsValues_at X (n + 1)
        product_terms := fun args => productStep_terms K
        pow_symbol := fun p => powerStep_raised
        pow_term := fun b k => powerStep_terms K
        text_symbol := text_symbol (n + 1) }

end PlaneCalculus.Expr
