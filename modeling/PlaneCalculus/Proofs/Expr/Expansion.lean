import PlaneCalculus.Expr.Expansion
import PlaneCalculus.Proofs.Expr.Monomial
import PlaneCalculus.Proofs.Formula.Writable

/-! Multiplying out. It never fails to end, and a polynomial without large powers of sums comes out as a sum of
monomials. -/

namespace PlaneCalculus.Expr

open Calc Formula

lemma multiplyOut_consistent (as bs : List Expr) : Consistent (multiplyOut · as bs) := by
  have hpair (p : Expr × Expr) : Consistent fun o => Expr.product o [p.1, p.2] := product_consistent _
  exact Consistent.mapM hpair _

lemma powerTerms_consistent (ts : List Expr) (n : Nat) : Consistent (powerTerms · ts n) := by
  induction n with
  | zero => exact .pure ts
  | succ n ih => exact ih.bind fun as => multiplyOut_consistent as ts

lemma expandPower_consistent (b e : Expr) : Consistent (expandPower · b e) := by
  unfold expandPower
  split
  · exact .ite ((powerTerms_consistent _ _).bind fun _ => sum_consistent _) (pow_consistent _ _)
  · exact pow_consistent _ _

mutual

lemma expand_consistent : (e : Expr) → Consistent (expand · e)
  | .num _ => .pure _
  | .symbol _ => .pure _
  | .constant _ => .pure _
  | .plus ts => by
    simp only [expand]
    exact (expandAll_consistent ts).bind fun _ => sum_consistent _
  | .times fs => by
    simp only [expand]
    exact (expandProduct_consistent [int 1] fs).bind fun _ => sum_consistent _
  | .power b e => by
    simp only [expand]
    exact (expand_consistent b).bind fun c => expandPower_consistent c e
  | .call f a => by
    simp only [expand]
    exact (expand_consistent a).bind fun _ => .pure _

lemma expandAll_consistent : (es : List Expr) → Consistent (expandAll · es)
  | [] => .pure _
  | e :: es => by
    simp only [expandAll]
    exact (expand_consistent e).bind fun _ => (expandAll_consistent es).bind fun _ => .pure _

lemma expandProduct_consistent (acc : List Expr) : (es : List Expr) → Consistent (expandProduct · acc es)
  | [] => .pure _
  | e :: es => by
    simp only [expandProduct]
    exact (expand_consistent e).bind fun f => (multiplyOut_consistent acc f.terms).bind fun acc =>
      expandProduct_consistent acc es

end

/-! ### Values -/

section Value

variable {R : Type} [CommRing R] [Algebra ℚ R] [Inv R] {ρ : String → R}

lemma sum_pairs (as bs : List Expr) :
    ((as.flatMap fun a => bs.map fun b => (a, b)).map fun p => value ρ p.1 * value ρ p.2).sum =
      (as.map (value ρ)).sum * (bs.map (value ρ)).sum := by
  induction as with
  | nil => simp
  | cons a as ih =>
    have hrow : ((bs.map fun b => (a, b)).map fun p => value ρ p.1 * value ρ p.2).sum =
        value ρ a * (bs.map (value ρ)).sum := by
      rw [List.map_map, ← List.sum_map_mul_left]
      rfl
    rw [List.flatMap_cons, List.map_append, List.sum_append, ih, hrow, List.map_cons, List.sum_cons, add_mul]

lemma multiplyOut_value [HasInverses R] {as bs : List Expr} (ha : ∀ a ∈ as, Defined ρ a) (hb : ∀ b ∈ bs, Defined ρ b) :
    Meets anyHalt (multiplyOut .refuse as bs) fun cs =>
      (∀ c ∈ cs, Defined ρ c) ∧ (cs.map (value ρ)).sum = (as.map (value ρ)).sum * (bs.map (value ρ)).sum := by
  have hpairs : Meets anyHalt (multiplyOut .refuse as bs)
      (List.Forall₂ (fun p c => HasValue ρ c (value ρ p.1 * value ρ p.2))
        (as.flatMap fun a => bs.map fun b => (a, b))) := by
    refine meets_mapM fun p hp => ?_
    obtain ⟨a, hmem, hp⟩ := List.mem_flatMap.mp hp
    obtain ⟨b, hmem', rfl⟩ := List.mem_map.mp hp
    have hdefined : ∀ e ∈ [a, b], Defined ρ e := by simpa using ⟨ha a hmem, hb b hmem'⟩
    simpa using product_value hdefined
  rw [← sum_pairs]
  refine hpairs.mono fun cs hcs => ?_
  clear hpairs
  generalize (as.flatMap fun a => bs.map fun b => (a, b)) = pairs at hcs ⊢
  induction hcs with
  | nil => exact ⟨nofun, rfl⟩
  | cons hc _ ih => exact ⟨List.forall_mem_cons.mpr ⟨hc.1, ih.1⟩, by simp [hc.2, ih.2]⟩

lemma powerTerms_value [HasInverses R] {ts : List Expr} (h : ∀ t ∈ ts, Defined ρ t) (n : Nat) :
    Meets anyHalt (powerTerms .refuse ts n) fun cs =>
      (∀ c ∈ cs, Defined ρ c) ∧ (cs.map (value ρ)).sum = (ts.map (value ρ)).sum ^ (n + 1) := by
  induction n with
  | zero => exact ⟨h, (pow_one _).symm⟩
  | succ n ih =>
    refine ih.bind fun as ⟨ha, hv⟩ => ?_
    rw [pow_succ, ← hv]
    exact multiplyOut_value ha h

lemma expandPower_value [HasInverses R] {b : Expr} {k : Int} (hb : Defined ρ b) (hk : Raisable (value ρ b) k) :
    Meets anyHalt (expandPower .refuse b (int k)) (HasValue ρ · (wholePower (value ρ b) k)) := by
  cases b with
  | plus ts =>
    rw [defined_plus] at hb
    show Meets anyHalt (if 2 ≤ k ∧ k ≤ expansionLimit then _ else Expr.pow .refuse (.plus ts) (int k)) _
    split
    · next hlimit =>
      obtain ⟨n, rfl⟩ : ∃ n : Nat, k = ((n + 1 : Nat) : Int) := ⟨k.toNat - 1, by omega⟩
      refine (powerTerms_value hb _).bind fun cs ⟨hcs, hv⟩ => ?_
      rw [wholePower_natCast, value_plus]
      have hsum := sum_value hcs
      rwa [hv] at hsum
    · exact pow_value ((defined_plus ρ ts).mpr hb) hk
  | num | symbol | constant | times | power | call => exact pow_value hb hk

mutual

lemma expand_value [HasInverses R] : (e : Expr) → Defined ρ e →
    Meets anyHalt (expand .refuse e) (HasValue ρ · (value ρ e))
  | .num _, h => ⟨h, rfl⟩
  | .symbol _, h => ⟨h, rfl⟩
  | .plus ts, h => by
    rw [expand]
    refine (expandAll_value ts h).bind fun us hus => ?_
    obtain ⟨hd, hv⟩ := values_of_operands hus
    rw [value_plus, ← hv]
    exact sum_value hd
  | .times fs, h => by
    rw [expand]
    have hone : ∀ e ∈ [int 1], Defined ρ e := by simp
    refine (expandProduct_value fs h [int 1] hone).bind fun cs ⟨hd, hv⟩ => ?_
    have hsum := sum_value hd
    rwa [hv, List.map_singleton, List.sum_singleton, value_int, Int.cast_one, one_mul, productValue_eq,
      ← value_times] at hsum
  | .power b e, h => by
    obtain ⟨k, rfl⟩ := exists_int_of_defined_power ρ h
    obtain ⟨hb, hk⟩ := (defined_power ρ b k).mp h
    rw [expand]
    refine (expand_value b hb).bind fun c ⟨hc, hv⟩ => ?_
    rw [value_power, ← hv]
    exact expandPower_value hc (hv ▸ hk)

lemma expandAll_value [HasInverses R] : (es : List Expr) → AllDefined ρ es →
    Meets anyHalt (expandAll .refuse es) (List.Forall₂ (fun e f => HasValue ρ f (value ρ e)) es)
  | [], _ => List.Forall₂.nil
  | e :: es, h => by
    rw [expandAll]
    exact (expand_value e h.1).bind fun f hf => (expandAll_value es h.2).bind fun fs hfs => .cons hf hfs

lemma expandProduct_value [HasInverses R] : (es : List Expr) → AllDefined ρ es → (acc : List Expr) →
    (∀ a ∈ acc, Defined ρ a) → Meets anyHalt (expandProduct .refuse acc es) fun cs =>
      (∀ c ∈ cs, Defined ρ c) ∧ (cs.map (value ρ)).sum = (acc.map (value ρ)).sum * productValue ρ es
  | [], _, acc, hacc => ⟨hacc, (mul_one _).symm⟩
  | e :: es, h, acc, hacc => by
    rw [expandProduct]
    refine (expand_value e h.1).bind fun f ⟨hf, hfv⟩ => ?_
    obtain ⟨hterms, hsum⟩ := terms_value hf
    refine (multiplyOut_value hacc hterms).bind fun cs ⟨hcs, hv⟩ => ?_
    refine (expandProduct_value es h.2 cs hcs).mono fun ds ⟨hds, hdv⟩ => ⟨hds, ?_⟩
    rw [hdv, hv, hsum, hfv, productValue, mul_assoc]

end

end Value

/-! ### Polynomials -/

/-- Exact numbers, symbols, sums, products and positive whole powers, where the powers of sums are small enough to be
multiplied out. -/
def PolynomialNode : Expr → Prop
  | .num n => n.isExact = true
  | .constant _ => False
  | .call _ _ => False
  | .power b e => ∃ k, e = int k ∧ 0 < k ∧ ∀ ts, b = .plus ts → k ≤ expansionLimit
  | _ => True

def IsPolynomial (e : Expr) : Prop := Everywhere PolynomialNode e

mutual

lemma isRational_of_polynomial : (e : Expr) → e.IsPolynomial → e.IsRational
  | .num _, h => h
  | .symbol _, _ => trivial
  | .constant _, h => h.elim
  | .plus ts, ⟨_, h⟩ => allRational_of_polynomials ts h
  | .times fs, ⟨_, h⟩ => allRational_of_polynomials fs h
  | .power b _, ⟨⟨k, he, _⟩, hb, _⟩ => ⟨isRational_of_polynomial b hb, k, he ▸ rfl⟩
  | .call _ _, h => h.1.elim

lemma allRational_of_polynomials : (es : List Expr) → EverywhereAll PolynomialNode es → AllRational es
  | [], _ => trivial
  | e :: es, ⟨h, hs⟩ => ⟨isRational_of_polynomial e h, allRational_of_polynomials es hs⟩

end

variable {o : Overflow}

lemma sum_monomials {args : List Expr} (h : ∀ t ∈ args.flatMap terms, t.IsMonomial) :
    Meets anyHalt (Expr.sum o args) IsMultipliedOut :=
  (keepsMonomials_at o _).sum_monomials args fun t ht => (h t ht).loose

lemma sum_of_monomials {ts : List Expr} (h : ∀ t ∈ ts, t.IsMonomial) : Meets anyHalt (Expr.sum o ts) IsMultipliedOut := by
  refine sum_monomials fun t ht => ?_
  obtain ⟨s, hs, ht⟩ := List.mem_flatMap.mp ht
  exact (h s hs).multipliedOut t ht

lemma multiplyOut_monomials {as bs : List Expr} (ha : ∀ a ∈ as, a.IsMonomial) (hb : ∀ b ∈ bs, b.IsMonomial) :
    Meets anyHalt (multiplyOut o as bs) fun cs => ∀ c ∈ cs, c.IsMonomial := by
  refine meets_mapM_forall fun p hp => ?_
  obtain ⟨a, hp₁, hp⟩ := List.mem_flatMap.mp hp
  obtain ⟨b, hp₂, rfl⟩ := List.mem_map.mp hp
  refine (keepsMonomials_at o _).product_monomials _ ?_
  simpa using ⟨(ha a hp₁).loose, (hb b hp₂).loose⟩

lemma powerTerms_monomials {ts : List Expr} (h : ∀ t ∈ ts, t.IsMonomial) (n : Nat) :
    Meets anyHalt (powerTerms o ts n) fun cs => ∀ c ∈ cs, c.IsMonomial := by
  induction n with
  | zero => exact h
  | succ n ih => exact ih.bind fun as has => multiplyOut_monomials has h

lemma expandPower_multipliedOut {b : Expr} {k : Int} (hb : b.IsMultipliedOut) (h0 : 0 < k) (hk : k ≤ expansionLimit) :
    Meets anyHalt (expandPower o b (int k)) IsMultipliedOut := by
  have hmonomial (hb : b.IsMonomial) : Meets anyHalt (Expr.pow o b (int k)) IsMultipliedOut :=
    ((keepsMonomials_at o _).pow_monomial b k hb h0).mono fun r hr => hr.multipliedOut
  cases b with
  | plus ts =>
    show Meets anyHalt (if 2 ≤ k ∧ k ≤ expansionLimit then _ else Expr.pow o (.plus ts) (int k)) _
    split
    · exact (powerTerms_monomials hb _).bind fun cs hcs => sum_of_monomials hcs
    · obtain rfl : k = 1 := by omega
      exact hb
  | num | symbol | constant | times | power | call => exact hmonomial (hb _ (List.mem_singleton_self _))

mutual

lemma expand_multipliedOut : (e : Expr) → Everywhere WritableNode e → e.IsPolynomial →
    Meets anyHalt (expand o e) IsMultipliedOut
  | .num _, _, _ => (isMonomial_number rfl).multipliedOut
  | .symbol x, _, _ => (IsSymbolPower.isMonomial (f := .symbol x) trivial).multipliedOut
  | .constant _, _, h => h.elim
  | .plus ts, ⟨_, hw⟩, ⟨_, h⟩ => by
    rw [expand]
    refine (expandAll_multipliedOut ts hw h).bind fun es hes => sum_monomials fun t ht => ?_
    obtain ⟨e, he, ht⟩ := List.mem_flatMap.mp ht
    exact hes e he t ht
  | .times fs, ⟨_, hw⟩, ⟨_, h⟩ => by
    rw [expand]
    have hone : ∀ e ∈ [int 1], e.IsMonomial := by simpa using isMonomial_int 1
    exact (expandProduct_monomials fs hw h [int 1] hone).bind fun cs hcs => sum_of_monomials hcs
  | .power b e, ⟨⟨_, _, hkeeps⟩, hw, _⟩, ⟨⟨k, he, h0, hk⟩, h, _⟩ => by
    subst he
    have hbase : b.KeepsExponent k := hkeeps k rfl
    -- only sums and symbols are left standing under a positive whole exponent
    cases b with
    | plus ts =>
      rw [expand]
      exact (expand_multipliedOut (.plus ts) hw h).bind fun c hc => expandPower_multipliedOut hc h0 (hk ts rfl)
    | symbol x => exact ((keepsMonomials_at o _).pow_symbol x (.ofInt k)).mono fun r hr => hr.isMonomial.multipliedOut
    | num n => exact absurd hbase.2 (by omega)
    | constant => exact h.elim
    | call => exact h.1.elim
    | times | power => exact hbase.elim
  | .call _ _, _, h => h.1.elim

lemma expandAll_multipliedOut : (es : List Expr) → EverywhereAll WritableNode es → EverywhereAll PolynomialNode es →
    Meets anyHalt (expandAll o es) fun rs => ∀ r ∈ rs, r.IsMultipliedOut
  | [], _, _ => List.forall_mem_nil _
  | e :: es, ⟨hw, hws⟩, ⟨h, hs⟩ => by
    rw [expandAll]
    exact (expand_multipliedOut e hw h).bind fun r hr => (expandAll_multipliedOut es hws hs).bind fun rs hrs =>
      List.forall_mem_cons.mpr ⟨hr, hrs⟩

lemma expandProduct_monomials : (es : List Expr) → EverywhereAll WritableNode es → EverywhereAll PolynomialNode es →
    (acc : List Expr) → (∀ a ∈ acc, a.IsMonomial) →
      Meets anyHalt (expandProduct o acc es) fun cs => ∀ c ∈ cs, c.IsMonomial
  | [], _, _, _, hacc => hacc
  | e :: es, ⟨hw, hws⟩, ⟨h, hs⟩, acc, hacc => by
    rw [expandProduct]
    exact (expand_multipliedOut e hw h).bind fun f hf => (multiplyOut_monomials hacc hf).bind fun cs hcs =>
      expandProduct_monomials es hws hs cs hcs

end

end PlaneCalculus.Expr
