import PlaneCalculus.Proofs.Expr.Expansion
import PlaneCalculus.Proofs.Expr.MonomialProduct

/-! Multiplying out brings polynomials into a normal form: a sum of different monomials in their order, a number last.
Two polynomials have the same normal form exactly if they are equal. -/

namespace PlaneCalculus.Expr

open Calc
open MvPolynomial (X monomial coeff)

-- Where the exact range ends does not matter here.
attribute [local irreducible] Number.fits

variable {sum product : List Expr → Calc Expr} {pow : Expr → Expr → Calc Expr} {text : Expr → Calc String}

/-! ### Equality of terms -/

mutual

lemma same_self : (e : Expr) → e.IsRational → same e e = true
  | .num n, h => by
    obtain ⟨q, rfl⟩ := Number.exists_exact h
    exact decide_eq_true rfl
  | .symbol _, _ => beq_self_eq_true _
  | .plus ts, h => sameAll_self ts h
  | .times fs, h => sameAll_self fs h
  | .power b e, ⟨hb, k, he⟩ => by
    obtain rfl := eq_int_of_integer? he
    exact Bool.and_eq_true_iff.mpr ⟨same_self b hb, decide_eq_true rfl⟩

lemma sameAll_self : (es : List Expr) → AllRational es → sameAll es es = true
  | [], _ => rfl
  | e :: es, ⟨h, hs⟩ => Bool.and_eq_true_iff.mpr ⟨same_self e h, sameAll_self es hs⟩

end

lemma monomialTree_same {l m : List (String × ℕ)} (hl : Ascending l) (hm : Ascending m) :
    (monomialTree 1 l == monomialTree 1 m) = true ↔ l = m := by
  constructor
  · intro h
    exact (monomialTree_inj one_ne_zero hl hm (value_same _ _ _ h).1).2
  · rintro rfl
    exact same_self _ (isRational_of_defined _ _ (monomialTree_value 1 l).1)

/-! ### Collecting terms -/

/-- Coefficients of different monomials. -/
structure Coefficients (L : List (ℚ × List (String × ℕ))) : Prop where
  proper : ∀ p ∈ L, p.2 ≠ [] ∧ Ascending p.2
  nodup : (L.map (·.2)).Nodup

/-- The monomial as it stands among the terms that are collected. -/
def termEntry (p : ℚ × List (String × ℕ)) : Expr × Number := (monomialTree 1 p.2, .exact p.1)

lemma coefficients_cons {p : ℚ × List (String × ℕ)} {L : List (ℚ × List (String × ℕ))} :
    Coefficients (p :: L) ↔ (p.2 ≠ [] ∧ Ascending p.2) ∧ p.2 ∉ L.map (·.2) ∧ Coefficients L := by
  constructor
  · rintro ⟨hproper, hnodup⟩
    rw [List.forall_mem_cons] at hproper
    rw [List.map_cons, List.nodup_cons] at hnodup
    exact ⟨hproper.1, hnodup.1, hproper.2, hnodup.2⟩
  · rintro ⟨hp, hout, hproper, hnodup⟩
    exact ⟨List.forall_mem_cons.mpr ⟨hp, hproper⟩, List.nodup_cons.mpr ⟨hout, hnodup⟩⟩

lemma addCoefficient_terms (c : ℚ) {l : List (String × ℕ)} (hne : l ≠ []) (hl : Ascending l)
    {L : List (ℚ × List (String × ℕ))} (hL : Coefficients L) :
    Meets anyHalt (addCoefficient .refuse (monomialTree 1 l) (.exact c) (L.map termEntry)) fun out =>
      ∃ M, out = M.map termEntry ∧ Coefficients M ∧ ∀ m ∈ M.map (·.2), m = l ∨ m ∈ L.map (·.2) := by
  induction L with
  | nil => exact ⟨[(c, l)], rfl, coefficients_cons.mpr ⟨⟨hne, hl⟩, nofun, hL⟩, by simp⟩
  | cons p L ih =>
    obtain ⟨hp, hout, hL⟩ := coefficients_cons.mp hL
    show Meets anyHalt (if monomialTree 1 p.2 == monomialTree 1 l then _ else _) _
    split
    · refine (Overflow.meets_refuse_add p.1 c).bind fun d hd => ?_
      exact ⟨(p.1 + c, p.2) :: L, by rw [hd]; rfl, coefficients_cons.mpr ⟨hp, hout, hL⟩, fun m hm => Or.inr hm⟩
    · next hsame =>
      have hdiff : p.2 ≠ l := fun heq => hsame ((monomialTree_same hp.2 hl).mpr heq)
      refine (ih hL).bind fun out ⟨M, hM, hcoeff, hmem⟩ => ?_
      refine ⟨p :: M, by rw [hM]; rfl, coefficients_cons.mpr ⟨hp, fun hm => ?_, hcoeff⟩, ?_⟩
      · exact (hmem p.2 hm).elim hdiff hout
      · rw [List.map_cons, List.map_cons, List.forall_mem_cons]
        exact ⟨Or.inr List.mem_cons_self, fun m hm => (hmem m hm).imp_right (List.mem_cons_of_mem _)⟩

lemma push_collected_eq {o : Overflow} {s : Collected} {e : Expr} (h : e.isNumber = false) : s.push o e = (do
    return { s with entries := ← addCoefficient o e.coeffRest.2 e.coeffRest.1 s.entries }) := by
  cases e with
  | num n => cases h
  | symbol | constant | plus | times | power | call => rfl

lemma collected_terms {es : List Expr} (h : ∀ t ∈ es, IsTerm t) :
    Meets anyHalt (es.foldlM (Collected.push .refuse) ⟨.ofInt 0, []⟩) fun s =>
      ∃ (q : ℚ) (L : List (ℚ × List (String × ℕ))), Coefficients L ∧ s = ⟨.exact q, L.map termEntry⟩ := by
  refine (meets_foldlM (fun rest s => (∀ t ∈ rest, IsTerm t) ∧
    ∃ (q : ℚ) (L : List (ℚ × List (String × ℕ))), Coefficients L ∧ s = ⟨.exact q, L.map termEntry⟩) ?_
    ⟨h, 0, [], ⟨nofun, List.nodup_nil⟩, rfl⟩).mono fun s hs => hs.2
  rintro t rest s ⟨hrest, q, L, hL, rfl⟩
  rw [List.forall_mem_cons] at hrest
  obtain ⟨⟨p, rfl⟩ | ⟨c, l, -, hne, hl, rfl⟩, hrest⟩ := hrest
  · exact (Overflow.meets_refuse_add q p).bind fun d hd => ⟨hrest, q + p, L, hL, by rw [hd]⟩
  · rw [push_collected_eq (monomialTree_isNumber c hne), coeffRest_monomialTree c hne]
    exact (addCoefficient_terms c hne hl hL).bind fun out ⟨M, hM, hcoeff, _⟩ => ⟨hrest, q, M, hcoeff, by rw [hM]⟩

/-! ### Normal forms -/

def Precedes (a b : Expr) : Prop := compareGroups a.coeffRest.2.degrees? b.coeffRest.2.degrees? = .lt

/-- Different monomials in their order. -/
structure IsBody (ts : List Expr) : Prop where
  proper : ∀ t ∈ ts, IsProper t
  sorted : ts.Pairwise Precedes

def withConstant (ts : List Expr) (q : ℚ) : List Expr := if q ≠ 0 ∨ ts = [] then ts ++ [.num (.exact q)] else ts

def IsNormal (e : Expr) : Prop := ∃ ts q, IsBody ts ∧ e = collapse 0 .plus (withConstant ts q)

lemma precedes_of_inOrder {a b : Expr} (ha : IsProper a) (hb : IsProper b) (h : InOrder text a b)
    (hne : a.coeffRest.2 ≠ b.coeffRest.2) : Precedes a b := by
  obtain ⟨x, y, hx, hy, hle⟩ := h
  obtain ⟨s, -, hx⟩ := bind_ok hx
  obtain ⟨t, -, hy⟩ := bind_ok hy
  cases hx
  cases hy
  rw [TermKey.compare_eq] at hle
  unfold Precedes
  cases hc : compareGroups a.coeffRest.2.degrees? b.coeffRest.2.degrees? with
  | lt => rfl
  | gt =>
    rw [hc] at hle
    cases hle
  | eq =>
    obtain ⟨c, l, -, hl, hlasc, rfl⟩ := ha
    obtain ⟨d, m, -, hm, hmasc, rfl⟩ := hb
    rw [coeffRest_monomialTree c hl, coeffRest_monomialTree d hm] at hne hc
    rw [degrees_monomialTree hlasc hl, degrees_monomialTree hmasc hm] at hc
    exact absurd (congrArg (monomialTree 1) (hlasc.eq_of_compare hmasc hc)) hne

lemma isBody_of_sorted {M : List (ℚ × List (String × ℕ))} (hM : Coefficients M) (hne : ∀ p ∈ M, p.1 ≠ 0)
    {us : List Expr} (hp : us.Perm (M.map fun p => monomialTree p.1 p.2)) (hs : us.Pairwise (InOrder text)) :
    IsBody us := by
  have hproper : ∀ t ∈ us, IsProper t := by
    intro t ht
    obtain ⟨p, hpM, rfl⟩ := List.mem_map.mp (hp.mem_iff.mp ht)
    exact ⟨p.1, p.2, hne p hpM, (hM.proper p hpM).1, (hM.proper p hpM).2, rfl⟩
  have hrests : (M.map fun p => (monomialTree p.1 p.2).coeffRest.2) = (M.map (·.2)).map (monomialTree 1) := by
    rw [List.map_map]
    exact List.map_congr_left fun p hpM => congrArg Prod.snd (coeffRest_monomialTree p.1 (hM.proper p hpM).1)
  have hnodup : (us.map fun t => t.coeffRest.2).Nodup := by
    rw [(hp.map _).nodup_iff, List.map_map, show ((fun t : Expr => t.coeffRest.2) ∘ fun p : ℚ × List (String × ℕ) =>
      monomialTree p.1 p.2) = fun p => (monomialTree p.1 p.2).coeffRest.2 from rfl, hrests]
    refine List.Nodup.map_on (fun l hl m hm heq => ?_) hM.nodup
    obtain ⟨p, hpM, rfl⟩ := List.mem_map.mp hl
    obtain ⟨q, hqM, rfl⟩ := List.mem_map.mp hm
    exact (monomialTree_inj one_ne_zero (hM.proper p hpM).2 (hM.proper q hqM).2 (congrArg _ heq)).2
  refine ⟨hproper, (hs.and (List.pairwise_map.mp hnodup)).imp_of_mem fun ha hb ⟨hle, hdiff⟩ => ?_⟩
  exact precedes_of_inOrder (hproper _ ha) (hproper _ hb) hle hdiff

lemma exact_isZero (q : ℚ) : (Number.exact q).isZero = decide (q = 0) := by
  rw [Bool.eq_iff_iff, Number.isZero_exact, decide_eq_true_iff]

section Sums

variable (K : KeepsTerms sum product pow text)
include K

lemma scaled_term {c : ℚ} {l : List (String × ℕ)} (hc : c ≠ 0) (hne : l ≠ []) (hl : Ascending l) :
    Meets anyHalt (product [.num (.exact c), monomialTree 1 l]) (· = monomialTree c l) := by
  have hone : IsTerm (monomialTree 1 l) := isTerm_monomialTree one_ne_zero hl
  have hfactors : ∀ f ∈ [.num (.exact c), monomialTree 1 l].flatMap factors, IsPlainFactor f := by
    rw [List.flatMap_cons, List.flatMap_singleton, List.forall_mem_append]
    exact ⟨List.forall_mem_singleton.mpr (Or.inl ⟨c, rfl⟩), hone.factors⟩
  have hdefined : ∀ e ∈ [.num (.exact c), monomialTree 1 l], Defined (X : String → MvPolynomial String ℚ) e := by
    simpa using hone.defined
  refine ((K.product_terms _ hfactors).and (K.product_value _ hdefined)).mono fun r ⟨hr, _, hv⟩ => ?_
  refine hr.eq_of_value hc hne hl ?_
  rw [hv, List.map_cons, List.map_singleton, List.prod_pair, (monomialTree_value 1 l).2, value_exact,
    MvPolynomial.algebraMap_eq, MvPolynomial.C_mul_monomial, mul_one]

lemma sumStep_normal {args : List Expr} (h : ∀ t ∈ args.flatMap terms, IsTerm t) :
    Meets anyHalt (sumStep .refuse product text args) IsNormal := by
  refine (collected_terms h).bind ?_
  rintro s ⟨q, L, hL, rfl⟩
  have hfilter : ((L.map termEntry).filter fun p => !p.2.isZero) = (L.filter fun p => p.1 ≠ 0).map termEntry := by
    rw [List.filter_map]
    refine congrArg (List.map termEntry) (List.filter_congr fun p _ => ?_)
    simp [termEntry, exact_isZero]
  have hsub : (L.filter fun p => p.1 ≠ 0).Sublist L := List.filter_sublist
  have hM : Coefficients (L.filter fun p => p.1 ≠ 0) :=
    ⟨fun p hp => hL.proper p (hsub.subset hp), hL.nodup.sublist (hsub.map _)⟩
  have hne : ∀ p ∈ L.filter fun p => p.1 ≠ 0, p.1 ≠ 0 := fun p hp => by simpa using (List.mem_filter.mp hp).2
  rw [hfilter]
  generalize (L.filter fun p => p.1 ≠ 0) = M at hM hne
  have hbuilt : Meets anyHalt ((M.map termEntry).mapM fun p => product [.num p.2, p.1])
      (· = M.map fun p => monomialTree p.1 p.2) := by
    rw [List.mapM_map]
    exact meets_mapM_eq fun p hp => scaled_term K (hne p hp) (hM.proper p hp).1 (hM.proper p hp).2
  refine hbuilt.bind fun ts hts => ?_
  subst hts
  have hsorted : Meets anyHalt (sortTerms text (M.map fun p => monomialTree p.1 p.2)) (·.Pairwise (InOrder text)) :=
    meets_anyHalt_iff.mpr fun us hus => sortTerms_sorted hus
  refine ((meets_sortTerms_perm text _).and hsorted).bind ?_
  rintro us ⟨hp, hs⟩
  refine ⟨us, q, isBody_of_sorted hM hne hp hs, congrArg (collapse 0 .plus) (if_congr ?_ rfl rfl)⟩
  simp [exact_isZero]

end Sums

/-! ### Uniqueness -/

lemma isNormal_term {e : Expr} (h : IsTerm e) : IsNormal e := by
  rcases h with ⟨q, rfl⟩ | h
  · exact ⟨[], q, ⟨nofun, List.Pairwise.nil⟩, by simp [withConstant, collapse]⟩
  · exact ⟨[e], 0, ⟨by simpa using h, List.pairwise_singleton _ _⟩, by simp [withConstant, collapse]⟩

lemma precedes_irrefl {a b : Expr} (h : a.coeffRest.2 = b.coeffRest.2) : ¬Precedes a b := by
  intro hab
  unfold Precedes at hab
  rw [h, @Std.ReflCmp.compare_self _ compareGroups] at hab
  cases hab

lemma coeff_monomialTree (d : String →₀ ℕ) (c : ℚ) (l : List (String × ℕ)) :
    coeff d (value (X : String → MvPolynomial String ℚ) (monomialTree c l)) = if degrees l = d then c else 0 := by
  rw [(monomialTree_value c l).2, MvPolynomial.coeff_monomial]

/-- A monomial stands in a sum with the coefficient it has in the polynomial. -/
lemma IsBody.mem_iff {ts : List Expr} (h : IsBody ts) {c : ℚ} {l : List (String × ℕ)} (hc : c ≠ 0)
    (hl : Ascending l) (hne : l ≠ []) :
    monomialTree c l ∈ ts ↔ coeff (degrees l) (ts.map (value (X : String → MvPolynomial String ℚ))).sum = c := by
  induction ts generalizing c with
  | nil => simpa using hc.symm
  | cons t ts ih =>
    obtain ⟨hproper, hsorted⟩ := h
    rw [List.forall_mem_cons] at hproper
    rw [List.pairwise_cons] at hsorted
    have htail := fun {d : ℚ} (hd : d ≠ 0) => ih ⟨hproper.2, hsorted.2⟩ hd
    obtain ⟨d, m, hd, hm, hmasc, rfl⟩ := hproper.1
    rw [List.map_cons, List.sum_cons, MvPolynomial.coeff_add, coeff_monomialTree, List.mem_cons]
    by_cases hlm : m = l
    · subst hlm
      have hout {a : ℚ} : monomialTree a m ∉ ts := by
        intro hmem
        refine precedes_irrefl ?_ (hsorted.1 _ hmem)
        rw [coeffRest_monomialTree _ hm, coeffRest_monomialTree _ hm]
      have hzero : coeff (degrees m) (ts.map (value (X : String → MvPolynomial String ℚ))).sum = 0 := by
        by_contra hne
        exact hout ((htail hne).mpr rfl)
      rw [if_pos rfl, hzero, add_zero, or_iff_left hout]
      exact ⟨fun heq => (monomialTree_inj hc hl hmasc (congrArg _ heq)).1.symm, fun heq => heq ▸ rfl⟩
    · rw [if_neg fun hdeg => hlm (hmasc.eq_of_degrees hl hdeg), zero_add, ← htail hc]
      exact or_iff_right fun heq => hlm (monomialTree_inj hc hl hmasc (congrArg _ heq)).2.symm

lemma IsBody.constant {ts : List Expr} (h : IsBody ts) :
    coeff 0 (ts.map (value (X : String → MvPolynomial String ℚ))).sum = 0 := by
  obtain ⟨hproper, -⟩ := h
  induction ts with
  | nil => simp
  | cons t ts ih =>
    rw [List.forall_mem_cons] at hproper
    obtain ⟨⟨c, l, -, hne, hl, rfl⟩, hrest⟩ := hproper
    rw [List.map_cons, List.sum_cons, MvPolynomial.coeff_add, coeff_monomialTree, if_neg (degrees_ne_zero hl hne),
      ih hrest, add_zero]

lemma normal_value {ts : List Expr} (h : IsBody ts) (q : ℚ) :
    HasValue (X : String → MvPolynomial String ℚ) (collapse 0 .plus (withConstant ts q))
      ((ts.map (value X)).sum + MvPolynomial.C q) := by
  have hdefined : ∀ t ∈ withConstant ts q, Defined (X : String → MvPolynomial String ℚ) t := by
    have hts : ∀ t ∈ ts, Defined (X : String → MvPolynomial String ℚ) t :=
      fun t ht => IsTerm.defined (Or.inr (h.proper t ht))
    unfold withConstant
    split
    · exact List.forall_mem_append.mpr ⟨hts, by simp⟩
    · exact hts
  obtain ⟨hd, hv⟩ := collapse_plus_value hdefined
  refine ⟨hd, hv.trans ?_⟩
  unfold withConstant
  split
  · simp
  · next hq =>
    obtain rfl : q = 0 := not_not.mp (not_or.mp hq).1
    simp

theorem IsNormal.eq_of_value {e f : Expr} (he : IsNormal e) (hf : IsNormal f)
    (h : value (X : String → MvPolynomial String ℚ) e = value X f) : e = f := by
  obtain ⟨ts, q, hts, rfl⟩ := he
  obtain ⟨us, p, hus, rfl⟩ := hf
  rw [(normal_value hts q).2, (normal_value hus p).2] at h
  have hconst := congrArg (coeff 0) h
  rw [MvPolynomial.coeff_add, MvPolynomial.coeff_add, hts.constant, hus.constant] at hconst
  obtain rfl : q = p := by simpa using hconst
  have hsum := add_right_cancel h
  have hirrefl : Std.Irrefl Precedes := ⟨fun a => precedes_irrefl rfl⟩
  have hantisymm : Std.Antisymm Precedes := ⟨fun a b hab hba => by
    have hswap : compareGroups a.coeffRest.2.degrees? b.coeffRest.2.degrees? = _ := Std.OrientedCmp.eq_swap
    rw [show compareGroups b.coeffRest.2.degrees? a.coeffRest.2.degrees? = .lt from hba] at hswap
    cases hab.symm.trans hswap⟩
  have hsub {ts us : List Expr} (hts : IsBody ts) (hus : IsBody us)
      (h : (ts.map (value (X : String → MvPolynomial String ℚ))).sum = (us.map (value X)).sum) {t : Expr}
      (ht : t ∈ ts) : t ∈ us := by
    obtain ⟨c, l, hc, hne, hl, rfl⟩ := hts.proper t ht
    rw [hus.mem_iff hc hl hne, ← h]
    exact (hts.mem_iff hc hl hne).mp ht
  obtain rfl : ts = us := List.Pairwise.eq_of_mem_iff hts.sorted hus.sorted fun t =>
    ⟨hsub hts hus hsum, hsub hus hts hsum.symm⟩
  rfl

/-! ### Multiplying out -/

lemma IsNormal.terms {e : Expr} (h : IsNormal e) : ∀ t ∈ e.terms, IsTerm t := by
  obtain ⟨ts, q, hts, rfl⟩ := h
  have hall : ∀ t ∈ withConstant ts q, IsTerm t := by
    have hproper : ∀ t ∈ ts, IsTerm t := fun t ht => Or.inr (hts.proper t ht)
    unfold withConstant
    split
    · exact List.forall_mem_append.mpr ⟨hproper, List.forall_mem_singleton.mpr (Or.inl ⟨q, rfl⟩)⟩
    · exact hproper
  generalize withConstant ts q = es at hall
  rcases es with _ | ⟨t, _ | ⟨u, es⟩⟩
  · exact List.forall_mem_singleton.mpr (isTerm_int 0)
  · rw [List.forall_mem_singleton] at hall
    rw [collapse, hall.terms_eq]
    exact List.forall_mem_singleton.mpr hall
  · exact hall

lemma sum_normal {args : List Expr} (h : ∀ t ∈ args.flatMap terms, IsTerm t) :
    Meets anyHalt (Expr.sum .refuse args) IsNormal :=
  sumStep_normal (keepsTerms_at _) h

lemma sum_of_terms {ts : List Expr} (h : ∀ t ∈ ts, IsTerm t) : Meets anyHalt (Expr.sum .refuse ts) IsNormal := by
  refine sum_normal fun t ht => ?_
  obtain ⟨s, hs, ht⟩ := List.mem_flatMap.mp ht
  rw [(h s hs).terms_eq, List.mem_singleton] at ht
  exact ht ▸ h s hs

lemma multiplyOut_terms {as bs : List Expr} (ha : ∀ a ∈ as, IsTerm a) (hb : ∀ b ∈ bs, IsTerm b) :
    Meets anyHalt (multiplyOut .refuse as bs) fun cs => ∀ c ∈ cs, IsTerm c := by
  refine meets_mapM_forall fun p hp => ?_
  obtain ⟨a, hmem, hp⟩ := List.mem_flatMap.mp hp
  obtain ⟨b, hmem', rfl⟩ := List.mem_map.mp hp
  refine (keepsTerms_at _).product_terms _ ?_
  rw [List.flatMap_cons, List.flatMap_singleton, List.forall_mem_append]
  exact ⟨(ha a hmem).factors, (hb b hmem').factors⟩

lemma powerTerms_terms {ts : List Expr} (h : ∀ t ∈ ts, IsTerm t) (n : Nat) :
    Meets anyHalt (powerTerms .refuse ts n) fun cs => ∀ c ∈ cs, IsTerm c := by
  induction n with
  | zero => exact h
  | succ n ih => exact ih.bind fun as has => multiplyOut_terms has h

lemma expandPower_normal {b : Expr} {k : Int} (hb : IsNormal b) (h0 : 0 < k)
    (hk : ∀ ts, b = .plus ts → k ≤ expansionLimit) : Meets anyHalt (expandPower .refuse b (int k)) IsNormal := by
  have hterm (hb : IsTerm b) : Meets anyHalt (Expr.pow .refuse b (int k)) IsNormal :=
    ((keepsTerms_at _).pow_term b k hb h0).mono fun r hr => isNormal_term hr
  have hterms := hb.terms
  cases b with
  | plus ts =>
    show Meets anyHalt (if 2 ≤ k ∧ k ≤ expansionLimit then _ else Expr.pow .refuse (.plus ts) (int k)) _
    split
    · exact (powerTerms_terms hterms _).bind fun cs hcs => sum_of_terms hcs
    · have hlimit := hk ts rfl
      obtain rfl : k = 1 := by omega
      exact hb
  | num | symbol | constant | times | power | call => exact hterm (hterms _ (List.mem_singleton_self _))

/-- Exact numbers, symbols, sums, products and positive whole powers, where the power of what is multiplied out to a sum
is small enough to be multiplied out itself. -/
def ExpandableNode : Expr → Prop
  | .num n => n.isExact = true
  | .constant _ => False
  | .call _ _ => False
  | .power b e => ∃ k, e = int k ∧ 0 < k ∧ ∀ ts, expand .approximate b = .ok (.plus ts) → k ≤ expansionLimit
  | _ => True

mutual

lemma expand_normal : (e : Expr) → Everywhere ExpandableNode e → Meets anyHalt (expand .refuse e) IsNormal
  | .num n, h => by
    obtain ⟨q, rfl⟩ := Number.exists_exact h
    exact isNormal_term (Or.inl ⟨q, rfl⟩)
  | .symbol x, _ => isNormal_term (isTerm_raised (p := (x, 1)) Nat.one_pos)
  | .constant _, h => h.elim
  | .plus ts, ⟨_, h⟩ => by
    rw [expand]
    refine (expandAll_normal ts h).bind fun es hes => sum_normal fun t ht => ?_
    obtain ⟨e, he, ht⟩ := List.mem_flatMap.mp ht
    exact (hes e he).terms t ht
  | .times fs, ⟨_, h⟩ => by
    rw [expand]
    have hone : ∀ e ∈ [int 1], IsTerm e := List.forall_mem_singleton.mpr (isTerm_int 1)
    exact (expandProduct_terms fs h [int 1] hone).bind fun cs hcs => sum_of_terms hcs
  | .power b e, ⟨⟨k, he, h0, hk⟩, hb, _⟩ => by
    subst he
    rw [expand]
    refine ((expand_normal b hb).and (expand_normal b hb).self).bind fun c ⟨hc, hrun⟩ => ?_
    refine expandPower_normal hc h0 fun ts hts => hk ts ?_
    rw [← hts]
    exact (expand_consistent b).agrees c hrun
  | .call _ _, h => h.1.elim

lemma expandAll_normal : (es : List Expr) → EverywhereAll ExpandableNode es →
    Meets anyHalt (expandAll .refuse es) fun rs => ∀ r ∈ rs, IsNormal r
  | [], _ => List.forall_mem_nil _
  | e :: es, ⟨h, hs⟩ => by
    rw [expandAll]
    exact (expand_normal e h).bind fun r hr => (expandAll_normal es hs).bind fun rs hrs =>
      List.forall_mem_cons.mpr ⟨hr, hrs⟩

lemma expandProduct_terms : (es : List Expr) → EverywhereAll ExpandableNode es → (acc : List Expr) →
    (∀ a ∈ acc, IsTerm a) → Meets anyHalt (expandProduct .refuse acc es) fun cs => ∀ c ∈ cs, IsTerm c
  | [], _, _, hacc => hacc
  | e :: es, ⟨h, hs⟩, acc, hacc => by
    rw [expandProduct]
    exact (expand_normal e h).bind fun f hf => (multiplyOut_terms hacc hf.terms).bind fun cs hcs =>
      expandProduct_terms es hs cs hcs

end

mutual

lemma defined_of_expandable : (e : Expr) → Everywhere ExpandableNode e →
    Defined (X : String → MvPolynomial String ℚ) e
  | .num _, h => h
  | .symbol _, _ => trivial
  | .constant _, h => h.elim
  | .plus ts, ⟨_, h⟩ => allDefined_of_expandable ts h
  | .times fs, ⟨_, h⟩ => allDefined_of_expandable fs h
  | .power b _, ⟨⟨k, he, h0, _⟩, hb, _⟩ => ⟨defined_of_expandable b hb, k, he ▸ rfl, Or.inr h0.le⟩
  | .call _ _, h => h.1.elim

lemma allDefined_of_expandable : (es : List Expr) → EverywhereAll ExpandableNode es →
    AllDefined (X : String → MvPolynomial String ℚ) es
  | [], _ => trivial
  | e :: es, ⟨h, hs⟩ => ⟨defined_of_expandable e h, allDefined_of_expandable es hs⟩

end

/-! ### Sums outside -/

def SumFree (e : Expr) : Prop := Everywhere (fun e => ∀ ts, e ≠ .plus ts) e

/-- No sum stands below a product or a power. -/
def OuterSumNode : Expr → Prop
  | .times fs => ∀ f ∈ fs, SumFree f
  | .power b e => SumFree b ∧ SumFree e
  | _ => True

lemma SumFree.outer {e : Expr} (h : SumFree e) : Everywhere OuterSumNode e := by
  refine Everywhere.imp (fun e he => ?_) e h
  cases e with
  | times fs => exact ((everywhere_times fs).mp he).2
  | power b e => exact he.2
  | num | symbol | constant | plus | call => trivial

lemma IsPlainFactor.sumFree {f : Expr} (h : IsPlainFactor f) : SumFree f := by
  rcases h with ⟨q, rfl⟩ | ⟨p, -, rfl⟩
  · exact nofun
  · rcases raised_cases p with ⟨h, -⟩ | h <;> rw [h]
    · exact nofun
    · exact ⟨nofun, nofun, nofun⟩

lemma IsTerm.sumFree {e : Expr} (h : IsTerm e) : SumFree e := by
  have hfactors := h.factors
  cases e with
  | times fs => exact (everywhere_times fs).mpr ⟨nofun, fun f hf => (hfactors f hf).sumFree⟩
  | num | symbol | constant | plus | power | call => exact (hfactors _ (List.mem_singleton_self _)).sumFree

lemma IsNormal.outer {e : Expr} (h : IsNormal e) : Everywhere OuterSumNode e := by
  have hterms := h.terms
  cases e with
  | plus ts => exact (everywhere_plus ts).mpr ⟨trivial, fun t ht => (hterms t ht).sumFree.outer⟩
  | num | symbol | constant | times | power | call => exact (hterms _ (List.mem_singleton_self _)).sumFree.outer

/-! ### Normal forms of polynomials -/

/-- The polynomial that an expression denotes. -/
noncomputable def polynomial (e : Expr) : MvPolynomial String ℚ := value X e

end PlaneCalculus.Expr
