import PlaneCalculus.Proofs.Formula.Writable
import PlaneCalculus.Proofs.Formula.Writing

/-! The written form of a rational expression is a formula, and the formula has the value of the expression. A term after
a minus sign is written as its negation; the sign covers all of it, unless it is a product of like bases, which may come
out of the negation as a sum. -/

open PlaneCalculus.Expr

namespace PlaneCalculus.Formula

open Calc

/-- The products that stand after a minus sign have distinct bases. -/
def MinusMerged : Expr → Prop
  | .plus ts => ∀ t ∈ ts.tail, t.isNegativeTerm = true → DistinctBases t
  | _ => True

def meaning (e : Expr) : Meaning := ⟨fun ρ => Defined ρ e ∧ Everywhere MinusMerged e, fun ρ => value ρ e⟩

/-! ### Negation -/

/-- A negative number, or a product with a negative number and distinct bases, is negated as it should be: the factors
are the same up to order, and only a number has changed. -/
lemma negated_term {t : Expr} (h : Writable t) (hneg : t.isNegativeTerm = true) (hd : DistinctBases t) (n : Nat) :
    Meets anyHalt (productAt .refuse n [int (-1), t]) fun r =>
      (∃ c, r = .num c) ∨ ∃ c, ∃ gs : List Expr, gs.Perm (nonNumbers t.factors) ∧ (∀ us, gs ≠ [.plus us]) ∧
        r = assembled c gs := by
  cases n with
  | zero => trivial
  | succ n =>
    have hargs : nonNumbers ([int (-1), t].flatMap factors) = nonNumbers t.factors := by
      simp [factors, int, nonNumbers_num]
    have hapart : ∀ us, nonNumbers t.factors ≠ [.plus us] := by
      intro us hus
      cases t with
      | times fs =>
        obtain ⟨hshape, hnode⟩ := h.nodes.1
        rcases hshape.cases with hfs | ⟨c, hfs, -⟩
        · have htwo := hshape.two
          rw [hfs, show nonNumbers fs = [.plus us] from hus] at htwo
          simp at htwo
        · exact hnode c us (hfs.trans (congrArg _ hus))
      | num => cases hus
      | symbol | constant | plus | power | call => cases hneg
    have hpow : ∀ f ∈ nonNumbers t.factors,
        Meets anyHalt (powerAt .refuse n f.baseExponent.1 f.baseExponent.2) (· = f) := fun f hf =>
      (h.factors f (mem_nonNumbers.mp hf).1).raised_again .refuse n
    refine meets_anyHalt_iff.mpr fun r hr => ?_
    obtain ⟨c, hc, -⟩ := (productStep_distinct hargs (h.distinctFactors hd) hpow).value hr
    rcases (finishProduct_apart hapart).value hc with hnum | ⟨gs, hp, rfl⟩
    · exact Or.inl ⟨c, hnum⟩
    · refine Or.inr ⟨c, gs, hp, fun us hus => ?_, rfl⟩
      subst hus
      exact hapart us (List.perm_singleton.mp hp.symm)

lemma factors_minusMerged {e : Expr} (h : Everywhere MinusMerged e) : ∀ f ∈ e.factors, Everywhere MinusMerged f := by
  cases e with
  | times fs => exact ((everywhere_times fs).mp h).2
  | num | symbol | constant | plus | power | call => simpa [factors] using h

/-- The negation of a term that has a minus sign before it. -/
lemma negated_written {t : Expr} (h : Writable t) (hneg : t.isNegativeTerm = true) (n : Nat) :
    Meets anyHalt (productAt .refuse n [int (-1), t]) fun r => Writable r ∧
      (∀ ρ : String → ℚ, Defined ρ t → HasValue ρ r (-value ρ t)) ∧
      (DistinctBases t → (∀ us, r ≠ .plus us) ∧ (Everywhere MinusMerged t → Everywhere MinusMerged r)) := by
  have hargs : ∀ e ∈ [int (-1), t], Writable e := by simpa using ⟨writable_int (by decide), h⟩
  refine meets_anyHalt_iff.mpr fun r hr => ⟨(product_writable n hargs).value hr, fun ρ hρ => ?_, fun hd => ?_⟩
  · have hdef : ∀ e ∈ [int (-1), t], Defined ρ e := by simpa using hρ
    have hv := ((keepsValues_at ρ n).product_value _ hdef).value hr
    simpa using hv
  · rcases (negated_term h hneg hd n).value hr with ⟨c, rfl⟩ | ⟨c, gs, hp, hapart, rfl⟩
    · exact ⟨nofun, fun _ => trivial⟩
    · refine ⟨assembled_ne_plus hapart c, fun hm => assembled_everywhere trivial trivial (fun _ => trivial) fun g hg => ?_⟩
      exact factors_minusMerged hm g (mem_nonNumbers.mp (hp.mem_iff.mp hg)).1

/-! ### Numbers -/

lemma toList_toString_nat (n : Nat) : (toString n).toList = digits n := String.toList_ofList

lemma toList_toString_int (k : Int) :
    (toString k).toList = if k < 0 then '-' :: digits k.natAbs else digits k.natAbs := by
  cases k with
  | ofNat n => exact toList_toString_nat n
  | negSucc n =>
    rw [if_pos (Int.negSucc_lt_zero n)]
    show ("-" ++ toString (n + 1)).toList = '-' :: digits (n + 1)
    rw [String.toList_append, toList_toString_nat]
    rfl

lemma writes_int {k : Int} (h : (k.natAbs : Int) < Number.bound) :
    Writes ProductForm (.const k) (toString k).toList := by
  have hdigits := (writes_digits h).power.signed.product
  rw [toList_toString_int]
  split
  · next hk =>
    refine hdigits.neg.narrow fun ρ _ => ⟨trivial, ?_⟩
    have hk' : (k.natAbs : Int) = -k := by omega
    show -((k.natAbs : ℕ) : ℚ) = k
    rw [← Int.cast_natCast, hk', Int.cast_neg, neg_neg]
  · next hk =>
    refine hdigits.narrow fun ρ _ => ⟨trivial, ?_⟩
    have hk' : (k.natAbs : Int) = k := by omega
    show ((k.natAbs : ℕ) : ℚ) = k
    rw [← Int.cast_natCast, hk']

lemma writes_number {q : ℚ} (h : Number.Bounded (.exact q)) :
    Writes ProductForm (.const q) (Number.text (.exact q)).toList := by
  have hnum := writes_int h.1
  show Writes ProductForm _ (if q.den = 1 then toString q.num else toString q.num ++ "/" ++ toString q.den).toList
  split
  · next hd =>
    refine hnum.narrow fun ρ _ => ⟨trivial, ?_⟩
    exact Rat.coe_int_num_of_den_eq_one hd
  · rw [String.toList_append, String.toList_append, toList_toString_nat, List.append_assoc]
    have hden : Writes SignedForm (.const (q.den : ℚ)) (digits q.den) := (writes_digits h.2).power.signed
    refine (hnum.over hden).narrow fun ρ _ => ⟨⟨trivial, trivial, ?_⟩, Rat.num_div_den q⟩
    show (q.den : ℚ) ≠ 0
    exact_mod_cast q.den_nz

/-! ### What is known of the parts -/

structure Written (e : Expr) (t : String) : Prop where
  sum : Writes SumForm (meaning e) t.toList
  product : (∀ ts, e ≠ .plus ts) → Writes ProductForm (meaning e) t.toList
  power : ∀ b x, e = .power b x → x.isNegativeNumber = false → Writes PowerForm (meaning e) t.toList
  atom : e.isBracketedBase = false → Writes AtomForm (meaning e) t.toList

lemma written_of_product {e : Expr} {t : String} (h : Writes ProductForm (meaning e) t.toList)
    (hpower : ∀ b x, e = .power b x → x.isNegativeNumber = true) (hatom : e.isBracketedBase = true) : Written e t where
  sum := h.sum
  product _ := h
  power b x he hx := absurd hx (by simp [hpower b x he])
  atom ha := absurd ha (by simp [hatom])

lemma written_of_atom {e : Expr} {t : String} (h : Writes AtomForm (meaning e) t.toList) : Written e t where
  sum := h.power.signed.product.sum
  product _ := h.power.signed.product
  power _ _ _ _ := h.power
  atom _ := h

lemma number_written {q : ℚ} (h : Number.Bounded (.exact q)) : Written (.num (.exact q)) (Number.text (.exact q)) := by
  have hconst : (meaning (.num (.exact q))).Narrows (.const q) := fun ρ _ => ⟨trivial, rfl⟩
  have hproduct := (writes_number h).narrow hconst
  by_cases hb : isBracketedBase (.num (.exact q)) = true
  · exact written_of_product hproduct nofun hb
  · simp only [isBracketedBase, ne_eq, Bool.or_eq_true, decide_eq_true_eq, not_or, not_not, not_lt] at hb
    obtain ⟨hden, hnum⟩ := hb
    refine written_of_atom ?_
    have htext : (Number.text (.exact q)).toList = digits q.num.natAbs := by
      rw [Number.text, if_pos hden, toList_toString_int, if_neg (by omega)]
    rw [htext]
    refine (writes_digits h.1).narrow fun ρ _ => ⟨trivial, ?_⟩
    have hk : (q.num.natAbs : Int) = q.num := by omega
    show ((q.num.natAbs : ℕ) : ℚ) = q
    rw [← Int.cast_natCast, hk]
    exact Rat.coe_int_num_of_den_eq_one hden

/-! ### Fractions -/

/-- What may stand below the line without brackets of its own. -/
def IsDivisor : Expr → Prop
  | .num n => ∃ j : Nat, n = .ofInt j
  | .symbol _ => True
  | .plus _ => True
  | .power _ x => x.isNegativeNumber = false
  | _ => False

lemma keeps_cases {b : Expr} {k : Int} (hb : Writable b) (hkeeps : b.KeepsExponent k) :
    b = int 0 ∨ IsDivisor b ∧ ∀ j, b.KeepsExponent j := by
  cases b with
  | num m =>
    obtain ⟨rfl, -⟩ := hkeeps
    exact Or.inl rfl
  | symbol | plus => exact Or.inr ⟨trivial, fun _ => trivial⟩
  | constant | call => exact hb.rational.elim
  | times | power => exact hkeeps.elim

/-- Below the line the sign of the exponent is changed. -/
lemma raised_divisor {b : Expr} {k : Int} (h : Writable (.power b (int k))) (hk : k < 0) (n : Nat) :
    Meets anyHalt (powerAt .refuse n b (int (-k))) fun r => Writable r ∧ IsDivisor r ∧
      ∀ ρ, (meaning (.power b (int k))).Defined ρ →
        (meaning r).Defined ρ ∧ value ρ r ≠ 0 ∧ (value ρ r)⁻¹ = value ρ (.power b (int k)) := by
  obtain ⟨hb, hbound, -, -, hkeeps⟩ := h.power
  cases n with
  | zero => trivial
  | succ n =>
    rcases keeps_cases hb hkeeps with rfl | ⟨hdivisor, hall⟩
    · rw [powerAt, powerStep_zero (by omega)]
      refine ⟨hb, ⟨0, rfl⟩, fun ρ hρ => ?_⟩
      rcases ((defined_power ρ _ k).mp hρ.1).2 with hunit | hk'
      · simp at hunit
      · omega
    · have hvalue (ρ : String → ℚ) (hρ : (meaning (.power b (int k))).Defined ρ) :
          Defined ρ b ∧ Everywhere MinusMerged b ∧ value ρ b ≠ 0 := by
        obtain ⟨hd, hr⟩ := (defined_power ρ b k).mp hρ.1
        exact ⟨hd, hρ.2.2.1, (raisable_rat.mp hr).resolve_right (by omega)⟩
      by_cases hone : -k = 1
      · rw [hone, powerAt, powerStep_one]
        refine ⟨hb, hdivisor, fun ρ hρ => ?_⟩
        obtain ⟨hd, hm, h0⟩ := hvalue ρ hρ
        obtain rfl : k = -1 := by omega
        exact ⟨⟨hd, hm⟩, h0, by rw [value_power, wholePower_rat, zpow_neg_one]⟩
      · rw [powerAt, powerStep_kept (by omega) hone (hall _)]
        obtain ⟨hz, hne⟩ := int_exponent (by omega : -k ≠ 0) hone
        refine ⟨⟨⟨⟨hz, hne, fun j _ => hall j⟩, hb.nodes, (writable_int (by omega)).nodes⟩, hb.rational, -k, rfl⟩,
          ?_, fun ρ hρ => ?_⟩
        · show (int (-k)).isNegativeNumber = false
          simp [isNegativeNumber, int, hk.le]
        · obtain ⟨hd, hm, h0⟩ := hvalue ρ hρ
          refine ⟨⟨(defined_power ρ b _).mpr ⟨hd, Or.inr (by omega)⟩, trivial, hm, trivial⟩, ?_, ?_⟩
          · rw [value_power, wholePower_rat]
            exact zpow_ne_zero _ h0
          · rw [value_power, value_power, wholePower_rat, wholePower_rat, zpow_neg, inv_inv]

/-- A fraction with the value of the product of the factors. -/
structure Stands (fs : List Expr) (s : Fraction) : Prop where
  coeff : ∃ q, s.coeff = .exact q ∧ Number.Bounded (.exact q)
  above : ∀ e ∈ s.above, Writable e
  below : ∀ e ∈ s.below, Writable e ∧ IsDivisor e
  value : ∀ ρ, (∀ f ∈ fs, (meaning f).Defined ρ) → (∀ e ∈ s.above, (meaning e).Defined ρ) ∧
    (∀ e ∈ s.below, (meaning e).Defined ρ ∧ Expr.value ρ e ≠ 0) ∧
    s.coeff.value * (s.above.map (Expr.value ρ)).prod / (s.below.map (Expr.value ρ)).prod = (fs.map (Expr.value ρ)).prod

lemma push_stands {fs : List Expr} {s : Fraction} {f : Expr} (h : Stands fs s) (hf : Writable f) (n : Nat) :
    Meets anyHalt (Fraction.push .refuse (powerAt .refuse n) s f) (Stands (fs ++ [f])) := by
  have habove : Stands (fs ++ [f]) { s with above := s.above ++ [f] } := by
    refine ⟨h.coeff, List.forall_mem_append.mpr ⟨h.above, by simpa using hf⟩, h.below, fun ρ hρ => ?_⟩
    rw [List.forall_mem_append] at hρ
    obtain ⟨hfs, hρf⟩ := hρ
    obtain ⟨ha, hb, hv⟩ := h.value ρ hfs
    refine ⟨List.forall_mem_append.mpr ⟨ha, hρf⟩, hb, ?_⟩
    simp only [List.map_append, List.map_cons, List.map_nil, List.prod_append, List.prod_singleton, ← hv]
    ring
  cases f with
  | num m =>
    obtain ⟨p, rfl, -⟩ := hf.number
    obtain ⟨q, hq, -⟩ := h.coeff
    show Meets anyHalt (Overflow.refuse.mul s.coeff (.exact p) >>= _) _
    rw [hq]
    refine ((Overflow.meets_refuse_mul q p).and (writable_readingLaw.meets_mul (.exact q) (.exact p))).bind ?_
    rintro c ⟨rfl, hc⟩
    refine ⟨⟨q * p, rfl, hc⟩, h.above, h.below, fun ρ hρ => ?_⟩
    rw [List.forall_mem_append] at hρ
    obtain ⟨ha, hb, hv⟩ := h.value ρ hρ.1
    refine ⟨ha, hb, ?_⟩
    rw [hq] at hv
    simp only [List.map_append, List.map_cons, List.map_nil, List.prod_append, List.prod_singleton, ← hv]
    show q * p * _ / _ = q * _ / _ * p
    ring
  | power b x =>
    obtain ⟨k, rfl⟩ := hf.exponent
    show Meets anyHalt (if (Number.ofInt k).isNegative then _ else _) _
    split
    · next hk =>
      have hk : k < 0 := by simpa using hk
      refine (Overflow.meets_refuse_neg k).bind ?_
      rintro c rfl
      rw [← Int.cast_neg]
      refine (raised_divisor hf hk n).bind fun r ⟨hr, hdivisor, hvalue⟩ => ?_
      refine ⟨h.coeff, h.above, List.forall_mem_append.mpr ⟨h.below, by simpa using ⟨hr, hdivisor⟩⟩, fun ρ hρ => ?_⟩
      rw [List.forall_mem_append] at hρ
      obtain ⟨hfs, hρf⟩ := hρ
      obtain ⟨ha, hb, hv⟩ := h.value ρ hfs
      obtain ⟨hd, h0, hinv⟩ := hvalue ρ (hρf _ List.mem_cons_self)
      refine ⟨ha, List.forall_mem_append.mpr ⟨hb, by simpa using ⟨hd, h0⟩⟩, ?_⟩
      simp only [List.map_append, List.map_cons, List.map_nil, List.prod_append, List.prod_singleton, ← hv, ← hinv]
      rw [div_mul_eq_div_div, div_eq_mul_inv _ (Expr.value ρ r)]
    · exact habove
  | symbol | constant | plus | times | call => exact habove

lemma ofFactors_stands {fs : List Expr} (h : ∀ f ∈ fs, Writable f) (n : Nat) :
    Meets anyHalt (Fraction.ofFactors .refuse (powerAt .refuse n) fs) (Stands fs) := by
  refine (meets_foldlM (fun rest s => (∀ f ∈ rest, Writable f) ∧ ∃ done, done ++ rest = fs ∧ Stands done s) ?_ ?_).mono ?_
  · rintro f rest s ⟨hrest, done, hdone, hs⟩
    rw [List.forall_mem_cons] at hrest
    refine (push_stands hs hrest.1 n).mono fun t ht => ⟨hrest.2, done ++ [f], by simp [hdone], ht⟩
  · exact ⟨h, [], rfl, ⟨1, rfl, (writable_int (k := 1) (by decide)).nodes⟩, nofun, nofun, fun ρ _ => ⟨nofun, nofun, by simp [Number.ofInt, Number.value]⟩⟩
  · rintro s ⟨-, done, hdone, hs⟩
    rw [List.append_nil] at hdone
    exact hdone ▸ hs

/-! ### Products -/

def productMeaning (es : List Expr) : Meaning :=
  ⟨fun ρ => ∀ e ∈ es, (meaning e).Defined ρ, fun ρ => (es.map (value ρ)).prod⟩

lemma joined_writes {es : List Expr} {ts : List String}
    (h : List.Forall₂ (fun e t => Writes ProductForm (meaning e) t.toList) es ts) (hne : es ≠ []) :
    Writes ProductForm (productMeaning es) ("*".intercalate ts).toList := by
  rw [String.toList_intercalate]
  induction h with
  | nil => exact absurd rfl hne
  | @cons e t es ts he hrest ih =>
    cases hrest with
    | nil =>
      refine Writes.narrow (k := meaning e) (by simpa [List.intercalate] using he) fun ρ hρ => ⟨hρ e (by simp), ?_⟩
      simp [meaning, productMeaning]
    | @cons f u es ts hf hrest =>
      rw [List.map_cons, List.map_cons, List.intercalate_cons_cons, ← List.map_cons, List.append_assoc]
      refine (he.mul (ih nofun)).narrow fun ρ hρ => ⟨List.forall_mem_cons.mp hρ, ?_⟩
      simp [Meaning.mul, meaning, productMeaning]

section Texts

variable {text : Expr → Calc String} (T : ∀ e, Writable e → Meets anyHalt (text e) (Written e))
include T

lemma factorText_writes {e : Expr} (h : Writable e) :
    Meets anyHalt (factorText text e) fun t => Writes ProductForm (meaning e) t.toList := by
  unfold factorText
  split
  · refine (T _ h).bind fun t ht => ?_
    show Writes ProductForm _ ("(" ++ t ++ ")").toList
    rw [String.toList_append, String.toList_append, List.append_assoc]
    exact ht.sum.group.power.signed.product
  · next hne => exact (T e h).mono fun t ht => ht.product hne

lemma factorTexts_write {es : List Expr} (h : ∀ e ∈ es, Writable e) (hne : es ≠ []) :
    Meets anyHalt (es.mapM (factorText text)) fun ts =>
      Writes ProductForm (productMeaning es) ("*".intercalate ts).toList :=
  (meets_mapM fun e he => factorText_writes T (h e he)).mono fun _ hts => joined_writes hts hne

lemma divisorText_writes {e : Expr} (h : Writable e) (hd : IsDivisor e) :
    Meets anyHalt (factorText text e) fun t => Writes SignedForm (meaning e) t.toList := by
  unfold factorText
  split
  · refine (T _ h).bind fun t ht => ?_
    show Writes SignedForm _ ("(" ++ t ++ ")").toList
    rw [String.toList_append, String.toList_append, List.append_assoc]
    exact ht.sum.group.power.signed
  · next hne =>
    refine (T e h).mono fun t ht => ?_
    cases e with
    | num n =>
      obtain ⟨j, rfl⟩ := hd
      exact (ht.atom (by simp [isBracketedBase, Number.ofInt, Int.not_lt.mpr])).power.signed
    | symbol x => exact (ht.atom rfl).power.signed
    | power b x => exact (ht.power b x rfl hd).signed
    | plus ts => exact (hne ts rfl).elim
    | constant | times | call => exact hd.elim

/-- What stands after the line divides all that stands before it. -/
lemma denominatorText_writes {es : List Expr} (h : ∀ e ∈ es, Writable e ∧ IsDivisor e) {m : Meaning} {v : List Char}
    (hv : Writes ProductForm m v) : Meets anyHalt (denominatorText text es) fun t =>
      Writes ProductForm ⟨fun ρ => m.Defined ρ ∧ ∀ e ∈ es, (meaning e).Defined ρ ∧ value ρ e ≠ 0,
        fun ρ => m.value ρ / (es.map (value ρ)).prod⟩ (v ++ t.toList) := by
  have hover {k : Meaning} {w : List Char} (hw : Writes SignedForm k w) (hk : ∀ ρ,
      (∀ e ∈ es, (meaning e).Defined ρ ∧ value ρ e ≠ 0) → k.Defined ρ ∧ k.value ρ ≠ 0 ∧ k.value ρ = (es.map (value ρ)).prod) :
      Writes ProductForm ⟨fun ρ => m.Defined ρ ∧ ∀ e ∈ es, (meaning e).Defined ρ ∧ value ρ e ≠ 0,
        fun ρ => m.value ρ / (es.map (value ρ)).prod⟩ (v ++ '/' :: w) := by
    refine (hv.over hw).narrow fun ρ ⟨hm, hes⟩ => ?_
    obtain ⟨hd, h0, hval⟩ := hk ρ hes
    exact ⟨⟨hm, hd, h0⟩, congrArg (m.value ρ / ·) hval⟩
  unfold denominatorText
  split
  · rw [meets_pure, String.toList_empty, List.append_nil]
    exact hv.narrow fun ρ hρ => ⟨hρ.1, by simp⟩
  · exact (h _ List.mem_cons_self).2.elim
  · next e _ =>
    obtain ⟨he, hd⟩ := h e List.mem_cons_self
    refine (divisorText_writes T he hd).bind fun t ht => ?_
    rw [meets_pure, String.toList_append]
    refine hover ht fun ρ hρ => ?_
    obtain ⟨hdef, h0⟩ := hρ e List.mem_cons_self
    exact ⟨hdef, h0, by simp [meaning]⟩
  · next hnil _ _ =>
    refine (factorTexts_write T (fun e he => (h e he).1) hnil).bind fun ts hts => ?_
    rw [meets_pure, String.toList_append, String.toList_append, List.append_assoc]
    refine hover hts.sum.group.power.signed fun ρ hρ => ⟨fun e he => (hρ e he).1, List.prod_ne_zero ?_, rfl⟩
    rw [List.mem_map]
    rintro ⟨e, he, h0⟩
    exact (hρ e he).2 h0

omit T in
lemma ofInt_isOne {k : Int} (h : (Number.ofInt k).isOne = true) : k = 1 := by
  have h' : (decide (k = 1) && decide (1 = 1)) = true := h
  simpa using h'

omit T in
lemma numerator_writable {s : Fraction} (h : ∀ e ∈ s.above, Writable e) {k : Int}
    (hk : (k.natAbs : Int) < Number.bound) : (∀ e ∈ s.numerator (.ofInt k), Writable e) ∧ s.numerator (.ofInt k) ≠ [] ∧
      ∀ ρ : String → ℚ, ((∀ e ∈ s.above, (meaning e).Defined ρ) → ∀ e ∈ s.numerator (.ofInt k), (meaning e).Defined ρ) ∧
        ((s.numerator (.ofInt k)).map (value ρ)).prod = k * (s.above.map (value ρ)).prod := by
  unfold Fraction.numerator
  split
  · next hone =>
    simp only [Bool.and_eq_true, Bool.not_eq_true', List.isEmpty_eq_false_iff] at hone
    obtain rfl := ofInt_isOne hone.1
    exact ⟨h, hone.2, fun ρ => ⟨id, by simp⟩⟩
  · refine ⟨List.forall_mem_cons.mpr ⟨writable_int hk, h⟩, nofun, fun ρ => ⟨fun ha => ?_, ?_⟩⟩
    · exact List.forall_mem_cons.mpr ⟨⟨rfl, trivial⟩, ha⟩
    · rw [List.map_cons, List.prod_cons]
      exact congrArg (· * _) (value_int ρ k)

omit T in
lemma denominator_divides {s : Fraction} (h : ∀ e ∈ s.below, Writable e ∧ IsDivisor e) {d : Nat} (h0 : d ≠ 0)
    (hd : (d : Int) < Number.bound) : (∀ e ∈ s.denominator (.ofInt d), Writable e ∧ IsDivisor e) ∧
      ∀ ρ : String → ℚ, ((∀ e ∈ s.below, (meaning e).Defined ρ ∧ value ρ e ≠ 0) →
          ∀ e ∈ s.denominator (.ofInt d), (meaning e).Defined ρ ∧ value ρ e ≠ 0) ∧
        ((s.denominator (.ofInt d)).map (value ρ)).prod = d * (s.below.map (value ρ)).prod := by
  have hvalue (ρ : String → ℚ) : value ρ (.num (.ofInt d)) = d := value_int ρ d
  unfold Fraction.denominator
  split
  · next hone =>
    have hd1 : (d : Int) = 1 := ofInt_isOne hone
    obtain rfl : d = 1 := by omega
    exact ⟨h, fun ρ => ⟨id, by simp⟩⟩
  · refine ⟨List.forall_mem_cons.mpr ⟨⟨writable_int (by simpa using hd), d, rfl⟩, h⟩, fun ρ => ⟨fun hb => ?_, ?_⟩⟩
    · refine List.forall_mem_cons.mpr ⟨⟨⟨rfl, trivial⟩, ?_⟩, hb⟩
      rw [hvalue]
      exact_mod_cast h0
    · rw [List.map_cons, List.prod_cons, hvalue]

omit T in
lemma abs_exact {q : ℚ} (h : Number.Bounded (.exact q)) : (Number.exact q).abs = .exact |q| := by
  obtain ⟨p, hp, hq⟩ := h.inRange
  cases hp
  show (if q.num = -Number.bound then _ else Number.exact (if q.num < 0 then -q else q)) = _
  rw [if_neg hq]
  split
  · next hneg => rw [abs_of_neg (Rat.num_neg.mp hneg)]
  · next hneg => rw [abs_of_nonneg (Rat.num_nonneg.mp (not_lt.mp hneg))]

lemma productText_writes {fs : List Expr} (h : ∀ f ∈ fs, Writable f) (n : Nat) :
    Meets anyHalt (productText .refuse (powerAt .refuse n) text fs) fun t =>
      Writes ProductForm (productMeaning fs) t.toList := by
  refine (ofFactors_stands h n).bind fun s hs => ?_
  obtain ⟨q, hq, hbound⟩ := hs.coeff
  have habs := Number.abs_bounded hbound
  rw [abs_exact hbound] at habs
  refine (meets_abs fun _ => trivial).bind fun c hc => ?_
  rw [hq, abs_exact hbound] at hc
  subst hc
  obtain ⟨habove, hne, hnum⟩ := numerator_writable hs.above habs.1
  obtain ⟨hbelow, hden⟩ := denominator_divides hs.below |q|.den_nz habs.2
  refine (factorTexts_write T habove hne).bind fun ts hts => ?_
  refine (denominatorText_writes T hbelow hts).bind fun t ht => ?_
  rw [meets_pure]
  -- the fraction without the sign of its coefficient
  have hbody (ρ : String → ℚ) (hρ : (productMeaning fs).Defined ρ) :
      ((∀ e ∈ s.numerator (.ofInt |q|.num), (meaning e).Defined ρ) ∧
        ∀ e ∈ s.denominator (.ofInt |q|.den), (meaning e).Defined ρ ∧ value ρ e ≠ 0) ∧
      (productMeaning (s.numerator (.ofInt |q|.num))).value ρ /
          ((s.denominator (.ofInt |q|.den)).map (value ρ)).prod =
        |q| * (s.above.map (value ρ)).prod / (s.below.map (value ρ)).prod := by
    obtain ⟨ha, hb, -⟩ := hs.value ρ hρ
    refine ⟨⟨(hnum ρ).1 ha, (hden ρ).1 hb⟩, ?_⟩
    show ((s.numerator (.ofInt |q|.num)).map (value ρ)).prod / _ = _
    rw [(hnum ρ).2, (hden ρ).2, mul_div_mul_comm, Rat.num_div_den, mul_div_assoc]
  have hvalue (ρ : String → ℚ) (hρ : (productMeaning fs).Defined ρ) : (productMeaning fs).value ρ =
      q * (s.above.map (value ρ)).prod / (s.below.map (value ρ)).prod := by
    have hv := (hs.value ρ hρ).2.2
    rw [hq] at hv
    exact hv.symm
  rw [hq]
  split
  · next hneg =>
    have hq0 : q < 0 := by simpa [Number.isNegative] using hneg
    rw [String.toList_append, String.toList_append]
    refine ht.neg.narrow fun ρ hρ => ⟨(hbody ρ hρ).1, ?_⟩
    show -(_ / _) = _
    rw [(hbody ρ hρ).2, hvalue ρ hρ, abs_of_neg hq0]
    ring
  · next hneg =>
    have hq0 : 0 ≤ q := by simpa [Number.isNegative] using hneg
    rw [String.toList_append]
    refine ht.narrow fun ρ hρ => ⟨(hbody ρ hρ).1, ?_⟩
    show _ / _ = _
    rw [(hbody ρ hρ).2, hvalue ρ hρ, abs_of_nonneg hq0]

/-! ### Powers -/

omit T in
lemma meaning_base {b : Expr} {k : Int} {ρ : String → ℚ} (h : (meaning (.power b (int k))).Defined ρ) :
    (meaning b).Defined ρ :=
  ⟨((defined_power ρ b k).mp h.1).1, h.2.2.1⟩

lemma baseText_writes {b : Expr} (hb : Writable b) : Meets anyHalt (text b) fun t =>
    Writes AtomForm (meaning b) (if b.isBracketedBase then "(" ++ t ++ ")" else t).toList := by
  refine (T b hb).mono fun t ht => ?_
  split
  · rw [String.toList_append, String.toList_append, List.append_assoc]
    exact ht.sum.group
  · next hbare => exact ht.atom (by simpa using hbare)

lemma powerText_written (hnumber : ∀ n, Meets anyHalt (text (.num n)) (· = n.text)) {b x : Expr}
    (h : Writable (.power b x)) (n : Nat) :
    Meets anyHalt (powerText .refuse (powerAt .refuse n) text b x) (Written (.power b x)) := by
  obtain ⟨k, rfl⟩ := h.exponent
  obtain ⟨hb, hbound, -⟩ := h.power
  have hhalf : ¬ (int k).isHalf = true := by
    show ¬ (decide (k = 1) && decide (1 = 2)) = true
    simp
  unfold powerText
  rw [if_neg hhalf]
  split
  · next hneg =>
    refine (productText_writes T (List.forall_mem_singleton.mpr h) n).mono fun t ht => ?_
    refine written_of_product (ht.narrow fun ρ hρ => ⟨List.forall_mem_singleton.mpr hρ, ?_⟩) ?_ rfl
    · simp [productMeaning, meaning]
    · rintro c y ⟨⟩
      exact hneg
  · next hneg =>
    have hk : 0 ≤ k := by simpa [isNegativeNumber, int] using hneg
    have hbare : (int k).isBareExponent = true := by
      show (decide (1 = 1) && decide (k ≥ 0)) = true
      simpa using hk
    refine (baseText_writes T hb).bind fun tb htb => ?_
    refine (hnumber (.ofInt k)).bind fun tk htk => ?_
    have hdigits : tk.toList = digits k.natAbs := by
      rw [htk, show (Number.ofInt k).text = toString k from rfl, toList_toString_int, if_neg (by omega)]
    have hpow : Writes PowerForm (meaning (.power b (int k)))
        (((if b.isBracketedBase then "(" ++ tb ++ ")" else tb) ++ "**") ++ tk).toList := by
      rw [String.toList_append, String.toList_append, List.append_assoc, hdigits]
      refine (htb.pow hbound).narrow fun ρ hρ => ⟨meaning_base hρ, ?_⟩
      show value ρ b ^ k.natAbs = value ρ (.power b (int k))
      rw [value_power, ← wholePower_natCast, show ((k.natAbs : Nat) : Int) = k by omega]
    rw [meets_pure, if_pos hbare]
    exact
      { sum := hpow.signed.product.sum
        product := fun _ => hpow.signed.product
        power := fun _ _ _ _ => hpow
        atom := nofun }

/-! ### Sums -/

/-- A sum with one more term. -/
def moreMeaning (m : Meaning) (t : Expr) : Meaning :=
  ⟨fun ρ => m.Defined ρ ∧ (meaning t).Defined ρ ∧ (t.isNegativeTerm = true → DistinctBases t),
    fun ρ => m.value ρ + value ρ t⟩

lemma restText_writes {t : Expr} (h : Writable t) (n : Nat) : Meets anyHalt (restText (productAt .refuse n) text t)
    fun w => ∀ m v, Writes SumForm m v → Writes SumForm (moreMeaning m t) (v ++ w.toList) := by
  unfold restText
  split
  · next hneg =>
    refine (negated_written h hneg n).bind fun r ⟨hr, hvalue, hmerged⟩ => (T r hr).bind fun w hw => ?_
    intro m v hv
    rw [String.toList_append]
    by_cases hplus : ∃ us, r = .plus us
    · obtain ⟨us, hus⟩ := hplus
      exact hv.sub_sum (fun ρ hρ => (hmerged (hρ.2.2 hneg)).1 us hus) hw.sum
    · have hproduct := hw.product fun us hus => hplus ⟨us, hus⟩
      refine (hv.sub hproduct).narrow fun ρ ⟨hm, ht, hd⟩ => ?_
      obtain ⟨hdef, hval⟩ := hvalue ρ ht.1
      refine ⟨⟨hm, hdef, (hmerged (hd hneg)).2 ht.2⟩, ?_⟩
      show m.value ρ - value ρ r = m.value ρ + value ρ t
      rw [hval, sub_neg_eq_add]
  · next hneg =>
    refine (T t h).bind fun w hw => ?_
    intro m v hv
    rw [String.toList_append]
    exact (hv.add hw.sum).narrow fun ρ hρ => ⟨⟨hρ.1, hρ.2.1⟩, rfl⟩

lemma restTexts_write {ts : List Expr} (h : ∀ t ∈ ts, Writable t) (n : Nat) :
    Meets anyHalt (ts.mapM (restText (productAt .refuse n) text)) fun ws => ∀ m v, Writes SumForm m v →
      Writes SumForm (ts.foldl moreMeaning m) (v ++ (String.join ws).toList) := by
  induction ts with
  | nil =>
    intro m v hv
    simpa using hv
  | cons t ts ih =>
    rw [List.forall_mem_cons] at h
    rw [List.mapM_cons]
    refine (restText_writes T h.1 n).bind fun w hw => (ih h.2).bind fun ws hws => ?_
    intro m v hv
    have hall := hws _ _ (hw m v hv)
    rw [String.toList_join] at hall ⊢
    simpa using hall

omit T in
lemma foldl_moreMeaning (ts : List Expr) (m : Meaning) (ρ : String → ℚ) :
    ((ts.foldl moreMeaning m).Defined ρ ↔
      m.Defined ρ ∧ ∀ t ∈ ts, (meaning t).Defined ρ ∧ (t.isNegativeTerm = true → DistinctBases t)) ∧
      (ts.foldl moreMeaning m).value ρ = m.value ρ + (ts.map (value ρ)).sum := by
  induction ts generalizing m with
  | nil => simp
  | cons t ts ih =>
    obtain ⟨hd, hv⟩ := ih (moreMeaning m t)
    refine ⟨?_, ?_⟩
    · rw [List.foldl_cons, hd, List.forall_mem_cons]
      simp only [moreMeaning]
      tauto
    · rw [List.foldl_cons, hv, List.map_cons, List.sum_cons, ← add_assoc]
      rfl

lemma textStep_written (hnumber : ∀ n, Meets anyHalt (text (.num n)) (· = n.text)) {e : Expr} (h : Writable e) (n : Nat) :
    Meets anyHalt (textStep .refuse (productAt .refuse n) (powerAt .refuse n) text e) (Written e) := by
  cases e with
  | num c =>
    obtain ⟨q, rfl, hq⟩ := h.number
    exact number_written hq
  | symbol x =>
    obtain ⟨hx, hf, hpi, he⟩ := h.nodes
    exact written_of_atom ((writes_symbol hx hf hpi he).narrow fun ρ _ => ⟨trivial, rfl⟩)
  | constant | call => exact h.rational.elim
  | times fs =>
    refine (productText_writes T (h.factors) n).mono fun t ht => written_of_product (ht.narrow fun ρ hρ => ?_) nofun rfl
    refine ⟨fun f hf => ⟨(defined_times ρ fs).mp hρ.1 f hf, ((everywhere_times fs).mp hρ.2).2 f hf⟩, ?_⟩
    exact (value_times ρ fs).symm
  | power b x => exact powerText_written T hnumber h n
  | plus ts =>
    cases ts with
    | nil => exact absurd h.nodes.1 (by simp [WritableNode])
    | cons t ts =>
      have hterms := List.forall_mem_cons.mp h.terms
      refine (T t hterms.1).bind fun w hw => (restTexts_write T hterms.2 n).bind fun ws hws => ?_
      have hall := hws _ _ hw.sum
      have hsum : Writes SumForm (meaning (.plus (t :: ts))) (w ++ String.join ws).toList := by
        rw [String.toList_append]
        refine hall.narrow fun ρ hρ => ?_
        obtain ⟨hd, hv⟩ := foldl_moreMeaning ts (meaning t) ρ
        obtain ⟨hnode, heach⟩ := (everywhere_plus _).mp hρ.2
        have hdef := (defined_plus ρ _).mp hρ.1
        refine ⟨hd.mpr ⟨⟨hdef t (by simp), heach t (by simp)⟩, fun u hu => ?_⟩, ?_⟩
        · exact ⟨⟨hdef u (by simp [hu]), heach u (by simp [hu])⟩, hnode u hu⟩
        · rw [hv]
          simp [meaning]
      exact
        { sum := hsum
          product := fun hne => absurd rfl (hne _)
          power := nofun
          atom := nofun }

end Texts

lemma textAt_written (n : Nat) {e : Expr} (h : Writable e) : Meets anyHalt (textAt .refuse n e) (Written e) := by
  induction n generalizing e with
  | zero => trivial
  | succ n ih =>
    refine textStep_written (fun e he => ih he) (fun c => ?_) h n
    cases n with
    | zero => trivial
    | succ n => rfl

/-! ### Reading what was written -/

lemma minusMerged_of_canonical {e : Expr} (h : Canonical e) : Everywhere MinusMerged e := by
  have hdistinct {t : Expr} (ht : Canonical t) (hneg : t.isNegativeTerm = true) : DistinctBases t := by
    cases t with
    | num => exact List.nodup_nil
    | times fs => exact ht.1.bases
    | symbol | constant | plus | power | call => cases hneg
  refine Everywhere.imp (fun e he => ?_) e h
  cases e with
  | plus ts => exact fun t ht => hdistinct (((everywhere_plus ts).mp he).2 t (List.mem_of_mem_tail ht))
  | num | symbol | constant | times | power | call => trivial

lemma text_writes {e : Expr} (h : Writable e) (ht : e.text .refuse ≠ .error .overflow) :
    ∃ t, e.text .approximate = .ok t ∧ Writes SumForm (meaning e) t.toList := by
  have htext : Meets anyHalt (e.text .refuse) (Written e) := textAt_written _ h
  obtain ⟨t, ht, hw⟩ := (text_consistent e).exists_value htext ht
  exact ⟨t, ht, hw.sum⟩

lemma read_written {m : Meaning} {t : String} (h : Writes SumForm m t.toList) : ∃ r, read .approximate t = .ok r ∧
    (read .refuse t ≠ .error (.halted .overflow) → ∀ ρ, m.Defined ρ → Expr.HasValue ρ r (m.value ρ)) := by
  obtain ⟨s, hd, hmis, hv⟩ := h
  have hs : Sentence s t.toList := ⟨[], t.toList, [], by simp, blank_nil, hd, blank_nil⟩
  obtain ⟨r, hr⟩ := s.failsAt.ok_iff.mp hmis
  refine ⟨r, (read_sentence hs _).trans hr, fun ho ρ hρ => ?_⟩
  rw [read_sentence hs] at ho
  exact s.holds_value _ (hv ρ hρ) r ((s.persists ho).symm.trans hr)

/-- What is read from a text and written again is a text that can be read, and it has the value of the expression, as
long as the products written after a minus sign have distinct bases. -/
theorem read_text {source : String} {e : Expr} (he : read .approximate source = .ok e) (hr : e.IsRational)
    (ht : e.text .refuse ≠ .error .overflow) :
    (Canonical e → Everywhere MinusMerged e) ∧ ∃ t, e.text .approximate = .ok t ∧ ∃ r, read .approximate t = .ok r ∧
      (Everywhere MinusMerged e → read .refuse t ≠ .error (.halted .overflow) → ∀ ρ : String → ℚ, Defined ρ e →
        Defined ρ r ∧ value ρ r = value ρ e) := by
  obtain ⟨t, ht, hw⟩ := text_writes (read_writable he hr) ht
  obtain ⟨r, hread, hv⟩ := read_written hw
  exact ⟨minusMerged_of_canonical, t, ht, r, hread, fun hm ho ρ hρ => hv ho ρ ⟨hρ, hm⟩⟩

/-- Half of `x**2`, less twice the inverse of `y`. -/
def difference : Expr :=
  .plus [.times [.num (.exact (1/2)), .power (.symbol "x") (int 2)], .times [int (-2), .power (.symbol "y") (int (-1))]]

/-- A product that has both `x` and its inverse among its factors, as it can be left behind where roots are multiplied,
added to `y`. -/
def unmerged : Expr :=
  .plus [.symbol "y", .times [int (-1), .power (.symbol "x") (int (-1)), .symbol "x", .plus [.symbol "x", int 1]]]

/-- A difference is read again with its value. A sum that has an unmerged product after its minus sign is not: the
negated product is written as `x - 1` without parentheses. -/
theorem read_text_differences :
    (∃ r, read .approximate "x**2/2 - 2/y" = .ok r ∧ ∀ ρ : String → ℚ, Defined ρ difference → Defined ρ r ∧
      value ρ r = value ρ difference) ∧
    unmerged.text .approximate = .ok "y - x + 1" ∧ ∃ r, read .approximate "y - x + 1" = .ok r ∧
      ∃ ρ : String → ℚ, Defined ρ unmerged ∧ value ρ r ≠ value ρ unmerged := by
  constructor
  · have he : read .approximate "x**2/2 - 2/y" = .ok difference := by cbv
    have ho : read .refuse "x**2/2 - 2/y" = .ok difference := by cbv
    have htext : difference.text .refuse = .ok "x**2/2 - 2/y" := by cbv
    have hr : difference.IsRational := ⟨⟨rfl, ⟨trivial, 2, rfl⟩, trivial⟩, ⟨rfl, ⟨trivial, -1, rfl⟩, trivial⟩, trivial⟩
    have hmerged : Everywhere MinusMerged difference := by
      have hnode : MinusMerged difference := by
        rintro t ht -
        obtain rfl := List.mem_singleton.mp ht
        exact List.nodup_singleton _
      exact ⟨hnode, ⟨trivial, trivial, ⟨trivial, trivial, trivial⟩, trivial⟩,
        ⟨trivial, trivial, ⟨trivial, trivial, trivial⟩, trivial⟩, trivial⟩
    obtain ⟨-, t, ht, r, hread, hvalue⟩ := read_text he hr (by simp [htext])
    obtain rfl : t = "x**2/2 - 2/y" := by
      have h := (text_consistent difference).agrees _ htext
      exact Except.ok.inj (ht.symm.trans h)
    exact ⟨r, hread, hvalue hmerged (by simp [ho])⟩
  · have htext : unmerged.text .approximate = .ok "y - x + 1" := by cbv
    have hread : read .approximate "y - x + 1" = .ok (.plus [.times [int (-1), .symbol "x"], .symbol "y", int 1]) := by
      cbv
    refine ⟨htext, _, hread, fun name => if name = "x" then 1 else 0, ?_, ?_⟩
    · simp [unmerged, raisable_rat]
    · norm_num [unmerged]

end PlaneCalculus.Formula
