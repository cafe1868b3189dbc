import PlaneCalculus.Proofs.Expr.Radical
import PlaneCalculus.Proofs.Expr.Settled
import PlaneCalculus.Proofs.Expr.SpecialValues

/-! Calls and powers of settled trees. -/

namespace PlaneCalculus

open Calc

namespace Func

lemma of_settled (f : Func) {a : Expr} (ha : a.Settled) : (f.of a).Settled := by
  rcases f.of_cases a with (⟨k, hk, hb⟩ | ⟨c, hc⟩ | ⟨g, hg⟩ | ⟨n, rfl, hn⟩) | ⟨v, w, rfl, -⟩ | hof
  · rw [hk]
    exact Expr.settled_int (by simp only [Number.bound]; omega)
  · rw [hc]
    trivial
  · rw [hg] at ha
    exact ha.2
  · rw [hn]
    exact Number.abs_inRange ha
  · obtain ⟨q, hq, -⟩ := ha
    cases hq
  · rw [hof]
    exact ⟨hof, ha⟩

end Func

namespace Expr

/-! ### Roots -/

lemma settled_half : Settled half := ⟨Rat.divInt 1 2, rfl, by decide⟩

lemma settled_power {b e : Expr} (hb : Settled b) (he : Settled e) (hz : e.isZero = false) (hone : e.isInt 1 = false)
    (hstep : ∀ product pow, powerStep .refuse product pow b e = .ok (.power b e)) : Settled (.power b e) :=
  ⟨⟨hz, hone, hstep⟩, hb, he⟩

lemma ofFraction?_root {i : Nat} (hi : i ≠ 1) (hparts : Radical.squareParts i = (1, (i : Int))) :
    Radical.ofFraction? i 1 = none ∨ Radical.ofFraction? i 1 = some (.power (int i) half) := by
  unfold Radical.ofFraction?
  split
  · exact Or.inl rfl
  · right
    have hone : (Number.ofParts 1 1).isOne = true := by decide
    simp only [mul_one, hparts, hone, if_true]
    rw [if_neg (by exact_mod_cast hi)]

lemma isInt_one_nat {i : Nat} (hi : i ≠ 1) : (int i).isInt 1 = false := by
  have h1 : (i : Int) ≠ 1 := by exact_mod_cast hi
  simp [isInt, integer?, int, Number.toInt?, Number.ofInt, h1]

lemma foldPower_root (o : Overflow) {i : Nat} (hi : i ≠ 0) :
    foldPower o (int i) half = .ok (Radical.ofFraction? i 1) := by
  have hzero : (Number.ofInt i).isZero = false := by simpa using hi
  show (if (Number.ofInt i).isZero && _ then _ else _) = _
  rw [hzero]
  rfl

lemma powerStep_root (o : Overflow) (product : List Expr → Calc Expr) (pow : Expr → Expr → Calc Expr) {i : Nat}
    (hi : i ≠ 1) (hi0 : i ≠ 0) (hparts : Radical.squareParts i = (1, (i : Int))) :
    powerStep o product pow (int i) half = .ok (.power (int i) half) := by
  show (if (int i).isInt 1 then _ else _) = _
  rw [isInt_one_nat hi, foldPower_root o hi0]
  rcases ofFraction?_root hi hparts with h | h <;> rw [h] <;> rfl

lemma settled_root {i : Nat} (hi : i ≠ 1) (hi0 : i ≠ 0) (hparts : Radical.squareParts i = (1, (i : Int))) :
    Settled (.power (int i) half) := by
  have hsettled : Settled (int i) := settled_int (by simp only [Number.bound]; omega)
  exact settled_power hsettled settled_half rfl rfl fun product pow => powerStep_root .refuse product pow hi hi0 hparts

lemma ofFraction?_settled {n d : Int} {r : Expr} (hn : n ≠ 0) (h : Radical.ofFraction? n d = some r) : Settled r := by
  obtain ⟨a, i, hp, hr⟩ := Radical.ofFraction?_cases hn h
  have hrange : (Number.ofParts a d).InRange := Number.ofParts_inRange hp.outside (by rw [hp.coeff]; rfl)
  rcases hr with rfl | ⟨⟨hi, hparts⟩, hr⟩
  · exact hrange
  · have hroot := settled_root hi hp.inside_pos hparts
    rcases hr with rfl | ⟨hone, rfl⟩
    · exact hroot
    · have hfactors := settledFactors_singleton hroot rfl nofun
      have hs := settled_assembled hrange hp.nonzero (by rintro - ts ⟨⟩) hfactors
      rwa [assembled, hone] at hs

/-! ### Powers -/

/-- What the four activities make of settled trees. The fields for a number times a tree and for a power that is there
already say that nothing has to be merged then. -/
structure KeepsSettled (sum product : List Expr → Calc Expr) (pow : Expr → Expr → Calc Expr)
    (text : Expr → Calc String) : Prop where
  sum_settled : ∀ args, (∀ e ∈ args, Settled e) → Meets anyHalt (sum args) Settled
  product_built : ∀ args, (∀ e ∈ args, Built e) → Meets anyHalt (product args) Built
  scaled : ∀ n e, n.InRange → Settled e → Meets anyHalt (product [.num n, e]) Settled
  scaled_right : ∀ n e, n.InRange → Settled e → Meets anyHalt (product [e, .num n]) Settled
  assembled_eq : ∀ n fs, n.InRange → n.isZero = false → SettledFactors fs → fs ≠ [] → (∀ ts, fs ≠ [.plus ts]) →
    Meets anyHalt (product [.num n, collapse 1 .times fs]) (· = assembled n fs)
  pow_built : ∀ b e, Settled b → Settled e → Meets anyHalt (pow b e) Built
  pow_factor : ∀ f, Settled f → Meets anyHalt (pow f.baseExponent.1 f.baseExponent.2) (· = f)
  text_eq : ∀ e t, text e = .ok t → Expr.text .refuse e = .ok t

variable {sum product : List Expr → Calc Expr} {pow : Expr → Expr → Calc Expr} {text : Expr → Calc String}

lemma numericPower_settled {b e : Number} (hb : b.InRange) (he : e.InRange)
    (hzero : b.isZero = false ∨ e.isNegative = true) :
    Meets anyHalt (numericPower .refuse b e) fun r => ∀ x, r = some x → Settled x := by
  obtain ⟨p, rfl, -⟩ := id hb
  obtain ⟨q, rfl, -⟩ := he
  unfold numericPower
  split
  · next p q hp hq =>
    cases hp
    cases hq
    split
    · split
      · nofun
      · refine (meets_inRange rfl (Number.inRange_resultLaw.powInt _ _)).bind fun n hn => ?_
        rintro x ⟨⟩
        exact hn.2
    · split
      · next hhalf =>
        intro x hx
        refine ofFraction?_settled ?_ hx
        rcases hzero with h | h
        · simpa [Number.isZero] using h
        · simp [Number.isNegative, hhalf.2] at h
      · split
        · next hhalf =>
          intro x hx
          refine ofFraction?_settled ?_ hx
          exact_mod_cast p.den_nz
        · nofun
  · next hne => exact absurd rfl (hne p q rfl)

lemma foldPower_settled {b e : Expr} (hb : Settled b) (he : Settled e) :
    Meets anyHalt (foldPower .refuse b e) fun r => ∀ x, r = some x → Settled x := by
  unfold foldPower
  split
  · split
    · rintro x ⟨⟩
      exact settled_int (by decide)
    · next hz =>
      refine numericPower_settled hb he ?_
      simpa [or_iff_not_imp_left] using hz
  · nofun

lemma inRange_of_integer? {e : Expr} {k : Int} (he : Settled e) (h : e.integer? = some k) :
    ∃ n, e = .num n ∧ n.InRange := by
  cases e with
  | num n => exact ⟨n, rfl, he⟩
  | symbol | constant | plus | times | power | call => cases h

lemma distributePower_settled (K : KeepsSettled sum product pow text) {b e : Expr} (hb : Settled b) (he : Settled e)
    (hnode : (∀ product pow, distributePower product pow b e = .ok (.power b e)) → Settled (.power b e)) :
    Meets anyHalt (distributePower product pow b e) Built := by
  have hpower (h : ∀ product pow, distributePower product pow b e = .ok (.power b e)) :
      Meets anyHalt (distributePower product pow b e) Built := by
    rw [h product pow]
    exact Or.inl (hnode h)
  have hconstant {c : Constant} (hc : b = .constant c) : Meets anyHalt (distributePower product pow b e) Built := by
    subst hc
    cases c with
    | pi => exact hpower fun _ _ => rfl
    | e => exact Or.inl (Func.of_settled .exp he)
  cases hk : e.integer? with
  | none =>
    cases b with
    | constant c => exact hconstant rfl
    | num | symbol | plus | times | power | call =>
      refine hpower fun _ _ => ?_
      simp only [distributePower, hk]
      rfl
  | some k =>
    obtain ⟨n, rfl, hn⟩ := inRange_of_integer? he hk
    cases b with
    | constant c => exact hconstant rfl
    | num | symbol | plus => exact hpower fun _ _ => rfl
    | power b x =>
      obtain ⟨-, hb, hx⟩ := hb
      simp only [distributePower, hk]
      exact (K.scaled_right n x hn hx).bind fun y hy => K.pow_built b y hb hy
    | times fs =>
      obtain ⟨-, hfs⟩ := (everywhere_times fs).mp hb
      simp only [distributePower, hk]
      have hpowers := meets_mapM_forall fun f hf => K.pow_built f (.num n) (hfs f hf) he
      exact hpowers.bind fun gs hgs => K.product_built gs hgs
    | call f a =>
      by_cases hf : f = .exp
      · subst hf
        simp only [distributePower, hk]
        exact (K.scaled_right n a hn hb.2).bind fun y hy => Or.inl (Func.of_settled .exp hy)
      · refine hpower fun _ _ => ?_
        cases f <;> first | rfl | exact absurd rfl hf

lemma powerStep_settled (K : KeepsSettled sum product pow text) {b e : Expr} (hb : Settled b) (he : Settled e) :
    Meets anyHalt (powerStep .refuse product pow b e) Built := by
  have hone : Built (int 1) := Or.inl (settled_int (by decide))
  unfold powerStep
  split
  · exact hone
  · next hz =>
    split
    · exact Or.inl hb
    · next hexp =>
      split
      · exact hone
      · next hbase =>
        cases hfold : foldPower .refuse b e with
        | error h => trivial
        | ok r =>
          cases r with
          | some x => exact Or.inl ((foldPower_settled hb he).value hfold x rfl)
          | none =>
            refine distributePower_settled K hb he fun hd => ?_
            refine settled_power hb he (by simpa using hz) (by simpa using hexp) fun product pow => ?_
            unfold powerStep
            rw [if_neg hz, if_neg hexp, if_neg hbase, hfold]
            exact hd product pow

lemma powerStep_factor {f : Expr} (hf : Settled f) :
    powerStep .refuse product pow f.baseExponent.1 f.baseExponent.2 = .ok f := by
  cases f with
  | power b e => exact hf.1.2.2 product pow
  | num | symbol | constant | plus | times | call => rfl

end Expr

end PlaneCalculus
