import PlaneCalculus.Calculus.Antiderivative
import PlaneCalculus.Proofs.Expr.Collecting
import PlaneCalculus.Proofs.Expr.NodeLaw
import PlaneCalculus.Proofs.Expr.RationalArithmetic
import PlaneCalculus.Proofs.Expr.Symbols

/-! Trees in which no zero is in sight where one must not stand: no power of zero and no logarithm of zero. Sums and products
of such trees are such trees, and so is a power unless its base is zero. The symbols in exponents and in calls may be
restricted besides. -/

namespace PlaneCalculus

open Calc PlaneCalculus.Expr

namespace Expr

/-- Exact numbers, no zero among the factors of a product, no power of zero and no logarithm of zero, and only the given
symbols in exponents and in arguments. -/
def SoundNode (T : String → Prop) : Expr → Prop
  | .num n => n.isExact = true
  | .times fs => ∀ f ∈ fs, f.isZero = false
  | .power b e => b.isZero = false ∧ SymbolsIn T e
  | .call f a => (f = .log → a.isZero = false) ∧ SymbolsIn T a
  | _ => True

def SoundIn (T : String → Prop) (e : Expr) : Prop := Everywhere (SoundNode T) e

def anySymbol : String → Prop := fun _ => True

abbrev Sound (e : Expr) : Prop := SoundIn anySymbol e

/-- What may stand in an exponent or a call. -/
structure SoundArgument (T : String → Prop) (e : Expr) : Prop where
  sound : SoundIn T e
  symbols : SymbolsIn T e

variable {T : String → Prop}

lemma symbolsIn_any (e : Expr) : SymbolsIn anySymbol e := (everywhere_symbolNode e).mpr fun _ _ => trivial

lemma SoundIn.sound {e : Expr} (h : SoundIn T e) : Sound e := by
  refine Everywhere.mono (fun e he => ?_) e h
  cases e with
  | power b x => exact ⟨he.1, symbolsIn_any x⟩
  | call f a => exact ⟨he.1, symbolsIn_any a⟩
  | num | symbol | constant | plus | times => exact he

mutual

lemma SoundIn.not_degenerate : (e : Expr) → SoundIn T e → e.isDegenerate = false
  | .num (.exact _), _ => rfl
  | .num (.approx _), h => nomatch h
  | .symbol _, _ => rfl
  | .constant _, _ => rfl
  | .plus ts, h => anyDegenerate_of_sound ts h.2
  | .times fs, h => anyDegenerate_of_sound fs h.2
  | .power b e, ⟨⟨hzero, _⟩, hb, he⟩ => by
    rw [isDegenerate, hzero, SoundIn.not_degenerate b hb, SoundIn.not_degenerate e he]
    rfl
  | .call f a, ⟨⟨hlog, _⟩, ha⟩ => by
    rw [isDegenerate, SoundIn.not_degenerate a ha, Bool.or_false, Bool.and_eq_false_iff, decide_eq_false_iff_not]
    exact or_iff_not_imp_left.mpr fun hf => hlog (not_not.mp hf)

lemma anyDegenerate_of_sound : (es : List Expr) → EverywhereAll (SoundNode T) es → anyDegenerate es = false
  | [], _ => rfl
  | e :: es, ⟨h, hs⟩ => by
    rw [anyDegenerate, SoundIn.not_degenerate e h, anyDegenerate_of_sound es hs]
    rfl

end

lemma sound_int (k : Int) : SoundIn T (int k) := rfl

lemma sound_exact (q : ℚ) : SoundIn T (.num (.exact q)) := rfl

lemma soundArgument_int (k : Int) : SoundArgument T (int k) := ⟨sound_int k, symbolsIn_num _⟩

lemma isZero_of_not_number {e : Expr} (h : e.isNumber = false) : e.isZero = false := by
  cases e with
  | num n => cases h
  | symbol | constant | plus | times | power | call => rfl

lemma sound_terms {e : Expr} (h : SoundIn T e) : ∀ t ∈ e.terms, SoundIn T t := terms_nodes h

lemma SoundIn.factors {e : Expr} (h : SoundIn T e) : ∀ f ∈ e.factors, SoundIn T f := by
  cases e with
  | times fs => exact ((everywhere_times fs).mp h).2
  | num | symbol | constant | plus | power | call => exact List.forall_mem_singleton.mpr h

lemma SoundIn.coeffRest {e : Expr} (h : SoundIn T e) : (∃ q, e.coeffRest.1 = .exact q) ∧ SoundIn T e.coeffRest.2 := by
  unfold Expr.coeffRest
  split
  · obtain ⟨-, hall⟩ := (everywhere_times _).mp h
    exact ⟨Number.exists_exact (hall (.num _) (by simp)), hall _ (by simp)⟩
  · obtain ⟨hnode, hall⟩ := (everywhere_times _).mp h
    refine ⟨Number.exists_exact (hall (.num _) List.mem_cons_self), (everywhere_times _).mpr ⟨?_, ?_⟩⟩
    · exact fun f hf => hnode f (List.mem_cons_of_mem _ hf)
    · exact fun f hf => hall f (List.mem_cons_of_mem _ hf)
  · exact ⟨Number.exists_exact h, sound_int 1⟩
  · exact ⟨⟨1, rfl⟩, h⟩

lemma sound_entry {e : Expr} (h : SoundIn T e) (hn : e.isNumber = false) :
    SoundIn T e.baseExponent.1 ∧ e.baseExponent.1.isZero = false ∧ SoundArgument T e.baseExponent.2 := by
  have hself : SoundIn T e ∧ e.isZero = false ∧ SoundArgument T (int 1) :=
    ⟨h, isZero_of_not_number hn, soundArgument_int 1⟩
  cases e with
  | power b e => exact ⟨h.2.1, h.1.1, h.2.2, h.1.2⟩
  | num | symbol | constant | plus | times | call => exact hself

/-! ### Calls -/

lemma exactValue?_sound {f : Func} (hf : f ≠ .abs) {q : ℚ} {r : Expr} (h : f.exactValue? (.num (.exact q)) = some r) :
    SoundIn T r := by
  have hconstant (c : Constant) : SoundIn T (.constant c) := trivial
  unfold Func.exactValue? at h
  split at h
  · obtain ⟨k, rfl, -⟩ := Func.atZero?_int h
    exact sound_int k
  · unfold Func.multipleOfPi? Func.inverse? at h
    simp only [Option.bind_none] at h
    split at h
    · next heq => cases heq
    · next heq => cases heq
    · next heq => cases heq
    · split at h <;> cases h
      exact sound_int 0
    · split at h <;> cases h
      exact hconstant .e
    · exact absurd rfl hf
    · cases h

/-- The absolute value of a number may leave the exact range. -/
lemma SoundIn.of {f : Func} (hf : f ≠ .abs) {a : Expr} (ha : SoundArgument T a) (hlog : f = .log → a.isZero = false) :
    SoundIn T (f.of a) := by
  obtain ⟨ha, hsymbols⟩ := ha
  have hnumber {n : Number} (h : SoundIn T (.num n)) (hlog : f = .log → n.isZero = false) : SoundIn T (f.of (.num n)) := by
    obtain ⟨q, rfl⟩ := Number.exists_exact h
    unfold Func.of
    cases hv : f.exactValue? (.num (.exact q)) with
    | some r => exact exactValue?_sound hf hv
    | none => exact ⟨⟨hlog, symbolsIn_num _⟩, h⟩
  rcases f.of_cases a with (⟨k, hk, -⟩ | ⟨c, hc⟩ | ⟨g, hg⟩ | ⟨n, rfl, -⟩) | ⟨v, w, rfl, -⟩ | hof
  · exact hk ▸ sound_int k
  · exact hc ▸ trivial
  · rw [hg] at ha
    exact ha.2
  · exact hnumber ha hlog
  · cases ha
  · exact hof ▸ ⟨⟨hlog, hsymbols⟩, ha⟩

lemma sound_exp {a : Expr} (ha : SoundArgument T a) : SoundIn T (Func.exp.of a) :=
  SoundIn.of (by decide) ha nofun

/-! ### Sums -/

structure KeepsSound (T : String → Prop) (sum product : List Expr → Calc Expr) (pow : Expr → Expr → Calc Expr) : Prop
    extends KeepsSymbols T sum product pow where
  sum_sound : ∀ args, (∀ e ∈ args, SoundIn T e) → Meets anyHalt (sum args) (SoundIn T)
  product_sound : ∀ args, (∀ e ∈ args, SoundIn T e) → Meets anyHalt (product args) (SoundIn T)
  pow_sound : ∀ b e, SoundIn T b → b.isZero = false → SoundArgument T e → Meets anyHalt (pow b e) (SoundIn T)

variable {sum product : List Expr → Calc Expr} {pow : Expr → Expr → Calc Expr} {text : Expr → Calc String}

lemma SoundIn.multiple {e : Expr} (h : SoundIn T e) : IsMultipleOf (SoundIn T) e := by
  cases e with
  | num n =>
    obtain ⟨q, rfl⟩ := Number.exists_exact h
    exact Or.inl ⟨q, rfl⟩
  | symbol | constant | plus | times | power | call => exact Or.inr ⟨rfl, h.coeffRest⟩

lemma sumStep_sound (K : KeepsSound T sum product pow) {args : List Expr} (h : ∀ e ∈ args, SoundIn T e) :
    Meets anyHalt (sumStep .refuse product text args) (SoundIn T) := by
  have hterms : ∀ t ∈ args.flatMap terms, IsMultipleOf (SoundIn T) t := by
    intro t ht
    obtain ⟨e, he, ht⟩ := List.mem_flatMap.mp ht
    exact (sound_terms (h e he) t ht).multiple
  refine (sumStep_multiples hterms fun q _ r hr => K.product_sound _ (by simpa using ⟨sound_exact q, hr⟩)).mono ?_
  rintro r ⟨ts, hts, rfl⟩
  have hsound : ∀ t ∈ ts, SoundIn T t := by
    intro t ht
    obtain ⟨q, rfl⟩ | h := hts t ht
    · exact sound_exact q
    · exact h
  rcases ts with _ | ⟨t, _ | ⟨u, ts⟩⟩
  · exact sound_int 0
  · exact hsound t List.mem_cons_self
  · exact (everywhere_plus _).mpr ⟨trivial, hsound⟩

/-! ### Products -/

lemma meets_mul_exact {a b : Number} (ha : a.isExact = true) (hb : b.isExact = true) :
    Meets anyHalt (Overflow.refuse.mul a b) (·.isExact = true) := by
  obtain ⟨p, rfl⟩ := Number.exists_exact ha
  obtain ⟨q, rfl⟩ := Number.exists_exact hb
  exact (Overflow.meets_refuse_mul p q).mono fun n hn => hn ▸ rfl

lemma KeepsSound.sum_arguments (K : KeepsSound T sum product pow) {args : List Expr} (h : ∀ e ∈ args, SoundArgument T e) :
    Meets anyHalt (sum args) (SoundArgument T) :=
  ((K.sum_sound args fun e he => (h e he).sound).and (K.sum_symbols args fun e he => (h e he).symbols)).mono
    fun _ hr => ⟨hr.1, hr.2⟩

lemma gatheringLaw_sound (K : KeepsSound T sum product pow) :
    GatheringLaw .refuse sum (SoundIn T) (fun b e => SoundIn T b ∧ b.isZero = false ∧ SoundArgument T e)
      (SoundArgument T) where
  mul _ _ := meets_mul_exact
  one := sound_int 1
  entry _ := sound_entry
  merge _ _ _ _ hb hc _ := (K.sum_arguments (by simpa using ⟨hb.2.2, hc.2.2⟩)).mono fun _ he => ⟨hb.1, hb.2.1, he⟩
  arg _ h := ⟨h.2, h.1.2⟩
  args _ _ h := K.sum_arguments h
  exp _ := sound_exp
  whole _ he hn := ⟨he, isZero_of_not_number hn, soundArgument_int 1⟩

lemma finishProduct_sound (K : KeepsSound T sum product pow) {c : Number} {fs : List Expr} (hc : SoundIn T (.num c))
    (h : ∀ f ∈ fs, SoundIn T f ∧ f.isNumber = false) : Meets anyHalt (finishProduct sum product text (c, fs)) (SoundIn T) := by
  unfold finishProduct
  split
  · exact hc
  · next hz =>
    split
    · next ts hts _ =>
      cases hts
      have hall := sound_terms (h _ List.mem_cons_self).1
      have hscaled : Meets anyHalt (ts.mapM fun t => product [.num c, t]) fun us => ∀ u ∈ us, SoundIn T u :=
        meets_mapM_forall fun t ht => K.product_sound _ (by simpa using ⟨hc, hall t ht⟩)
      exact hscaled.bind fun us hus => K.sum_sound us hus
    · refine (meets_sortFactors_perm text fs).bind fun gs hperm => ?_
      have hgs : ∀ g ∈ gs, SoundIn T g ∧ g.isZero = false := fun g hg =>
        (h g (hperm.mem_iff.mp hg)).imp_right isZero_of_not_number
      have hall : ∀ g ∈ if c.isOne then gs else .num c :: gs, SoundIn T g ∧ g.isZero = false := by
        split
        · exact hgs
        · exact List.forall_mem_cons.mpr ⟨⟨hc, Bool.eq_false_iff.mpr hz⟩, hgs⟩
      generalize (if c.isOne then gs else .num c :: gs) = ws at hall
      rcases ws with _ | ⟨u, _ | ⟨w, ws⟩⟩
      · exact sound_int 1
      · exact (hall u List.mem_cons_self).1
      · exact (everywhere_times _).mpr ⟨fun f hf => (hall f hf).2, fun f hf => (hall f hf).1⟩

lemma productStep_sound (K : KeepsSound T sum product pow) {args : List Expr} (h : ∀ e ∈ args, SoundIn T e) :
    Meets anyHalt (productStep .refuse sum product pow text args) (SoundIn T) :=
  productStep_gathered (gatheringLaw_sound K) (fun _ hf => hf) (fun _ hn => hn) (fun _ => SoundIn.factors)
    (fun b e he => K.pow_sound b e he.1 he.2.1 he.2.2) (fun _ _ => finishProduct_sound K) h

/-! ### Powers -/

/-- A number other than zero, the root of a whole number, or a product of both. -/
def IsRadical (r : Expr) : Prop :=
  (∃ c : ℚ, c ≠ 0 ∧ r = .num (.exact c)) ∨ ∃ i : ℕ, i ≠ 0 ∧ i ≠ 1 ∧
    (r = .power (int i) half ∨ ∃ c : ℚ, c ≠ 0 ∧ r = .times [.num (.exact c), .power (int i) half])

lemma isZero_exact_of_ne {c : ℚ} (hc : c ≠ 0) : (Number.exact c).isZero = false :=
  Bool.eq_false_iff.mpr fun h => hc ((Number.isZero_exact c).mp h)

lemma IsRadical.sound {r : Expr} (h : IsRadical r) : SoundIn T r := by
  have hroot {i : ℕ} (hi : i ≠ 0) : SoundIn T (.power (int i) half) :=
    ⟨⟨isZero_exact_of_ne (by exact_mod_cast hi), symbolsIn_num _⟩, sound_int i, sound_exact _⟩
  rcases h with ⟨c, -, rfl⟩ | ⟨i, hi, -, rfl | ⟨c, hc, rfl⟩⟩
  · exact sound_exact c
  · exact hroot hi
  · refine (everywhere_times _).mpr ⟨?_, by simpa using ⟨sound_exact c, hroot hi⟩⟩
    exact List.forall_mem_cons.mpr ⟨isZero_exact_of_ne hc, List.forall_mem_singleton.mpr rfl⟩

lemma ofFraction?_radical {n d : Int} {r : Expr} (hn : n ≠ 0) (h : Radical.ofFraction? n d = some r) : IsRadical r := by
  obtain ⟨a, i, hp, hr⟩ := Radical.ofFraction?_cases hn h
  have hnonzero := hp.nonzero
  rw [hp.coeff] at hr hnonzero
  have hc : Rat.divInt a d ≠ 0 := fun h0 => Bool.eq_false_iff.mp hnonzero ((Number.isZero_exact _).mpr h0)
  rcases hr with rfl | ⟨⟨hi, -⟩, rfl | ⟨-, rfl⟩⟩
  · exact Or.inl ⟨_, hc, rfl⟩
  · exact Or.inr ⟨i, hp.inside_pos, hi, Or.inl rfl⟩
  · exact Or.inr ⟨i, hp.inside_pos, hi, Or.inr ⟨_, hc, rfl⟩⟩

lemma foldPower_radical {p q : ℚ} (hp : p ≠ 0) :
    Meets anyHalt (foldPower .refuse (.num (.exact p)) (.num (.exact q))) fun r => ∀ x, r = some x → IsRadical x := by
  unfold foldPower numericPower
  dsimp only
  rw [if_neg (by simp [isZero_exact_of_ne hp])]
  split
  · split
    · nofun
    · refine (Overflow.meets_refuse_powInt p q.num).bind fun n hn => ?_
      rintro x ⟨⟩
      exact Or.inl ⟨_, zpow_ne_zero _ hp, congrArg num hn.1⟩
  · split
    · exact fun x hx => ofFraction?_radical (fun h0 => hp (Rat.zero_of_num_zero h0)) hx
    · split
      · exact fun x hx => ofFraction?_radical (by exact_mod_cast p.den_nz) hx
      · nofun

lemma exists_ne_zero_of_sound {n : Number} (h : SoundIn T (.num n)) (hz : n.isZero = false) : ∃ q, q ≠ 0 ∧ n = .exact q := by
  obtain ⟨q, rfl⟩ := Number.exists_exact h
  exact ⟨q, fun h0 => Bool.eq_false_iff.mp hz ((Number.isZero_exact q).mpr h0), rfl⟩

lemma foldPower_sound {b e : Expr} (hb : SoundIn T b) (hz : b.isZero = false) (he : SoundIn T e) :
    Meets anyHalt (foldPower .refuse b e) fun r => ∀ x, r = some x → IsRadical x := by
  cases b with
  | num n =>
    cases e with
    | num m =>
      obtain ⟨p, hp, rfl⟩ := exists_ne_zero_of_sound hb hz
      obtain ⟨q, rfl⟩ := Number.exists_exact he
      exact foldPower_radical hp
    | symbol | constant | plus | times | power | call => nofun
  | symbol | constant | plus | times | power | call => nofun

lemma distributePower_sound (K : KeepsSound T sum product pow) {b e : Expr} (hb : SoundIn T b) (hz : b.isZero = false)
    (he : SoundArgument T e) : Meets anyHalt (distributePower product pow b e) (SoundIn T) := by
  have hscaled {x : Expr} (hx : SoundArgument T x) : Meets anyHalt (product [x, e]) (SoundArgument T) :=
    ((K.product_sound _ (by simpa using ⟨hx.sound, he.sound⟩)).and
      (K.product_symbols _ (by simpa using ⟨hx.symbols, he.symbols⟩))).mono fun _ hr => ⟨hr.1, hr.2⟩
  unfold distributePower
  split
  · exact sound_exp he
  · next b x _ _ => exact (hscaled ⟨hb.2.2, hb.1.2⟩).bind fun y hy => K.pow_sound b y hb.2.1 hb.1.1 hy
  · next fs _ _ =>
    obtain ⟨hnode, hall⟩ := (everywhere_times fs).mp hb
    have hpowers := meets_mapM_forall fun f hf => K.pow_sound f e (hall f hf) (hnode f hf) he
    exact hpowers.bind fun gs hgs => K.product_sound gs hgs
  · exact (hscaled ⟨hb.2, hb.1.2⟩).bind fun y hy => sound_exp hy
  · exact ⟨⟨hz, he.symbols⟩, hb, he.sound⟩

lemma powerStep_sound (K : KeepsSound T sum product pow) {b e : Expr} (hb : SoundIn T b) (hz : b.isZero = false)
    (he : SoundArgument T e) : Meets anyHalt (powerStep .refuse product pow b e) (SoundIn T) := by
  unfold powerStep
  split
  · exact sound_int 1
  split
  · exact hb
  split
  · exact sound_int 1
  refine (foldPower_sound hb hz he.sound).bind fun r hr => ?_
  cases r with
  | some x => exact (hr x rfl).sound
  | none => exact distributePower_sound K hb hz he

/-! ### Every depth -/

lemma keepsSound_at (n : Nat) : KeepsSound T (sumAt .refuse n) (productAt .refuse n) (powerAt .refuse n) := by
  induction n with
  | zero => exact ⟨keepsSymbols_at .refuse 0, fun _ _ => trivial, fun _ _ => trivial, fun _ _ _ _ _ => trivial⟩
  | succ n K =>
    exact
      { toKeepsSymbols := keepsSymbols_at .refuse (n + 1)
        sum_sound := fun _ => sumStep_sound K
        product_sound := fun _ => productStep_sound K
        pow_sound := fun _ _ => powerStep_sound K }

variable {a b e : Expr}

lemma sum_sound {args : List Expr} (h : ∀ e ∈ args, SoundIn T e) : Meets anyHalt (Expr.sum .refuse args) (SoundIn T) :=
  (keepsSound_at _).sum_sound args h

lemma product_sound {args : List Expr} (h : ∀ e ∈ args, SoundIn T e) :
    Meets anyHalt (Expr.product .refuse args) (SoundIn T) :=
  (keepsSound_at _).product_sound args h

lemma pow_sound (hb : SoundIn T b) (hz : b.isZero = false) (he : SoundArgument T e) :
    Meets anyHalt (Expr.pow .refuse b e) (SoundIn T) :=
  (keepsSound_at _).pow_sound b e hb hz he

lemma neg_sound (h : SoundIn T e) : Meets anyHalt (neg .refuse e) (SoundIn T) :=
  product_sound (by simpa using ⟨sound_int (-1), h⟩)

lemma sub_sound (ha : SoundIn T a) (hb : SoundIn T b) : Meets anyHalt (sub .refuse a b) (SoundIn T) :=
  (neg_sound hb).bind fun n hn => sum_sound (by simpa using ⟨ha, hn⟩)

lemma div_sound (ha : SoundIn T a) (hb : SoundIn T b) (hz : b.isZero = false) :
    Meets anyHalt (div .refuse a b) (SoundIn T) :=
  (pow_sound hb hz (soundArgument_int (-1))).bind fun r hr => product_sound (by simpa using ⟨ha, hr⟩)

end Expr

end PlaneCalculus
