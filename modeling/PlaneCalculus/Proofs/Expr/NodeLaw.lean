import PlaneCalculus.Proofs.Expr.Arithmetic
import PlaneCalculus.Proofs.Expr.Gathering
import PlaneCalculus.Proofs.Expr.Kept
import PlaneCalculus.Proofs.Expr.SettledPower

/-! Properties of nodes that every expression has at all its nodes, if only it is put together by the constructors. Such a
property is allowed to speak of the numbers, of the number of operands, and of what may stand in a product or be raised to
a power. -/

namespace PlaneCalculus

open Calc

namespace Expr

/-- A whole exponent stays with its base; all other bases take it inside. -/
def KeepsExponent : Expr → Int → Prop
  | .num n, k => n = .ofInt 0 ∧ k < 0
  | .times _, _ => False
  | .power _ _, _ => False
  | .constant .e, _ => False
  | .call .exp _, _ => False
  | _, _ => True

/-- A power that stands as it is: powers of numbers are computed where they can be, a root gives itself back, and powers
of `e` are exponentials. -/
structure Uncomputed (b e : Expr) : Prop where
  base : b ≠ .constant .e
  one : b.isInt 1 = false
  number : foldPower .approximate b e = .ok none ∨ e = half ∧ foldPower .approximate b e = .ok (some (.power b e))

lemma ProductShape.rest {n : Number} {fs : List Expr} (h : ProductShape (.num n :: fs)) :
    ∀ f ∈ fs, f.isNumber = false := by
  intro f hf
  rcases h.cases with heq | ⟨m, heq, -⟩
  · exact (mem_nonNumbers.mp (heq ▸ List.mem_cons_of_mem _ hf)).2
  · rw [nonNumbers_num] at heq
    exact (mem_nonNumbers.mp ((List.cons.inj heq).2 ▸ hf)).2

structure NodeLaw (P : Expr → Prop) : Prop where
  real : ∀ v, P (real v)
  parts : ∀ n d, Number.fits n = true → Number.fits d = true → P (.num (.ofParts n d))
  abs : ∀ n, P (.num n) → P (.num n.abs)
  constant : ∀ c, P (.constant c)
  call : ∀ (f : Func) a, f.of a = .call f a → P (.call f a)
  plus : ∀ ts, 2 ≤ ts.length → P (.plus ts)
  times : ∀ fs, ProductShape fs → (∀ n ts, fs ≠ [.num n, .plus ts]) → P (.times fs)
  shape : ∀ fs, P (.times fs) → ProductShape fs
  power : ∀ b e, e.isZero = false → e.isInt 1 = false → (∀ k, e.integer? = some k → b.KeepsExponent k) →
    Uncomputed b e → P (.power b e)

variable {P : Expr → Prop}

namespace NodeLaw

variable (L : NodeLaw P)
include L

/-! ### Numbers -/

lemma int {k : Int} (h : k.natAbs ≤ 1000000000000000000000000) : Everywhere P (Expr.int k) := by
  have hp := L.parts k 1 (Number.fits_of_natAbs_le h) (by decide)
  rw [Number.ofParts_eq_exact (by decide) (by simp only [Number.bound]; omega) (by decide), Rat.divInt_one] at hp
  exact hp

lemma half : Everywhere P Expr.half := by
  have hp := L.parts 1 2 (by decide) (by decide)
  rwa [Number.ofParts_eq_exact (by decide) (by decide) (by decide)] at hp

lemma results : Number.ResultLaw fun n => Everywhere P (.num n) := ⟨L.real, L.parts⟩

variable {o : Overflow}

lemma meets_add (a b : Number) : Meets anyHalt (o.add a b) fun c => Everywhere P (.num c) :=
  (Calc.meets_add fun _ => trivial).mono fun _ hc => hc ▸ L.results.add a b

lemma meets_mul (a b : Number) : Meets anyHalt (o.mul a b) fun c => Everywhere P (.num c) :=
  (Calc.meets_mul fun _ => trivial).mono fun _ hc => hc ▸ L.results.mul a b

lemma meets_powInt (a : Number) (k : Int) : Meets anyHalt (o.powInt a k) fun c => Everywhere P (.num c) :=
  (Calc.meets_powInt fun _ => trivial).mono fun _ hc => hc ▸ L.results.powInt a k

/-! ### Calls and roots -/

lemma of (f : Func) {a : Expr} (ha : Everywhere P a) : Everywhere P (f.of a) := by
  rcases f.of_cases a with (⟨k, hk, hs⟩ | ⟨c, hc⟩ | ⟨g, hg⟩ | ⟨n, rfl, hn⟩) | ⟨v, w, -, hw⟩ | hof
  · rw [hk]
    exact L.int (by omega)
  · rw [hc]
    exact L.constant c
  · rw [hg] at ha
    exact ha.2
  · rw [hn]
    exact L.abs n ha
  · rw [hw]
    exact L.real w
  · rw [hof]
    exact ⟨L.call f a hof, ha⟩

lemma ofFraction? {n d : Int} {r : Expr} (hn : n ≠ 0) (h : Radical.ofFraction? n d = some r) : Everywhere P r := by
  obtain ⟨a, i, hp, hr⟩ := Radical.ofFraction?_cases hn h
  have hcoeff : Everywhere P (.num (.ofParts a d)) := L.parts _ _ hp.outside hp.denominator
  have hroot (hi : i ≠ 1) (hparts : Radical.squareParts i = (1, (i : Int))) :
      Everywhere P (.power (Expr.int i) Expr.half) := by
    have hle := hp.inside_le
    have hfold := foldPower_root .approximate hp.inside_pos
    have hstands : Uncomputed (Expr.int i) Expr.half := by
      refine ⟨nofun, isInt_one_nat hi, ?_⟩
      rcases ofFraction?_root hi hparts with h | h
      · exact .inl (h ▸ hfold)
      · exact .inr ⟨rfl, h ▸ hfold⟩
    exact ⟨L.power _ _ rfl rfl (by rintro k ⟨⟩) hstands, L.int (by omega), L.half⟩
  rcases hr with rfl | ⟨⟨hi, hparts⟩, rfl | ⟨hone, rfl⟩⟩
  · exact hcoeff
  · exact hroot hi hparts
  · have hroot := hroot hi hparts
    refine (everywhere_times _).mpr ⟨L.times _ ?_ (by simp), by simpa using ⟨hcoeff, hroot⟩⟩
    exact productShape_scaled hp.nonzero hone nofun (by simp [isNumber]) (by simp)

/-! ### Taking trees apart -/

lemma baseExponent {e : Expr} (h : Everywhere P e) :
    Everywhere P e.baseExponent.1 ∧ Everywhere P e.baseExponent.2 := by
  cases e with
  | power b e => exact h.2
  | num | symbol | constant | plus | times | call => exact ⟨h, L.int (by decide)⟩

lemma factors {e : Expr} (h : Everywhere P e) : ∀ f ∈ e.factors, Everywhere P f ∧ ∀ gs, f ≠ .times gs := by
  cases e with
  | times fs =>
    obtain ⟨hnode, hall⟩ := (everywhere_times fs).mp h
    exact fun f hf => ⟨hall f hf, (L.shape fs hnode).flat f hf⟩
  | num | symbol | constant | plus | power | call => simpa [Expr.factors] using h

lemma coeffRest {e : Expr} (h : Everywhere P e) :
    Everywhere P (.num e.coeffRest.1) ∧ Everywhere P e.coeffRest.2 := by
  unfold Expr.coeffRest
  split
  · next c f =>
    obtain ⟨-, hall⟩ := (everywhere_times _).mp h
    exact ⟨hall (.num c) (by simp), hall f (by simp)⟩
  · next c rest hrest =>
    obtain ⟨hnode, hall⟩ := (everywhere_times _).mp h
    have hshape := L.shape _ hnode
    have htwo : 2 ≤ rest.length := by
      have hlen := hshape.two
      rcases rest with _ | ⟨f, _ | ⟨g, rest⟩⟩
      · simp at hlen
      · exact absurd rfl (hrest f)
      · simp
    refine ⟨hall (.num c) (by simp), (everywhere_times _).mpr ⟨L.times rest ?_ ?_, ?_⟩⟩
    · exact productShape_plain htwo hshape.rest fun f hf => hshape.flat f (List.mem_cons_of_mem _ hf)
    · rintro n ts rfl
      cases hshape.rest _ List.mem_cons_self
    · exact fun f hf => hall f (List.mem_cons_of_mem _ hf)
  · exact ⟨h, L.int (by decide)⟩
  · exact ⟨L.int (by decide), h⟩

end NodeLaw

lemma terms_nodes {e : Expr} (h : Everywhere P e) : ∀ t ∈ e.terms, Everywhere P t := by
  cases e with
  | plus ts => exact ((everywhere_plus ts).mp h).2
  | num | symbol | constant | times | power | call => simpa [terms] using h

/-! ### Sums -/

structure KeepsNodes (P : Expr → Prop) (sum product : List Expr → Calc Expr) (pow : Expr → Expr → Calc Expr) :
    Prop where
  sum_nodes : ∀ args, (∀ e ∈ args, Everywhere P e) → Meets anyHalt (sum args) (Everywhere P)
  product_nodes : ∀ args, (∀ e ∈ args, Everywhere P e) → Meets anyHalt (product args) (Everywhere P)
  pow_nodes : ∀ b e, Everywhere P b → Everywhere P e → Meets anyHalt (pow b e) (Everywhere P)

structure Collected.All (P : Expr → Prop) (s : Collected) : Prop where
  number : Everywhere P (.num s.number)
  entries : ∀ p ∈ s.entries, Everywhere P p.1 ∧ Everywhere P (.num p.2)

variable (L : NodeLaw P) {o : Overflow} {sum product : List Expr → Calc Expr} {pow : Expr → Expr → Calc Expr}
  {text : Expr → Calc String}
include L

lemma addCoefficient_nodes {rest : Expr} {c : Number} (hr : Everywhere P rest) (hc : Everywhere P (.num c))
    {entries : List (Expr × Number)} (h : ∀ p ∈ entries, Everywhere P p.1 ∧ Everywhere P (.num p.2)) :
    Meets anyHalt (addCoefficient o rest c entries) fun out =>
      ∀ p ∈ out, Everywhere P p.1 ∧ Everywhere P (.num p.2) := by
  induction entries with
  | nil => simpa [addCoefficient] using ⟨hr, hc⟩
  | cons p entries ih =>
    obtain ⟨e, d⟩ := p
    rw [List.forall_mem_cons] at h
    unfold addCoefficient
    split
    · exact (L.meets_add d c).bind fun n hn => List.forall_mem_cons.mpr ⟨⟨h.1.1, hn⟩, h.2⟩
    · exact (ih h.2).bind fun out hout => List.forall_mem_cons.mpr ⟨h.1, hout⟩

lemma push_collected_nodes {s : Collected} {e : Expr} (hs : s.All P) (he : Everywhere P e) :
    Meets anyHalt (s.push o e) (Collected.All P) := by
  cases e with
  | num n => exact (L.meets_add s.number n).bind fun m hm => ⟨hm, hs.entries⟩
  | symbol | constant | plus | times | power | call =>
    obtain ⟨hc, hr⟩ := L.coeffRest he
    exact (addCoefficient_nodes L hr hc hs.entries).bind fun out hout => ⟨hs.number, hout⟩

lemma collected_nodes {es : List Expr} (h : ∀ e ∈ es, Everywhere P e) :
    Meets anyHalt (es.foldlM (Collected.push o) ⟨.ofInt 0, []⟩) (Collected.All P) := by
  refine (meets_foldlM (fun rest s => (∀ e ∈ rest, Everywhere P e) ∧ s.All P) ?_ ?_).mono fun s hs => hs.2
  · rintro e rest s ⟨hrest, hs⟩
    rw [List.forall_mem_cons] at hrest
    exact (push_collected_nodes L hs hrest.1).mono fun t ht => ⟨hrest.2, ht⟩
  · exact ⟨h, L.int (by decide), nofun⟩

lemma collapse_nodes {k : Int} (hk : k.natAbs ≤ 1) {node : List Expr → Expr} {es : List Expr}
    (h : ∀ e ∈ es, Everywhere P e) (hnode : 2 ≤ es.length → Everywhere P (node es)) :
    Everywhere P (collapse k node es) := by
  rcases es with _ | ⟨e, _ | ⟨f, es⟩⟩
  · exact L.int (by omega)
  · exact h e List.mem_cons_self
  · exact hnode (by simp)

lemma sumStep_nodes (K : KeepsNodes P sum product pow) {args : List Expr} (h : ∀ e ∈ args, Everywhere P e) :
    Meets anyHalt (sumStep o product text args) (Everywhere P) := by
  have hterms : ∀ t ∈ args.flatMap terms, Everywhere P t := by
    intro t ht
    obtain ⟨e, he, ht⟩ := List.mem_flatMap.mp ht
    exact terms_nodes (h e he) t ht
  refine (collected_nodes L hterms).bind fun s hs => ?_
  have hbuilt : Meets anyHalt ((s.entries.filter fun p => !p.2.isZero).mapM fun p => product [.num p.2, p.1])
      fun ts => ∀ t ∈ ts, Everywhere P t := by
    refine meets_mapM_forall fun p hp => K.product_nodes _ ?_
    obtain ⟨hrest, hc⟩ := hs.entries p (List.mem_filter.mp hp).1
    simpa using ⟨hc, hrest⟩
  refine hbuilt.bind fun ts hts => ?_
  refine (meets_sortTerms_perm text ts).bind fun us hperm => ?_
  have hus : ∀ u ∈ us, Everywhere P u := fun u hu => hts u (hperm.mem_iff.mp hu)
  have hall : ∀ u ∈ if !s.number.isZero || us.isEmpty then us ++ [.num s.number] else us, Everywhere P u := by
    split
    · exact List.forall_mem_append.mpr ⟨hus, by simpa using hs.number⟩
    · exact hus
  exact collapse_nodes L (by decide) hall fun htwo => (everywhere_plus _).mpr ⟨L.plus _ htwo, hall⟩

/-! ### Products -/

lemma keepsFactors_nodes : KeepsFactors o (Everywhere P) (Everywhere P) where
  mul _ _ _ _ := L.meets_mul _ _
  one := L.int (by decide)
  number _ h := h
  base _ := L.baseExponent
  arg _ h := h.2
  exp _ h := L.of .exp h
  factors _ := L.factors

lemma assembled_nodes {c : Number} {fs : List Expr} (hc : Everywhere P (.num c)) (hz : c.isZero = false)
    (hapart : c.isOne = false → ∀ ts, fs ≠ [.plus ts]) (h : ProperFactors (Everywhere P) fs) :
    Everywhere P (assembled c fs) := by
  unfold assembled
  cases hone : c.isOne with
  | true =>
    refine collapse_nodes L (by decide) h.all fun htwo => (everywhere_times fs).mpr ⟨L.times fs ?_ ?_, h.all⟩
    · exact productShape_plain htwo h.number h.flat
    · rintro n ts rfl
      cases h.number _ List.mem_cons_self
  | false =>
    have hall : ∀ f ∈ .num c :: fs, Everywhere P f := List.forall_mem_cons.mpr ⟨hc, h.all⟩
    refine collapse_nodes L (by decide) hall fun htwo => (everywhere_times _).mpr ⟨L.times _ ?_ ?_, hall⟩
    · refine productShape_scaled hz hone ?_ h.number h.flat
      rintro rfl
      simp at htwo
    · rintro n ts heq
      cases heq
      exact hapart hone ts rfl

lemma finishProduct_nodes (K : KeepsNodes P sum product pow) {c : Number} {fs : List Expr}
    (hc : Everywhere P (.num c)) (h : ProperFactors (Everywhere P) fs) :
    Meets anyHalt (finishProduct sum product text (c, fs)) (Everywhere P) := by
  unfold finishProduct
  split
  · exact hc
  · next hz =>
    split
    · next ts hts _ =>
      cases hts
      obtain ⟨-, hall⟩ := (everywhere_plus ts).mp (h.all _ List.mem_cons_self)
      have hscaled : Meets anyHalt (ts.mapM fun t => product [.num c, t]) fun us => ∀ u ∈ us, Everywhere P u :=
        meets_mapM_forall fun t ht => K.product_nodes _ (by simpa using ⟨hc, hall t ht⟩)
      exact hscaled.bind fun us hus => K.sum_nodes us hus
    · next hapart =>
      refine (meets_sortFactors_perm text fs).bind fun gs hp => ?_
      refine assembled_nodes L hc (by simpa using hz) ?_ (h.perm hp)
      rintro hone ts rfl
      exact hapart ts (List.perm_singleton.mp hp.symm) hone

/-! ### Powers -/

lemma numericPower_nodes {b e : Number} (hzero : b.isZero = false ∨ e.isNegative = true) :
    Meets anyHalt (numericPower o b e) fun r => ∀ x, r = some x → Everywhere P x := by
  unfold numericPower
  split
  · next p q =>
    split
    · split
      · nofun
      · refine (L.meets_powInt _ _).bind fun n hn => ?_
        rintro x ⟨⟩
        exact hn
    · split
      · next hhalf =>
        intro x hx
        refine L.ofFraction? ?_ hx
        rcases hzero with h | h
        · simpa [Number.isZero] using h
        · simp [Number.isNegative, hhalf.2] at h
      · split
        · intro x hx
          refine L.ofFraction? ?_ hx
          exact_mod_cast p.den_nz
        · nofun
  · rintro x ⟨⟩
    exact L.real _

lemma foldPower_nodes {b e : Expr} : Meets anyHalt (foldPower o b e) fun r => ∀ x, r = some x → Everywhere P x := by
  unfold foldPower
  split
  · split
    · rintro x ⟨⟩
      exact L.int (by decide)
    · next hz => exact numericPower_nodes L (by simpa [or_iff_not_imp_left] using hz)
  · nofun

omit L in
/-- Only negative whole powers of zero are not computed at once. -/
lemma foldPower_none {n : Number} {e : Expr} {k : Int} (hk : e.integer? = some k) :
    Meets anyHalt (foldPower o (.num n) e) fun r => r = none → n = .ofInt 0 ∧ k < 0 := by
  obtain rfl := eq_int_of_integer? hk
  show Meets anyHalt (if n.isZero && _ then _ else numericPower o n (.ofInt k)) _
  split
  · nofun
  · cases n with
    | exact q =>
      rw [numericPower_int]
      split
      · next hq =>
        intro _
        exact ⟨congrArg Number.exact (Rat.zero_of_num_zero hq.1), hq.2⟩
      · exact (meets_anyHalt_true _).bind fun _ _ => nofun
    | approx v => nofun

omit L in
/-- Whether a power can be computed does not depend on the policy. -/
lemma foldPower_approximate {b e : Expr} (h : foldPower o b e = .ok none) : foldPower .approximate b e = .ok none := by
  unfold foldPower at h ⊢
  split
  · next n m =>
    dsimp only at h
    split
    · next hz =>
      rw [if_pos hz] at h
      cases h
    · next hz =>
      rw [if_neg hz] at h
      unfold numericPower at h ⊢
      split
      · next p q =>
        dsimp only at h
        split
        · next hq =>
          rw [if_pos hq] at h
          split
          · rfl
          · next hp =>
            rw [if_neg hp] at h
            obtain ⟨r, -, hr⟩ := bind_ok h
            cases hr
        · next hq =>
          rw [if_neg hq] at h
          exact h
      · next hexact =>
        split at h
        · next p q => exact absurd rfl (hexact p q rfl)
        · cases h
  · rfl

lemma distributePower_nodes (K : KeepsNodes P sum product pow) {b e : Expr} (hb : Everywhere P b) (he : Everywhere P e)
    (hz : e.isZero = false) (hone : e.isInt 1 = false) (hbase : b.isInt 1 = false)
    (hnum : ∀ n k, b = .num n → e.integer? = some k → n = .ofInt 0 ∧ k < 0)
    (hfold : foldPower .approximate b e = .ok none) : Meets anyHalt (distributePower product pow b e) (Everywhere P) := by
  have hscaled {x : Expr} (hx : Everywhere P x) : Meets anyHalt (product [x, e]) (Everywhere P) :=
    K.product_nodes _ (by simpa using ⟨hx, he⟩)
  unfold distributePower
  split
  · exact L.of .exp he
  · next b x _ _ => exact (hscaled hb.2.2).bind fun y hy => K.pow_nodes b y hb.2.1 hy
  · next fs _ _ =>
    obtain ⟨-, hall⟩ := (everywhere_times fs).mp hb
    have hpowers := meets_mapM_forall fun f hf => K.pow_nodes f e (hall f hf) he
    exact hpowers.bind fun gs hgs => K.product_nodes gs hgs
  · exact (hscaled hb.2).bind fun y hy => L.of .exp hy
  · next b _ _ hconstant hpower htimes hexp =>
    refine ⟨L.power b e hz hone (fun k hk => ?_) ⟨hconstant, hbase, .inl hfold⟩, hb, he⟩
    cases b with
    | num n => exact hnum n k rfl hk
    | constant c =>
      cases c with
      | pi => trivial
      | e => exact hconstant rfl
    | power c x => exact hpower c x k rfl hk
    | times fs => exact htimes fs k rfl hk
    | call f a =>
      by_cases hf : f = .exp
      · subst hf
        exact hexp a k rfl hk
      · cases f <;> trivial
    | symbol | plus => trivial

lemma powerStep_nodes (K : KeepsNodes P sum product pow) {b e : Expr} (hb : Everywhere P b) (he : Everywhere P e) :
    Meets anyHalt (powerStep o product pow b e) (Everywhere P) := by
  have hone : Everywhere P (int 1) := L.int (by decide)
  unfold powerStep
  split
  · exact hone
  · next hz =>
    split
    · exact hb
    · next hne =>
      split
      · exact hone
      · next hbase =>
        have hnone : Meets anyHalt (foldPower o b e) fun r =>
            r = none → ∀ n k, b = .num n → e.integer? = some k → n = .ofInt 0 ∧ k < 0 := by
          refine meets_anyHalt_iff.mpr ?_
          rintro r hr hrn n k rfl hk
          exact (foldPower_none hk).value hr hrn
        have hfold := (foldPower_nodes (o := o) (b := b) (e := e) L).self
        refine (((foldPower_nodes L).and hnone).and hfold).bind fun r ⟨⟨hr, hrn⟩, hrun⟩ => ?_
        cases r with
        | some x => exact hr x rfl
        | none =>
          exact distributePower_nodes L K hb he (by simpa using hz) (by simpa using hne) (by simpa using hbase) (hrn rfl)
            (foldPower_approximate hrun)

/-! ### Every depth -/

lemma keepsNodes_at (o : Overflow) (n : Nat) : KeepsNodes P (sumAt o n) (productAt o n) (powerAt o n) := by
  induction n with
  | zero => exact ⟨fun _ _ => trivial, fun _ _ => trivial, fun _ _ _ _ => trivial⟩
  | succ n K =>
    exact
      { sum_nodes := fun args => sumStep_nodes L K
        product_nodes := fun args =>
          productStep_all (keepsFactors_nodes L) K.sum_nodes K.pow_nodes fun _ _ => finishProduct_nodes L K
        pow_nodes := fun b e => powerStep_nodes L K }

lemma sum_nodes {args : List Expr} (h : ∀ e ∈ args, Everywhere P e) :
    Meets anyHalt (Expr.sum o args) (Everywhere P) :=
  (keepsNodes_at L o _).sum_nodes args h

lemma product_nodes {args : List Expr} (h : ∀ e ∈ args, Everywhere P e) :
    Meets anyHalt (Expr.product o args) (Everywhere P) :=
  (keepsNodes_at L o _).product_nodes args h

lemma pow_nodes {b e : Expr} (hb : Everywhere P b) (he : Everywhere P e) :
    Meets anyHalt (Expr.pow o b e) (Everywhere P) :=
  (keepsNodes_at L o _).pow_nodes b e hb he

lemma NodeLaw.kept : Kept o (Everywhere P) where
  int h := L.int (by omega)
  half := L.half
  sum := sum_nodes L
  product := product_nodes L
  pow := pow_nodes L
  of := L.of
  plus h := ((everywhere_plus _).mp h).2
  times h := ((everywhere_times _).mp h).2
  power h := h.2
  call h := h.2

end Expr

end PlaneCalculus
