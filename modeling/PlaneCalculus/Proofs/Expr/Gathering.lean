import PlaneCalculus.Expr.Canonical
import PlaneCalculus.Proofs.Expr.Sorting

/-! Properties of trees that are kept while the factors of a product are gathered, raised to their powers and put
together again. -/

namespace PlaneCalculus.Expr

open Calc

variable {o : Overflow} {G H : Expr → Prop} {sum product : List Expr → Calc Expr} {pow : Expr → Expr → Calc Expr}
  {text : Expr → Calc String}

def finishProduct (sum product : List Expr → Calc Expr) (text : Expr → Calc String) (s : Number × List Expr) :
    Calc Expr := do
  if s.1.isZero then return .num s.1
  match s.2, s.1.isOne with
  | [.plus ts], false => sum (← ts.mapM fun t => product [.num s.1, t])
  | fs, one =>
    let fs ← sortFactors text fs
    return collapse 1 .times (if one then fs else .num s.1 :: fs)

/-- What is kept while factors are gathered: `F` by the factors, `E` by a base with its exponent, `A` by what stands in an
exponential. -/
structure GatheringLaw (o : Overflow) (sum : List Expr → Calc Expr) (F : Expr → Prop) (E : Expr → Expr → Prop)
    (A : Expr → Prop) : Prop where
  mul : ∀ a b, F (.num a) → F (.num b) → Meets anyHalt (o.mul a b) fun c => F (.num c)
  one : F (int 1)
  entry : ∀ e, F e → e.isNumber = false → E e.baseExponent.1 e.baseExponent.2
  merge : ∀ b x c y, E b x → E c y → (b == c) = true → Meets anyHalt (sum [x, y]) (E b)
  arg : ∀ a, F (.call .exp a) → A a
  args : ∀ as, as ≠ [] → (∀ a ∈ as, A a) → Meets anyHalt (sum as) A
  exp : ∀ a, A a → F (Func.exp.of a)
  whole : ∀ e, F e → e.isNumber = false → E e (int 1)

/-- What a property of factors needs to be kept while they are gathered. -/
structure KeepsGathered (o : Overflow) (G : Expr → Prop) : Prop where
  mul : ∀ a b, G (.num a) → G (.num b) → Meets anyHalt (o.mul a b) fun c => G (.num c)
  one : G (int 1)
  base : ∀ e, G e → G e.baseExponent.1 ∧ G e.baseExponent.2
  arg : ∀ a, G (.call .exp a) → G a
  exp : ∀ a, G a → G (Func.exp.of a)

/-- One property for all that is gathered. -/
lemma KeepsGathered.law (C : KeepsGathered o G) (hs : ∀ args, (∀ e ∈ args, G e) → Meets anyHalt (sum args) G) :
    GatheringLaw o sum G (fun b e => G b ∧ G e) G where
  mul := C.mul
  one := C.one
  entry e he _ := C.base e he
  merge b x c y hb hc _ := (hs [x, y] (by simpa using ⟨hb.2, hc.2⟩)).mono fun _ he => ⟨hb.1, he⟩
  arg := C.arg
  args as _ := hs as
  exp := C.exp
  whole e he _ := ⟨he, C.one⟩

/-- What a property of factors needs to be kept; products may have another property. -/
structure KeepsFactors (o : Overflow) (G H : Expr → Prop) : Prop extends KeepsGathered o G where
  number : ∀ n, G (.num n) → H (.num n)
  factors : ∀ e, H e → ∀ f ∈ e.factors, G f ∧ ∀ gs, f ≠ .times gs

/-- Factors that may stand in a product: neither numbers nor products. -/
structure ProperFactors (G : Expr → Prop) (fs : List Expr) : Prop where
  all : ∀ f ∈ fs, G f
  number : ∀ f ∈ fs, f.isNumber = false
  flat : ∀ f ∈ fs, ∀ gs, f ≠ .times gs

lemma ProperFactors.perm {fs gs : List Expr} (h : ProperFactors G fs) (hp : gs.Perm fs) : ProperFactors G gs :=
  ⟨fun f hf => h.all f (hp.mem_iff.mp hf), fun f hf => h.number f (hp.mem_iff.mp hf),
    fun f hf => h.flat f (hp.mem_iff.mp hf)⟩

structure Gathered.Holds (F : Expr → Prop) (E : Expr → Expr → Prop) (A : Expr → Prop) (s : Gathered) : Prop where
  coeff : F (.num s.coeff)
  bases : ∀ p ∈ s.bases, E p.1 p.2
  exponentials : ∀ a ∈ s.exponentials, A a

lemma addExponent_append {b e : Expr} {bases : List (Expr × Expr)} (h : ∀ p ∈ bases, (p.1 == b) = false) :
    addExponent sum b e bases = .ok (bases ++ [(b, e)]) := by
  induction bases with
  | nil => rfl
  | cons p bases ih =>
    obtain ⟨c, x⟩ := p
    rw [List.forall_mem_cons] at h
    rw [addExponent, if_neg (by simp [h.1]), ih h.2]
    rfl

section Gathering

variable {F : Expr → Prop} {E : Expr → Expr → Prop} {A : Expr → Prop}

lemma addExponent_holds {b e : Expr} (he : E b e)
    (hmerge : ∀ c x, E c x → (c == b) = true → Meets anyHalt (sum [x, e]) (E c)) {bases : List (Expr × Expr)}
    (h : ∀ p ∈ bases, E p.1 p.2) : Meets anyHalt (addExponent sum b e bases) fun out => ∀ p ∈ out, E p.1 p.2 := by
  induction bases with
  | nil => simpa [addExponent] using he
  | cons p bases ih =>
    obtain ⟨c, x⟩ := p
    rw [List.forall_mem_cons] at h
    unfold addExponent
    split
    · next hc => exact (hmerge c x h.1 hc).bind fun y hy => List.forall_mem_cons.mpr ⟨hy, h.2⟩
    · exact (ih h.2).bind fun out hout => List.forall_mem_cons.mpr ⟨h.1, hout⟩

variable (L : GatheringLaw o sum F E A)
include L

lemma push_gathered_holds {s : Gathered} {e : Expr} (h : s.Holds F E A) (he : F e) :
    Meets anyHalt (s.push o sum e) (Gathered.Holds F E A) := by
  have hbase (hn : e.isNumber = false) : Meets anyHalt
      (do return { s with bases := ← addExponent sum e.baseExponent.1 e.baseExponent.2 s.bases } : Calc Gathered)
      (Gathered.Holds F E A) := by
    have hentry := L.entry e he hn
    refine (addExponent_holds hentry (fun c x hc heq => L.merge c x _ _ hc hentry heq) h.bases).bind fun out hout => ?_
    exact ⟨h.coeff, hout, h.exponentials⟩
  cases e with
  | num n => exact (L.mul _ _ h.coeff he).bind fun m hm => ⟨hm, h.bases, h.exponentials⟩
  | symbol | constant | plus | times | power => exact hbase rfl
  | call f a =>
    by_cases hf : f = .exp
    · subst hf
      refine ⟨h.coeff, h.bases, List.forall_mem_append.mpr ⟨h.exponentials, ?_⟩⟩
      simpa using L.arg a he
    · cases f <;> first | exact hbase rfl | exact absurd rfl hf

lemma gathered_holds {es : List Expr} (h : ∀ e ∈ es, F e) :
    Meets anyHalt (es.foldlM (Gathered.push o sum) ⟨.ofInt 1, [], []⟩) (Gathered.Holds F E A) := by
  refine (meets_foldlM (fun rest s => (∀ e ∈ rest, F e) ∧ s.Holds F E A) ?_ ?_).mono fun s hs => hs.2
  · rintro e rest s ⟨hrest, hall⟩
    rw [List.forall_mem_cons] at hrest
    exact (push_gathered_holds L hall hrest.1).mono fun t ht => ⟨hrest.2, ht⟩
  · exact ⟨h, L.one, nofun, nofun⟩

lemma putExponential_holds {s : Gathered} {a : Expr} (h : s.Holds F E A) (ha : A a) :
    Meets anyHalt (s.putExponential o a) (Gathered.Holds F E A) := by
  have he := L.exp a ha
  have hentry := L.whole _ he
  unfold Gathered.putExponential
  split
  · next n hn =>
    rw [hn] at he
    exact (L.mul _ _ h.coeff he).bind fun m hm => ⟨hm, h.bases, h.exponentials⟩
  · next hn =>
    refine ⟨h.coeff, List.forall_mem_append.mpr ⟨h.bases, List.forall_mem_singleton.mpr (hentry ?_)⟩, h.exponentials⟩
    cases hof : Func.exp.of a with
    | num n => exact absurd hof (hn n)
    | symbol | constant | plus | times | power | call => rfl

lemma mergeExponentials_holds {s : Gathered} (h : s.Holds F E A) :
    Meets anyHalt (s.mergeExponentials o sum) (Gathered.Holds F E A) := by
  have hexp := h.exponentials
  unfold Gathered.mergeExponentials
  split
  · exact h
  · next a ha =>
    rw [ha] at hexp
    exact putExponential_holds L h (hexp a List.mem_cons_self)
  · next hnil _ => exact (L.args _ hnil hexp).bind fun a ha => putExponential_holds L h ha

omit L

lemma absorbed_all {P : Expr → Prop} (hmul : ∀ a b, F (.num a) → F (.num b) → Meets anyHalt (o.mul a b) fun c => F (.num c))
    (hP : ∀ f, P f → F f) {c : Number} (hc : F (.num c)) {es : List Expr} (h : ∀ e ∈ es, P e) :
    Meets anyHalt (es.foldlM (absorb o) (c, [])) fun s => F (.num s.1) ∧ ∀ f ∈ s.2, P f ∧ f.isNumber = false := by
  refine (meets_foldlM (fun rest s => (∀ e ∈ rest, P e) ∧ F (.num s.1) ∧ ∀ f ∈ s.2, P f ∧ f.isNumber = false)
    ?_ ?_).mono fun s hs => hs.2
  · rintro e rest ⟨d, fs⟩ ⟨hrest, hd, hfs⟩
    rw [List.forall_mem_cons] at hrest
    obtain ⟨he, hrest⟩ := hrest
    cases e with
    | num n => exact (hmul _ _ hd (hP _ he)).bind fun m hm => ⟨hrest, hm, hfs⟩
    | symbol | constant | plus | times | power | call =>
      exact ⟨hrest, hd, List.forall_mem_append.mpr ⟨hfs, by simpa using ⟨he, rfl⟩⟩⟩
  · exact ⟨h, hc, nofun⟩

/-- A product keeps its property when powers and the last part do. The factors may have a property of their own. -/
lemma productStep_gathered (L : GatheringLaw o sum F E A) {P : Expr → Prop} (hP : ∀ f, P f → F f)
    (hnum : ∀ n, F (.num n) → H (.num n)) (hfactors : ∀ e, H e → ∀ f ∈ e.factors, P f)
    (hw : ∀ b e, E b e → Meets anyHalt (pow b e) H)
    (hf : ∀ c fs, F (.num c) → (∀ f ∈ fs, P f ∧ f.isNumber = false) →
      Meets anyHalt (finishProduct sum product text (c, fs)) H)
    {args : List Expr} (h : ∀ e ∈ args, H e) : Meets anyHalt (productStep o sum product pow text args) H := by
  have hflatten {es : List Expr} (hes : ∀ e ∈ es, H e) : ∀ f ∈ es.flatMap factors, P f := by
    intro f hf
    obtain ⟨e, he, hf⟩ := List.mem_flatMap.mp hf
    exact hfactors e (hes e he) f hf
  refine (gathered_holds L fun f hf => hP f (hflatten h f hf)).bind fun g hg => ?_
  split
  · exact hnum _ hg.coeff
  · refine (mergeExponentials_holds L hg).bind fun g hg => ?_
    have hpowers : Meets anyHalt (g.bases.mapM fun p => pow p.1 p.2) fun built => ∀ r ∈ built, H r :=
      meets_mapM_forall fun p hp => hw p.1 p.2 (hg.bases p hp)
    refine hpowers.bind fun built hbuilt => ?_
    exact (absorbed_all L.mul hP hg.coeff (hflatten hbuilt)).bind fun s hs => hf s.1 s.2 hs.1 hs.2

end Gathering

lemma productStep_all (C : KeepsFactors o G H) (hs : ∀ args, (∀ e ∈ args, G e) → Meets anyHalt (sum args) G)
    (hw : ∀ b e, G b → G e → Meets anyHalt (pow b e) H)
    (hf : ∀ c fs, G (.num c) → ProperFactors G fs → Meets anyHalt (finishProduct sum product text (c, fs)) H)
    {args : List Expr} (h : ∀ e ∈ args, H e) : Meets anyHalt (productStep o sum product pow text args) H := by
  refine productStep_gathered (C.toKeepsGathered.law hs) (fun f hf => hf.1) C.number C.factors
    (fun b e he => hw b e he.1 he.2) (fun c fs hc hfs => ?_) h
  exact hf c fs hc ⟨fun f hf => (hfs f hf).1.1, fun f hf => (hfs f hf).2, fun f hf => (hfs f hf).1.2⟩

end PlaneCalculus.Expr
