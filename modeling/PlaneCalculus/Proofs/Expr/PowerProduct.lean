import PlaneCalculus.Proofs.Expr.RingTree
import PlaneCalculus.Proofs.Expr.SoundTree

/-! Products of powers of polynomials, with at most one call among the factors. Polynomials are in normal form and not zero;
their powers may have any polynomial for exponent. Such products are multiplied, raised and added without anything being
divided by zero, and the call stays what it is. -/

namespace PlaneCalculus.Expr

open Calc
open MvPolynomial (X)

-- Where the exact range ends does not matter here.
attribute [local irreducible] Number.fits

variable {S T : String → Prop} {b e f x : Expr}

/-! ### Bases and exponents -/

/-- A polynomial in normal form, other than zero, in symbols of the given kind. -/
structure IsBase (S : String → Prop) (b : Expr) : Prop where
  normal : IsNormal b
  symbols : SymbolsIn S b
  nonzero : b.isZero = false

structure IsExponent (T : String → Prop) (x : Expr) : Prop where
  normal : IsNormal x
  symbols : SymbolsIn T x

lemma isExponent_int (k : Int) : IsExponent T (int k) := ⟨isNormal_term (isTerm_int k), symbolsIn_num _⟩

lemma isBase_exact {q : ℚ} (hq : q ≠ 0) : IsBase S (.num (.exact q)) :=
  ⟨isNormal_term (Or.inl ⟨q, rfl⟩), symbolsIn_num _, isZero_exact_of_ne hq⟩

lemma isBase_symbol {s : String} (hs : S s) : IsBase S (.symbol s) :=
  ⟨isNormal_term (isTerm_raised (p := (s, 1)) Nat.one_pos), hs, rfl⟩

lemma IsBase.exact {n : Number} (h : IsBase S (.num n)) : ∃ q, q ≠ 0 ∧ n = .exact q :=
  exists_ne_zero_of_sound (T := S) h.normal.isRing h.nonzero

lemma IsBase.exponent (h : IsBase T x) : IsExponent T x := ⟨h.normal, h.symbols⟩

lemma IsBase.any (h : IsBase S b) : IsBase anySymbol b := ⟨h.normal, symbolsIn_any b, h.nonzero⟩

/-- A power in normal form is one of a symbol. -/
lemma IsNormal.power (h : IsNormal (.power b x)) : ∃ (s : String) (n : ℕ), b = .symbol s ∧ x = int n := by
  obtain ⟨q, hq⟩ | ⟨p, -, hp⟩ := (h.terms _ (List.mem_singleton_self _)).factors _ (List.mem_singleton_self _)
  · cases hq
  · rcases raised_cases p with ⟨hr, -⟩ | hr <;> rw [hr] at hp
    · cases hp
    · injection hp with hb hx
      exact ⟨p.1, p.2, hb, hx⟩

lemma IsNormal.not_constant {c : Constant} : ¬IsNormal (.constant c) := fun h => h.isRing

lemma IsNormal.not_call {g : Func} {a : Expr} : ¬IsNormal (.call g a) := fun h => h.isRing.1

lemma IsNormal.isZero_iff (h : IsNormal b) : b.isZero = true ↔ polynomial b = 0 := by
  constructor
  · intro hz
    exact value_of_isZero h.defined hz
  · intro hv
    rw [h.eq_exact (q := 0) (by simpa using hv)]
    rfl

lemma normalLaw_sound : NormalLaw (SoundNode T) where
  exact _ := rfl
  symbol _ := trivial
  power _ _ _ := ⟨rfl, symbolsIn_num _⟩
  times _ h := h
  plus _ := trivial

lemma IsNormal.sound (h : IsNormal b) : SoundIn T b := h.everywhere normalLaw_sound

lemma IsBase.factors (h : IsBase S b) : ∀ f ∈ b.factors, IsBase S f := by
  have hsymbols := factors_symbols h.symbols
  have hterms := h.normal.terms
  cases b with
  | times fs =>
    have hterm := hterms _ (List.mem_singleton_self _)
    obtain ⟨q, hq⟩ | ⟨c, l, hc, hne, -, heq⟩ := id hterm
    · cases hq
    · have hnonzero := monomialTree_factors_nonzero hc hne
      rw [← heq] at hnonzero
      exact fun f hf => ⟨isNormal_term (hterm.factors f hf).isTerm, hsymbols f hf, hnonzero f hf⟩
  | num | symbol | constant | plus | power | call => exact List.forall_mem_singleton.mpr h

lemma IsBase.entry (h : IsBase S b) : IsBase S b.baseExponent.1 ∧ IsExponent T b.baseExponent.2 := by
  cases b with
  | power b x =>
    obtain ⟨s, n, rfl, rfl⟩ := h.normal.power
    exact ⟨isBase_symbol h.symbols.2.1, isExponent_int n⟩
  | num | symbol | constant | plus | times | call => exact ⟨h, isExponent_int 1⟩

/-! ### Factors -/

/-- A polynomial or a power of one. -/
inductive PowerFactor (S T : String → Prop) : Expr → Prop
  | base {b : Expr} : IsBase S b → PowerFactor S T b
  | power {b x : Expr} : IsBase S b → b.isInt 1 = false → IsExponent T x → x.isZero = false → PowerFactor S T (.power b x)

def isCall : Expr → Bool
  | .call _ _ => true
  | _ => false

/-- A call or a power of one. -/
def carriesCall (f : Expr) : Bool := f.baseExponent.1.isCall

lemma IsBase.isCall (h : IsBase S b) : b.isCall = false := by
  cases b with
  | call g a => exact absurd h.normal IsNormal.not_call
  | num | symbol | constant | plus | times | power => rfl

lemma PowerFactor.carriesCall (h : PowerFactor S T f) : f.carriesCall = false := by
  cases h with
  | base hb => exact (hb.entry (T := T)).1.isCall
  | power hb => exact hb.isCall

lemma PowerFactor.entry (h : PowerFactor S T f) :
    IsBase S f.baseExponent.1 ∧ IsExponent T f.baseExponent.2 := by
  cases h with
  | base hb => exact hb.entry
  | power hb _ hx => exact ⟨hb, hx⟩

lemma PowerFactor.nonzero (h : PowerFactor S T f) : f.isZero = false := by
  cases h with
  | base hb => exact hb.nonzero
  | power => rfl

lemma PowerFactor.factors (h : PowerFactor S T f) : ∀ g ∈ f.factors, PowerFactor S T g := by
  cases h with
  | base hb => exact fun g hg => .base (hb.factors g hg)
  | power hb hone hx hz => exact List.forall_mem_singleton.mpr (.power hb hone hx hz)

lemma isCall_of_same {a b : Expr} (h : (a == b) = true) : a.isCall = b.isCall := by
  cases a <;> cases b <;> first | rfl | cases h

/-- A call that stays what it is as a factor of a product. -/
structure StandingCall (c : Expr) : Prop where
  call : c.carriesCall = true
  raised : ∀ product pow, powerStep .refuse product pow c.baseExponent.1 c.baseExponent.2 = .ok c
  exp : ∀ a, c = .call .exp a → Func.exp.of a = c

/-- The factors are powers of polynomials but for the given calls. -/
structure Carries (S T : String → Prop) (cs fs : List Expr) : Prop where
  calls : fs.filter carriesCall = cs
  powers : ∀ f ∈ fs, f.carriesCall = false → PowerFactor S T f

/-- At most one call, and one that stays. -/
structure Cargo (cs : List Expr) : Prop where
  standing : ∀ c ∈ cs, StandingCall c
  one : cs.length ≤ 1

lemma cargo_nil : Cargo [] := ⟨nofun, Nat.zero_le 1⟩

lemma cargo_singleton {c : Expr} (h : StandingCall c) : Cargo [c] := ⟨by simpa using h, le_rfl⟩

variable {cs ds fs gs : List Expr} {c : Expr}

lemma carries_nil (h : ∀ f ∈ fs, PowerFactor S T f) : Carries S T [] fs :=
  ⟨List.filter_eq_nil_iff.mpr fun f hf => by simp [(h f hf).carriesCall], fun f hf _ => h f hf⟩

lemma Carries.all (h : Carries S T [] fs) : ∀ f ∈ fs, PowerFactor S T f :=
  fun f hf => h.powers f hf (by simpa using List.filter_eq_nil_iff.mp h.calls f hf)

lemma Carries.append (hf : Carries S T cs fs) (hg : Carries S T ds gs) : Carries S T (cs ++ ds) (fs ++ gs) :=
  ⟨by rw [List.filter_append, hf.calls, hg.calls], List.forall_mem_append.mpr ⟨hf.powers, hg.powers⟩⟩

lemma carries_call (h : c.carriesCall = true) : Carries S T [c] [c] :=
  ⟨by simp [h], fun f hf hcall => by simp [List.mem_singleton.mp hf, h] at hcall⟩

/-- What comes first is a call or a power, and the rest carries the other calls. -/
lemma Carries.uncons (h : Carries S T cs (f :: fs)) :
    (∃ ds, cs = f :: ds ∧ f.carriesCall = true ∧ Carries S T ds fs) ∨ PowerFactor S T f ∧ Carries S T cs fs := by
  obtain ⟨hcalls, hpowers⟩ := h
  rw [List.forall_mem_cons] at hpowers
  cases hf : f.carriesCall with
  | true =>
    rw [List.filter_cons_of_pos hf] at hcalls
    exact Or.inl ⟨_, hcalls.symm, rfl, rfl, hpowers.2⟩
  | false =>
    rw [List.filter_cons_of_neg (by simp [hf])] at hcalls
    exact Or.inr ⟨hpowers.1 hf, hcalls, hpowers.2⟩

lemma Carries.perm (hcs : cs.length ≤ 1) (h : Carries S T cs fs) (hp : gs.Perm fs) : Carries S T cs gs := by
  refine ⟨?_, fun g hg => h.powers g (hp.mem_iff.mp hg)⟩
  have hfilter := hp.filter carriesCall
  rw [h.calls] at hfilter
  rcases cs with _ | ⟨c, _ | ⟨d, cs⟩⟩
  · exact hfilter.eq_nil
  · exact List.perm_singleton.mp hfilter
  · simp at hcs

lemma StandingCall.shape (h : StandingCall c) : c.factors = [c] ∧ c.isNumber = false ∧ ∀ ts, c ≠ .plus ts := by
  have hcall := h.call
  cases c with
  | num | times | plus => cases hcall
  | symbol | constant | power | call => exact ⟨rfl, rfl, nofun⟩

lemma PowerFactor.sound (h : PowerFactor S T f) : SoundIn T f := by
  cases h with
  | base hb => exact hb.normal.sound
  | power hb _ hx => exact ⟨⟨hb.nonzero, hx.symbols⟩, hb.normal.sound, hx.normal.sound⟩

lemma PowerFactor.any (h : PowerFactor S T f) : PowerFactor anySymbol anySymbol f := by
  cases h with
  | base hb => exact .base hb.any
  | power hb hone hx hz => exact .power hb.any hone ⟨hx.normal, symbolsIn_any _⟩ hz

lemma Carries.any (h : Carries S T cs fs) : Carries anySymbol anySymbol cs fs :=
  ⟨h.calls, fun f hf hcall => (h.powers f hf hcall).any⟩

lemma Carries.mem (h : Carries S T cs fs) : ∀ c ∈ cs, c ∈ fs :=
  fun _ hc => (List.mem_filter.mp (h.calls.symm ▸ hc)).1

lemma Carries.filter (p : Expr → Bool) (h : Carries S T cs fs) : Carries S T (cs.filter p) (fs.filter p) := by
  refine ⟨?_, fun f hf => h.powers f (List.mem_filter.mp hf).1⟩
  rw [← h.calls, List.filter_filter, List.filter_filter]
  simp only [Bool.and_comm]

/-- The factors of the factors carry the same calls. -/
lemma Carries.flatten (hcs : ∀ c ∈ cs, StandingCall c) (h : Carries S T cs fs) : Carries S T cs (fs.flatMap factors) := by
  induction fs generalizing cs with
  | nil => exact h
  | cons f fs ih =>
    rw [List.flatMap_cons]
    obtain ⟨ds, rfl, hcall, hrest⟩ | ⟨hf, hrest⟩ := h.uncons
    · rw [List.forall_mem_cons] at hcs
      rw [hcs.1.shape.1]
      exact (carries_call hcall).append (ih hcs.2 hrest)
    · exact (carries_nil hf.factors).append (ih hcs hrest)

lemma Carries.factor (h : Carries S T cs fs) (hf : f ∈ fs) : f ∈ cs ∨ PowerFactor S T f := by
  cases hcall : f.carriesCall with
  | true => exact Or.inl (h.calls ▸ List.mem_filter.mpr ⟨hf, hcall⟩)
  | false => exact Or.inr (h.powers f hf hcall)

lemma Carries.nonzero (h : Carries S T cs e.factors) : e.isZero = false := by
  cases e with
  | num n =>
    obtain ⟨-, -, hcall, -⟩ | ⟨hf, -⟩ := h.uncons
    · cases hcall
    · exact hf.nonzero
  | symbol | constant | plus | times | power | call => rfl

lemma isZero_of_carriesCall (h : c.carriesCall = true) : c.isZero = false := by
  cases c with
  | num => cases h
  | symbol | constant | plus | times | power | call => rfl

lemma Carries.sound (hcs : ∀ c ∈ cs, SoundIn T c) (h : Carries S T cs e.factors) : SoundIn T e := by
  have hsound : ∀ f ∈ e.factors, SoundIn T f := fun f hf => (h.factor hf).elim (hcs f) PowerFactor.sound
  cases e with
  | times fs =>
    refine (everywhere_times fs).mpr ⟨fun f hf => ?_, hsound⟩
    cases hcall : f.carriesCall with
    | true => exact isZero_of_carriesCall hcall
    | false => exact (h.powers f hf hcall).nonzero
  | num | symbol | constant | plus | power | call => exact hsound _ (List.mem_singleton_self _)

/-! ### Gathering -/

variable {sum product : List Expr → Calc Expr} {pow : Expr → Expr → Calc Expr} {text : Expr → Calc String}

/-- Bases with their exponents, polynomials but for those of the given calls. -/
structure BasesCarry (S T : String → Prop) (entries bases : List (Expr × Expr)) : Prop where
  calls : bases.filter (fun p => p.1.isCall) = entries
  powers : ∀ p ∈ bases, p.1.isCall = false → IsBase S p.1 ∧ IsExponent T p.2

structure Gathered.Carries (S T : String → Prop) (cs : List Expr) (g : Gathered) : Prop where
  coeff : ∃ q, q ≠ 0 ∧ g.coeff = .exact q
  carried : ∃ entries, BasesCarry S T entries g.bases ∧
    entries ++ g.exponentials.map (fun a => (.call .exp a, int 1)) = cs.map baseExponent

/-- What the constructors make of products of powers with at most one call. -/
structure KeepsCargo (sum product : List Expr → Calc Expr) (pow : Expr → Expr → Calc Expr) : Prop where
  exponents : ∀ {T x y}, IsExponent T x → IsExponent T y → Meets anyHalt (sum [x, y]) (IsExponent T)
  distributed : ∀ {S q ts}, q ≠ 0 → IsBase S (.plus ts) →
    Meets anyHalt (do sum (← ts.mapM fun t => product [.num (.exact q), t])) (IsBase S)
  ints : ∀ j k, Meets anyHalt (product [int j, int k]) (· = int (j * k))
  carried : ∀ {S T cs args}, Cargo cs → Carries S T cs (args.flatMap factors) →
    Meets anyHalt (product args) fun r => Carries S T cs r.factors
  raised : ∀ {S T b x}, IsBase S b → IsExponent T x → Meets anyHalt (pow b x) fun r => Carries S T [] r.factors
  standing : ∀ {c}, StandingCall c → Meets anyHalt (pow c.baseExponent.1 c.baseExponent.2) (· = c)

lemma meets_mul_ne_zero {p q : ℚ} (hp : p ≠ 0) (hq : q ≠ 0) :
    Meets anyHalt (Overflow.refuse.mul (.exact p) (.exact q)) fun n => ∃ r, r ≠ 0 ∧ n = .exact r :=
  (Overflow.meets_refuse_mul p q).mono fun _ hn => ⟨p * q, mul_ne_zero hp hq, hn⟩

section

variable (K : KeepsCargo sum product pow)
include K

lemma addExponent_carries {entries bases : List (Expr × Expr)} (hb : IsBase S b) (hx : IsExponent T x)
    (h : BasesCarry S T entries bases) : Meets anyHalt (addExponent sum b x bases) (BasesCarry S T entries) := by
  have hentry : b.isCall = false → IsBase S b ∧ IsExponent T x := fun _ => ⟨hb, hx⟩
  have hpowers := addExponent_holds (E := fun c y => c.isCall = false → IsBase S c ∧ IsExponent T y) hentry
    (fun c y hc heq => (K.exponents (hc (by rw [isCall_of_same heq, hb.isCall])).2 hx).mono
      fun z hz hcall => ⟨(hc hcall).1, hz⟩) h.powers
  have hcalls : Meets anyHalt (addExponent sum b x bases) fun out =>
      out.filter (fun p => p.1.isCall) = bases.filter fun p => p.1.isCall := by
    clear h hpowers
    induction bases with
    | nil => simp [addExponent, hb.isCall]
    | cons p bases ih =>
      obtain ⟨c, y⟩ := p
      unfold addExponent
      split
      · next heq =>
        have hc : c.isCall = false := by rw [isCall_of_same heq, hb.isCall]
        exact (meets_anyHalt_true _).bind fun z _ => by simp [hc]
      · exact ih.bind fun out hout => by simp [List.filter_cons, hout]
  exact (hcalls.and hpowers).mono fun out hout => ⟨hout.1.trans h.calls, hout.2⟩

lemma push_power {g : Gathered} (hg : g.Carries S T cs) (hf : PowerFactor S T f) :
    Meets anyHalt (g.push .refuse sum f) (Gathered.Carries S T cs) := by
  obtain ⟨⟨q, hq, hcoeff⟩, entries, hbases, hcalls⟩ := hg
  obtain ⟨hb, hx⟩ := hf.entry
  have hbase : Meets anyHalt
      (do return { g with bases := ← addExponent sum f.baseExponent.1 f.baseExponent.2 g.bases } : Calc Gathered)
      (Gathered.Carries S T cs) :=
    (addExponent_carries K hb hx hbases).bind fun out hout => ⟨⟨q, hq, hcoeff⟩, entries, hout, hcalls⟩
  cases f with
  | num n =>
    obtain ⟨p, hp, rfl⟩ := hb.exact
    show Meets anyHalt (do return { g with coeff := ← Overflow.refuse.mul g.coeff (.exact p) } : Calc Gathered) _
    rw [hcoeff]
    exact (meets_mul_ne_zero hq hp).bind fun n hn => ⟨hn, entries, hbases, hcalls⟩
  | symbol | constant | plus | times | power => exact hbase
  | call u a => cases hf.carriesCall

omit K in
lemma push_call {g : Gathered} (hg : g.Carries S T []) (hc : StandingCall c) :
    Meets anyHalt (g.push .refuse sum c) (Gathered.Carries S T [c]) := by
  obtain ⟨hcoeff, entries, ⟨hfilter, hpowers⟩, hcalls⟩ := hg
  obtain ⟨rfl, hexp⟩ := List.append_eq_nil_iff.mp hcalls
  obtain hnone := List.map_eq_nil_iff.mp hexp
  have hcall := hc.call
  have hbase : Meets anyHalt
      (do return { g with bases := ← addExponent sum c.baseExponent.1 c.baseExponent.2 g.bases } : Calc Gathered)
      (Gathered.Carries S T [c]) := by
    have hnew : ∀ p ∈ g.bases, (p.1 == c.baseExponent.1) = false := by
      intro p hp
      refine Bool.eq_false_iff.mpr fun heq => List.filter_eq_nil_iff.mp hfilter p hp ?_
      rw [isCall_of_same heq]
      exact hcall
    rw [addExponent_append hnew]
    refine ⟨hcoeff, [c.baseExponent], ⟨?_, List.forall_mem_append.mpr ⟨hpowers, ?_⟩⟩, by simp [hnone]⟩
    · simp [List.filter_append, hfilter, show c.baseExponent.1.isCall = true from hcall]
    · rw [List.forall_mem_singleton, show c.baseExponent.1.isCall = true from hcall]
      nofun
  cases c with
  | num | symbol | constant | plus | times => cases hcall
  | power b x => exact hbase
  | call u a =>
    by_cases hu : u = .exp
    · subst hu
      exact ⟨hcoeff, [], ⟨hfilter, hpowers⟩, by simp [hnone, baseExponent]⟩
    · cases u <;> first | exact hbase | exact absurd rfl hu

lemma gathered_carries (hcs : Cargo cs) (h : Carries S T cs fs) :
    Meets anyHalt (fs.foldlM (Gathered.push .refuse sum) ⟨.ofInt 1, [], []⟩) (Gathered.Carries S T cs) := by
  refine (meets_foldlM (fun rest g => ∃ ds es, ds ++ es = cs ∧ g.Carries S T ds ∧ Carries S T es rest) ?_ ?_).mono ?_
  · rintro f rest g ⟨ds, es, hsplit, hg, hrest⟩
    obtain ⟨es, rfl, hf, hrest⟩ | ⟨hf, hrest⟩ := hrest.uncons
    · have hlen := hcs.one
      rw [← hsplit, List.length_append, List.length_cons] at hlen
      obtain rfl : ds = [] := List.length_eq_zero_iff.mp (by omega)
      have hstanding := hcs.standing f (hsplit ▸ List.mem_cons_self)
      exact (push_call hg hstanding).mono fun g' hg' => ⟨[f], es, hsplit, hg', hrest⟩
    · exact (push_power K hg hf).mono fun g' hg' => ⟨ds, es, hsplit, hg', hrest⟩
  · exact ⟨[], cs, rfl, ⟨⟨1, one_ne_zero, rfl⟩, [], ⟨rfl, nofun⟩, rfl⟩, h⟩
  · rintro g ⟨ds, es, hsplit, hg, hrest⟩
    obtain rfl : [] = es := hrest.calls
    rw [List.append_nil] at hsplit
    exact hsplit ▸ hg

end

lemma mergeExponentials_carries (hcs : Cargo cs) {g : Gathered} (hg : g.Carries S T cs) :
    Meets anyHalt (g.mergeExponentials .refuse sum) fun g' => (∃ q, q ≠ 0 ∧ g'.coeff = .exact q) ∧
      BasesCarry S T (cs.map baseExponent) g'.bases := by
  obtain ⟨hcoeff, entries, hbases, hcalls⟩ := hg
  have hlen := hcs.one
  rw [← List.length_map baseExponent, ← hcalls, List.length_append, List.length_map] at hlen
  unfold Gathered.mergeExponentials
  split
  · next hnone =>
    rw [hnone, List.map_nil, List.append_nil] at hcalls
    exact ⟨hcoeff, hcalls ▸ hbases⟩
  · next a ha =>
    rw [ha, List.length_singleton] at hlen
    obtain rfl : entries = [] := List.length_eq_zero_iff.mp (by omega)
    rw [ha, List.map_singleton, List.nil_append] at hcalls
    obtain ⟨c, rfl, hc⟩ := List.map_eq_singleton_iff.mp hcalls.symm
    have hstanding := hcs.standing c List.mem_cons_self
    have hself := hstanding.raised (sumAt .refuse 0) (powerAt .refuse 0)
    rw [hc] at hself
    obtain rfl : Expr.call .exp a = c := Except.ok.inj hself
    rw [Gathered.putExponential, hstanding.exp a rfl]
    refine ⟨hcoeff, ⟨?_, List.forall_mem_append.mpr ⟨hbases.powers, by simp [isCall]⟩⟩⟩
    rw [List.filter_append, hbases.calls]
    rfl
  · next hnone hone =>
    rcases hexp : g.exponentials with _ | ⟨a, _ | ⟨a', as⟩⟩
    · exact absurd hexp hnone
    · exact absurd hexp (hone a)
    · rw [hexp, List.length_cons, List.length_cons] at hlen
      omega

lemma powers_carry (K : KeepsCargo sum product pow) {bases : List (Expr × Expr)} (hcs : ∀ c ∈ cs, StandingCall c)
    (h : BasesCarry S T (cs.map baseExponent) bases) :
    Meets anyHalt (bases.mapM fun p => pow p.1 p.2) fun built => Carries S T cs (built.flatMap factors) := by
  induction bases generalizing cs with
  | nil =>
    obtain rfl := List.map_eq_nil_iff.mp h.calls.symm
    exact carries_nil nofun
  | cons p bases ih =>
    obtain ⟨hcalls, hpowers⟩ := h
    rw [List.forall_mem_cons] at hpowers
    rw [List.mapM_cons]
    cases hp : p.1.isCall with
    | true =>
      rw [List.filter_cons_of_pos (p := fun p : Expr × Expr => p.1.isCall) hp] at hcalls
      obtain ⟨c, ds, rfl, rfl, hds⟩ := List.map_eq_cons_iff.mp hcalls.symm
      rw [List.forall_mem_cons] at hcs
      refine (K.standing hcs.1).bind ?_
      rintro r rfl
      refine (ih hcs.2 ⟨hds.symm, hpowers.2⟩).bind fun built hbuilt => ?_
      rw [meets_pure, List.flatMap_cons, hcs.1.shape.1]
      exact (carries_call hcs.1.call).append hbuilt
    | false =>
      rw [List.filter_cons_of_neg (p := fun p : Expr × Expr => p.1.isCall) (by simp [hp])] at hcalls
      obtain ⟨hb, hx⟩ := hpowers.1 hp
      refine (K.raised hb hx).bind fun r hr => (ih hcs ⟨hcalls, hpowers.2⟩).bind fun built hbuilt => ?_
      rw [meets_pure, List.flatMap_cons]
      exact hr.append hbuilt

lemma absorbed_carries {q : ℚ} (hq : q ≠ 0) (hcs : ∀ c ∈ cs, StandingCall c) (h : Carries S T cs fs) :
    Meets anyHalt (fs.foldlM (absorb .refuse) (.exact q, [])) fun s =>
      (∃ p, p ≠ 0 ∧ s.1 = .exact p) ∧ Carries S T cs s.2 ∧ ∀ f ∈ s.2, f.isNumber = false := by
  refine (meets_foldlM (fun rest s => (∃ p, p ≠ 0 ∧ s.1 = .exact p) ∧ (∀ f ∈ s.2, f.isNumber = false) ∧
    ∃ ds es, ds ++ es = cs ∧ Carries S T ds s.2 ∧ Carries S T es rest) ?_ ?_).mono ?_
  · rintro f rest ⟨c, gs⟩ ⟨⟨p, hp, rfl⟩, hn, ds, es, hsplit, hgs, hrest⟩
    have hput (hf : f.isNumber = false) (es' : List Expr) (hrest' : Carries S T es' rest) (fs' : List Expr)
        (heq : fs' ++ es' = es) (hf' : Carries S T fs' [f]) :
        Meets anyHalt (absorb .refuse (.exact p, gs) f) fun s => (∃ p, p ≠ 0 ∧ s.1 = .exact p) ∧
          (∀ f ∈ s.2, f.isNumber = false) ∧ ∃ ds es, ds ++ es = cs ∧ Carries S T ds s.2 ∧ Carries S T es rest := by
      have hall : ∀ g ∈ gs ++ [f], g.isNumber = false := List.forall_mem_append.mpr ⟨hn, by simpa using hf⟩
      have hsplit' : ds ++ fs' ++ es' = cs := by rw [List.append_assoc, heq, hsplit]
      cases f with
      | num n => cases hf
      | symbol | constant | plus | times | power | call =>
        exact ⟨⟨p, hp, rfl⟩, hall, ds ++ fs', es', hsplit', hgs.append hf', hrest'⟩
    obtain ⟨es', rfl, hf, hrest'⟩ | ⟨hf, hrest'⟩ := hrest.uncons
    · have hstanding := hcs f (hsplit ▸ List.mem_append_right _ List.mem_cons_self)
      exact hput hstanding.shape.2.1 es' hrest' [f] rfl (carries_call hf)
    · cases hnum : f.isNumber with
      | false => exact hput hnum es hrest' [] rfl (carries_nil (by simpa using hf))
      | true =>
        obtain ⟨n, rfl⟩ := exists_num_of_isNumber hnum
        obtain ⟨r, hr, rfl⟩ := (hf.entry (T := T)).1.exact
        exact (meets_mul_ne_zero hp hr).bind fun n hn' => ⟨hn', hn, ds, es, hsplit, hgs, hrest'⟩
  · exact ⟨⟨q, hq, rfl⟩, nofun, [], cs, rfl, carries_nil nofun, h⟩
  · rintro s ⟨hcoeff, hn, ds, es, hsplit, hs, hrest⟩
    obtain rfl : [] = es := hrest.calls
    rw [List.append_nil] at hsplit
    exact ⟨hcoeff, hsplit ▸ hs, hn⟩

/-! ### Products -/

lemma collapse_carries (hcs : ∀ c ∈ cs, StandingCall c) (h : Carries S T cs fs) :
    Carries S T cs (collapse 1 .times fs).factors := by
  rcases fs with _ | ⟨f, _ | ⟨g, fs⟩⟩
  · obtain rfl : [] = cs := h.calls
    exact carries_nil (List.forall_mem_singleton.mpr (.base (isBase_exact one_ne_zero)))
  · show Carries S T cs f.factors
    obtain ⟨ds, rfl, -, -⟩ | ⟨hf, hnone⟩ := h.uncons
    · rwa [(hcs f List.mem_cons_self).shape.1]
    · obtain rfl : [] = cs := hnone.calls
      exact carries_nil hf.factors
  · exact h

lemma finishProduct_carries (K : KeepsCargo sum product pow) (hcs : Cargo cs) {q : ℚ} (hq : q ≠ 0)
    (h : Carries S T cs fs) : Meets anyHalt (finishProduct sum product text (.exact q, fs)) fun r =>
      Carries S T cs r.factors := by
  unfold finishProduct
  rw [if_neg (by simp [isZero_exact_of_ne hq])]
  split
  · next ts hts _ =>
    cases hts
    obtain ⟨ds, -, hcall, -⟩ | ⟨hf, hnone⟩ := h.uncons
    · cases hcall
    · obtain rfl : [] = cs := hnone.calls
      have hbase : IsBase S (.plus ts) := (hf.entry (T := T)).1
      exact (K.distributed hq hbase).mono fun r hr => carries_nil fun f hf => .base (hr.factors f hf)
  · refine (meets_sortFactors_perm text fs).bind fun gs hperm => collapse_carries hcs.standing ?_
    have hgs := h.perm hcs.one hperm
    split
    · exact hgs
    · exact (carries_nil (List.forall_mem_singleton.mpr (.base (isBase_exact hq)))).append hgs

lemma productStep_carries (K : KeepsCargo sum product pow) {args : List Expr} (hcs : Cargo cs)
    (h : Carries S T cs (args.flatMap factors)) :
    Meets anyHalt (productStep .refuse sum product pow text args) fun r => Carries S T cs r.factors := by
  refine (gathered_carries K hcs h).bind fun g hg => ?_
  obtain ⟨q, hq, hcoeff⟩ := hg.coeff
  rw [if_neg (by simp [hcoeff, isZero_exact_of_ne hq])]
  refine (mergeExponentials_carries hcs hg).bind ?_
  rintro g' ⟨⟨p, hp, hcoeff'⟩, hbases⟩
  refine (powers_carry K hcs.standing hbases).bind fun built hbuilt => ?_
  rw [hcoeff']
  refine (absorbed_carries hp hcs.standing hbuilt).bind ?_
  rintro ⟨d, gs⟩ ⟨⟨r, hr, rfl⟩, hgs, -⟩
  exact finishProduct_carries K hcs hr hgs

/-! ### Powers -/

lemma IsRadical.carries {r : Expr} (h : IsRadical r) : Carries S T [] r.factors := by
  have hroot {i : ℕ} (h0 : i ≠ 0) (h1 : i ≠ 1) : PowerFactor S T (.power (int i) half) := by
    have hone : (int i).isInt 1 = false := (int_exponent (by exact_mod_cast h0) (by exact_mod_cast h1)).2
    exact .power (isBase_exact (by exact_mod_cast h0)) hone ⟨isNormal_term (Or.inl ⟨_, rfl⟩), symbolsIn_num _⟩ rfl
  rcases h with ⟨c, hc, rfl⟩ | ⟨i, h0, h1, rfl | ⟨c, hc, rfl⟩⟩
  · exact carries_nil (List.forall_mem_singleton.mpr (.base (isBase_exact hc)))
  · exact carries_nil (List.forall_mem_singleton.mpr (hroot h0 h1))
  · exact carries_nil (by simpa [factors] using ⟨.base (isBase_exact hc), hroot h0 h1⟩)

lemma carries_one : Carries S T [] (int 1).factors :=
  carries_nil (List.forall_mem_singleton.mpr (.base (isBase_exact one_ne_zero)))

lemma IsBase.carries (h : IsBase S b) : Carries S T [] b.factors := carries_nil fun f hf => .base (h.factors f hf)

lemma distributePower_carries (K : KeepsCargo sum product pow) (hb : IsBase S b) (hone : b.isInt 1 = false)
    (hx : IsExponent T x) (hz : x.isZero = false) :
    Meets anyHalt (distributePower product pow b x) fun r => Carries S T [] r.factors := by
  have hself : Carries S T [] (.power b x : Expr).factors :=
    carries_nil (List.forall_mem_singleton.mpr (.power hb hone hx hz))
  unfold distributePower
  split
  · exact absurd hb.normal IsNormal.not_constant
  · next b y k hk =>
    obtain ⟨s, n, rfl, rfl⟩ := hb.normal.power
    rw [eq_int_of_integer? hk]
    refine (K.ints n k).bind fun e he => ?_
    rw [he]
    exact K.raised (isBase_symbol hb.symbols.2.1) (isExponent_int _)
  · next fs k hk =>
    have hpowers : Meets anyHalt (fs.mapM fun f => pow f x) fun gs => ∀ g ∈ gs, Carries S T [] g.factors :=
      meets_mapM_forall fun f hf => K.raised (hb.factors f hf) hx
    refine hpowers.bind fun gs hgs => K.carried cargo_nil (carries_nil fun f hf => ?_)
    obtain ⟨g, hg, hf⟩ := List.mem_flatMap.mp hf
    exact (hgs g hg).all f hf
  · exact absurd hb.normal IsNormal.not_call
  · exact hself

lemma powerStep_carries (K : KeepsCargo sum product pow) (hb : IsBase S b) (hx : IsExponent T x) :
    Meets anyHalt (powerStep .refuse product pow b x) fun r => Carries S T [] r.factors := by
  unfold powerStep
  split
  · exact carries_one
  split
  · exact hb.carries
  split
  · exact carries_one
  next hz _ hone =>
  refine (foldPower_sound (T := T) hb.normal.sound hb.nonzero hx.normal.sound).bind fun r hr => ?_
  cases r with
  | some r => exact (hr r rfl).carries
  | none => exact distributePower_carries K hb (Bool.eq_false_iff.mpr hone) hx (Bool.eq_false_iff.mpr hz)

/-! ### Every depth -/

lemma sumAt_normal (n : Nat) {args : List Expr} (h : ∀ e ∈ args, IsNormal e) : Meets anyHalt (sumAt .refuse n args) IsNormal := by
  cases n with
  | zero => trivial
  | succ n =>
    refine sumStep_normal (keepsTerms_at n) fun t ht => ?_
    obtain ⟨e, he, ht⟩ := List.mem_flatMap.mp ht
    exact (h e he).terms t ht

lemma exponents_at (n : Nat) (hx : IsExponent T x) {y : Expr} (hy : IsExponent T y) :
    Meets anyHalt (sumAt .refuse n [x, y]) (IsExponent T) := by
  have hboth : ∀ e ∈ [x, y], IsNormal e := by simpa using ⟨hx.normal, hy.normal⟩
  have hnormal := sumAt_normal n hboth
  have hsymbols := (keepsSymbols_at (S := T) .refuse n).sum_symbols [x, y] (by simpa using ⟨hx.symbols, hy.symbols⟩)
  exact (hnormal.and hsymbols).mono fun r hr => ⟨hr.1, hr.2⟩

lemma distributed_at (n : Nat) {q : ℚ} (hq : q ≠ 0) {ts : List Expr} (h : IsBase S (.plus ts)) :
    Meets anyHalt (do sumAt .refuse n (← ts.mapM fun t => productAt .refuse n [.num (.exact q), t])) (IsBase S) := by
  have hterm := h.normal.terms
  have hscaled : Meets anyHalt (ts.mapM fun t => productAt .refuse n [.num (.exact q), t]) fun us =>
      ∀ u ∈ us, IsNormal u ∧ SymbolsIn S u := by
    refine meets_mapM_forall fun t ht => ?_
    have hproduct := (keepsTerms_at n).product_terms [.num (.exact q), t] ?_
    · have hsymbols := (keepsSymbols_at (S := S) .refuse n).scaled (.exact q) (terms_symbols h.symbols t ht)
      exact (hproduct.and hsymbols).mono fun u hu => ⟨isNormal_term hu.1, hu.2⟩
    · simpa [factors] using ⟨Or.inl ⟨q, rfl⟩, (hterm t ht).factors⟩
  have hkept : Meets anyHalt (do sumAt .refuse n (← ts.mapM fun t => productAt .refuse n [.num (.exact q), t])) fun r =>
      IsNormal r ∧ SymbolsIn S r :=
    hscaled.bind fun us hus => (sumAt_normal n fun u hu => (hus u hu).1).and
      ((keepsSymbols_at .refuse n).sum_symbols us fun u hu => (hus u hu).2)
  have hvalue := distributed_value (keepsValues_at (X : String → MvPolynomial String ℚ) n) q
    ((defined_plus _ ts).mp h.normal.defined)
  refine (hkept.and hvalue).mono ?_
  rintro r ⟨⟨hnormal, hsymbols⟩, hv⟩
  refine ⟨hnormal, hsymbols, ?_⟩
  refine Bool.eq_false_iff.mpr fun hzero => ?_
  rw [hnormal.isZero_iff, polynomial, hv.2, mul_eq_zero, ← value_plus] at hzero
  have hplus := hzero.resolve_left (by simpa [MvPolynomial.algebraMap_eq] using hq)
  exact Bool.eq_false_iff.mp h.nonzero (h.normal.isZero_iff.mpr hplus)

lemma keepsCargo_at (n : Nat) : KeepsCargo (sumAt .refuse n) (productAt .refuse n) (powerAt .refuse n) := by
  induction n with
  | zero =>
    exact
      { exponents := fun _ _ => trivial
        distributed := fun hq h => distributed_at 0 hq h
        ints := fun _ _ => trivial
        carried := fun _ _ => trivial
        raised := fun _ _ => trivial
        standing := fun _ => trivial }
  | succ n K =>
    exact
      { exponents := fun hx hy => exponents_at (n + 1) hx hy
        distributed := fun hq h => distributed_at (n + 1) hq h
        ints := (keepsValues_at (fun _ => PUnit.unit) (n + 1)).product_ints
        carried := fun hcs h => productStep_carries K hcs h
        raised := fun hb hx => powerStep_carries K hb hx
        standing := fun {c} hc => by
          show Meets anyHalt (powerStep .refuse (productAt .refuse n) (powerAt .refuse n) _ _) (· = c)
          rw [hc.raised]
          rfl }

lemma product_carries {args : List Expr} (hcs : Cargo cs) (h : Carries S T cs (args.flatMap factors)) :
    Meets anyHalt (Expr.product .refuse args) fun r => Carries S T cs r.factors :=
  (keepsCargo_at _).carried hcs h

lemma pow_carries (hb : IsBase S b) (hx : IsExponent T x) :
    Meets anyHalt (Expr.pow .refuse b x) fun r => Carries S T [] r.factors :=
  (keepsCargo_at _).raised hb hx

lemma pow_standing (hc : StandingCall c) : Meets anyHalt (Expr.pow .refuse c.baseExponent.1 c.baseExponent.2) (· = c) :=
  (keepsCargo_at _).standing hc

end PlaneCalculus.Expr
