import PlaneCalculus.Expr.Expansion
import PlaneCalculus.Expr.Substitution
import PlaneCalculus.Proofs.Calc.Meets
import PlaneCalculus.Proofs.Expr.Nodes

/-! Properties of expressions that the constructors keep and that pass from an expression to its operands. Whatever is
calculated by the constructors from such expressions has the property again. -/

namespace PlaneCalculus.Expr

open Calc

structure Kept (o : Overflow) (G : Expr → Prop) : Prop where
  int : ∀ {k : Int}, k.natAbs ≤ 4 → G (Expr.int k)
  half : G Expr.half
  sum : ∀ {args : List Expr}, (∀ e ∈ args, G e) → Meets anyHalt (Expr.sum o args) G
  product : ∀ {args : List Expr}, (∀ e ∈ args, G e) → Meets anyHalt (Expr.product o args) G
  pow : ∀ {b e : Expr}, G b → G e → Meets anyHalt (Expr.pow o b e) G
  of : ∀ (f : Func) {a : Expr}, G a → G (f.of a)
  plus : ∀ {ts : List Expr}, G (.plus ts) → ∀ t ∈ ts, G t
  times : ∀ {fs : List Expr}, G (.times fs) → ∀ f ∈ fs, G f
  power : ∀ {b e : Expr}, G (.power b e) → G b ∧ G e
  call : ∀ {f : Func} {a : Expr}, G (.call f a) → G a

namespace Kept

variable {o : Overflow} {G : Expr → Prop} (K : Kept o G) {a b : Expr}
include K

lemma terms {e : Expr} (h : G e) : ∀ t ∈ e.terms, G t := by
  cases e with
  | plus ts => exact K.plus h
  | num | symbol | constant | times | power | call => exact List.forall_mem_singleton.mpr h

lemma sum_pair (ha : G a) (hb : G b) : Meets anyHalt (Expr.sum o [a, b]) G := K.sum (by simpa using ⟨ha, hb⟩)

lemma product_pair (ha : G a) (hb : G b) : Meets anyHalt (Expr.product o [a, b]) G :=
  K.product (by simpa using ⟨ha, hb⟩)

lemma neg (ha : G a) : Meets anyHalt (Expr.neg o a) G := K.product_pair (K.int (by decide)) ha

lemma sub (ha : G a) (hb : G b) : Meets anyHalt (Expr.sub o a b) G := (K.neg hb).bind fun _ hn => K.sum_pair ha hn

lemma div (ha : G a) (hb : G b) : Meets anyHalt (Expr.div o a b) G :=
  (K.pow hb (K.int (by decide))).bind fun _ hr => K.product_pair ha hr

lemma sqrt (ha : G a) : Meets anyHalt (Expr.sqrt o a) G := K.pow ha K.half

end Kept

variable {o : Overflow} {G : Expr → Prop}

/-! ### Multiplying out -/

lemma multiplyOut_kept (K : Kept o G) {as bs : List Expr} (ha : ∀ a ∈ as, G a)
    (hb : ∀ b ∈ bs, G b) : Meets anyHalt (multiplyOut o as bs) fun cs => ∀ c ∈ cs, G c := by
  refine meets_mapM_forall fun p hp => ?_
  obtain ⟨a, ha', hp⟩ := List.mem_flatMap.mp hp
  obtain ⟨b, hb', rfl⟩ := List.mem_map.mp hp
  exact K.product_pair (ha a ha') (hb b hb')

lemma powerTerms_kept (K : Kept o G) {ts : List Expr} (h : ∀ t ∈ ts, G t) (n : Nat) :
    Meets anyHalt (powerTerms o ts n) fun cs => ∀ c ∈ cs, G c := by
  induction n with
  | zero => exact h
  | succ n ih => exact ih.bind fun cs hcs => multiplyOut_kept K hcs h

lemma expandPower_kept (K : Kept o G) {b e : Expr} (hb : G b) (he : G e) :
    Meets anyHalt (expandPower o b e) G := by
  unfold expandPower
  split
  · next ts n _ =>
    split
    · exact (powerTerms_kept K (K.plus hb) _).bind fun cs hcs => K.sum hcs
    · exact K.pow hb he
  · exact K.pow hb he

mutual

lemma expand_kept (K : Kept o G) : (e : Expr) → G e → Meets anyHalt (expand o e) G
  | .num _, h => h
  | .symbol _, h => h
  | .constant _, h => h
  | .plus ts, h => (expandAll_kept K ts (K.plus h)).bind fun _ hus => K.sum hus
  | .times fs, h =>
    (expandProduct_kept K fs [int 1] (K.times h) (by simpa using K.int (by decide))).bind fun _ hgs => K.sum hgs
  | .power b _, h => (expand_kept K b (K.power h).1).bind fun _ hc => expandPower_kept K hc (K.power h).2
  | .call f a, h => (expand_kept K a (K.call h)).bind fun _ hb => K.of f hb

lemma expandAll_kept (K : Kept o G) : (es : List Expr) → (∀ e ∈ es, G e) →
    Meets anyHalt (expandAll o es) fun rs => ∀ r ∈ rs, G r
  | [], _ => List.forall_mem_nil _
  | e :: es, h =>
    have h := List.forall_mem_cons.mp h
    (expand_kept K e h.1).bind fun _ hr => (expandAll_kept K es h.2).bind fun _ hrs => List.forall_mem_cons.mpr ⟨hr, hrs⟩

lemma expandProduct_kept (K : Kept o G) : (es acc : List Expr) → (∀ e ∈ es, G e) → (∀ a ∈ acc, G a) →
    Meets anyHalt (expandProduct o acc es) fun rs => ∀ r ∈ rs, G r
  | [], _, _, hacc => hacc
  | e :: es, _, h, hacc =>
    have h := List.forall_mem_cons.mp h
    (expand_kept K e h.1).bind fun _ hf =>
      (multiplyOut_kept K hacc (K.terms hf)).bind fun acc hacc => expandProduct_kept K es acc h.2 hacc

end

/-! ### Substitution -/

section Substitution

variable {v : String} {t : Expr}

/-- At the leaves that are not replaced the property holds already. -/
def OtherLeaf (v : String) (G : Expr → Prop) : Expr → Prop
  | .num n => G (.num n)
  | .symbol x => x = v ∨ G (.symbol x)
  | .constant c => G (.constant c)
  | _ => True

lemma everywhere_otherLeaf {P : Expr → Prop} {e : Expr} (h : Everywhere P e) :
    Everywhere (OtherLeaf v (Everywhere P)) e := by
  refine Everywhere.mono (fun e he => ?_) e h
  cases e with
  | num | constant => exact he
  | symbol x => exact Or.inr he
  | plus | times | power | call => trivial

mutual

lemma substitute_kept (K : Kept o G) (ht : G t) : (e : Expr) → Everywhere (OtherLeaf v G) e →
    Meets anyHalt (substitute o e v t) G
  | .num _, h => h
  | .symbol x, h => by
    show G (if x == v then t else .symbol x)
    split
    · exact ht
    · next hx => exact h.resolve_left (by simpa using hx)
  | .constant _, h => h
  | .plus ts, ⟨_, h⟩ => (substituteAll_kept K ht ts h).bind fun _ hus => K.sum hus
  | .times fs, ⟨_, h⟩ => (substituteAll_kept K ht fs h).bind fun _ hgs => K.product hgs
  | .power b e, ⟨_, hb, he⟩ =>
    (substitute_kept K ht b hb).bind fun _ hc => (substitute_kept K ht e he).bind fun _ hx => K.pow hc hx
  | .call f a, ⟨_, ha⟩ => (substitute_kept K ht a ha).bind fun _ hb => K.of f hb

lemma substituteAll_kept (K : Kept o G) (ht : G t) : (es : List Expr) → EverywhereAll (OtherLeaf v G) es →
    Meets anyHalt (substituteAll o es v t) fun rs => ∀ r ∈ rs, G r
  | [], _ => List.forall_mem_nil _
  | e :: es, ⟨he, hes⟩ => (substitute_kept K ht e he).bind fun _ hr => (substituteAll_kept K ht es hes).bind fun _ hrs =>
      List.forall_mem_cons.mpr ⟨hr, hrs⟩

end

end Substitution

end PlaneCalculus.Expr
