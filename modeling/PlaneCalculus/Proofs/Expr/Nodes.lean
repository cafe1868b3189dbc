import PlaneCalculus.Proofs.Number.Range
import PlaneCalculus.Expr.Basic

/-! Properties that hold at every node of an expression. -/

namespace PlaneCalculus.Expr

mutual

def Everywhere (P : Expr → Prop) : Expr → Prop
  | .num n => P (.num n)
  | .symbol name => P (.symbol name)
  | .constant c => P (.constant c)
  | .plus ts => P (.plus ts) ∧ EverywhereAll P ts
  | .times fs => P (.times fs) ∧ EverywhereAll P fs
  | .power b e => P (.power b e) ∧ Everywhere P b ∧ Everywhere P e
  | .call f a => P (.call f a) ∧ Everywhere P a

def EverywhereAll (P : Expr → Prop) : List Expr → Prop
  | [] => True
  | e :: es => Everywhere P e ∧ EverywhereAll P es

end

variable {P Q : Expr → Prop}

lemma everywhereAll_iff (es : List Expr) : EverywhereAll P es ↔ ∀ e ∈ es, Everywhere P e := by
  induction es with
  | nil => simp [EverywhereAll]
  | cons e es ih => simp [EverywhereAll, ih]

@[simp] lemma everywhere_plus (ts : List Expr) : Everywhere P (.plus ts) ↔ P (.plus ts) ∧ ∀ t ∈ ts, Everywhere P t := by
  rw [Everywhere, everywhereAll_iff]

@[simp] lemma everywhere_times (fs : List Expr) :
    Everywhere P (.times fs) ↔ P (.times fs) ∧ ∀ f ∈ fs, Everywhere P f := by
  rw [Everywhere, everywhereAll_iff]

@[simp] lemma everywhere_power (b e : Expr) :
    Everywhere P (.power b e) ↔ P (.power b e) ∧ Everywhere P b ∧ Everywhere P e := Iff.rfl

@[simp] lemma everywhere_call (f : Func) (a : Expr) :
    Everywhere P (.call f a) ↔ P (.call f a) ∧ Everywhere P a := Iff.rfl

lemma Everywhere.node {e : Expr} (h : Everywhere P e) : P e := by
  cases e with
  | num | symbol | constant => exact h
  | plus | times | power | call => exact h.1

mutual

/-- What follows at a node may depend on all that is below it. -/
lemma Everywhere.imp (hPQ : ∀ e, Everywhere P e → Q e) : (e : Expr) → Everywhere P e → Everywhere Q e
  | .num _, h => hPQ _ h
  | .symbol _, h => hPQ _ h
  | .constant _, h => hPQ _ h
  | .plus ts, h => ⟨hPQ _ h, EverywhereAll.imp hPQ ts h.2⟩
  | .times fs, h => ⟨hPQ _ h, EverywhereAll.imp hPQ fs h.2⟩
  | .power b e, h => ⟨hPQ _ h, Everywhere.imp hPQ b h.2.1, Everywhere.imp hPQ e h.2.2⟩
  | .call _ a, h => ⟨hPQ _ h, Everywhere.imp hPQ a h.2⟩

lemma EverywhereAll.imp (hPQ : ∀ e, Everywhere P e → Q e) : (es : List Expr) → EverywhereAll P es → EverywhereAll Q es
  | [], _ => trivial
  | e :: es, h => ⟨Everywhere.imp hPQ e h.1, EverywhereAll.imp hPQ es h.2⟩

end

lemma Everywhere.mono (hPQ : ∀ e, P e → Q e) (e : Expr) (h : Everywhere P e) : Everywhere Q e :=
  Everywhere.imp (fun e he => hPQ e he.node) e h

/-! ### Equality of trees -/

def ExactNode : Expr → Prop
  | .num n => n.isExact = true
  | _ => True

lemma number_same_iff {a b : Number} (h : a.isExact = true) : (a == b) = true ↔ a = b := by
  cases a with
  | exact p =>
    cases b with
    | exact q =>
      show decide (p = q) = true ↔ _
      simp
    | approx v =>
      show false = true ↔ _
      simp
  | approx v => cases h

mutual

lemma same_iff_of_exact : (a b : Expr) → Everywhere ExactNode a → (same a b = true ↔ a = b)
  | .num n, b, h => by cases b <;> simp [same, number_same_iff h]
  | .symbol x, b, _ => by cases b <;> simp [same]
  | .constant c, b, _ => by cases b <;> simp [same]
  | .plus ts, b, ⟨_, h⟩ => by cases b <;> simp [same, sameAll_iff_of_exact ts _ h]
  | .times fs, b, ⟨_, h⟩ => by cases b <;> simp [same, sameAll_iff_of_exact fs _ h]
  | .power x y, b, ⟨_, hx, hy⟩ => by cases b <;> simp [same, same_iff_of_exact x _ hx, same_iff_of_exact y _ hy]
  | .call f x, b, ⟨_, hx⟩ => by cases b <;> simp [same, same_iff_of_exact x _ hx]

lemma sameAll_iff_of_exact : (as bs : List Expr) → EverywhereAll ExactNode as → (sameAll as bs = true ↔ as = bs)
  | [], bs, _ => by cases bs <;> simp [sameAll]
  | a :: as, bs, ⟨h, hs⟩ => by cases bs <;> simp [sameAll, same_iff_of_exact a _ h, sameAll_iff_of_exact as _ hs]

end

def InRangeNode : Expr → Prop
  | .num n => n.InRange
  | _ => True

lemma same_iff (a b : Expr) (h : Everywhere InRangeNode a) : same a b = true ↔ a = b := by
  refine same_iff_of_exact a b (Everywhere.mono (fun e he => ?_) a h)
  cases e with
  | num n => exact Number.InRange.isExact he
  | symbol | constant | plus | times | power | call => trivial

end PlaneCalculus.Expr
