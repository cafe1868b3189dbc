import Mathlib.Data.List.Forall2
import PlaneCalculus.Number.Overflow

/-! Reasoning about calculations: what holds of the value a calculation ends with, and which halts it may end in. -/

namespace PlaneCalculus.Calc

variable {α β σ : Type}

/-- A value the calculation ends with satisfies `post`, and a halt it ends in is allowed. -/
def Meets (allowed : Halt → Prop) (c : Calc α) (post : α → Prop) : Prop :=
  match c with
  | .ok a => post a
  | .error h => allowed h

/-- Nothing is said of calculations that halt. -/
def anyHalt : Halt → Prop := fun _ => True

/-- Calculations may be refused for leaving the exact range, but are not cut short. -/
def refusal (o : Overflow) : Halt → Prop := fun h => o = .refuse ∧ h = .overflow

variable {o : Overflow}

lemma refusal_overflow (h : o = .refuse) : refusal o .overflow := ⟨h, rfl⟩

variable {allowed : Halt → Prop} {post post' : α → Prop} {c : Calc α}

@[simp] lemma meets_ok (a : α) : Meets allowed (.ok a) post ↔ post a := Iff.rfl

@[simp] lemma meets_pure (a : α) : Meets allowed (pure a) post ↔ post a := Iff.rfl

@[simp] lemma meets_error (h : Halt) : Meets allowed (.error h : Calc α) post ↔ allowed h := Iff.rfl

lemma Meets.value {a : α} (h : Meets allowed c post) (hc : c = .ok a) : post a := by
  subst hc
  exact h

lemma Meets.mono (h : Meets allowed c post) (hp : ∀ a, post a → post' a) : Meets allowed c post' := by
  cases c with
  | ok a => exact hp a h
  | error e => exact h

lemma Meets.and (h : Meets allowed c post) (h' : Meets allowed c post') :
    Meets allowed c (fun a => post a ∧ post' a) := by
  cases c with
  | ok a => exact ⟨h, h'⟩
  | error e => exact h

/-- The value is the one the calculation ends with. -/
lemma Meets.self (h : Meets allowed c post) : Meets allowed c (c = .ok ·) := by
  cases c with
  | ok a => rfl
  | error e => exact h

lemma Meets.bind {f : α → Calc β} {next : β → Prop} (h : Meets allowed c post)
    (hf : ∀ a, post a → Meets allowed (f a) next) : Meets allowed (c >>= f) next := by
  cases c with
  | ok a => exact hf a h
  | error e => exact h

lemma meets_anyHalt_iff : Meets anyHalt c post ↔ ∀ a, c = .ok a → post a := by
  cases c with
  | ok a =>
    refine ⟨fun h b hb => ?_, fun h => h a rfl⟩
    cases hb
    exact h
  | error e => exact ⟨fun _ _ ha => (nomatch ha), fun _ => trivial⟩

/-- The halts are known from elsewhere. -/
lemma Meets.within (h : Meets allowed c post) (hp : Meets anyHalt c post') : Meets allowed c post' := by
  cases c with
  | ok a => exact hp
  | error e => exact h

lemma Meets.relax (h : Meets allowed c post) : Meets anyHalt c post :=
  meets_anyHalt_iff.mpr fun _ ha => h.value ha

lemma meets_forall {ι : Type} {post : ι → α → Prop} (h : ∀ i, Meets anyHalt c (post i)) :
    Meets anyHalt c fun a => ∀ i, post i a :=
  meets_anyHalt_iff.mpr fun _ ha i => (h i).value ha

/-- What comes after a calculation whose value is known. -/
lemma Meets.of_bind {f : α → Calc β} {next : β → Prop} (h : Meets allowed (c >>= f) next) {a : α} (ha : c = .ok a) :
    Meets allowed (f a) next := by
  subst ha
  exact h

lemma meets_anyHalt_true (c : Calc α) : Meets anyHalt c fun _ => True := meets_anyHalt_iff.mpr fun _ _ => trivial

lemma Meets.ne_exhausted (h : Meets (refusal o) c post) : c ≠ .error .exhausted := by
  rintro rfl
  cases h.2

lemma Meets.exists_value (h : Meets (refusal .approximate) c post) : ∃ a, c = .ok a ∧ post a := by
  cases c with
  | ok a => exact ⟨a, rfl, h⟩
  | error e => cases h.1

lemma bind_ok {ε : Type} {c : Except ε α} {f : α → Except ε β} {b : β} (h : c >>= f = .ok b) :
    ∃ a, c = .ok a ∧ f a = .ok b := by
  cases c with
  | ok a => exact ⟨a, rfl, h⟩
  | error e => cases h

lemma meets_mapM {f : α → Calc β} {rel : α → β → Prop} {l : List α}
    (hf : ∀ a ∈ l, Meets allowed (f a) (rel a)) : Meets allowed (l.mapM f) (List.Forall₂ rel l) := by
  induction l with
  | nil => exact List.Forall₂.nil
  | cons a l ih =>
    rw [List.mapM_cons]
    refine (hf a List.mem_cons_self).bind fun b hb => ?_
    refine (ih fun x hx => hf x (List.mem_cons_of_mem a hx)).bind fun bs hbs => ?_
    exact List.Forall₂.cons hb hbs

lemma meets_mapM_eq {f : α → Calc β} {g : α → β} {l : List α} (hf : ∀ a ∈ l, Meets allowed (f a) (· = g a)) :
    Meets allowed (l.mapM f) (· = l.map g) := by
  have hall : Meets allowed (l.mapM f) (List.Forall₂ (fun a b => b = g a) l) := meets_mapM hf
  refine hall.mono fun bs hbs => ?_
  clear hf hall
  induction hbs with
  | nil => rfl
  | cons hb _ ih => rw [hb, ih, List.map_cons]

lemma meets_mapM_forall {f : α → Calc β} {next : β → Prop} {l : List α} (hf : ∀ a ∈ l, Meets allowed (f a) next) :
    Meets allowed (l.mapM f) fun bs => ∀ b ∈ bs, next b := by
  have hall : Meets allowed (l.mapM f) (List.Forall₂ (fun _ => next) l) := meets_mapM hf
  refine hall.mono fun bs hbs => ?_
  clear hf hall
  induction hbs with
  | nil => exact nofun
  | cons hb _ ih => exact List.forall_mem_cons.mpr ⟨hb, ih⟩

/-- The invariant speaks of the part of the list that is still to come. -/
lemma meets_foldlM {f : σ → α → Calc σ} {l : List α} {s : σ} (inv : List α → σ → Prop)
    (step : ∀ a rest s, inv (a :: rest) s → Meets allowed (f s a) (inv rest)) (h : inv l s) :
    Meets allowed (l.foldlM f s) (inv []) := by
  induction l generalizing s with
  | nil => exact h
  | cons a l ih =>
    rw [List.foldlM_cons]
    exact (step a l s h).bind fun t ht => ih ht

section Arithmetic

variable {a b : Number} (h : o = .refuse → allowed .overflow)
include h

lemma meets_settle {exact : Bool} {r : Number} : Meets allowed (o.settle exact r) (· = r) := by
  unfold Overflow.settle
  split
  · next hr => exact h (by simp_all)
  · rfl

lemma meets_add : Meets allowed (o.add a b) (· = a.add b) := meets_settle h

lemma meets_mul : Meets allowed (o.mul a b) (· = a.mul b) := meets_settle h

lemma meets_neg : Meets allowed (o.neg a) (· = a.neg) := meets_settle h

lemma meets_abs : Meets allowed (o.abs a) (· = a.abs) := meets_settle h

lemma meets_powInt {e : Int} : Meets allowed (o.powInt a e) (· = a.powInt e) := meets_settle h

end Arithmetic

end PlaneCalculus.Calc
