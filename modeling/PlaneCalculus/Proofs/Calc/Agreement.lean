import PlaneCalculus.Proofs.Calc.Meets

/-! Two ways of comparing a calculation with another one of the same shape. Refusing results outside the exact range
changes nothing else: a calculation that ends with a value where they are refused ends with the same value where they
are approximated. Allotting more depth changes nothing else either: a calculation that is not cut short ends as
before. -/

namespace PlaneCalculus.Calc

variable {α β σ : Type}

/-- What makes a comparison of calculations a congruence: every step of a calculation respects it. -/
structure Comparison (o o' : Overflow) where
  rel : {α : Type} → Calc α → Calc α → Prop
  refl : ∀ {α : Type} (c : Calc α), rel c c
  bind : ∀ {α β : Type} {c c' : Calc α} {f f' : α → Calc β}, rel c c' → (∀ a, rel (f a) (f' a)) →
    rel (c >>= f) (c' >>= f')
  settle : ∀ (exact : Bool) (r : Number), rel (o.settle exact r) (o'.settle exact r)
  exhausted : ∀ {α : Type} (c : Calc α), rel (.error .exhausted) c

namespace Comparison

variable {o o' : Overflow} (R : Comparison o o')

lemma ite {p : Prop} [Decidable p] {c c' d d' : Calc α} (hc : R.rel c c') (hd : R.rel d d') :
    R.rel (if p then c else d) (if p then c' else d') := by
  split
  · exact hc
  · exact hd

lemma mapM {f f' : α → Calc β} (h : ∀ a, R.rel (f a) (f' a)) (l : List α) : R.rel (l.mapM f) (l.mapM f') := by
  induction l with
  | nil => exact R.refl _
  | cons a l ih =>
    rw [List.mapM_cons, List.mapM_cons]
    exact R.bind (h a) fun _ => R.bind ih fun _ => R.refl _

lemma foldlM {f f' : σ → α → Calc σ} (h : ∀ s a, R.rel (f s a) (f' s a)) (l : List α) (s : σ) :
    R.rel (l.foldlM f s) (l.foldlM f' s) := by
  induction l generalizing s with
  | nil => exact R.refl _
  | cons a l ih =>
    rw [List.foldlM_cons, List.foldlM_cons]
    exact R.bind (h s a) fun _ => ih _

end Comparison

def Agrees (c c' : Calc α) : Prop := ∀ a, c = .ok a → c' = .ok a

lemma Agrees.bind {c c' : Calc α} {f f' : α → Calc β} (h : Agrees c c') (hf : ∀ a, Agrees (f a) (f' a)) :
    Agrees (c >>= f) (c' >>= f') := by
  intro b hb
  obtain ⟨a, ha, hfa⟩ := bind_ok hb
  rw [h a ha]
  exact hf a b hfa

lemma agrees_settle (exact : Bool) (r : Number) :
    Agrees (Overflow.refuse.settle exact r) (Overflow.approximate.settle exact r) := by
  intro s hs
  obtain ⟨rfl, -⟩ := Overflow.refuse_settle hs
  exact Overflow.approximate_settle exact s

def agreement : Comparison .refuse .approximate where
  rel := Agrees
  refl _ _ h := h
  bind := Agrees.bind
  settle := agrees_settle
  exhausted _ _ h := nomatch h

/-- The second calculation ends as the first, unless that is cut short. -/
def Extends (c c' : Calc α) : Prop := c ≠ .error .exhausted → c' = c

lemma Extends.bind {c c' : Calc α} {f f' : α → Calc β} (h : Extends c c') (hf : ∀ a, Extends (f a) (f' a)) :
    Extends (c >>= f) (c' >>= f') := by
  intro hne
  cases c with
  | ok a =>
    rw [h (by simp)]
    exact hf a hne
  | error e =>
    have he : (Except.error e : Calc α) ≠ .error .exhausted := by
      rintro he
      cases he
      exact hne rfl
    rw [h he]
    rfl

def extension (o : Overflow) : Comparison o o where
  rel := Extends
  refl _ _ := rfl
  bind := Extends.bind
  settle _ _ _ := rfl
  exhausted _ h := absurd rfl h

/-- A calculation, in either policy, that is halted by refusals only and otherwise does not depend on the policy. -/
structure Consistent (c : Overflow → Calc α) : Prop where
  ends : ∀ o, Meets (refusal o) (c o) fun _ => True
  agrees : Agrees (c .refuse) (c .approximate)

lemma Consistent.pure (a : α) : Consistent fun _ => (Pure.pure a : Calc α) := ⟨fun _ => trivial, fun _ h => h⟩

lemma Consistent.settle (exact : Bool) (r : Number) : Consistent fun o => o.settle exact r :=
  ⟨fun _ => (meets_settle refusal_overflow).mono fun _ _ => trivial, agrees_settle exact r⟩

lemma Consistent.bind {c : Overflow → Calc α} {f : α → Overflow → Calc β} (h : Consistent c)
    (hf : ∀ a, Consistent (f a)) : Consistent fun o => c o >>= fun a => f a o :=
  ⟨fun o => (h.ends o).bind fun a _ => (hf a).ends o, h.agrees.bind fun a => (hf a).agrees⟩

lemma Consistent.ite {p : Prop} [Decidable p] {c d : Overflow → Calc α} (hc : Consistent c) (hd : Consistent d) :
    Consistent fun o => if p then c o else d o := by
  split
  · exact hc
  · exact hd

lemma Consistent.mapM {c : α → Overflow → Calc β} (h : ∀ a, Consistent (c a)) (l : List α) :
    Consistent fun o => l.mapM fun a => c a o := by
  induction l with
  | nil => exact .pure []
  | cons a l ih =>
    simp only [List.mapM_cons]
    exact (h a).bind fun _ => ih.bind fun _ => .pure _

lemma Consistent.foldlM {c : σ → α → Overflow → Calc σ} (h : ∀ s a, Consistent (c s a)) (l : List α) (s : σ) :
    Consistent fun o => l.foldlM (fun s a => c s a o) s := by
  induction l generalizing s with
  | nil => exact .pure s
  | cons a l ih =>
    simp only [List.foldlM_cons]
    exact (h s a).bind fun t => ih t

lemma Consistent.exists_same {c : Overflow → Calc α} {post : α → Prop} (h : Consistent c)
    (hv : Meets anyHalt (c .refuse) post) (ho : c .refuse ≠ .error .overflow) :
    ∃ a, c .refuse = .ok a ∧ c .approximate = .ok a ∧ post a := by
  cases hc : c .refuse with
  | ok a => exact ⟨a, rfl, h.agrees a hc, hv.value hc⟩
  | error e =>
    have he := h.ends .refuse
    rw [hc] at he ho
    exact absurd (congrArg Except.error he.2) ho

lemma Consistent.exists_value {c : Overflow → Calc α} {post : α → Prop} (h : Consistent c)
    (hv : Meets anyHalt (c .refuse) post) (ho : c .refuse ≠ .error .overflow) :
    ∃ a, c .approximate = .ok a ∧ post a := by
  obtain ⟨a, -, ha, hp⟩ := h.exists_same hv ho
  exact ⟨a, ha, hp⟩

/-- A calculation that ends the same way in either policy, unless it is refused. -/
def Steady (c : Overflow → Calc α) : Prop := c .refuse ≠ .error .overflow → c .approximate = c .refuse

lemma Steady.bind {c : Overflow → Calc α} {f : α → Overflow → Calc β} (h : Steady c) (hf : ∀ a, Steady (f a)) :
    Steady fun o => c o >>= fun a => f a o := by
  intro hne
  dsimp only at hne ⊢
  cases hc : c .refuse with
  | ok a =>
    rw [hc] at hne
    rw [h (by simp [hc]), hc]
    exact hf a hne
  | error e =>
    rw [hc] at hne
    have he : (Except.error e : Calc α) ≠ .error .overflow := by
      rintro he
      cases he
      exact hne rfl
    rw [h (hc ▸ he), hc]
    rfl

lemma Consistent.steady {c : Overflow → Calc α} (h : Consistent c) : Steady c := by
  intro hne
  obtain ⟨a, ha, ha', -⟩ := h.exists_same (meets_anyHalt_true _) hne
  rw [ha, ha']

end PlaneCalculus.Calc
