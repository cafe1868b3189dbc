import PlaneCalculus.Calculus.Antiderivative
import PlaneCalculus.Proofs.Calculus.Derivative

/-! Reasoning about attempts at integration: whether a rule applies or declines. -/

namespace PlaneCalculus

namespace Attempt

open Calc

variable {α β : Type} {o : Overflow}

/-- The attempt ends with a result, unless it is refused on the way. -/
def Applies (o : Overflow) (c : Attempt α) : Prop := Meets (refusal o) c.run (·.isSome = true)

/-- The attempt ends without a result, unless it is refused on the way. -/
def Declines (o : Overflow) (c : Attempt α) : Prop := Meets (refusal o) c.run (· = none)

section

variable {allowed : Halt → Prop} {c d : Attempt α} {f : α → Attempt β} {post : Option α → Prop} {next : Option β → Prop}

lemma meets_bind (h : Meets allowed c.run post) (hnone : post none → next none)
    (hsome : ∀ a, post (some a) → Meets allowed (f a).run next) : Meets allowed (c >>= f).run next := by
  rw [OptionT.run_bind]
  refine h.bind fun r hr => ?_
  cases r with
  | none => exact hnone hr
  | some a => exact hsome a hr

lemma meets_orElse {next : Option α → Prop} (h : Meets allowed c.run post)
    (hnone : post none → Meets allowed d.run next) (hsome : ∀ a, post (some a) → next (some a)) :
    Meets allowed (c <|> d).run next := by
  rw [OptionT.run_orElse]
  refine h.bind fun r hr => ?_
  cases r with
  | none => exact hnone hr
  | some a => exact hsome a hr

lemma meets_lift {c : Calc α} {post : α → Prop} (h : Meets allowed c post) :
    Meets allowed (OptionT.lift c).run fun r => ∃ a, r = some a ∧ post a :=
  h.bind fun a ha => ⟨a, rfl, ha⟩

lemma meets_bind_lift {c : Calc α} {post : α → Prop} (h : Meets allowed c post)
    (hf : ∀ a, post a → Meets allowed (f a).run next) : Meets allowed (OptionT.lift c >>= f).run next := by
  refine meets_bind (meets_lift h) nofun fun a ha => ?_
  obtain ⟨b, hb, hpost⟩ := ha
  exact hf a (Option.some.inj hb ▸ hpost)

end

lemma applies_pure (a : α) : Applies o (pure a) := rfl

lemma applies_lift {c : Overflow → Calc α} (h : Consistent c) : Applies o (OptionT.lift (c o)) :=
  (meets_lift (h.ends o)).mono fun _ ⟨_, hr, _⟩ => hr ▸ rfl

lemma declines_failure : Declines o (failure : Attempt α) := rfl

lemma Applies.bind {c : Attempt α} {f : α → Attempt β} (h : Applies o c) (hf : ∀ a, Applies o (f a)) :
    Applies o (c >>= f) :=
  meets_bind h nofun fun a _ => hf a

/-- What comes after a calculation of which only the end is known. -/
lemma Applies.bind_lift {c : Overflow → Calc α} {f : α → Attempt β} (h : Consistent c) (hf : ∀ a, Applies o (f a)) :
    Applies o (OptionT.lift (c o) >>= f) :=
  (applies_lift h).bind hf

lemma Declines.bind {c : Attempt α} (h : Declines o c) (f : α → Attempt β) : Declines o (c >>= f) :=
  meets_bind h (fun _ => rfl) fun _ ha => nomatch ha

lemma Applies.orElse {c : Attempt α} (h : Applies o c) (d : Attempt α) : Applies o (c <|> d) :=
  meets_orElse h nofun fun _ ha => ha

lemma Declines.orElse {c d : Attempt α} {post : Option α → Prop} (h : Declines o c) (hd : Meets (refusal o) d.run post) :
    Meets (refusal o) (c <|> d).run post :=
  meets_orElse h (fun _ => hd) nofun

lemma guard_true {p : Prop} [Decidable p] (h : p) : (guard p : Attempt Unit) = pure () := if_pos h

lemma declines_guard {p : Prop} [Decidable p] (h : ¬ p) : Declines o (guard p : Attempt Unit) := by
  rw [guard, if_neg h]
  exact declines_failure

lemma applies_or_declines {c : Attempt α} (h : Meets (refusal o) c.run fun _ => True) : Applies o c ∨ Declines o c := by
  unfold Applies Declines
  cases hc : c.run with
  | ok r =>
    cases r with
    | none => exact Or.inr rfl
    | some a => exact Or.inl rfl
  | error e =>
    rw [hc] at h
    exact Or.inl h

lemma applies_mapM {f : α → Attempt β} {l : List α} (h : ∀ a ∈ l, Applies o (f a)) : Applies o (l.mapM f) := by
  induction l with
  | nil => exact applies_pure []
  | cons a l ih =>
    rw [List.forall_mem_cons] at h
    rw [List.mapM_cons]
    exact h.1.bind fun b => (ih h.2).bind fun bs => applies_pure _

lemma declines_mapM {f : α → Attempt β} {l : List α} (h : ∀ a ∈ l, Applies o (f a) ∨ Declines o (f a)) {a : α}
    (ha : a ∈ l) (hd : Declines o (f a)) : Declines o (l.mapM f) := by
  induction l with
  | nil => cases ha
  | cons b l ih =>
    rw [List.forall_mem_cons] at h
    rw [List.mapM_cons]
    rcases List.mem_cons.mp ha with rfl | ha
    · exact hd.bind _
    · rcases h.1 with hb | hb
      · exact meets_bind hb nofun fun _ _ => (ih h.2 ha).bind _
      · exact hb.bind _

/-! ### What holds of the results -/

/-- The results there are satisfy `post`. -/
def Yields (post : α → Prop) (c : Attempt α) : Prop := Meets anyHalt c.run fun r => ∀ a, r = some a → post a

section

variable {post : α → Prop} {next : β → Prop}

lemma yields_pure {a : α} (h : post a) : Yields post (pure a : Attempt α) := by
  rintro b ⟨⟩
  exact h

lemma yields_failure : Yields post (failure : Attempt α) := nofun

lemma yields_lift {c : Calc α} (h : Meets anyHalt c post) : Yields post (OptionT.lift c) := by
  refine (meets_lift h).mono ?_
  rintro r ⟨a, rfl, ha⟩ b ⟨⟩
  exact ha

lemma yields_guard (p : Prop) [Decidable p] : Yields (fun _ => p) (guard p : Attempt Unit) := by
  by_cases h : p
  · rw [guard_true h]
    exact yields_pure h
  · rw [guard, if_neg h]
    exact yields_failure

lemma Yields.bind {c : Attempt α} {f : α → Attempt β} (h : Yields post c) (hf : ∀ a, post a → Yields next (f a)) :
    Yields next (c >>= f) :=
  meets_bind h nofun fun a ha => hf a (ha a rfl)

lemma Yields.orElse {c d : Attempt α} (h : Yields post c) (hd : Yields post d) : Yields post (c <|> d) :=
  meets_orElse h (fun _ => hd) fun _ ha => ha

lemma yields_mapM {f : α → Attempt β} {l : List α} (h : ∀ a ∈ l, Yields next (f a)) :
    Yields (fun bs => ∀ b ∈ bs, next b) (l.mapM f) := by
  induction l with
  | nil => exact yields_pure nofun
  | cons a l ih =>
    rw [List.forall_mem_cons] at h
    rw [List.mapM_cons]
    exact h.1.bind fun b hb => (ih h.2).bind fun bs hbs => yields_pure (List.forall_mem_cons.mpr ⟨hb, hbs⟩)

/-- There is a result, and it satisfies `post`. -/
def Gives (post : α → Prop) (c : Attempt α) : Prop := Meets anyHalt c.run fun r => ∃ a, r = some a ∧ post a

lemma gives_pure {a : α} (h : post a) : Gives post (pure a : Attempt α) := ⟨a, rfl, h⟩

lemma gives_lift {c : Calc α} (h : Meets anyHalt c post) : Gives post (OptionT.lift c) := meets_lift h

lemma Gives.bind {c : Attempt α} {f : α → Attempt β} (h : Gives post c) (hf : ∀ a, post a → Gives next (f a)) :
    Gives next (c >>= f) :=
  meets_bind h nofun fun a ⟨_, hb, hpost⟩ => hf a (Option.some.inj hb ▸ hpost)

lemma Gives.orElse {c : Attempt α} (h : Gives post c) (d : Attempt α) : Gives post (c <|> d) :=
  meets_orElse h nofun fun _ ha => ha

lemma Gives.yields {c : Attempt α} (h : Gives post c) : Yields post c := by
  refine h.mono ?_
  rintro r ⟨a, rfl, ha⟩ b ⟨⟩
  exact ha

end

section

variable {post : α → Prop}

lemma Yields.and {next : α → Prop} {c : Attempt α} (h : Yields post c) (h' : Yields next c) :
    Yields (fun a => post a ∧ next a) c :=
  (Meets.and h h').mono fun _ hr a ha => ⟨hr.1 a ha, hr.2 a ha⟩

lemma Yields.mono {next : α → Prop} {c : Attempt α} (h : Yields post c) (hp : ∀ a, post a → next a) : Yields next c :=
  Meets.mono h fun _ hr a ha => hp a (hr a ha)

lemma yields_forall {ι : Type} {post : ι → α → Prop} {c : Attempt α} (h : ∀ i, Yields (post i) c) :
    Yields (fun a => ∀ i, post i a) c :=
  (meets_forall h).mono fun _ hr a ha i => hr i a ha

lemma Declines.yields {c : Attempt α} (h : Declines o c) : Yields post c := by
  refine Meets.mono (Meets.relax h) ?_
  rintro _ rfl _ ⟨⟩

lemma yields_mapM_forall₂ {f : α → Attempt β} {rel : α → β → Prop} {l : List α} (h : ∀ a ∈ l, Yields (rel a) (f a)) :
    Yields (List.Forall₂ rel l) (l.mapM f) := by
  induction l with
  | nil => exact yields_pure .nil
  | cons a l ih =>
    rw [List.forall_mem_cons] at h
    rw [List.mapM_cons]
    exact h.1.bind fun b hb => (ih h.2).bind fun bs hbs => yields_pure (.cons hb hbs)

end

/-! ### What does not depend on the policy -/

/-- In either policy the attempt ends the same way, unless it is refused. -/
def Steady (c : Overflow → Attempt α) : Prop := Calc.Steady fun o => (c o).run

lemma steady_const (c : Attempt α) : Steady fun _ => c := fun _ => rfl

lemma Steady.bind {c : Overflow → Attempt α} {f : α → Overflow → Attempt β} (h : Steady c) (hf : ∀ a, Steady (f a)) :
    Steady fun o => c o >>= fun a => f a o := by
  unfold Steady
  simp only [OptionT.run_bind]
  refine Calc.Steady.bind h fun r => ?_
  cases r with
  | none => exact fun _ => rfl
  | some a => exact hf a

lemma steady_lift {c : Overflow → Calc α} (h : Calc.Steady c) : Steady fun o => OptionT.lift (c o) :=
  Calc.Steady.bind h fun _ _ => rfl

lemma Steady.orElse {c d : Overflow → Attempt α} (h : Steady c) (hd : Steady d) : Steady fun o => c o <|> d o := by
  unfold Steady
  simp only [OptionT.run_orElse]
  refine Calc.Steady.bind h fun r => ?_
  cases r with
  | none => exact hd
  | some a => exact fun _ => rfl

lemma Steady.ite {p : Prop} [Decidable p] {c d : Overflow → Attempt α} (hc : Steady c) (hd : Steady d) :
    Steady fun o => if p then c o else d o := by
  split
  · exact hc
  · exact hd

lemma Steady.mapM {f : α → Overflow → Attempt β} (h : ∀ a, Steady (f a)) (l : List α) :
    Steady fun o => l.mapM fun a => f a o := by
  induction l with
  | nil => exact steady_const _
  | cons a l ih =>
    simp only [List.mapM_cons]
    exact (h a).bind fun b => ih.bind fun bs => steady_const _

end Attempt

end PlaneCalculus
