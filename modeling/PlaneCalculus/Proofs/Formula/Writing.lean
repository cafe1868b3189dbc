import PlaneCalculus.Proofs.Formula.Value

/-! Texts that say what they mean: derived by a form of the given level of precedence, in which no name is misused, and
which has the value meant wherever one is meant. Such texts are put together as the grammar puts forms together. -/

namespace PlaneCalculus.Formula

/-- A value for some assignments of the symbols. -/
structure Meaning where
  Defined : (String → ℚ) → Prop
  value : (String → ℚ) → ℚ

/-- Wherever the first meaning says something, the second says the same. -/
def Meaning.Narrows (m k : Meaning) : Prop := ∀ ρ, m.Defined ρ → k.Defined ρ ∧ k.value ρ = m.value ρ

class Form (F : Type) where
  Derives : F → List Char → Prop
  misuses : F → List CalcError
  HasValue : (String → ℚ) → F → ℚ → Prop

instance : Form SumForm := ⟨SumForm.Derives, SumForm.misuses, SumForm.HasValue⟩

instance : Form ProductForm := ⟨ProductForm.Derives, ProductForm.misuses, ProductForm.HasValue⟩

instance : Form SignedForm := ⟨SignedForm.Derives, SignedForm.misuses, SignedForm.HasValue⟩

instance : Form PowerForm := ⟨PowerForm.Derives, PowerForm.misuses, PowerForm.HasValue⟩

instance : Form AtomForm := ⟨AtomForm.Derives, AtomForm.misuses, AtomForm.HasValue⟩

def Writes (F : Type) [Form F] (m : Meaning) (w : List Char) : Prop :=
  ∃ f : F, Form.Derives f w ∧ Form.misuses f = [] ∧ ∀ ρ, m.Defined ρ → Form.HasValue ρ f (m.value ρ)

variable {m k : Meaning} {v w : List Char}

lemma Writes.narrow {F : Type} [Form F] (h : Writes F k w) (hm : m.Narrows k) : Writes F m w := by
  obtain ⟨f, hd, hmis, hv⟩ := h
  refine ⟨f, hd, hmis, fun ρ hρ => ?_⟩
  obtain ⟨hk, hval⟩ := hm ρ hρ
  exact hval ▸ hv ρ hk

/-! ### One level as the next one -/

lemma Writes.power : Writes AtomForm m w → Writes PowerForm m w
  | ⟨a, hd, hmis, hv⟩ => ⟨.single a, hd, hmis, hv⟩

lemma Writes.signed : Writes PowerForm m w → Writes SignedForm m w
  | ⟨p, hd, hmis, hv⟩ => ⟨.bare p, hd, hmis, hv⟩

lemma Writes.product : Writes SignedForm m w → Writes ProductForm m w
  | ⟨u, hd, hmis, hv⟩ => ⟨.single u, hd, hmis, hv⟩

lemma Writes.sum : Writes ProductForm m w → Writes SumForm m w
  | ⟨t, hd, hmis, hv⟩ => ⟨.single t, hd, hmis, hv⟩

lemma blank_nil : Blank [] := nofun

lemma blank_space : Blank [' '] := by simp [Blank, isBlank]

lemma Writes.group : Writes SumForm m w → Writes AtomForm m ('(' :: (w ++ [')']))
  | ⟨s, hd, hmis, hv⟩ => ⟨.group s, ⟨[], w, [], rfl, blank_nil, hd, blank_nil⟩, hmis, hv⟩

/-! ### Atoms and powers -/

def Meaning.const (q : ℚ) : Meaning := ⟨fun _ => True, fun _ => q⟩

def digits (n : Nat) : List Char := Nat.toDigits 10 n

def literal (n : Nat) : Decimal.Literal := ⟨digits n, none, none⟩

lemma whole?_literal {n : Nat} (h : (n : Int) < Number.bound) : whole? (literal n) = some n := by
  have hn : Decimal.natOfDigits (literal n).whole = n := Nat.ofDigitChars_toDigits (by decide) (by decide)
  have hfits : Number.fits n = true := by
    simp only [Number.fits, Bool.and_eq_true, decide_eq_true_eq]
    simp only [Number.bound] at h ⊢
    omega
  unfold whole?
  rw [hn, hfits]
  rfl

lemma numberText_literal (n : Nat) : NumberText (literal n) (digits n) := by
  refine ⟨[], by simp [literal, fractionText], fun c hc => ?_, nofun, Or.inl Nat.toDigits_ne_nil, rfl⟩
  have hd := Nat.isDigit_of_mem_toDigits (by decide) (by decide) hc
  simpa [Char.isDigit, Decimal.isDigit, Char.le_def] using hd

lemma writes_digits {n : Nat} (h : (n : Int) < Number.bound) : Writes AtomForm (.const n) (digits n) :=
  ⟨.number (literal n), numberText_literal n, rfl, fun _ _ => ⟨n, whole?_literal h, rfl⟩⟩

lemma writes_symbol {x : String} (hx : IsName x.toList) (hf : ¬ IsFunctionName x) (hpi : x ≠ "pi") (he : x ≠ "E") :
    Writes AtomForm ⟨fun _ => True, fun ρ => ρ x⟩ x.toList :=
  ⟨.name x, ⟨rfl, hx⟩, if_neg hf, fun _ _ => ⟨hf, hpi, he, rfl⟩⟩

lemma Writes.pow {n : Nat} (hn : (n : Int) < Number.bound) : Writes AtomForm m w →
    Writes PowerForm ⟨m.Defined, fun ρ => m.value ρ ^ n⟩ (w ++ '*' :: '*' :: digits n)
  | ⟨a, hd, hmis, hv⟩ => by
    refine ⟨.raised a (.bare (.single (.number (literal n)))), ?_, ?_, fun ρ hρ => ?_⟩
    · exact ⟨w, [], ['*', '*'], [], digits n, by simp, hd, blank_nil, Or.inl rfl, blank_nil, numberText_literal n⟩
    · show AtomForm.misuses a ++ [] = []
      rw [List.append_nil]
      exact hmis
    · exact ⟨m.value ρ, n, hv ρ hρ, whole?_literal hn, rfl⟩

/-! ### Products -/

def Meaning.neg (m : Meaning) : Meaning := ⟨m.Defined, fun ρ => -m.value ρ⟩

def Meaning.mul (m k : Meaning) : Meaning := ⟨fun ρ => m.Defined ρ ∧ k.Defined ρ, fun ρ => m.value ρ * k.value ρ⟩

def Meaning.div (m k : Meaning) : Meaning :=
  ⟨fun ρ => m.Defined ρ ∧ k.Defined ρ ∧ k.value ρ ≠ 0, fun ρ => m.value ρ / k.value ρ⟩

/-- A minus sign before a product belongs to its first factor. -/
def ProductForm.negate : ProductForm → ProductForm
  | .single u => .single (.signed .minus u)
  | .chain p op u => .chain p.negate op u

lemma ProductForm.negate_derives : (p : ProductForm) → (w : List Char) → p.Derives w → p.negate.Derives ('-' :: w)
  | .single _, w, h => ⟨[], w, rfl, blank_nil, h⟩
  | .chain p _ _, _, ⟨w₁, g₁, g₂, w₂, hw, hp, hg₁, hg₂, hu⟩ =>
    ⟨'-' :: w₁, g₁, g₂, w₂, congrArg _ hw, p.negate_derives w₁ hp, hg₁, hg₂, hu⟩

lemma ProductForm.negate_misuses (p : ProductForm) : p.negate.misuses = p.misuses := by
  cases p with
  | single u => rfl
  | chain p op u => exact congrArg (· ++ u.misuses) p.negate_misuses

lemma ProductForm.negate_value {ρ : String → ℚ} (p : ProductForm) (x : ℚ) (h : p.HasValue ρ x) :
    p.negate.HasValue ρ (-x) := by
  cases p with
  | single u =>
    show u.HasValue ρ (- -x)
    rwa [neg_neg]
  | chain p op u =>
    cases op with
    | times =>
      obtain ⟨a, b, hp, hu, hx⟩ := h
      exact ⟨-a, b, p.negate_value a hp, hu, by rw [neg_mul, hx]⟩
    | «over» =>
      obtain ⟨a, b, hp, hu, hb, hx⟩ := h
      exact ⟨-a, b, p.negate_value a hp, hu, hb, by rw [neg_div, hx]⟩

lemma Writes.neg : Writes ProductForm m w → Writes ProductForm m.neg ('-' :: w)
  | ⟨p, hd, hmis, hv⟩ =>
    ⟨p.negate, p.negate_derives w hd, p.negate_misuses.trans hmis, fun ρ hρ => p.negate_value _ (hv ρ hρ)⟩

/-- Multiplication chains lean to the left, also those written after a multiplication sign. -/
def ProductForm.append (p : ProductForm) : ProductForm → ProductForm
  | .single u => .chain p .times u
  | .chain q op u => .chain (p.append q) op u

lemma ProductForm.append_derives {p : ProductForm} (hp : p.Derives v) : (q : ProductForm) → (w : List Char) →
    q.Derives w → (p.append q).Derives (v ++ '*' :: w)
  | .single _, w, h => ⟨v, [], [], w, rfl, hp, blank_nil, blank_nil, h⟩
  | .chain q _ _, _, ⟨w₁, g₁, g₂, w₂, hw, hq, hg₁, hg₂, hu⟩ =>
    ⟨v ++ '*' :: w₁, g₁, g₂, w₂, by simp [hw], append_derives hp q w₁ hq, hg₁, hg₂, hu⟩

lemma ProductForm.append_misuses (p q : ProductForm) : (p.append q).misuses = p.misuses ++ q.misuses := by
  cases q with
  | single u => rfl
  | chain q op u =>
    show (p.append q).misuses ++ u.misuses = p.misuses ++ (q.misuses ++ u.misuses)
    rw [p.append_misuses q, List.append_assoc]

lemma ProductForm.append_value {ρ : String → ℚ} {p : ProductForm} {x : ℚ} (hp : p.HasValue ρ x) (q : ProductForm)
    (y : ℚ) (h : q.HasValue ρ y) : (p.append q).HasValue ρ (x * y) := by
  cases q with
  | single u => exact ⟨x, y, hp, h, rfl⟩
  | chain q op u =>
    cases op with
    | times =>
      obtain ⟨a, b, hq, hu, hy⟩ := h
      exact ⟨x * a, b, append_value hp q a hq, hu, by rw [mul_assoc, hy]⟩
    | «over» =>
      obtain ⟨a, b, hq, hu, hb, hy⟩ := h
      exact ⟨x * a, b, append_value hp q a hq, hu, hb, by rw [mul_div_assoc, hy]⟩

lemma Writes.mul (hv : Writes ProductForm m v) : Writes ProductForm k w → Writes ProductForm (m.mul k) (v ++ '*' :: w)
  | ⟨q, hd, hmis, hval⟩ => by
    obtain ⟨p, hpd, hpmis, hpval⟩ := hv
    refine ⟨p.append q, ProductForm.append_derives hpd q w hd, ?_, fun ρ ⟨hm, hk⟩ => ?_⟩
    · rw [show Form.misuses (p.append q) = _ from p.append_misuses q]
      exact List.append_eq_nil_iff.mpr ⟨hpmis, hmis⟩
    · exact ProductForm.append_value (hpval ρ hm) q _ (hval ρ hk)

lemma Writes.over (hv : Writes ProductForm m v) : Writes SignedForm k w → Writes ProductForm (m.div k) (v ++ '/' :: w)
  | ⟨u, hd, hmis, hval⟩ => by
    obtain ⟨p, hpd, hpmis, hpval⟩ := hv
    refine ⟨.chain p .over u, ⟨v, [], [], w, rfl, hpd, blank_nil, blank_nil, hd⟩, ?_, fun ρ ⟨hm, hk, h0⟩ => ?_⟩
    · exact List.append_eq_nil_iff.mpr ⟨hpmis, hmis⟩
    · exact ⟨_, _, hpval ρ hm, hval ρ hk, h0, rfl⟩

/-! ### Sums -/

def Meaning.add (m k : Meaning) : Meaning := ⟨fun ρ => m.Defined ρ ∧ k.Defined ρ, fun ρ => m.value ρ + k.value ρ⟩

def Meaning.sub (m k : Meaning) : Meaning := ⟨fun ρ => m.Defined ρ ∧ k.Defined ρ, fun ρ => m.value ρ - k.value ρ⟩

/-- Only the first term of a sum is reached by the sign before it. -/
def SumForm.append (s : SumForm) (sign : Sign) : SumForm → SumForm
  | .single t => .chain s sign t
  | .chain r g t => .chain (s.append sign r) g t

lemma SumForm.append_derives {s : SumForm} (hs : s.Derives v) (sign : Sign) : (r : SumForm) → (w : List Char) →
    r.Derives w → (s.append sign r).Derives (v ++ ' ' :: sign.char :: ' ' :: w)
  | .single _, w, h => ⟨v, [' '], [' '], w, rfl, hs, blank_space, blank_space, h⟩
  | .chain r _ _, _, ⟨w₁, g₁, g₂, w₂, hw, hr, hg₁, hg₂, ht⟩ =>
    ⟨v ++ ' ' :: sign.char :: ' ' :: w₁, g₁, g₂, w₂, by simp [hw], append_derives hs sign r w₁ hr, hg₁, hg₂, ht⟩

lemma SumForm.append_misuses (s : SumForm) (sign : Sign) (r : SumForm) :
    (s.append sign r).misuses = s.misuses ++ r.misuses := by
  cases r with
  | single t => rfl
  | chain r g t =>
    show (s.append sign r).misuses ++ t.misuses = s.misuses ++ (r.misuses ++ t.misuses)
    rw [s.append_misuses sign r, List.append_assoc]

lemma SumForm.append_value {ρ : String → ℚ} {s : SumForm} {x : ℚ} (hs : s.HasValue ρ x) : (r : SumForm) → (y : ℚ) →
    r.HasValue ρ y → (s.append .plus r).HasValue ρ (x + y)
  | .single _, y, h => ⟨x, y, hs, h, rfl⟩
  | .chain r .plus t, _, ⟨a, b, hr, ht, hy⟩ =>
    ⟨x + a, b, append_value hs r a hr, ht, by rw [← hy]; exact add_assoc x a b⟩
  | .chain r .minus t, _, ⟨a, b, hr, ht, hy⟩ =>
    ⟨x + a, b, append_value hs r a hr, ht, by rw [← hy]; exact add_sub_assoc x a b⟩

lemma Writes.append_misuses {s r : SumForm} (sign : Sign) (hs : Form.misuses s = []) (hr : Form.misuses r = []) :
    Form.misuses (s.append sign r) = [] := by
  rw [show Form.misuses (s.append sign r) = _ from s.append_misuses sign r]
  exact List.append_eq_nil_iff.mpr ⟨hs, hr⟩

lemma Writes.add (hv : Writes SumForm m v) : Writes SumForm k w → Writes SumForm (m.add k) (v ++ ' ' :: '+' :: ' ' :: w)
  | ⟨r, hd, hmis, hval⟩ => by
    obtain ⟨s, hsd, hsmis, hsval⟩ := hv
    exact ⟨s.append .plus r, SumForm.append_derives hsd .plus r w hd, append_misuses .plus hsmis hmis,
      fun ρ ⟨hm, hk⟩ => SumForm.append_value (hsval ρ hm) r _ (hval ρ hk)⟩

lemma Writes.sub (hv : Writes SumForm m v) : Writes ProductForm k w →
    Writes SumForm (m.sub k) (v ++ ' ' :: '-' :: ' ' :: w)
  | ⟨t, hd, hmis, hval⟩ => by
    obtain ⟨s, hsd, hsmis, hsval⟩ := hv
    exact ⟨.chain s .minus t, ⟨v, [' '], [' '], w, rfl, hsd, blank_space, blank_space, hd⟩,
      List.append_eq_nil_iff.mpr ⟨hsmis, hmis⟩, fun ρ ⟨hm, hk⟩ => ⟨_, _, hsval ρ hm, hval ρ hk, rfl⟩⟩

/-- A sum written after a minus sign is read, but nothing is said of its value. -/
lemma Writes.sub_sum {l : Meaning} (hv : Writes SumForm m v) (hl : ∀ ρ, ¬ l.Defined ρ) :
    Writes SumForm k w → Writes SumForm l (v ++ ' ' :: '-' :: ' ' :: w)
  | ⟨r, hd, hmis, _⟩ => by
    obtain ⟨s, hsd, hsmis, -⟩ := hv
    exact ⟨s.append .minus r, SumForm.append_derives hsd .minus r w hd, append_misuses .minus hsmis hmis,
      fun ρ hρ => absurd hρ (hl ρ)⟩

end PlaneCalculus.Formula
