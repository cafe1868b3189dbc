import Mathlib
import PlaneCalculus.Proofs.Formula.Soundness

/-! What the grammar derives, the readers accept: no earlier alternative takes a token away from the right one, and a
repetition stops where the derivation does. -/

namespace PlaneCalculus.Formula

open Reply
open Decimal (isDigit)

/-! ### First characters -/

def isAtomStart (c : Char) : Bool := isDigit c || c == '.' || isNameStart c || c == '('

def isSignChar (c : Char) : Bool := c == '+' || c == '-'

def isOperandStart (c : Char) : Bool := isSignChar c || isAtomStart c

def Begins (p : Char → Bool) (w : List Char) : Prop := ∃ c cs, w = c :: cs ∧ p c = true

lemma Begins.mono {p q : Char → Bool} {w : List Char} (h : Begins p w) (hpq : ∀ c, p c = true → q c = true) :
    Begins q w := by
  obtain ⟨c, cs, hw, hc⟩ := h
  exact ⟨c, cs, hw, hpq c hc⟩

lemma Begins.append {p : Char → Bool} {w : List Char} (h : Begins p w) (r : List Char) : Begins p (w ++ r) := by
  obtain ⟨c, cs, rfl, hc⟩ := h
  exact ⟨c, cs ++ r, rfl, hc⟩

lemma Begins.length_pos {p : Char → Bool} {w : List Char} (h : Begins p w) : 1 ≤ w.length := by
  obtain ⟨c, cs, rfl, -⟩ := h
  exact Nat.succ_le_succ (Nat.zero_le _)

lemma Begins.stops {p q : Char → Bool} {w : List Char} (h : Begins p w) (hpq : ∀ c, p c = true → q c = false) :
    Stops q w := by
  obtain ⟨c, cs, rfl, hc⟩ := h
  exact (stops_cons q c cs).mpr (hpq c hc)

lemma isAtomStart_not_sign {c : Char} (h : isAtomStart c = true) : isSignChar c = false := by
  cases hs : isSignChar c with
  | false => rfl
  | true =>
    simp only [isSignChar, Bool.or_eq_true, beq_iff_eq] at hs
    rcases hs with rfl | rfl <;> cases h

lemma isOperandStart_not_star {c : Char} (h : isOperandStart c = true) : (c == '*') = false := by
  cases hs : c == '*' with
  | false => rfl
  | true =>
    obtain rfl := beq_iff_eq.mp hs
    cases h

lemma isBlank_cases {c : Char} (h : isBlank c = true) : c = ' ' ∨ c = '\t' ∨ c = '\r' ∨ c = '\n' := by
  simpa [isBlank, or_assoc] using h

lemma isOperandStart_not_blank {c : Char} (h : isOperandStart c = true) : isBlank c = false := by
  cases hb : isBlank c with
  | false => rfl
  | true => rcases isBlank_cases hb with rfl | rfl | rfl | rfl <;> cases h

lemma number_begins {l : Decimal.Literal} {w : List Char} (h : NumberText l w) : Begins isAtomStart w := by
  obtain ⟨x, rfl, hw, -, hne, -⟩ := h
  cases hl : l.whole with
  | cons d ds =>
    have hd := hw d (by rw [hl]; exact List.mem_cons_self)
    exact ⟨d, _, rfl, by simp [isAtomStart, hd]⟩
  | nil =>
    cases hf : l.fraction with
    | none => simp [hl, hf] at hne
    | some digits => exact ⟨'.', _, rfl, rfl⟩

lemma name_begins {w : List Char} (h : IsName w) : Begins isNameStart w := by
  obtain ⟨c, cs, hw, hc, -⟩ := h
  exact ⟨c, cs, hw, hc⟩

lemma isAtomStart_of_isNameStart {c : Char} (h : isNameStart c = true) : isAtomStart c = true := by
  simp [isAtomStart, h]

lemma atom_begins : (a : AtomForm) → {w : List Char} → a.Derives w → Begins isAtomStart w
  | .number _, _, h => number_begins h
  | .call _ _, _, ⟨_, _, _, _, hw, hn, _⟩ => by
    rw [hw]
    exact ((name_begins hn).mono fun _ => isAtomStart_of_isNameStart).append _
  | .name _, _, ⟨hw, hn⟩ => by
    rw [hw]
    exact (name_begins hn).mono fun _ => isAtomStart_of_isNameStart
  | .group _, _, ⟨_, _, _, hw, _⟩ => ⟨'(', _, hw, rfl⟩

lemma power_begins : (p : PowerForm) → {w : List Char} → p.Derives w → Begins isAtomStart w
  | .single a, _, h => atom_begins a h
  | .raised a _, _, ⟨_, _, _, _, _, hw, ha, _⟩ => by
    rw [hw]
    exact (atom_begins a ha).append _

lemma signed_begins : (u : SignedForm) → {w : List Char} → u.Derives w → Begins isOperandStart w
  | .bare p, _, h => (power_begins p h).mono fun c hc => by simp [isOperandStart, hc]
  | .signed sign _, _, ⟨_, _, hw, _⟩ => ⟨sign.char, _, hw, by cases sign <;> rfl⟩

lemma product_begins : (p : ProductForm) → {w : List Char} → p.Derives w → Begins isOperandStart w
  | .single u, _, h => signed_begins u h
  | .chain p _ _, _, ⟨_, _, _, _, hw, hp, _⟩ => by
    rw [hw]
    exact (product_begins p hp).append _

lemma sum_begins : (s : SumForm) → {w : List Char} → s.Derives w → Begins isOperandStart w
  | .single t, _, h => product_begins t h
  | .chain s _ _, _, ⟨_, _, _, _, hw, hs, _⟩ => by
    rw [hw]
    exact (sum_begins s hs).append _

/-! ### Refusals -/

lemma mark_none {x : Char} {w : List Char} (h : Stops (· == x) w) (pos : Nat) : (mark x ⟨pos, w⟩).result = none := by
  cases w with
  | nil => rfl
  | cons c w =>
    have hc : c ≠ x := by simpa using h
    simp [mark, Ne.symm hc]

lemma sign_none {w : List Char} (h : Stops isSignChar w) (pos : Nat) : (sign ⟨pos, w⟩).result = none := by
  unfold sign
  split
  · next hw => obtain rfl := hw; simp [isSignChar] at h
  · next hw => obtain rfl := hw; simp [isSignChar] at h
  · rfl

lemma name_none {w : List Char} (h : Stops isNameStart w) (pos : Nat) : (name ⟨pos, w⟩).result = none := by
  unfold name
  split
  · next c cs hw =>
    obtain rfl := hw
    rw [if_neg (by simpa using h)]
    rfl
  · rfl

lemma number_none {w : List Char} (hd : Stops isDigit w) (hp : Stops (· == '.') w) (pos : Nat) :
    (number ⟨pos, w⟩).result = none := by
  have hspan := span_append (w := []) (fun _ h => absurd h List.not_mem_nil) hd pos
  unfold number
  rw [List.nil_append] at hspan
  simp only [hspan, List.length_nil, Nat.add_zero]
  split
  · simp at hp
  · rfl

/-! ### What may follow

Each condition says that no reader is tempted to go on after the text that belongs to it. -/

def EndsAtom (r : List Char) : Prop := Delimited r ∧ ∀ pos, (mark '(' (Cursor.skip ⟨pos, r⟩)).result = none

def EndsPower (r : List Char) : Prop := EndsAtom r ∧ ∀ pos, (powerSign (Cursor.skip ⟨pos, r⟩)).result = none

def EndsProduct (r : List Char) : Prop := EndsPower r ∧ ∀ pos, (factoring (Cursor.skip ⟨pos, r⟩)).result = none

def EndsSum (r : List Char) : Prop := EndsProduct r ∧ ∀ pos, (sign (Cursor.skip ⟨pos, r⟩)).result = none

/-- A character that can stand between operands: it belongs to no operand and opens none. -/
def isSeparator (c : Char) : Bool := !isBlank c && !isNameChar c && c != '.' && c != '('

lemma blank_not_name {c : Char} (h : isBlank c = true) : isNameChar c = false ∧ (c == '.') = false := by
  rcases isBlank_cases h with rfl | rfl | rfl | rfl <;> decide

lemma delimited_gap {g r : List Char} (hg : Blank g) (hr : Delimited r) : Delimited (g ++ r) := by
  cases g with
  | nil => exact hr
  | cons c g =>
    obtain ⟨hn, hp⟩ := blank_not_name (hg c List.mem_cons_self)
    exact ⟨(stops_cons _ c _).mpr hn, (stops_cons _ c _).mpr hp⟩

section Separator

variable {g r : List Char} {c : Char} (hg : Blank g) (hc : isSeparator c = true)
include hg hc

lemma skip_separator (pos : Nat) : Cursor.skip ⟨pos, g ++ c :: r⟩ = ⟨pos + g.length, c :: r⟩ := by
  simp only [isSeparator, Bool.and_eq_true, Bool.not_eq_true'] at hc
  exact skip_append hg ((stops_cons _ c r).mpr hc.1.1.1) pos

lemma endsAtom_separator : EndsAtom (g ++ c :: r) := by
  refine ⟨delimited_gap hg ?_, fun pos => ?_⟩
  · simp only [isSeparator, Bool.and_eq_true, Bool.not_eq_true', bne_iff_ne] at hc
    exact ⟨(stops_cons _ c r).mpr hc.1.1.2, (stops_cons _ c r).mpr (by simpa using hc.1.2)⟩
  · rw [skip_separator hg hc]
    simp only [isSeparator, Bool.and_eq_true, bne_iff_ne] at hc
    exact mark_none ((stops_cons _ c r).mpr (by simpa using hc.2)) _

end Separator

lemma endsProduct_sign {g r : List Char} (hg : Blank g) (s : Sign) : EndsProduct (g ++ s.char :: r) := by
  have hc : isSeparator s.char = true := by cases s <;> decide
  refine ⟨⟨endsAtom_separator hg hc, fun pos => ?_⟩, fun pos => ?_⟩
  · rw [skip_separator hg hc]
    cases s <;> rfl
  · rw [skip_separator hg hc]
    cases s <;> rfl

lemma endsPower_factoring {g r : List Char} (hg : Blank g) (op : Factoring) (hr : Stops (· == '*') r) :
    EndsPower (g ++ op.char :: r) := by
  have hc : isSeparator op.char = true := by cases op <;> decide
  refine ⟨endsAtom_separator hg hc, fun pos => ?_⟩
  rw [skip_separator hg hc]
  cases op with
  | «over» => rfl
  | times =>
    cases r with
    | nil => rfl
    | cons c r =>
      have hne : c ≠ '*' := by simpa using hr
      unfold powerSign
      split
      · next heq =>
        cases heq
        exact absurd rfl hne
      · next heq => cases heq
      · rfl

lemma endsAtom_power {g op r : List Char} (hg : Blank g) (hop : PowerMark op) : EndsAtom (g ++ (op ++ r)) := by
  rcases hop with rfl | rfl
  · exact endsAtom_separator hg (by decide)
  · exact endsAtom_separator hg (by decide)

lemma skip_power {g op r : List Char} (hg : Blank g) (hop : PowerMark op) (pos : Nat) :
    Cursor.skip ⟨pos, g ++ (op ++ r)⟩ = ⟨pos + g.length, op ++ r⟩ := by
  rcases hop with rfl | rfl
  · exact skip_separator hg (by decide) pos
  · exact skip_separator hg (by decide) pos

lemma endsSum_close {g r : List Char} (hg : Blank g) : EndsSum (g ++ ')' :: r) := by
  have hc : isSeparator ')' = true := by decide
  have hskip := skip_separator (r := r) hg hc
  refine ⟨⟨⟨endsAtom_separator hg hc, fun pos => ?_⟩, fun pos => ?_⟩, fun pos => ?_⟩ <;> rw [hskip] <;> rfl

lemma endsSum_blank {g : List Char} (hg : Blank g) : EndsSum g := by
  have hskip (pos : Nat) : Cursor.skip ⟨pos, g⟩ = ⟨pos + g.length, []⟩ := by
    have h := skip_append hg (stops_nil isBlank) pos
    rwa [List.append_nil] at h
  have hd : Delimited g := by
    have h := delimited_gap hg ⟨stops_nil isNameChar, stops_nil (· == '.')⟩
    rwa [List.append_nil] at h
  refine ⟨⟨⟨⟨hd, fun pos => ?_⟩, fun pos => ?_⟩, fun pos => ?_⟩, fun pos => ?_⟩ <;> rw [hskip] <;> rfl

/-! ### Chains -/

lemma sumChain_ends {r : List Char} (hr : EndsSum r) (n : Nat) (s : SumForm) (pos : Nat) :
    (sumChain (n + 1) s ⟨pos, r⟩).result = some (s, ⟨pos, r⟩) := by
  have hnone : ((sign (Cursor.skip ⟨pos, r⟩)).andThen fun op c =>
      (product n c.skip).andThen fun t c => .accept (op, t) c).result = none := by
    rw [result_andThen, hr.2 pos]
    rfl
  simp only [sumChain]
  split
  · rfl
  · next h => rw [hnone] at h; cases h

lemma skip_operand {g w r : List Char} (hg : Blank g) (hw : Begins isOperandStart w) (pos : Nat) :
    Cursor.skip ⟨pos, g ++ (w ++ r)⟩ = ⟨pos + g.length, w ++ r⟩ :=
  skip_append hg ((hw.append r).stops fun _ => isOperandStart_not_blank) pos

lemma stops_gap_operand {g w : List Char} (hg : Blank g) (hw : Begins isOperandStart w) (r : List Char) :
    Stops (· == '*') (g ++ (w ++ r)) := by
  cases g with
  | nil => exact (hw.append r).stops fun _ => isOperandStart_not_star
  | cons c g =>
    rcases isBlank_cases (hg c List.mem_cons_self) with rfl | rfl | rfl | rfl <;> simp

lemma sumChain_continues {n : Nat} {t : ProductForm} {g₁ g₂ w r : List Char} (hg₁ : Blank g₁) (hg₂ : Blank g₂)
    (hw : Begins isOperandStart w) (ht : Reads (product n) t w r) (s : SumForm) (sg : Sign) (pos : Nat) :
    (sumChain (n + 1) s ⟨pos, g₁ ++ sg.char :: (g₂ ++ (w ++ r))⟩).result =
      (sumChain n (.chain s sg t) ⟨pos + g₁.length + 1 + g₂.length + w.length, r⟩).result := by
  have hc : isSeparator sg.char = true := by cases sg <;> decide
  have hskip := skip_separator (r := g₂ ++ (w ++ r)) hg₁ hc pos
  have hsign := sign_reads sg (g₂ ++ (w ++ r)) (pos + g₁.length)
  have hnext : ((sign (Cursor.skip ⟨pos, g₁ ++ sg.char :: (g₂ ++ (w ++ r))⟩)).andThen fun op c =>
      (product n c.skip).andThen fun t c => .accept (op, t) c).result =
        some ((sg, t), ⟨pos + g₁.length + 1 + g₂.length + w.length, r⟩) := by
    refine andThen_eq_some.mpr ⟨sg, _, hskip ▸ hsign, andThen_eq_some.mpr ⟨t, _, ?_, rfl⟩⟩
    rw [skip_operand hg₂ hw]
    exact ht _
  simp only [sumChain]
  split
  · next h =>
    rw [hnext] at h
    cases h
  · next h =>
    rw [hnext] at h
    cases h
    rfl

lemma productChain_ends {r : List Char} (hr : EndsProduct r) (n : Nat) (p : ProductForm) (pos : Nat) :
    (productChain (n + 1) p ⟨pos, r⟩).result = some (p, ⟨pos, r⟩) := by
  have hnone : ((factoring (Cursor.skip ⟨pos, r⟩)).andThen fun op c =>
      (signed n c.skip).andThen fun u c => .accept (op, u) c).result = none := by
    rw [result_andThen, hr.2 pos]
    rfl
  simp only [productChain]
  split
  · rfl
  · next h =>
    rw [hnone] at h
    cases h

lemma productChain_continues {n : Nat} {u : SignedForm} {g₁ g₂ w r : List Char} (hg₁ : Blank g₁) (hg₂ : Blank g₂)
    (hw : Begins isOperandStart w) (hu : Reads (signed n) u w r) (p : ProductForm) (op : Factoring) (pos : Nat) :
    (productChain (n + 1) p ⟨pos, g₁ ++ op.char :: (g₂ ++ (w ++ r))⟩).result =
      (productChain n (.chain p op u) ⟨pos + g₁.length + 1 + g₂.length + w.length, r⟩).result := by
  have hc : isSeparator op.char = true := by cases op <;> decide
  have hskip := skip_separator (r := g₂ ++ (w ++ r)) hg₁ hc pos
  have hmark := factoring_reads op (stops_gap_operand hg₂ hw r) (pos + g₁.length)
  have hnext : ((factoring (Cursor.skip ⟨pos, g₁ ++ op.char :: (g₂ ++ (w ++ r))⟩)).andThen fun op c =>
      (signed n c.skip).andThen fun u c => .accept (op, u) c).result =
        some ((op, u), ⟨pos + g₁.length + 1 + g₂.length + w.length, r⟩) := by
    refine andThen_eq_some.mpr ⟨op, _, hskip ▸ hmark, andThen_eq_some.mpr ⟨u, _, ?_, rfl⟩⟩
    rw [skip_operand hg₂ hw]
    exact hu _
  simp only [productChain]
  split
  · next h =>
    rw [hnext] at h
    cases h
  · next h =>
    rw [hnext] at h
    cases h
    rfl

/-! ### Formulas -/

/-- A sum is read up to the point where its chain might go on, with enough depth left. -/
def SumReads (n : Nat) (s : SumForm) (w r : List Char) : Prop :=
  ∀ pos, ∃ m, n ≤ m + w.length ∧ (sum n ⟨pos, w ++ r⟩).result = (sumChain m s ⟨pos + w.length, r⟩).result

def ProductReads (n : Nat) (p : ProductForm) (w r : List Char) : Prop :=
  ∀ pos, ∃ m, n ≤ m + w.length ∧ (product n ⟨pos, w ++ r⟩).result = (productChain m p ⟨pos + w.length, r⟩).result

lemma SumReads.reads {n : Nat} {s : SumForm} {w r : List Char} (h : SumReads n s w r) (hn : w.length < n)
    (hr : EndsSum r) : Reads (sum n) s w r := by
  intro pos
  obtain ⟨m, hm, hsum⟩ := h pos
  obtain ⟨k, rfl⟩ : ∃ k, m = k + 1 := ⟨m - 1, by omega⟩
  rw [hsum, sumChain_ends hr]

lemma ProductReads.reads {n : Nat} {p : ProductForm} {w r : List Char} (h : ProductReads n p w r) (hn : w.length < n)
    (hr : EndsProduct r) : Reads (product n) p w r := by
  intro pos
  obtain ⟨m, hm, hproduct⟩ := h pos
  obtain ⟨k, rfl⟩ : ∃ k, m = k + 1 := ⟨m - 1, by omega⟩
  rw [hproduct, productChain_ends hr]

lemma group_reads {n : Nat} {s : SumForm} {g₁ w g₂ r : List Char} (hg₁ : Blank g₁) (hg₂ : Blank g₂)
    (hw : Begins isOperandStart w) (hs : Reads (sum n) s w (g₂ ++ ')' :: r)) (pos : Nat) :
    (group (n + 1) ⟨pos, '(' :: (g₁ ++ (w ++ (g₂ ++ ')' :: r)))⟩).result =
      some (s, ⟨pos + 1 + g₁.length + w.length + g₂.length + 1, r⟩) := by
  have hskip := skip_operand (r := g₂ ++ ')' :: r) hg₁ hw (pos + 1)
  have hsum := hs (pos + 1 + g₁.length)
  have hclose := mark_reads ')' r (pos + 1 + g₁.length + w.length + g₂.length)
  simp only [group]
  refine andThen_eq_some.mpr ⟨(), _, mark_reads '(' _ pos, ?_⟩
  rw [← hskip] at hsum
  refine andThen_eq_some.mpr ⟨s, _, hsum, ?_⟩
  rw [skip_separator hg₂ (by decide)]
  exact andThen_eq_some.mpr ⟨(), _, hclose, rfl⟩

lemma group_none {n : Nat} {c : Cursor} (h : (mark '(' c).result = none) : (group n c).result = none := by
  cases n with
  | zero => rfl
  | succ n =>
    simp only [group]
    rw [result_andThen, h]
    rfl

lemma isNameStart_not_digit {c : Char} (h : isNameStart c = true) : isDigit c = false := by
  cases hd : isDigit c with
  | false => rfl
  | true =>
    simp only [isDigit, Bool.and_eq_true, decide_eq_true_eq, Char.le_def, UInt32.le_iff_toNat_le] at hd
    simp only [isNameStart, Char.isAlpha, Char.isUpper, Char.isLower, Bool.or_eq_true, Bool.and_eq_true,
      decide_eq_true_eq, ge_iff_le, UInt32.le_iff_toNat_le, Char.ext_iff, ← UInt32.toNat_inj] at h
    have h9 : ('9' : Char).val.toNat = 57 := rfl
    have hA : ('A' : Char).val.toNat = 65 := rfl
    have ha : ('a' : Char).val.toNat = 97 := rfl
    have hu : ('_' : Char).val.toNat = 95 := rfl
    omega

lemma isNameStart_not_point {c : Char} (h : isNameStart c = true) : (c == '.') = false := by
  cases hp : c == '.' with
  | false => rfl
  | true =>
    obtain rfl := beq_iff_eq.mp hp
    cases h

lemma number_none_name {w : List Char} (h : IsName w) (r : List Char) (pos : Nat) :
    (number ⟨pos, w ++ r⟩).result = none :=
  number_none (((name_begins h).append r).stops fun _ hc => isNameStart_not_digit hc)
    (((name_begins h).append r).stops fun _ hc => isNameStart_not_point hc) pos

mutual

lemma sum_reads : (s : SumForm) → {n : Nat} → {w r : List Char} → s.Derives w → EndsProduct r →
    8 * w.length + 6 ≤ n → SumReads n s w r
  | .single t, n, w, r, h, hr, hn => by
    intro pos
    obtain ⟨n, rfl⟩ : ∃ m, n = m + 1 := ⟨n - 1, by omega⟩
    have hlen := (product_begins t h).length_pos
    have ht := (product_reads t (n := n) h hr.1 (by omega)).reads (by omega) hr pos
    refine ⟨n, by omega, ?_⟩
    simp only [sum, result_andThen, ht, Option.bind_some]
  | .chain s sg t, n, _, r, ⟨w₁, g₁, g₂, w₂, rfl, hs, hg₁, hg₂, ht⟩, hr, hn => by
    intro pos
    simp only [List.length_append, List.length_cons] at hn
    have hlen := (sum_begins s hs).length_pos
    obtain ⟨m, hm, hsum⟩ := sum_reads s (n := n) hs (endsProduct_sign (r := g₂ ++ (w₂ ++ r)) hg₁ sg) (by omega) pos
    obtain ⟨m, rfl⟩ : ∃ k, m = k + 1 := ⟨m - 1, by omega⟩
    have ht' := (product_reads t (n := m) ht hr.1 (by omega)).reads (by omega) hr
    refine ⟨m, by simp only [List.length_append, List.length_cons]; omega, ?_⟩
    have hstep := sumChain_continues hg₁ hg₂ (product_begins t ht) ht' s sg (pos + w₁.length)
    rw [← hsum] at hstep
    simp only [List.append_assoc, List.cons_append, hstep, List.length_append, List.length_cons]
    congr 3
    omega

lemma product_reads : (p : ProductForm) → {n : Nat} → {w r : List Char} → p.Derives w → EndsPower r →
    8 * w.length + 5 ≤ n → ProductReads n p w r
  | .single u, n, w, r, h, hr, hn => by
    intro pos
    obtain ⟨n, rfl⟩ : ∃ m, n = m + 1 := ⟨n - 1, by omega⟩
    have hlen := (signed_begins u h).length_pos
    have hu := signed_reads u (n := n) h hr (by omega) pos
    refine ⟨n, by omega, ?_⟩
    simp only [product, result_andThen, hu, Option.bind_some]
  | .chain p op u, n, _, r, ⟨w₁, g₁, g₂, w₂, rfl, hp, hg₁, hg₂, hu⟩, hr, hn => by
    intro pos
    simp only [List.length_append, List.length_cons] at hn
    have hlen := (product_begins p hp).length_pos
    have hbegin := signed_begins u hu
    have hfollow := endsPower_factoring hg₁ op (stops_gap_operand hg₂ hbegin r)
    obtain ⟨m, hm, hproduct⟩ := product_reads p (n := n) hp hfollow (by omega) pos
    obtain ⟨m, rfl⟩ : ∃ k, m = k + 1 := ⟨m - 1, by omega⟩
    have hu' := signed_reads u (n := m) hu hr (by omega)
    refine ⟨m, by simp only [List.length_append, List.length_cons]; omega, ?_⟩
    have hstep := productChain_continues hg₁ hg₂ hbegin hu' p op (pos + w₁.length)
    rw [← hproduct] at hstep
    simp only [List.append_assoc, List.cons_append, hstep, List.length_append, List.length_cons]
    congr 3
    omega

lemma signed_reads : (u : SignedForm) → {n : Nat} → {w r : List Char} → u.Derives w → EndsPower r →
    8 * w.length + 4 ≤ n → Reads (signed n) u w r
  | .bare p, n, w, r, h, hr, hn => by
    intro pos
    obtain ⟨n, rfl⟩ : ∃ m, n = m + 1 := ⟨n - 1, by omega⟩
    have hsign := sign_none (((power_begins p h).append r).stops fun _ => isAtomStart_not_sign) pos
    have hp := power_reads p (n := n) h hr (by omega) pos
    simp only [signed, hsign, result_andThen, hp, Option.bind_some, result_accept]
  | .signed sg u, n, _, r, ⟨g, w, rfl, hg, hu⟩, hr, hn => by
    intro pos
    simp only [List.length_append, List.length_cons] at hn
    obtain ⟨n, rfl⟩ : ∃ m, n = m + 1 := ⟨n - 1, by omega⟩
    have hsign := sign_reads sg (g ++ (w ++ r)) pos
    have hu' := signed_reads u (n := n) hu hr (by omega) (pos + 1 + g.length)
    have hskip := skip_operand (r := r) hg (signed_begins u hu) (pos + 1)
    rw [← hskip] at hu'
    have hstart : sg.char :: (g ++ w) ++ r = [sg.char] ++ (g ++ (w ++ r)) := by simp
    rw [hstart]
    simp only [signed, hsign, List.length_cons, List.length_nil, Nat.zero_add, result_andThen, hu', Option.bind_some,
      result_accept, List.length_append]
    congr 3
    omega

lemma power_reads : (p : PowerForm) → {n : Nat} → {w r : List Char} → p.Derives w → EndsPower r →
    8 * w.length + 3 ≤ n → Reads (power n) p w r
  | .single a, n, w, r, h, hr, hn => by
    intro pos
    obtain ⟨n, rfl⟩ : ∃ m, n = m + 1 := ⟨n - 1, by omega⟩
    have ha := atom_reads a (n := n) h hr.1 (by omega) pos
    simp only [power, result_andThen, ha, Option.bind_some, hr.2, Option.bind_none]
  | .raised a u, n, _, r, ⟨w₁, g₁, op, g₂, w₂, rfl, ha, hg₁, hop, hg₂, hu⟩, hr, hn => by
    intro pos
    simp only [List.length_append] at hn
    obtain ⟨n, rfl⟩ : ∃ m, n = m + 1 := ⟨n - 1, by omega⟩
    have hlen := (atom_begins a ha).length_pos
    have ha' := atom_reads a (n := n) ha (endsAtom_power (r := g₂ ++ (w₂ ++ r)) hg₁ hop) (by omega) pos
    have hmark := powerSign_reads hop (g₂ ++ (w₂ ++ r)) (pos + w₁.length + g₁.length)
    have hu' := signed_reads u (n := n) hu hr (by omega) (pos + w₁.length + g₁.length + op.length + g₂.length)
    rw [← skip_operand hg₂ (signed_begins u hu)] at hu'
    rw [← skip_power hg₁ hop] at hmark
    simp only [List.append_assoc, power, result_andThen, ha', Option.bind_some, hmark, hu', List.length_append]
    congr 3
    omega

lemma atom_reads : (a : AtomForm) → {n : Nat} → {w r : List Char} → a.Derives w → EndsAtom r →
    8 * w.length + 2 ≤ n → Reads (atom n) a w r
  | .number l, n, w, r, h, hr, hn => by
    intro pos
    obtain ⟨n, rfl⟩ : ∃ m, n = m + 1 := ⟨n - 1, by omega⟩
    have hl := number_reads h hr.1 pos
    simp only [atom, result_orElse, result_andThen, hl, Option.bind_some, result_accept, Option.some_or]
  | .call f s, n, _, r, ⟨g, g₁, w, g₂, rfl, hf, hg, hg₁, hs, hg₂⟩, hr, hn => by
    intro pos
    simp only [List.length_append, List.length_cons] at hn
    obtain ⟨n, rfl⟩ : ∃ m, n = m + 2 := ⟨n - 2, by omega⟩
    have hsum := (sum_reads s (n := n) hs (endsSum_close (r := r) hg₂).1 (by omega)).reads (by omega)
      (endsSum_close hg₂)
    have hgroup := group_reads hg₁ hg₂ (sum_begins s hs) hsum (pos + f.toList.length + g.length)
    have hopen : Delimited ('(' :: (g₁ ++ (w ++ (g₂ ++ ')' :: r)))) := ⟨by simp [isNameChar], by simp⟩
    rw [← skip_append hg (by simp [isBlank])] at hgroup
    have hname := name_reads hf (delimited_gap hg hopen).1 pos
    simp only [atom, result_orElse, result_andThen, List.cons_append, List.append_assoc, List.nil_append,
      number_none_name hf, hname, Option.bind_none, Option.none_or, hgroup, Option.bind_some, result_accept,
      Option.some_or]
    simp only [List.length_cons, List.length_append, List.length_nil]
    congr 3
    omega
  | .name f, n, _, r, ⟨rfl, hf⟩, hr, hn => by
    intro pos
    obtain ⟨n, rfl⟩ : ∃ m, n = m + 1 := ⟨n - 1, by omega⟩
    have hname := name_reads hf hr.1.1 pos
    simp only [atom, result_orElse, result_andThen, number_none_name hf, hname, Option.bind_some, Option.bind_none,
      group_none (hr.2 _), Option.none_or, result_accept, Option.some_or]
  | .group s, n, _, r, ⟨g₁, w, g₂, rfl, hg₁, hs, hg₂⟩, hr, hn => by
    intro pos
    simp only [List.length_append, List.length_cons] at hn
    obtain ⟨n, rfl⟩ : ∃ m, n = m + 2 := ⟨n - 2, by omega⟩
    have hsum := (sum_reads s (n := n) hs (endsSum_close (r := r) hg₂).1 (by omega)).reads (by omega)
      (endsSum_close hg₂)
    have hgroup := group_reads hg₁ hg₂ (sum_begins s hs) hsum pos
    have hnumber (rest : List Char) := number_none (w := '(' :: rest) (by simp [isDigit]) (by simp) pos
    have hname (rest : List Char) := name_none (w := '(' :: rest) (by simp [isNameStart]) pos
    simp only [atom, result_orElse, result_andThen, List.cons_append, List.append_assoc, List.nil_append, hnumber,
      hname, Option.bind_none, Option.none_or, hgroup, Option.bind_some, result_accept]
    simp only [List.length_cons, List.length_append, List.length_nil]
    congr 3
    omega

end

lemma whole_reads {text : List Char} {s : SumForm} (h : Sentence s text) :
    ∃ c, (whole text).result = some (s, c) := by
  obtain ⟨g₁, w, g₂, rfl, hg₁, hs, hg₂⟩ := h
  have hbegin := sum_begins s hs
  have hfuel : 8 * w.length + 6 ≤ depthFor (g₁ ++ (w ++ g₂)).length := by
    simp only [depthFor, List.length_append]
    omega
  have hsum := (sum_reads s hs (endsSum_blank hg₂).1 hfuel).reads (by omega) (endsSum_blank hg₂) (0 + g₁.length)
  have hend := skip_append hg₂ (stops_nil isBlank) (0 + g₁.length + w.length)
  rw [List.append_nil] at hend
  rw [← skip_operand hg₁ hbegin] at hsum
  have hfinish : (finish (Cursor.skip ⟨0 + g₁.length + w.length, g₂⟩)).result =
      some ((), ⟨0 + g₁.length + w.length + g₂.length, []⟩) := by
    rw [hend]
    rfl
  refine ⟨⟨0 + g₁.length + w.length + g₂.length, []⟩, ?_⟩
  exact andThen_eq_some.mpr ⟨s, _, hsum, andThen_eq_some.mpr ⟨(), _, hfinish, rfl⟩⟩

theorem parse_eq_ok_iff (text : String) (s : SumForm) : parse text = .ok s ↔ Sentence s text.toList := by
  unfold parse toExcept
  constructor
  · intro h
    split at h
    · next c hc =>
      cases h
      exact whole_sound hc
    · cases h
  · intro h
    obtain ⟨c, hc⟩ := whole_reads h
    rw [hc]

theorem sentence_unique {s s' : SumForm} {text : List Char} (h : Sentence s text) (h' : Sentence s' text) : s = s' := by
  obtain ⟨c, hc⟩ := whole_reads h
  obtain ⟨c', hc'⟩ := whole_reads h'
  rw [hc] at hc'
  cases hc'
  rfl

end PlaneCalculus.Formula
