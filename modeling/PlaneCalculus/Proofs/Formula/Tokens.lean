import Mathlib.Data.List.TakeWhile
import PlaneCalculus.Proofs.Formula.Grammar

/-! Reading single tokens: what a reader accepts is a token of the grammar, and a token is read whole where the text
after it does not carry it on. -/

namespace PlaneCalculus.Formula

open Decimal (Literal isDigit signedExponent)

variable {α β : Type}

/-! ### Results of combined readers -/

namespace Reply

@[simp] lemma result_accept (a : α) (c : Cursor) : (accept a c).result = some (a, c) := rfl

@[simp] lemma result_refuse (c : Cursor) : (refuse c : Reply α).result = none := rfl

@[simp] lemma result_fail : (fail : Reply α).result = none := rfl

lemma result_andThen (r : Reply α) (f : α → Cursor → Reply β) :
    (r.andThen f).result = r.result.bind fun x => (f x.1 x.2).result := by
  unfold andThen
  cases r.result <;> rfl

lemma result_orElse (r : Reply α) (f : Unit → Reply α) : (r.orElse f).result = r.result.or (f ()).result := by
  unfold orElse
  cases h : r.result <;> simp [h]

lemma andThen_eq_some {r : Reply α} {f : α → Cursor → Reply β} {x : β × Cursor} :
    (r.andThen f).result = some x ↔ ∃ a c, r.result = some (a, c) ∧ (f a c).result = some x := by
  rw [result_andThen, Option.bind_eq_some_iff]
  exact Prod.exists

end Reply

/-- The reader takes just the first of two texts. -/
def Reads (reader : Cursor → Reply α) (a : α) (w rest : List Char) : Prop :=
  ∀ pos, (reader ⟨pos, w ++ rest⟩).result = some (a, ⟨pos + w.length, rest⟩)

/-! ### Runs of characters -/

def Stops (p : Char → Bool) (w : List Char) : Prop := ∀ c, w.head? = some c → p c = false

lemma stops_nil (p : Char → Bool) : Stops p [] := by simp [Stops]

@[simp] lemma stops_cons (p : Char → Bool) (c : Char) (w : List Char) : Stops p (c :: w) ↔ p c = false := by
  simp [Stops]

lemma Stops.mono {p q : Char → Bool} {w : List Char} (h : Stops q w) (hpq : ∀ c, p c = true → q c = true) :
    Stops p w := by
  intro c hc
  have hq := h c hc
  cases hp : p c with
  | false => rfl
  | true => rw [hpq c hp] at hq; cases hq

lemma span_append {p : Char → Bool} {w r : List Char} (hw : ∀ c ∈ w, p c = true) (hr : Stops p r) (pos : Nat) :
    Cursor.span p ⟨pos, w ++ r⟩ = (w, ⟨pos + w.length, r⟩) := by
  have htake : r.takeWhile p = [] := by
    cases r with
    | nil => rfl
    | cons c r => simp [(stops_cons p c r).mp hr]
  have hdrop : r.dropWhile p = r := by
    cases r with
    | nil => rfl
    | cons c r => simp [(stops_cons p c r).mp hr]
  simp only [Cursor.span, List.takeWhile_append_of_pos hw, List.dropWhile_append_of_pos hw, htake, hdrop,
    List.append_nil]

lemma span_all (p : Char → Bool) (c : Cursor) : ∀ d ∈ (c.span p).1, p d = true := by
  intro d hd
  exact List.mem_takeWhile_imp hd

lemma skip_spec (c : Cursor) : ∃ g, Blank g ∧ c.rest = g ++ c.skip.rest :=
  ⟨(c.span isBlank).1, span_all isBlank c, (Cursor.span_append isBlank c).symm⟩

lemma skip_append {g r : List Char} (hg : Blank g) (hr : Stops isBlank r) (pos : Nat) :
    Cursor.skip ⟨pos, g ++ r⟩ = ⟨pos + g.length, r⟩ := by
  rw [Cursor.skip, span_append hg hr]

/-! ### Marks -/

lemma sign_sound {c c' : Cursor} {s : Sign} (h : (sign c).result = some (s, c')) : c.rest = s.char :: c'.rest := by
  unfold sign at h
  split at h
  · next hc => cases h; exact hc
  · next hc => cases h; exact hc
  · cases h

lemma factoring_sound {c c' : Cursor} {op : Factoring} (h : (factoring c).result = some (op, c')) :
    c.rest = op.char :: c'.rest := by
  unfold factoring at h
  split at h
  · cases h
  · next hc => cases h; exact hc
  · next hc => cases h; exact hc
  · cases h

lemma powerSign_sound {c c' : Cursor} (h : (powerSign c).result = some ((), c')) :
    ∃ op, PowerMark op ∧ c.rest = op ++ c'.rest := by
  unfold powerSign at h
  split at h
  · next hc => cases h; exact ⟨_, Or.inl rfl, hc⟩
  · next hc => cases h; exact ⟨_, Or.inr rfl, hc⟩
  · cases h

lemma mark_sound {x : Char} {c c' : Cursor} (h : (mark x c).result = some ((), c')) : c.rest = x :: c'.rest := by
  unfold mark at h
  split at h
  · next hc =>
    split at h
    · next hx => cases h; rw [hc, hx]; rfl
    · cases h
  · cases h

lemma finish_sound {c c' : Cursor} (h : (finish c).result = some ((), c')) : c.rest = [] := by
  unfold finish at h
  split at h
  · assumption
  · cases h

lemma sign_reads (s : Sign) (rest : List Char) : Reads sign s [s.char] rest := by
  intro pos
  cases s <;> rfl

lemma factoring_reads (op : Factoring) {rest : List Char} (h : Stops (· == '*') rest) :
    Reads factoring op [op.char] rest := by
  intro pos
  cases op with
  | «over» => rfl
  | times =>
    cases rest with
    | nil => rfl
    | cons c rest =>
      have hc : c ≠ '*' := by simpa using h
      simp only [Factoring.char, List.cons_append, List.nil_append, factoring]
      split
      · next heq =>
        cases heq
        exact absurd rfl hc
      · next heq =>
        cases heq
        rfl
      · next heq => cases heq
      · next hone _ => exact (hone _ rfl).elim

lemma powerSign_reads {op : List Char} (h : PowerMark op) (rest : List Char) : Reads powerSign () op rest := by
  intro pos
  rcases h with rfl | rfl <;> rfl

lemma mark_reads (x : Char) (rest : List Char) : Reads (mark x) () [x] rest := by
  intro pos
  simp [mark, Cursor.step]

/-! ### Names -/

lemma isNameChar_of_isNameStart {c : Char} (h : isNameStart c = true) : isNameChar c = true := by
  simp only [isNameStart, isNameChar, Char.isAlphanum, Bool.or_eq_true] at h ⊢
  rcases h with h | h
  · exact Or.inl (Or.inl h)
  · exact Or.inr h

lemma name_sound {c c' : Cursor} {n : String} (h : (name c).result = some (n, c')) :
    IsName n.toList ∧ c.rest = n.toList ++ c'.rest := by
  unfold name at h
  split at h
  · next x rest hc =>
    split at h
    · next hx =>
      cases h
      have hrun : (c.span isNameChar).1 = x :: rest.takeWhile isNameChar := by
        simp [Cursor.span, hc, isNameChar_of_isNameStart hx]
      rw [String.toList_ofList]
      refine ⟨⟨x, _, hrun, hx, fun d hd => ?_⟩, (Cursor.span_append isNameChar c).symm⟩
      exact span_all isNameChar c d (hrun ▸ List.mem_cons_of_mem x hd)
    · cases h
  · cases h

lemma name_reads {n : String} {rest : List Char} (h : IsName n.toList) (hr : Stops isNameChar rest) :
    Reads name n n.toList rest := by
  intro pos
  obtain ⟨x, cs, hn, hx, hcs⟩ := h
  have hall : ∀ d ∈ n.toList, isNameChar d = true := by
    rw [hn]
    exact List.forall_mem_cons.mpr ⟨isNameChar_of_isNameStart hx, hcs⟩
  have hspan := span_append hall hr pos
  unfold name
  rw [hspan]
  simp only [hn, List.cons_append, hx, if_true]
  rw [← hn, String.ofList_toList]
  rfl

/-! ### Numbers -/

lemma isNameChar_of_isDigit {c : Char} (h : isDigit c = true) : isNameChar c = true := by
  simp only [isDigit, Bool.and_eq_true, decide_eq_true_eq] at h
  simp only [isNameChar, Char.isAlphanum, Char.isDigit, Bool.or_eq_true, Bool.and_eq_true, decide_eq_true_eq]
  exact Or.inl (Or.inr h)

lemma exponentPart_sound {c c' : Cursor} {k : Int} (h : exponentPart c = some (k, c')) :
    ∃ x, ExponentText (some k) x ∧ c.rest = x ++ c'.rest := by
  have hsigned (negative : Bool) (d : Cursor)
      (hd : (if (d.span isDigit).1.isEmpty then none
        else some (signedExponent negative (d.span isDigit).1, (d.span isDigit).2)) = some (k, c')) :
      (d.span isDigit).1 ≠ [] ∧ Digits (d.span isDigit).1 ∧ k = signedExponent negative (d.span isDigit).1 ∧
        d.rest = (d.span isDigit).1 ++ c'.rest := by
    split at hd
    · cases hd
    · next he =>
      cases hd
      exact ⟨by simpa using he, span_all isDigit d, rfl, (Cursor.span_append isDigit d).symm⟩
  unfold exponentPart at h
  split at h
  · next e rest hc =>
    split at h
    · next he =>
      obtain ⟨hne, hdigits, hk, hrest⟩ := hsigned false _ h
      exact ⟨_, ⟨e, ['+'], _, rfl, he, hne, hdigits, Or.inl ⟨Or.inr rfl, hk⟩⟩, by rw [hc]; simpa using hrest⟩
    · cases h
  · next e rest hc =>
    split at h
    · next he =>
      obtain ⟨hne, hdigits, hk, hrest⟩ := hsigned true _ h
      exact ⟨_, ⟨e, ['-'], _, rfl, he, hne, hdigits, Or.inr ⟨rfl, hk⟩⟩, by rw [hc]; simpa using hrest⟩
    · cases h
  · next e rest _ _ hc =>
    split at h
    · next he =>
      obtain ⟨hne, hdigits, hk, hrest⟩ := hsigned false _ h
      exact ⟨_, ⟨e, [], _, rfl, he, hne, hdigits, Or.inl ⟨Or.inl rfl, hk⟩⟩, by rw [hc]; simpa [Cursor.step] using hrest⟩
    · cases h
  · cases h

lemma withExponentPart_sound {whole : List Char} {fraction : Option (List Char)} {c c' : Cursor} {l : Literal}
    (h : (withExponentPart whole fraction c).result = some (l, c')) :
    l.whole = whole ∧ l.fraction = fraction ∧ ∃ x, ExponentText l.exponent x ∧ c.rest = x ++ c'.rest := by
  unfold withExponentPart at h
  split at h
  · next k after hk =>
    cases h
    exact ⟨rfl, rfl, exponentPart_sound hk⟩
  · cases h
    exact ⟨rfl, rfl, [], rfl, rfl⟩

lemma number_sound {c c' : Cursor} {l : Literal} (h : (number c).result = some (l, c')) :
    ∃ w, NumberText l w ∧ c.rest = w ++ c'.rest := by
  have hwhole := span_all isDigit c
  have hsplit := Cursor.span_append isDigit c
  unfold number at h
  dsimp only at h
  generalize (c.span isDigit).1 = whole at h hwhole hsplit
  generalize (c.span isDigit).2 = after at h hsplit
  split at h
  · next rest hafter =>
    have hfraction := span_all isDigit (after.step rest)
    have hsplit' : _ ++ _ = rest := Cursor.span_append isDigit (after.step rest)
    generalize (after.step rest).span isDigit = run at h hfraction hsplit'
    split at h
    · cases h
    · next hne =>
      obtain ⟨hw, hf, x, hx, hrest⟩ := withExponentPart_sound h
      refine ⟨_, ⟨x, rfl, hw ▸ hwhole, by rw [hf]; exact hfraction, ?_, hx⟩, ?_⟩
      · rw [hw, hf]
        simpa [or_iff_not_imp_left] using hne
      · rw [hw, hf, ← hsplit, hafter, fractionText, ← hsplit', hrest]
        simp
  · split at h
    · cases h
    · next hne =>
      obtain ⟨hw, hf, x, hx, hrest⟩ := withExponentPart_sound h
      refine ⟨_, ⟨x, rfl, hw ▸ hwhole, by rw [hf]; exact fun d hd => absurd hd List.not_mem_nil, ?_, hx⟩, ?_⟩
      · rw [hw]
        exact Or.inl (by simpa using hne)
      · rw [hw, hf, ← hsplit, hrest]
        simp [fractionText]

/-- The text does not carry on a name or a number. -/
def Delimited (w : List Char) : Prop := Stops isNameChar w ∧ Stops (· == '.') w

lemma Delimited.digits {w : List Char} (h : Delimited w) : Stops isDigit w := h.1.mono fun _ => isNameChar_of_isDigit

lemma exponentPart_none {rest : List Char} (h : Stops isNameChar rest) (pos : Nat) :
    exponentPart ⟨pos, rest⟩ = none := by
  have hfirst (e : Char) (tail : List Char) (hr : rest = e :: tail) : ¬(e = 'e' ∨ e = 'E') := by
    rw [hr, stops_cons] at h
    rintro (rfl | rfl) <;> revert h <;> decide
  unfold exponentPart
  split
  · next e tail hr => exact if_neg (hfirst e _ hr)
  · next e tail hr => exact if_neg (hfirst e _ hr)
  · next e tail _ _ hr => exact if_neg (hfirst e _ hr)
  · rfl

lemma exponentPart_reads {k : Int} {x rest : List Char} (h : ExponentText (some k) x) (hr : Stops isDigit rest)
    (pos : Nat) : exponentPart ⟨pos, x ++ rest⟩ = some (k, ⟨pos + x.length, rest⟩) := by
  obtain ⟨e, sign, digits, rfl, he, hne, hdigits, hk⟩ := h
  have hempty : digits.isEmpty = false := by simpa using hne
  have hspan (p : Nat) := span_append hdigits hr p
  rcases hk with ⟨rfl | rfl, rfl⟩ | ⟨rfl, rfl⟩
  · obtain ⟨d, ds, rfl⟩ := List.exists_cons_of_ne_nil hne
    have hd := hdigits d List.mem_cons_self
    have hplus : d ≠ '+' := by rintro rfl; revert hd; decide
    have hminus : d ≠ '-' := by rintro rfl; revert hd; decide
    simp only [List.nil_append, List.cons_append]
    unfold exponentPart
    split
    · next heq => simp only [List.cons.injEq] at heq; exact absurd heq.2.1 hplus
    · next heq => simp only [List.cons.injEq] at heq; exact absurd heq.2.1 hminus
    · next heq =>
      cases heq
      rw [if_pos he]
      have hs := hspan (pos + 1)
      simp only [List.cons_append] at hs
      simp only [Cursor.step, hs, hempty, Bool.false_eq_true, if_false, List.length_cons, Nat.add_assoc, Nat.add_comm 1]
    · next heq => cases heq
  · simp only [exponentPart, List.cons_append, List.nil_append, if_pos he, hspan, hempty, Bool.false_eq_true, if_false,
      List.length_cons, Nat.add_assoc, Nat.add_comm 2]
  · simp only [exponentPart, List.cons_append, List.nil_append, if_pos he, hspan, hempty, Bool.false_eq_true, if_false,
      List.length_cons, Nat.add_assoc, Nat.add_comm 2]

lemma exponentText_stops {k : Option Int} {x rest : List Char} (h : ExponentText k x) (hr : Delimited rest) :
    Stops isDigit (x ++ rest) ∧ Stops (· == '.') (x ++ rest) := by
  cases k with
  | none =>
    obtain rfl := h
    exact ⟨hr.digits, hr.2⟩
  | some k =>
    obtain ⟨e, sign, digits, rfl, he, -⟩ := h
    rcases he with rfl | rfl <;> exact ⟨by simp [isDigit], by simp⟩

lemma withExponentPart_reads {l : Literal} {x rest : List Char} (h : ExponentText l.exponent x) (hr : Delimited rest) :
    Reads (withExponentPart l.whole l.fraction) l x rest := by
  intro pos
  unfold withExponentPart
  obtain ⟨whole, fraction, exponent⟩ := l
  cases exponent with
  | none =>
    obtain rfl := h
    rw [List.nil_append, exponentPart_none hr.1]
    rfl
  | some k =>
    rw [exponentPart_reads h hr.digits]
    rfl

lemma number_reads {l : Literal} {w rest : List Char} (h : NumberText l w) (hr : Delimited rest) :
    Reads number l w rest := by
  intro pos
  obtain ⟨x, rfl, hwhole, hfraction, hne, hx⟩ := h
  obtain ⟨hdigit, hpoint⟩ := exponentText_stops hx hr
  have hexponent := withExponentPart_reads hx hr
  unfold number
  cases hf : l.fraction with
  | none =>
    rw [hf] at hexponent hne
    have hspan := span_append hwhole hdigit pos
    simp only [fractionText, List.nil_append, List.append_assoc, hspan]
    split
    · next heq =>
      rw [heq] at hpoint
      simp at hpoint
    · rw [if_neg (by simpa using hne), hexponent]
      simp [Nat.add_assoc]
  | some digits =>
    rw [hf] at hexponent hne hfraction
    have hspan := span_append (r := '.' :: (digits ++ (x ++ rest))) hwhole (by simp [isDigit]) pos
    have hspan' := span_append hfraction hdigit (pos + l.whole.length + 1)
    simp only [Option.getD_some] at hspan' hne
    simp only [fractionText, List.append_assoc, List.cons_append, hspan, Cursor.step, hspan']
    rw [if_neg (by simpa [or_iff_not_imp_left] using hne), hexponent]
    simp [Nat.add_assoc, Nat.add_comm, Nat.add_left_comm]

end PlaneCalculus.Formula
