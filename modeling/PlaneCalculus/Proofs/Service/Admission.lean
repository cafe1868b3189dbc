import PlaneCalculus.Proofs.Formula.Difference
import PlaneCalculus.Proofs.Formula.Lexemes
import PlaneCalculus.Proofs.Service.Identifiers

/-! What the check on expressions lets through. Every formula and every equation that is short enough and has allowed names
only passes, whatever its numbers are, as long as no number has its exponent after a small `e`: to the check that letter is a
word of its own, and not one of the allowed words, while the capital is the name of a constant. -/

namespace PlaneCalculus

open Formula

namespace Validation

variable {limit : Nat} {text : String} {v w : List Char}

/-! ### Exponents after a small letter -/

/-- A small `e` stands right after a digit or a point, as in `1e5`. -/
def HasSmallExponent (w : List Char) : Prop := ∃ c, (Decimal.isDigit c = true ∨ c = '.') ∧ [c, 'e'] <:+: w

lemma HasSmallExponent.mem (h : HasSmallExponent w) : 'e' ∈ w := by
  obtain ⟨c, -, hpart⟩ := h
  exact hpart.subset (by simp)

lemma hasSmallExponent_join {c : Char} (hc : IsGap c) :
    HasSmallExponent (v ++ c :: w) ↔ HasSmallExponent v ∨ HasSmallExponent w := by
  have hnot (d : Char) (hd : Decimal.isDigit d = true ∨ d = '.') : c ∉ [d, 'e'] := by
    simp only [List.mem_cons, List.not_mem_nil, or_false, not_or]
    constructor
    · rintro rfl
      rcases hd with hd | hd
      · have := isNameChar_of_isDigit hd
        rw [hc.1] at this
        cases this
      · exact hc.2 hd
    · rintro rfl
      exact absurd hc.1 (by decide)
  constructor
  · rintro ⟨d, hd, h⟩
    rcases (Text.infix_append_cons_iff (hnot d hd)).mp h with h | h
    · exact .inl ⟨d, hd, h⟩
    · exact .inr ⟨d, hd, h⟩
  · rintro (⟨d, hd, h⟩ | ⟨d, hd, h⟩)
    · exact ⟨d, hd, (Text.infix_append_cons_iff (hnot d hd)).mpr (.inl h)⟩
    · exact ⟨d, hd, (Text.infix_append_cons_iff (hnot d hd)).mpr (.inr h)⟩

/-! ### Forbidden words -/

lemma forbiddenWords_gapless : ∀ word ∈ forbiddenWords, ∀ c, IsGap c → c ∉ word.toList := by
  have h : (forbiddenWords.all fun word => word.toList.all fun d => isNameChar d || d = '.') = true := by decide
  simp only [List.all_eq_true, Bool.or_eq_true, decide_eq_true_eq] at h
  rintro word hword c ⟨hname, hpoint⟩ hc
  rcases h word hword c hc with h | h
  · rw [hname] at h
    cases h
  · exact hpoint h

lemma toLower_gap {c : Char} (hc : IsGap c) : c.toLower = c := by
  refine Char.toLower_eq_of_not_isUpper ?_
  have h := hc.1
  simp only [isNameChar, Char.isAlphanum, Char.isAlpha, Bool.or_eq_false_iff] at h
  simp [h.1.1.1]

lemma hasForbiddenWord_join {c : Char} (hc : IsGap c) (hv : hasForbiddenWord (String.ofList v) = false)
    (hw : hasForbiddenWord (String.ofList w) = false) : hasForbiddenWord (String.ofList (v ++ c :: w)) = false := by
  simp only [hasForbiddenWord, String.toList_ofList, List.any_eq_false, Text.occursIn_iff] at hv hw ⊢
  intro word hword h
  rw [List.map_append, List.map_cons, toLower_gap hc,
    Text.infix_append_cons_iff (forbiddenWords_gapless word hword c hc)] at h
  exact h.elim (hv word hword) (hw word hword)

/-- The characters of numbers, in small letters. -/
def isNumeral (c : Char) : Bool := Decimal.isDigit c || c = '.' || c = 'e' || c = '+' || c = '-'

lemma hasForbiddenWord_numeral (h : ∀ c ∈ w, isNumeral c.toLower = true) :
    hasForbiddenWord (String.ofList w) = false := by
  have hwords : (forbiddenWords.all fun word => word.toList.any fun d => !isNumeral d) = true := by decide
  simp only [List.all_eq_true, List.any_eq_true, Bool.not_eq_true'] at hwords
  simp only [hasForbiddenWord, String.toList_ofList, List.any_eq_false, Text.occursIn_iff]
  intro word hword hpart
  obtain ⟨d, hd, hnot⟩ := hwords word hword
  obtain ⟨c, hc, rfl⟩ := List.mem_map.mp (hpart.subset hd)
  rw [h c hc] at hnot
  cases hnot

/-! ### Parts of texts that the check finds no fault with -/

/-- The check sees nothing but allowed words, and an `e` just where a number has its exponent after one. -/
structure Readable (w : List Char) : Prop where
  permitted : hasForbiddenWord (String.ofList w) = false
  known : ∀ t ∈ tokens (String.ofList w), t ∈ allowedTokens ∨ t = "e"
  marked : "e" ∈ tokens (String.ofList w) ↔ HasSmallExponent w

lemma readable_of_no_tokens (hwords : hasForbiddenWord (String.ofList w) = false)
    (htokens : tokens (String.ofList w) = []) (he : 'e' ∉ w) : Readable w where
  permitted := hwords
  known := by simp [htokens]
  marked := by
    rw [htokens]
    exact ⟨nofun, fun h => absurd h.mem he⟩

lemma readable_allowed {x : String} (hx : x ∈ allowedTokens) : Readable x.toList := by
  have h : (allowedTokens.all fun x => tokens x = [x] && !hasForbiddenWord x && x != "e" &&
      x.toList.all fun d => !Decimal.isDigit d && d != '.') = true := by decide
  have hall := List.all_eq_true.mp h x hx
  simp only [Bool.and_eq_true, decide_eq_true_eq, Bool.not_eq_true', bne_iff_ne, List.all_eq_true] at hall
  obtain ⟨⟨⟨htokens, hwords⟩, hne⟩, hplain⟩ := hall
  refine ⟨by rwa [String.ofList_toList], ?_, ?_⟩
  · rw [String.ofList_toList, htokens]
    exact fun t ht => .inl (List.mem_singleton.mp ht ▸ hx)
  · rw [String.ofList_toList, htokens]
    refine ⟨fun hmem => absurd (List.mem_singleton.mp hmem).symm hne, ?_⟩
    rintro ⟨c, hc, hpart⟩
    obtain ⟨hdigit, hpoint⟩ := hplain c (hpart.subset (by simp))
    rcases hc with hc | hc
    · rw [hdigit] at hc
      cases hc
    · exact absurd hc hpoint

/-! ### Numbers -/

/-- The characters of numbers that are no letters. -/
def IsFigure (c : Char) : Prop := Decimal.isDigit c = true ∨ c = '.' ∨ c = '+' ∨ c = '-'

lemma isFigure_mantissa {l : Decimal.Literal} (hwhole : Digits l.whole) (hfraction : Digits (l.fraction.getD [])) :
    ∀ c ∈ l.whole ++ fractionText l.fraction, Decimal.isDigit c = true ∨ c = '.' := by
  intro c hc
  rcases List.mem_append.mp hc with hc | hc
  · exact .inl (hwhole c hc)
  · cases hl : l.fraction with
    | none =>
      rw [hl] at hc
      cases hc
    | some digits =>
      rw [hl] at hc hfraction
      rcases List.mem_cons.mp hc with hc | hc
      · exact .inr hc
      · exact .inl (hfraction c hc)

namespace IsFigure

variable {c : Char}

lemma isTokenChar_eq (h : IsFigure c) : isTokenChar c = false := by
  rcases h with h | rfl | rfl | rfl
  · obtain ⟨-, hnine⟩ := Bool.and_eq_true_iff.mp h
    have hle : c.toNat ≤ 57 := UInt32.le_iff_toNat_le.mp (of_decide_eq_true hnine)
    rw [Bool.eq_false_iff]
    intro ht
    simp only [isTokenChar, Char.isAlpha, Char.isUpper, Char.isLower, Bool.or_eq_true, decide_eq_true_eq] at ht
    rcases ht with (ht | ht) | rfl
    · have : 65 ≤ c.toNat := UInt32.le_iff_toNat_le.mp ht.1
      omega
    · have : 97 ≤ c.toNat := UInt32.le_iff_toNat_le.mp (of_decide_eq_true (Bool.and_eq_true_iff.mp ht).1)
      omega
    · exact absurd hle (by decide)
  · decide
  · decide
  · decide

lemma ne_e (h : IsFigure c) : c ≠ 'e' := by
  rintro rfl
  exact absurd h.isTokenChar_eq (by decide)

lemma isNumeral_toLower (h : IsFigure c) : isNumeral c.toLower = true := by
  have hlower : c.toLower = c := by
    refine Char.toLower_eq_of_not_isUpper ?_
    have := h.isTokenChar_eq
    simp only [isTokenChar, Char.isAlpha, Bool.or_eq_false_iff] at this
    simp [this.1.1]
  rw [hlower, isNumeral]
  rcases h with h | rfl | rfl | rfl
  · simp [h]
  · decide
  · decide
  · decide

end IsFigure

lemma readable_figures (h : ∀ c ∈ w, IsFigure c) : Readable w := by
  refine readable_of_no_tokens (hasForbiddenWord_numeral fun c hc => (h c hc).isNumeral_toLower) ?_
    fun he => (h _ he).ne_e rfl
  rw [tokens, Text.runs, String.toList_ofList, Text.runsFrom_none fun c hc => (h c hc).isTokenChar_eq]
  rfl

/-- The letter before an exponent is a word for the check, the only one in the number. -/
lemma readable_exponent {m k : List Char} {e : Char} (hne : m ≠ []) (hm : ∀ c ∈ m, Decimal.isDigit c = true ∨ c = '.')
    (he : e = 'e' ∨ e = 'E') (hk : ∀ c ∈ k, IsFigure c) : Readable (m ++ e :: k) := by
  have hfigures (c : Char) (hc : c ∈ m) : IsFigure c := (hm c hc).imp_right .inl
  have htokens : tokens (String.ofList (m ++ e :: k)) = [String.ofList [e]] := by
    rw [tokens, Text.runs, String.toList_ofList]
    refine Text.runsFrom_isolated (fun c hc => (hfigures c hc).isTokenChar_eq) ?_ fun c hc => (hk c hc).isTokenChar_eq
    rcases he with rfl | rfl <;> decide
  have hwords : hasForbiddenWord (String.ofList (m ++ e :: k)) = false := by
    refine hasForbiddenWord_numeral fun c hc => ?_
    rcases List.mem_append.mp hc with hc | hc
    · exact (hfigures c hc).isNumeral_toLower
    · rcases List.mem_cons.mp hc with rfl | hc
      · rcases he with rfl | rfl <;> decide
      · exact (hk c hc).isNumeral_toLower
  rcases he with rfl | rfl
  · have hsmall : HasSmallExponent (m ++ 'e' :: k) := by
      refine ⟨m.getLast hne, hm _ (List.getLast_mem hne), m.dropLast, k, ?_⟩
      conv_rhs => rw [← List.dropLast_append_getLast hne]
      simp
    exact ⟨hwords, by rw [htokens]; decide, by rw [htokens]; exact ⟨fun _ => hsmall, fun _ => by decide⟩⟩
  · have hnone : 'e' ∉ m ++ 'E' :: k := by
      intro hmem
      rcases List.mem_append.mp hmem with hmem | hmem
      · exact (hfigures _ hmem).ne_e rfl
      · rcases List.mem_cons.mp hmem with h | hmem
        · exact absurd h (by decide)
        · exact (hk _ hmem).ne_e rfl
    refine ⟨hwords, by rw [htokens]; decide, ?_⟩
    rw [htokens]
    exact ⟨fun h => absurd h (by decide), fun h => absurd h.mem hnone⟩

lemma readable_number (l : Decimal.Literal) (w : List Char) (h : NumberText l w) : Readable w := by
  obtain ⟨x, rfl, hwhole, hfraction, hne, hx⟩ := h
  rw [← List.append_assoc]
  have hmantissa := isFigure_mantissa hwhole hfraction
  have hnonempty : l.whole ++ fractionText l.fraction ≠ [] := by
    rcases hne with hne | hne
    · exact List.append_ne_nil_of_left_ne_nil hne _
    · cases hl : l.fraction with
      | none =>
        rw [hl] at hne
        exact absurd rfl hne
      | some digits => exact List.append_ne_nil_of_right_ne_nil _ (List.cons_ne_nil _ _)
  cases hl : l.exponent with
  | none =>
    rw [hl] at hx
    rw [hx, List.append_nil]
    exact readable_figures fun c hc => (hmantissa c hc).imp_right .inl
  | some k =>
    rw [hl] at hx
    obtain ⟨e, sign, digits, rfl, he, -, hdigits, hsign⟩ := hx
    refine readable_exponent hnonempty hmantissa he fun c hc => ?_
    rcases List.mem_append.mp hc with hc | hc
    · rcases hsign with ⟨rfl | rfl, -⟩ | ⟨rfl, -⟩
      · cases hc
      · exact .inr (.inr (.inl (List.mem_singleton.mp hc)))
      · exact .inr (.inr (.inr (List.mem_singleton.mp hc)))
    · exact .inl (hdigits c hc)

/-! ### Whole texts -/

lemma joins_readable : Joins Readable where
  nil := readable_figures nofun
  number := readable_number
  join {v c w} hc hv hw := by
    refine ⟨hasForbiddenWord_join hc hv.permitted hw.permitted, ?_, ?_⟩
    · rw [tokens_cut hc.1]
      exact List.forall_mem_append.mpr ⟨hv.known, hw.known⟩
    · rw [tokens_cut hc.1, List.mem_append, hasSmallExponent_join hc]
      exact or_congr hv.marked hw.marked

lemma Readable.check (h : Readable text.toList) (hsize : text.utf8ByteSize ≤ limit) :
    (checkExpression limit text = .ok () ↔ ¬ HasSmallExponent text.toList) ∧
      (checkExpression limit text = .error (.unknownToken "e") ↔ HasSmallExponent text.toList) := by
  obtain ⟨hwords, hknown, hmarked⟩ := h
  rw [String.ofList_toList] at hwords hknown hmarked
  have he : "e" ∉ allowedTokens := by decide
  have hfind : (tokens text).find? (fun token => !allowedTokens.contains token) = none ∧ "e" ∉ tokens text ∨
      (tokens text).find? (fun token => !allowedTokens.contains token) = some "e" ∧ "e" ∈ tokens text := by
    cases hf : (tokens text).find? fun token => !allowedTokens.contains token with
    | none =>
      refine .inl ⟨rfl, fun hmem => ?_⟩
      have := List.find?_eq_none.mp hf "e" hmem
      simp [he] at this
    | some t =>
      have hmem := List.mem_of_find?_eq_some hf
      have hnot := List.find?_some hf
      obtain rfl : t = "e" := (hknown t hmem).resolve_left (by simpa using hnot)
      exact .inr ⟨rfl, hmem⟩
  unfold checkExpression
  rw [if_neg (by omega), if_neg (by simp [hwords]), ← hmarked]
  rcases hfind with ⟨hf, hmem⟩ | ⟨hf, hmem⟩
  · rw [hf]
    simp [hmem]
  · rw [hf]
    simp [hmem]

/-- A formula or an equation of allowed length whose names are all allowed passes the check exactly when none of its numbers
has its exponent after a small `e`. Otherwise that letter is the word that is complained of. -/
theorem checkExpression_of_allowed_names (limit : Nat) (text : String) (hsize : text.utf8ByteSize ≤ limit)
    (h : (∃ s, parse text = .ok s ∧ ∀ x ∈ s.names, x ∈ allowedTokens) ∨
      ∃ l r, parseEquation text = .ok (l, r) ∧ ∀ x ∈ l.names ++ r.names, x ∈ allowedTokens) :
    (checkExpression limit text = .ok () ↔ ¬ HasSmallExponent text.toList) ∧
      (checkExpression limit text = .error (.unknownToken "e") ↔ HasSmallExponent text.toList) := by
  refine Readable.check ?_ hsize
  rcases h with ⟨s, hs, hnames⟩ | ⟨l, r, hsides, hnames⟩
  · exact ((parse_eq_ok_iff text s).mp hs).text_holds joins_readable fun x hx => readable_allowed (hnames x hx)
  · obtain ⟨hl, hr⟩ := List.forall_mem_append.mp hnames
    exact ((parseEquation_eq_ok_iff text).mp hsides).text_holds joins_readable
      (fun x hx => readable_allowed (hl x hx)) fun x hx => readable_allowed (hr x hx)

/-- With a capital the exponent passes, with a small letter it does not. -/
theorem checkExpression_exponents : checkExpression 500 "1E5*x = .5E-3" = .ok () ∧
    checkExpression 500 "1e5*x" = .error (.unknownToken "e") := by
  have hcapital : ∃ l r, parseEquation "1E5*x = .5E-3" = .ok (l, r) ∧ ∀ x ∈ l.names ++ r.names, x ∈ allowedTokens :=
    ⟨_, _, by cbv, by decide⟩
  have hsmall : ∃ s, parse "1e5*x" = .ok s ∧ ∀ x ∈ s.names, x ∈ allowedTokens := ⟨_, by cbv, by decide⟩
  have hnone : ¬ HasSmallExponent "1E5*x = .5E-3".toList := fun h => absurd h.mem (by decide)
  have hsome : HasSmallExponent "1e5*x".toList := ⟨'1', .inl (by decide), [], ['5', '*', 'x'], by decide⟩
  exact ⟨(checkExpression_of_allowed_names 500 _ (by decide) (.inr hcapital)).1.mpr hnone,
    (checkExpression_of_allowed_names 500 _ (by decide) (.inl hsmall)).2.mpr hsome⟩

end Validation

end PlaneCalculus
