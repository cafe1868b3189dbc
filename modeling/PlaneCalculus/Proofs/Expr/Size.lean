import Mathlib.Algebra.Order.BigOperators.Group.List
import Mathlib.Tactic.Linarith
import PlaneCalculus.Expr.Size
import PlaneCalculus.Expr.SpecialValues

/-! How the sizes of an expression compare with each other and with those of its parts. -/

namespace PlaneCalculus.Expr

@[simp] lemma size_num (n : Number) : (num n).size = ⟨2, 0, 0, 1⟩ := rfl

@[simp] lemma size_int (n : Int) : (int n).size = ⟨2, 0, 0, 1⟩ := rfl

lemma termsSize_eq (es : List Expr) : termsSize es = (es.map fun e => e.size.product + 1).sum := by
  induction es with
  | nil => rfl
  | cons e es ih => simp [termsSize, ih]

lemma factorsSize_eq (es : List Expr) : factorsSize es = (es.map fun e => e.size.factor).sum := by
  induction es with
  | nil => rfl
  | cons e es ih => simp [factorsSize, ih]

lemma basesSize_eq (es : List Expr) : basesSize es = (es.map fun e => e.size.base + 1).sum := by
  induction es with
  | nil => rfl
  | cons e es ih => simp [basesSize, ih]

lemma sumSize_eq (es : List Expr) : sumSize es = (es.map fun e => e.size.sum).sum := by
  induction es with
  | nil => rfl
  | cons e es ih => simp [sumSize, ih]

lemma productSize_eq (es : List Expr) : productSize es = (es.map fun e => e.size.product).sum := by
  induction es with
  | nil => rfl
  | cons e es ih => simp [productSize, ih]

lemma sum_pos (e : Expr) : 1 ≤ e.size.sum := by
  cases e with
  | num | symbol | constant | call => simp [size, Size.atom]
  | plus ts => simp only [size]; omega
  | times fs => simp only [size]; omega
  | power b x => simp only [size]; omega

lemma two_le_base : (e : Expr) → 2 ≤ e.size.base
  | .num _ | .symbol _ | .constant _ | .call _ _ => by simp [size, Size.atom]
  | .plus ts => by simp only [size]; omega
  | .times fs => by simp only [size]; omega
  | .power b x => by
    have hm := Nat.mul_le_mul (two_le_base b) (sum_pos x)
    simp only [size]
    omega

lemma sum_le_base_mul (b e : Expr) : 2 * e.size.sum ≤ b.size.base * e.size.sum :=
  Nat.mul_le_mul_right _ (two_le_base b)

lemma base_le_base_mul (b e : Expr) : b.size.base ≤ b.size.base * e.size.sum :=
  Nat.le_mul_of_pos_right _ (sum_pos e)

lemma sum_le (e : Expr) : e.size.sum ≤ e.size.product + 1 := by
  cases e with
  | num | symbol | constant | call => simp [size, Size.atom]
  | plus ts => simp only [size]; omega
  | times fs => simp only [size]; omega
  | power b x => simp only [size]; omega

lemma product_le_sum (e : Expr) : e.size.product ≤ e.size.sum + 2 := by
  cases e with
  | num | symbol | constant | call => simp [size, Size.atom]
  | plus ts => simp only [size]; omega
  | times fs => simp only [size]; omega
  | power b x => simp only [size]; omega

lemma product_le_two_mul_sum (e : Expr) : e.size.product ≤ 2 * e.size.sum := by
  cases e with
  | num | symbol | constant | call => simp only [size, Size.atom]; omega
  | plus ts => simp only [size]; omega
  | times fs => simp only [size]; omega
  | power b x => simp only [size]; omega

lemma factor_eq {e : Expr} (h : e.isNumber = false) :
    e.size.factor = e.baseExponent.1.size.base * e.baseExponent.2.size.sum + 1 := by
  cases e with
  | num => simp [isNumber] at h
  | symbol | constant | call | plus | times | power => simp [size, Size.atom, baseExponent]

lemma three_le_factor {e : Expr} (h : e.isNumber = false) : 3 ≤ e.size.factor := by
  have hm := base_le_base_mul e.baseExponent.1 e.baseExponent.2
  have hb := two_le_base e.baseExponent.1
  rw [factor_eq h]
  omega

lemma factorsSize_le_basesSize (fs : List Expr) (h : ∀ f ∈ fs, f.size.factor ≤ f.size.base + 1) :
    factorsSize fs ≤ basesSize fs := by
  rw [factorsSize_eq, basesSize_eq]
  exact List.sum_le_sum h

lemma factor_le_base (e : Expr) : e.size.factor ≤ e.size.base + 1 := by
  cases e with
  | num | symbol | constant | call => simp [size, Size.atom]
  | plus ts => simp only [size]; omega
  | times fs => simp only [size]; omega
  | power b x => simp only [size]; omega

lemma product_le_factor (e : Expr) : e.size.product ≤ e.size.factor := by
  cases e with
  | num | symbol | constant | call | plus | power => simp [size, Size.atom]
  | times fs =>
    have h := factorsSize_le_basesSize fs fun f _ => factor_le_base f
    simp only [size]
    omega

lemma product_le_base (e : Expr) : e.size.product ≤ e.size.base + 1 :=
  (product_le_factor e).trans (factor_le_base e)

lemma termsSize_append (as bs : List Expr) : termsSize (as ++ bs) = termsSize as + termsSize bs := by
  simp [termsSize_eq]

lemma factorsSize_append (as bs : List Expr) : factorsSize (as ++ bs) = factorsSize as + factorsSize bs := by
  simp [factorsSize_eq]

lemma termsSize_perm {as bs : List Expr} (h : as.Perm bs) : termsSize as = termsSize bs := by
  rw [termsSize_eq, termsSize_eq]
  exact (h.map _).sum_eq

lemma factorsSize_perm {as bs : List Expr} (h : as.Perm bs) : factorsSize as = factorsSize bs := by
  rw [factorsSize_eq, factorsSize_eq]
  exact (h.map _).sum_eq

lemma product_le_termsSize {e : Expr} {es : List Expr} (h : e ∈ es) : e.size.product + 1 ≤ termsSize es := by
  rw [termsSize_eq]
  exact List.single_le_sum (fun _ _ => Nat.zero_le _) _ (List.mem_map_of_mem h)

lemma factor_le_factorsSize {e : Expr} {es : List Expr} (h : e ∈ es) : e.size.factor ≤ factorsSize es := by
  rw [factorsSize_eq]
  exact List.single_le_sum (fun _ _ => Nat.zero_le _) _ (List.mem_map_of_mem h)

lemma base_le_basesSize {e : Expr} {es : List Expr} (h : e ∈ es) : e.size.base + 1 ≤ basesSize es := by
  rw [basesSize_eq]
  exact List.single_le_sum (fun _ _ => Nat.zero_le _) _ (List.mem_map_of_mem h)

lemma termsSize_flatten (args : List Expr) : termsSize (args.flatMap terms) ≤ sumSize args := by
  induction args with
  | nil => exact Nat.le_refl _
  | cons e es ih =>
    have he : termsSize e.terms ≤ e.size.sum := by
      cases e with
      | num | symbol | constant | call | times | power => simp [terms, termsSize, size, Size.atom]
      | plus ts => simp only [terms, size]; omega
    simp only [sumSize, List.flatMap_cons, termsSize_append] at ih ⊢
    omega

lemma factorsSize_flatten (args : List Expr) : factorsSize (args.flatMap factors) = productSize args := by
  induction args with
  | nil => rfl
  | cons e es ih =>
    have he : factorsSize e.factors = e.size.product := by
      cases e with
      | num | symbol | constant | call | times | power | plus => simp [factors, factorsSize, size, Size.atom]
    simp only [productSize, List.flatMap_cons, factorsSize_append] at ih ⊢
    omega

lemma coeffRest_product_le (e : Expr) : e.coeffRest.2.size.product ≤ e.size.product := by
  unfold coeffRest
  split
  · next c e => simpa [size, factorsSize] using product_le_factor e
  · simp [size, factorsSize]
  · simp
  · exact Nat.le_refl _

mutual

lemma size_eq_of_same : (a b : Expr) → same a b = true → a.size = b.size
  | .num _, b, h => by cases b <;> simp_all [same]
  | .symbol _, b, h => by cases b <;> simp_all [same, size]
  | .constant _, b, h => by cases b <;> simp_all [same, size]
  | .plus as, .plus bs, h => by
    simp only [same] at h
    simp only [size, (sizes_eq_of_sameAll as bs h).1]
  | .times as, .times bs, h => by
    simp only [same] at h
    simp only [size, (sizes_eq_of_sameAll as bs h).2]
  | .power a x, .power b y, h => by
    simp only [same, Bool.and_eq_true] at h
    simp only [size, size_eq_of_same a b h.1, size_eq_of_same x y h.2]
  | .call f a, .call g b, h => by
    simp only [same, Bool.and_eq_true] at h
    simp only [size, size_eq_of_same a b h.2]
  | .plus _, .num _, h | .plus _, .symbol _, h | .plus _, .constant _, h | .plus _, .times _, h
  | .plus _, .power _ _, h | .plus _, .call _ _, h | .times _, .num _, h | .times _, .symbol _, h
  | .times _, .constant _, h | .times _, .plus _, h | .times _, .power _ _, h | .times _, .call _ _, h
  | .power _ _, .num _, h | .power _ _, .symbol _, h | .power _ _, .constant _, h | .power _ _, .plus _, h
  | .power _ _, .times _, h | .power _ _, .call _ _, h | .call _ _, .num _, h | .call _ _, .symbol _, h
  | .call _ _, .constant _, h | .call _ _, .plus _, h | .call _ _, .times _, h | .call _ _, .power _ _, h => by
    simp [same] at h

lemma sizes_eq_of_sameAll : (as bs : List Expr) → sameAll as bs = true →
    termsSize as = termsSize bs ∧ factorsSize as = factorsSize bs ∧ basesSize as = basesSize bs
  | [], [], _ => ⟨rfl, rfl, rfl⟩
  | [], _ :: _, h | _ :: _, [], h => by simp [sameAll] at h
  | a :: as, b :: bs, h => by
    simp only [sameAll, Bool.and_eq_true] at h
    have he := size_eq_of_same a b h.1
    have hs := sizes_eq_of_sameAll as bs h.2
    simp only [termsSize, factorsSize, basesSize, he, hs, and_self]

end

end PlaneCalculus.Expr
