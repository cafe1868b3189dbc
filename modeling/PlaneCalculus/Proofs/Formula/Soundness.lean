import PlaneCalculus.Proofs.Formula.Tokens

/-! What the readers accept, the grammar derives. -/

namespace PlaneCalculus.Formula

open Reply

/-- The text read at one depth is derived by the tree returned. A chain is continued from a tree that has been read. -/
structure Sound (n : Nat) : Prop where
  sum : ∀ {c s c'}, (sum n c).result = some (s, c') → ∃ w, s.Derives w ∧ c.rest = w ++ c'.rest
  sumChain : ∀ {s c s' c' w₀}, (sumChain n s c).result = some (s', c') → s.Derives w₀ →
    ∃ w, s'.Derives (w₀ ++ w) ∧ c.rest = w ++ c'.rest
  product : ∀ {c p c'}, (product n c).result = some (p, c') → ∃ w, p.Derives w ∧ c.rest = w ++ c'.rest
  productChain : ∀ {p c p' c' w₀}, (productChain n p c).result = some (p', c') → p.Derives w₀ →
    ∃ w, p'.Derives (w₀ ++ w) ∧ c.rest = w ++ c'.rest
  signed : ∀ {c u c'}, (signed n c).result = some (u, c') → ∃ w, u.Derives w ∧ c.rest = w ++ c'.rest
  power : ∀ {c p c'}, (power n c).result = some (p, c') → ∃ w, p.Derives w ∧ c.rest = w ++ c'.rest
  atom : ∀ {c a c'}, (atom n c).result = some (a, c') → ∃ w, a.Derives w ∧ c.rest = w ++ c'.rest
  group : ∀ {c s c'}, (group n c).result = some (s, c') → ∃ g₁ w g₂, Blank g₁ ∧ s.Derives w ∧ Blank g₂ ∧
    c.rest = '(' :: (g₁ ++ (w ++ (g₂ ++ ')' :: c'.rest)))

variable {n : Nat} (hs : Sound n)
include hs

lemma sum_sound {c c' : Cursor} {s : SumForm} (h : (sum (n + 1) c).result = some (s, c')) :
    ∃ w, s.Derives w ∧ c.rest = w ++ c'.rest := by
  obtain ⟨t, d, ht, h⟩ := andThen_eq_some.mp h
  obtain ⟨w, hw, hc⟩ := hs.product ht
  obtain ⟨w', hw', hd⟩ := hs.sumChain h hw
  exact ⟨w ++ w', hw', by rw [hc, hd, List.append_assoc]⟩

lemma sumChain_sound {c c' : Cursor} {s s' : SumForm} {w₀ : List Char}
    (h : (sumChain (n + 1) s c).result = some (s', c')) (hw₀ : s.Derives w₀) :
    ∃ w, s'.Derives (w₀ ++ w) ∧ c.rest = w ++ c'.rest := by
  simp only [sumChain] at h
  split at h
  · cases h
    exact ⟨[], by rwa [List.append_nil], rfl⟩
  · next op t after hnext =>
    obtain ⟨op', d, hop, hnext⟩ := andThen_eq_some.mp hnext
    obtain ⟨t', d', ht, hnext⟩ := andThen_eq_some.mp hnext
    cases hnext
    obtain ⟨g₁, hg₁, hc⟩ := skip_spec c
    obtain ⟨g₂, hg₂, hd⟩ := skip_spec d
    obtain ⟨w, hw, hd'⟩ := hs.product ht
    have hsign := sign_sound hop
    have hstep : (SumForm.chain s op t).Derives (w₀ ++ (g₁ ++ op.char :: (g₂ ++ w))) :=
      ⟨w₀, g₁, g₂, w, rfl, hw₀, hg₁, hg₂, hw⟩
    obtain ⟨w', hw', hrest⟩ := hs.sumChain h hstep
    refine ⟨g₁ ++ op.char :: (g₂ ++ w) ++ w', by rwa [← List.append_assoc], ?_⟩
    rw [hc, hsign, hd, hd', hrest]
    simp

lemma product_sound {c c' : Cursor} {p : ProductForm} (h : (product (n + 1) c).result = some (p, c')) :
    ∃ w, p.Derives w ∧ c.rest = w ++ c'.rest := by
  obtain ⟨u, d, hu, h⟩ := andThen_eq_some.mp h
  obtain ⟨w, hw, hc⟩ := hs.signed hu
  obtain ⟨w', hw', hd⟩ := hs.productChain h hw
  exact ⟨w ++ w', hw', by rw [hc, hd, List.append_assoc]⟩

lemma productChain_sound {c c' : Cursor} {p p' : ProductForm} {w₀ : List Char}
    (h : (productChain (n + 1) p c).result = some (p', c')) (hw₀ : p.Derives w₀) :
    ∃ w, p'.Derives (w₀ ++ w) ∧ c.rest = w ++ c'.rest := by
  simp only [productChain] at h
  split at h
  · cases h
    exact ⟨[], by rwa [List.append_nil], rfl⟩
  · next op u after hnext =>
    obtain ⟨op', d, hop, hnext⟩ := andThen_eq_some.mp hnext
    obtain ⟨u', d', hu, hnext⟩ := andThen_eq_some.mp hnext
    cases hnext
    obtain ⟨g₁, hg₁, hc⟩ := skip_spec c
    obtain ⟨g₂, hg₂, hd⟩ := skip_spec d
    obtain ⟨w, hw, hd'⟩ := hs.signed hu
    have hmark := factoring_sound hop
    have hstep : (ProductForm.chain p op u).Derives (w₀ ++ (g₁ ++ op.char :: (g₂ ++ w))) :=
      ⟨w₀, g₁, g₂, w, rfl, hw₀, hg₁, hg₂, hw⟩
    obtain ⟨w', hw', hrest⟩ := hs.productChain h hstep
    refine ⟨g₁ ++ op.char :: (g₂ ++ w) ++ w', by rwa [← List.append_assoc], ?_⟩
    rw [hc, hmark, hd, hd', hrest]
    simp

lemma signed_sound {c c' : Cursor} {u : SignedForm} (h : (signed (n + 1) c).result = some (u, c')) :
    ∃ w, u.Derives w ∧ c.rest = w ++ c'.rest := by
  simp only [signed] at h
  split at h
  · next op after hop =>
    obtain ⟨u', d, hu, h⟩ := andThen_eq_some.mp h
    cases h
    obtain ⟨g, hg, hafter⟩ := skip_spec after
    obtain ⟨w, hw, hd⟩ := hs.signed hu
    refine ⟨op.char :: (g ++ w), ⟨g, w, rfl, hg, hw⟩, ?_⟩
    rw [sign_sound hop, hafter, hd]
    simp
  · obtain ⟨p, d, hp, h⟩ := andThen_eq_some.mp h
    cases h
    exact hs.power hp

lemma power_sound {c c' : Cursor} {p : PowerForm} (h : (power (n + 1) c).result = some (p, c')) :
    ∃ w, p.Derives w ∧ c.rest = w ++ c'.rest := by
  obtain ⟨a, d, ha, h⟩ := andThen_eq_some.mp h
  obtain ⟨w, hw, hc⟩ := hs.atom ha
  dsimp only at h
  split at h
  · next u after hu =>
    cases h
    obtain ⟨_, e, hmark, hu⟩ := andThen_eq_some.mp hu
    obtain ⟨g₁, hg₁, hd⟩ := skip_spec d
    obtain ⟨op, hop, hmark⟩ := powerSign_sound hmark
    obtain ⟨g₂, hg₂, he⟩ := skip_spec e
    obtain ⟨w', hw', hrest⟩ := hs.signed hu
    refine ⟨w ++ (g₁ ++ (op ++ (g₂ ++ w'))), ⟨w, g₁, op, g₂, w', rfl, hw, hg₁, hop, hg₂, hw'⟩, ?_⟩
    rw [hc, hd, hmark, he, hrest]
    simp
  · cases h
    exact ⟨w, hw, hc⟩

lemma atom_sound {c c' : Cursor} {a : AtomForm} (h : (atom (n + 1) c).result = some (a, c')) :
    ∃ w, a.Derives w ∧ c.rest = w ++ c'.rest := by
  simp only [atom, result_orElse, Option.or_eq_some_iff] at h
  rcases h with h | ⟨-, h | ⟨-, h | ⟨-, h⟩⟩⟩
  · obtain ⟨l, d, hl, h⟩ := andThen_eq_some.mp h
    cases h
    exact number_sound hl
  · obtain ⟨f, d, hf, h⟩ := andThen_eq_some.mp h
    obtain ⟨s, d', hgroup, h⟩ := andThen_eq_some.mp h
    cases h
    obtain ⟨hname, hc⟩ := name_sound hf
    obtain ⟨g, hg, hd⟩ := skip_spec d
    obtain ⟨g₁, w, g₂, hg₁, hw, hg₂, hrest⟩ := hs.group hgroup
    refine ⟨_, ⟨g, g₁, w, g₂, rfl, hname, hg, hg₁, hw, hg₂⟩, ?_⟩
    rw [hc, hd, hrest]
    simp
  · obtain ⟨x, d, hx, h⟩ := andThen_eq_some.mp h
    cases h
    obtain ⟨hname, hc⟩ := name_sound hx
    exact ⟨_, ⟨rfl, hname⟩, hc⟩
  · obtain ⟨s, d, hgroup, h⟩ := andThen_eq_some.mp h
    cases h
    obtain ⟨g₁, w, g₂, hg₁, hw, hg₂, hrest⟩ := hs.group hgroup
    refine ⟨_, ⟨g₁, w, g₂, rfl, hg₁, hw, hg₂⟩, ?_⟩
    rw [hrest]
    simp

lemma group_sound {c c' : Cursor} {s : SumForm} (h : (group (n + 1) c).result = some (s, c')) :
    ∃ g₁ w g₂, Blank g₁ ∧ s.Derives w ∧ Blank g₂ ∧ c.rest = '(' :: (g₁ ++ (w ++ (g₂ ++ ')' :: c'.rest))) := by
  obtain ⟨_, d, hopen, h⟩ := andThen_eq_some.mp h
  obtain ⟨s', e, hsum, h⟩ := andThen_eq_some.mp h
  obtain ⟨_, f, hclose, h⟩ := andThen_eq_some.mp h
  cases h
  obtain ⟨g₁, hg₁, hd⟩ := skip_spec d
  obtain ⟨w, hw, hrest⟩ := hs.sum hsum
  obtain ⟨g₂, hg₂, he⟩ := skip_spec e
  refine ⟨g₁, w, g₂, hg₁, hw, hg₂, ?_⟩
  rw [mark_sound hopen, hd, hrest, he, mark_sound hclose]

omit hs in
lemma sound_at (n : Nat) : Sound n := by
  induction n with
  | zero =>
    exact ⟨fun h => (nomatch h), fun h => (nomatch h), fun h => (nomatch h), fun h => (nomatch h),
      fun h => (nomatch h), fun h => (nomatch h), fun h => (nomatch h), fun h => (nomatch h)⟩
  | succ n ih =>
    exact ⟨sum_sound ih, sumChain_sound ih, product_sound ih, productChain_sound ih, signed_sound ih, power_sound ih,
      atom_sound ih, group_sound ih⟩

omit hs in
lemma whole_sound {text : List Char} {s : SumForm} {c : Cursor} (h : (whole text).result = some (s, c)) :
    Sentence s text := by
  obtain ⟨s', d, hsum, h⟩ := andThen_eq_some.mp h
  obtain ⟨_, e, hend, h⟩ := andThen_eq_some.mp h
  cases h
  obtain ⟨g₁, hg₁, htext⟩ := skip_spec ⟨0, text⟩
  obtain ⟨w, hw, hrest⟩ := (sound_at _).sum hsum
  obtain ⟨g₂, hg₂, hd⟩ := skip_spec d
  refine ⟨g₁, w, g₂, ?_, hg₁, hw, hg₂⟩
  rw [show text = _ from htext, hrest, hd, finish_sound hend, List.append_nil]

omit hs in
/-- An equation is a sentence, a mark and a sentence. -/
lemma equation_sound {text : List Char} {l r : SumForm} {c : Cursor} (h : (equation text).result = some ((l, r), c)) :
    ∃ v w, text = v ++ '=' :: w ∧ Sentence l v ∧ Sentence r w := by
  obtain ⟨l', d, hleft, h⟩ := andThen_eq_some.mp h
  obtain ⟨_, e, hmark, h⟩ := andThen_eq_some.mp h
  obtain ⟨r', f, hright, h⟩ := andThen_eq_some.mp h
  obtain ⟨_, c', hend, h⟩ := andThen_eq_some.mp h
  cases h
  obtain ⟨g₁, hg₁, htext⟩ := skip_spec ⟨0, text⟩
  obtain ⟨v, hv, hd⟩ := (sound_at _).sum hleft
  obtain ⟨g₂, hg₂, hd'⟩ := skip_spec d
  obtain ⟨g₃, hg₃, he⟩ := skip_spec e
  obtain ⟨w, hw, hf⟩ := (sound_at _).sum hright
  obtain ⟨g₄, hg₄, hf'⟩ := skip_spec f
  refine ⟨g₁ ++ (v ++ g₂), g₃ ++ (w ++ g₄), ?_, ⟨g₁, v, g₂, rfl, hg₁, hv, hg₂⟩, ⟨g₃, w, g₄, rfl, hg₃, hw, hg₄⟩⟩
  rw [show text = _ from htext, hd, hd', mark_sound hmark, he, hf, hf', finish_sound hend]
  simp

end PlaneCalculus.Formula
