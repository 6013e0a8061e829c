import VortexGpu.SparseTensor

/-!
# Structured sparsity in one group

What pruning keeps of four elements, what compression makes of them, and what the magnitudes that
are compared have to do with those that the elements represent. For the integer and the 16-bit
types they are the same. For the 8-bit and 4-bit floats and tf32 the code is compared as a number
with its sign bit, so a negative element beats every other one.
-/

namespace VortexGpu.Tensor
open Bool (eq_not_iff not_eq_true)
open Magnitude Option DyadicRounding FloatFormat Nat List

def ElemType.codeBits : ElemType → ℕ
  | .tf32 => 19
  | T => T.bits

def repMagnitude (T : ElemType) (c : ℕ) : Magnitude :=
  match T with
  | .int8 => ofNat (signedAbs 8 c)
  | .uint8 => ofNat c
  | .int4 => ofNat (signedAbs 4 c)
  | .uint4 => ofNat c
  | .fp16 => ofValue (ieeeValue 5 10 c)
  | .bf16 => ofValue (ieeeValue 8 7 c)
  | .fp8 => ofValue (SoftFloat.customValue 4 3 c)
  | .mxfp8 => ofValue (SoftFloat.customValue 4 3 c)
  | .bf8 => ofValue (ieeeValue 5 2 c)
  | .mxbf8 => ofValue (ieeeValue 5 2 c)
  | .tf32 => ofValue (ieeeValue 8 10 c)
  | .mxfp4 => some (magnitude 2 1 (c % 8) : ℚ)
  | .nvfp4 => some (magnitude 2 1 (c % 8) : ℚ)

def ElemType.comparesCodes : ElemType → Bool
  | .fp8 => true
  | .bf8 => true
  | .mxfp8 => true
  | .mxbf8 => true
  | .tf32 => true
  | .mxfp4 => true
  | .nvfp4 => true
  | _ => false

def negative (T : ElemType) (c : ℕ) : Bool := decide (2 ^ (T.codeBits - 1) ≤ c)

section Magnitudes

variable {T : ElemType} {c d : ℕ}

theorem elementMagnitude_eq [Conversions] [Conversions.ValuePreserving]
    (hT : T.comparesCodes = false) (hc : c < 2 ^ T.codeBits) :
    elementMagnitude T c = repMagnitude T c := by
  cases T <;> simp only [ElemType.comparesCodes, reduceCtorEq] at hT <;> try rfl
  case fp16 => exact congrArg ofValue (Conversions.ValuePreserving.rvHtof c hc)
  case bf16 => exact congrArg ofValue (Conversions.ValuePreserving.rvBtof c hc)
  all_goals
    have hmask : c &&& 15 = c := by
      have h := and_two_pow_sub_one_eq_mod c 4
      norm_num at h
      rw [h]
      exact mod_eq_of_lt hc
    simp only [elementMagnitude, repMagnitude, hmask]

theorem elementMagnitude_code [Conversions] (hT : T.comparesCodes = true)
    (hc : c < 2 ^ T.codeBits) : elementMagnitude T c = ofNat c := by
  have hsmall : floatOfNat c = c := by
    refine if_pos (lt_of_lt_of_le hc ?_)
    cases T <;> simp [ElemType.codeBits, ElemType.bits]
  cases T <;> simp only [ElemType.comparesCodes, reduceCtorEq] at hT <;>
    simp only [elementMagnitude, hsmall]

theorem Magnitude.ge_some {x y : WithTop ℚ} : ge (some x) (some y) = true ↔ y ≤ x :=
  decide_eq_true_iff

theorem magnitude_ge {E p i j : ℕ} (h : i ≤ j) :
    ge (some (magnitude E p j : ℚ)) (some (magnitude E p i : ℚ)) = true := by
  rw [ge_some]
  exact_mod_cast (magnitude_strictMono E p).monotone h

theorem ieee_ge {E p : ℕ} (h : c % 2 ^ (E + p) ≤ d % 2 ^ (E + p))
    (hc : ofValue (ieeeValue E p c) ≠ none) (hd : ofValue (ieeeValue E p d) ≠ none) :
    (ofValue (ieeeValue E p d)).ge (ofValue (ieeeValue E p c)) = true := by
  by_cases hfin : d % 2 ^ (E + p) < infIndex E p
  · simp only [ieeeValue, if_pos hfin, if_pos (lt_of_le_of_lt h hfin)]
    exact magnitude_ge h
  by_cases hinf : d % 2 ^ (E + p) = infIndex E p
  · obtain ⟨x, hx⟩ := ne_none_iff_exists'.mp hc
    rw [hx]
    simp only [ieeeValue, if_neg hfin, if_pos hinf, ofValue]
    exact ge_some.mpr le_top
  · simp only [ieeeValue, if_neg hfin, if_neg hinf] at hd
    exact absurd rfl hd

theorem e4m3_ge (h : c % 128 ≤ d % 128) (hc : ofValue (SoftFloat.customValue 4 3 c) ≠ none)
    (hd : ofValue (SoftFloat.customValue 4 3 d) ≠ none) :
    (ofValue (SoftFloat.customValue 4 3 d)).ge (ofValue (SoftFloat.customValue 4 3 c)) = true := by
  simp only [SoftFloat.customValue, and_self, if_true] at hc hd ⊢
  split_ifs at hc hd ⊢
  all_goals first
    | exact absurd rfl hc
    | exact absurd rfl hd
    | exact magnitude_ge h

theorem repMagnitude_ge_of_index (hT : T.comparesCodes = true)
    (hindex : c % 2 ^ (T.codeBits - 1) ≤ d % 2 ^ (T.codeBits - 1))
    (hcn : repMagnitude T c ≠ none)
    (hdn : repMagnitude T d ≠ none) : (repMagnitude T d).ge (repMagnitude T c) = true := by
  cases T <;> simp only [ElemType.comparesCodes, reduceCtorEq] at hT
  case fp8 => exact e4m3_ge hindex hcn hdn
  case mxfp8 => exact e4m3_ge hindex hcn hdn
  case mxfp4 => exact magnitude_ge hindex
  case nvfp4 => exact magnitude_ge hindex
  all_goals exact ieee_ge hindex hcn hdn

theorem repMagnitude_ge (hT : T.comparesCodes = true) (hcd : c ≤ d) (hd : d < 2 ^ T.codeBits)
    (hsign : negative T c = negative T d) (hcn : repMagnitude T c ≠ none)
    (hdn : repMagnitude T d ≠ none) : (repMagnitude T d).ge (repMagnitude T c) = true := by
  refine repMagnitude_ge_of_index hT ?_ hcn hdn
  have hpow : 2 ^ T.codeBits = 2 * 2 ^ (T.codeBits - 1) := by
    cases T <;> rfl
  simp only [negative, decide_eq_decide] at hsign
  by_cases h : 2 ^ (T.codeBits - 1) ≤ c
  · rw [mod_eq_sub_mod h, mod_eq_sub_mod (hsign.mp h), mod_eq_of_lt (by omega),
      mod_eq_of_lt (by omega)]
    omega
  · rw [mod_eq_of_lt (by omega), mod_eq_of_lt (not_le.mp (mt hsign.mpr h))]
    exact hcd

end Magnitudes

def Beats (mag : ℕ → Magnitude) (a b : ℕ) : Prop :=
  (mag a).gt (mag b) = true ∨ (mag a = mag b ∧ a < b)

instance (mag : ℕ → Magnitude) (a b : ℕ) : Decidable (Beats mag a b) := by
  unfold Beats
  infer_instance

section Top2

variable {mag : ℕ → Magnitude}

structure Top2 (mag : ℕ → Magnitude) (n k0 k1 : ℕ) : Prop where
  fst_lt : k0 < n
  snd_lt : k1 < n
  ne : k0 ≠ k1
  fst_beats : ∀ j < n, j ≠ k0 → Beats mag k0 j
  snd_beats : ∀ j < n, j ≠ k0 → j ≠ k1 → Beats mag k1 j

theorem gt_iff {x y : WithTop ℚ} : gt (some x) (some y) = true ↔ y < x := decide_eq_true_iff

variable {a b : ℕ}

theorem beats_of_not_gt (ha : mag a ≠ none) (hb : mag b ≠ none) (hab : a < b)
    (h : ¬ (mag b).gt (mag a) = true) : Beats mag a b := by
  obtain ⟨x, hx⟩ := ne_none_iff_exists'.mp ha
  obtain ⟨y, hy⟩ := ne_none_iff_exists'.mp hb
  rw [hx, hy, gt_iff, not_lt] at h
  rcases lt_or_eq_of_le h with hlt | heq
  · left
    rw [hx, hy, gt_iff]
    exact hlt
  · right
    exact ⟨by rw [hx, hy, heq], hab⟩

theorem Beats.trans {c : ℕ} (ha : mag a ≠ none) (hb : mag b ≠ none) (hc : mag c ≠ none)
    (h1 : Beats mag a b) (h2 : Beats mag b c) : Beats mag a c := by
  obtain ⟨x, hx⟩ := ne_none_iff_exists'.mp ha
  obtain ⟨y, hy⟩ := ne_none_iff_exists'.mp hb
  obtain ⟨z, hz⟩ := ne_none_iff_exists'.mp hc
  simp only [Beats, hx, hy, hz, gt_iff, some_inj] at h1 h2 ⊢
  rcases h1 with h1 | ⟨h1, hab⟩
  · rcases h2 with h2 | ⟨h2, _⟩
    · exact .inl (lt_trans h2 h1)
    · exact .inl (h2 ▸ h1)
  · rcases h2 with h2 | ⟨h2, hbc⟩
    · exact .inl (h1 ▸ h2)
    · exact .inr ⟨h1.trans h2, hab.trans hbc⟩

theorem Beats.asymm (ha : mag a ≠ none) (hb : mag b ≠ none) (h : Beats mag a b) :
    ¬ Beats mag b a := by
  obtain ⟨x, hx⟩ := ne_none_iff_exists'.mp ha
  obtain ⟨y, hy⟩ := ne_none_iff_exists'.mp hb
  simp only [Beats, hx, hy, gt_iff, some_inj] at h ⊢
  rintro (h' | ⟨h', hba⟩)
  · rcases h with h | ⟨h, -⟩
    · exact lt_asymm h h'
    · exact absurd h' (by rw [h]; exact lt_irrefl _)
  · rcases h with h | ⟨_, hab⟩
    · exact absurd h (by rw [h']; exact lt_irrefl _)
    · omega

theorem Top2.step {n k0 k1 : ℕ} (h : Top2 mag n k0 k1) (hnum : ∀ i ≤ n, mag i ≠ none) :
    ((mag n).gt (mag k0) = true → Top2 mag (n + 1) n k0) ∧
    (¬ (mag n).gt (mag k0) = true → (mag n).gt (mag k1) = true → Top2 mag (n + 1) k0 n) ∧
    (¬ (mag n).gt (mag k0) = true → ¬ (mag n).gt (mag k1) = true →
      Top2 mag (n + 1) k0 k1) := by
  have hk0 := h.fst_lt
  have hk1 := h.snd_lt
  have hn0 := hnum n (le_refl n)
  refine ⟨fun h0 => ?_, fun h0 h1 => ?_, fun h0 h1 => ?_⟩
  · have hbeat : Beats mag n k0 := .inl h0
    refine ⟨by omega, by omega, by omega, fun j hj hne => ?_, fun j hj hne hne' => ?_⟩
    · by_cases hjk : j = k0
      · exact hjk ▸ hbeat
      · exact hbeat.trans hn0 (hnum k0 (by omega)) (hnum j (by omega))
          (h.fst_beats j (by omega) hjk)
    · exact h.fst_beats j (by omega) hne'
  · have hkeep := beats_of_not_gt (hnum k0 (by omega)) hn0 hk0 h0
    have hbeat : Beats mag n k1 := .inl h1
    refine ⟨by omega, by omega, by omega, fun j hj hne => ?_, fun j hj hne hne' => ?_⟩
    · by_cases hjn : j = n
      · exact hjn ▸ hkeep
      · exact h.fst_beats j (by omega) hne
    · by_cases hjk : j = k1
      · exact hjk ▸ hbeat
      · exact hbeat.trans hn0 (hnum k1 (by omega)) (hnum j (by omega))
          (h.snd_beats j (by omega) hne hjk)
  · have hkeep0 := beats_of_not_gt (hnum k0 (by omega)) hn0 hk0 h0
    have hkeep1 := beats_of_not_gt (hnum k1 (by omega)) hn0 hk1 h1
    refine ⟨by omega, by omega, h.ne, fun j hj hne => ?_, fun j hj hne hne' => ?_⟩
    · by_cases hjn : j = n
      · exact hjn ▸ hkeep0
      · exact h.fst_beats j (by omega) hne
    · by_cases hjn : j = n
      · exact hjn ▸ hkeep1
      · exact h.snd_beats j (by omega) hne hne'

theorem Top2.first (h0 : mag 0 ≠ none) (h1 : mag 1 ≠ none) :
    ((mag 1).gt (mag 0) = true → Top2 mag 2 1 0) ∧
    (¬ (mag 1).gt (mag 0) = true → Top2 mag 2 0 1) := by
  refine ⟨fun h => ?_, fun h => ?_⟩
  · refine ⟨by omega, by omega, by omega, fun j hj hne => ?_,
      fun j hj h1 h2 => absurd hj (by omega)⟩
    have hj0 : j = 0 := by omega
    exact hj0 ▸ .inl h
  · refine ⟨by omega, by omega, by omega, fun j hj hne => ?_,
      fun j hj h1 h2 => absurd hj (by omega)⟩
    have hj1 : j = 1 := by omega
    exact hj1 ▸ beats_of_not_gt h0 h1 (by omega) h

theorem selectTop2_spec (hnum : ∀ i < 4, mag i ≠ none) :
    Top2 mag 4 (selectTop2 mag).1 (selectTop2 mag).2 := by
  have hstep : ∀ n < 4, 2 ≤ n → ∀ s : (ℕ × Magnitude) × (ℕ × Magnitude),
      Top2 mag n s.1.1 s.2.1 →
      s.1.2 = mag s.1.1 → s.2.2 = mag s.2.1 →
      let s' := if (mag n).gt s.1.2 then ((n, mag n), s.1)
        else if (mag n).gt s.2.2 then (s.1, (n, mag n)) else s
      Top2 mag (n + 1) s'.1.1 s'.2.1 ∧ s'.1.2 = mag s'.1.1 ∧ s'.2.2 = mag s'.2.1 := by
    intro n hn _ s h h0 h1
    obtain ⟨hfst, hsnd, hnone⟩ := h.step fun i hi => hnum i (by omega)
    simp only [h0, h1]
    split
    · rename_i hgt
      exact ⟨hfst hgt, rfl, h0⟩
    rename_i hgt
    split
    · rename_i hgt'
      exact ⟨hsnd hgt hgt', h0, rfl⟩
    · rename_i hgt'
      exact ⟨hnone hgt hgt', h0, h1⟩
  let start : (ℕ × Magnitude) × (ℕ × Magnitude) :=
    if (mag 1).gt (mag 0) then ((1, mag 1), (0, mag 0)) else ((0, mag 0), (1, mag 1))
  have hstart : Top2 mag 2 start.1.1 start.2.1 ∧ start.1.2 = mag start.1.1 ∧
      start.2.2 = mag start.2.1 := by
    obtain ⟨hgt, hnot⟩ := Top2.first (hnum 0 (by omega)) (hnum 1 (by omega))
    simp only [start]
    split
    · rename_i h
      exact ⟨hgt h, rfl, rfl⟩
    · rename_i h
      exact ⟨hnot h, rfl, rfl⟩
  have h3 := hstep 2 (by omega) (by omega) start hstart.1 hstart.2.1 hstart.2.2
  have h4 := hstep 3 (by omega) (by omega) _ h3.1 h3.2.1 h3.2.2
  exact h4.1

end Top2

def keptAt [Conversions] (T : ElemType) (c : ℕ → ℕ) (i : ℕ) : Bool :=
  let mag i := elementMagnitude T (c i)
  if perHalf T then decide (i ≠ 2 * (i / 2) + zeroIdx mag (2 * (i / 2)))
  else decide (i = (selectTop2 mag).1) || decide (i = (selectTop2 mag).2)

def prunedAt [Conversions] (T : ElemType) (c : ℕ → ℕ) (i : ℕ) : ℕ :=
  if keptAt T c i then c i else 0

def Rivals (T : ElemType) (i j : ℕ) : Prop :=
  i < 4 ∧ j < 4 ∧ (perHalf T = true → i / 2 = j / 2)

/-- Two elements of the group are kept, one of each half for 32-bit types, and the others are zero;
no element that is kept represents a smaller magnitude than a rival that is not. -/
def KeepsLargest (T : ElemType) (c q : ℕ → ℕ) : Prop :=
  ∃ keep : ℕ → Bool,
    (if perHalf T then keep 0 ≠ keep 1 ∧ keep 2 ≠ keep 3 else (range 4).countP keep = 2) ∧
    (∀ i < 4, q i = if keep i then c i else 0) ∧
    ∀ i j, Rivals T i j → keep i = true → keep j = false →
    (repMagnitude T (c i)).ge (repMagnitude T (c j)) = true

def Leaves (c : ℕ → ℕ) (i : ℕ) : Prop :=
  ∃ a < 4, ∃ b < 4, a ≠ b ∧ Beats (fun i => ofNat (c i)) a i ∧
    Beats (fun i => ofNat (c i)) b i

instance (c : ℕ → ℕ) (i : ℕ) : Decidable (Leaves c i) := by
  unfold Leaves
  infer_instance

/-- By its code `i` can be kept while `j` is not. -/
def Displaces (T : ElemType) (c : ℕ → ℕ) (i j : ℕ) : Prop :=
  (perHalf T = true ∧ i / 2 = j / 2) ∨ (perHalf T = false ∧ ¬ Leaves c i ∧ Leaves c j)

instance (T : ElemType) (c : ℕ → ℕ) (i j : ℕ) : Decidable (Displaces T c i j) := by
  unfold Displaces
  infer_instance

/-- No NaN is in the group, and where codes are compared no negative element is kept that represents
less than a rival which is not negative and is dropped. -/
def SignsAgree (T : ElemType) (c : ℕ → ℕ) : Prop :=
  (∀ i < 4, repMagnitude T (c i) ≠ none) ∧
  (T.comparesCodes = true → ∀ i < 4, ∀ j < 4, negative T (c i) = true →
    negative T (c j) = false →
    Displaces T c i j → (repMagnitude T (c i)).ge (repMagnitude T (c j)) = true)

instance (T : ElemType) (c : ℕ → ℕ) : Decidable (SignsAgree T c) := by
  unfold SignsAgree
  infer_instance

section Kept

variable {T : ElemType} {c : ℕ → ℕ}

theorem Magnitude.some_of_ge {x y : Magnitude} (h : x.ge y = true) : x ≠ none ∧ y ≠ none := by
  cases x <;> cases y <;> simp_all [ge]

variable {mag : ℕ → Magnitude} {i j : ℕ}

theorem Beats.ge {a b : ℕ} (h : Beats mag a b) (ha : mag a ≠ none) (hb : mag b ≠ none) :
    (mag a).ge (mag b) = true := by
  obtain ⟨x, hx⟩ := ne_none_iff_exists'.mp ha
  obtain ⟨y, hy⟩ := ne_none_iff_exists'.mp hb
  simp only [Beats, hx, hy, gt_iff, some_inj] at h
  rw [hx, hy, ge_some]
  rcases h with h | h
  · exact h.le
  · exact h.1.ge

theorem ofNat_ge {m n : ℕ} : (ofNat m).ge (ofNat n) = true ↔ n ≤ m := by
  rw [ofNat, ofNat, ge_some]
  norm_cast

theorem Top2.mem_iff {k0 k1 : ℕ} (h : Top2 mag 4 k0 k1) (hnum : ∀ i < 4, mag i ≠ none)
    (hi : i < 4) : (i = k0 ∨ i = k1) ↔ ¬ ∃ a < 4, ∃ b < 4, a ≠ b ∧ Beats mag a i ∧
    Beats mag b i := by
  have hfirst : ∀ a < 4, ¬ Beats mag a k0 := by
    intro a ha hbeat
    by_cases hk : a = k0
    · subst hk
      exact hbeat.asymm (hnum _ ha) (hnum _ ha) hbeat
    · exact (h.fst_beats a ha hk).asymm (hnum _ h.fst_lt) (hnum _ ha) hbeat
  have hsecond : ∀ a < 4, a ≠ k0 → ¬ Beats mag a k1 := by
    intro a ha hne hbeat
    by_cases hk : a = k1
    · subst hk
      exact hbeat.asymm (hnum _ ha) (hnum _ ha) hbeat
    · exact (h.snd_beats a ha hne hk).asymm (hnum _ h.snd_lt) (hnum _ ha) hbeat
  constructor
  · rintro (rfl | rfl) ⟨a, ha, b, hb, hab, hai, hbi⟩
    · exact hfirst a ha hai
    · by_cases hk : a = k0
      · exact hsecond b hb (fun hb0 => hab (hk.trans hb0.symm)) hbi
      · exact hsecond a ha hk hai
  · intro hnot
    by_contra hne
    obtain ⟨hne0, hne1⟩ := not_or.mp hne
    exact hnot ⟨k0, h.fst_lt, k1, h.snd_lt, h.ne, h.fst_beats i hi hne0,
      h.snd_beats i hi hne0 hne1⟩

theorem beats_congr {mag' : ℕ → Magnitude} (h : ∀ j < 4, mag j = mag' j) {a b : ℕ}
    (ha : a < 4) (hb : b < 4) : Beats mag a b ↔ Beats mag' a b := by
  simp only [Beats, h a ha, h b hb]

theorem perHalf_comparesCodes (hT : perHalf T = true) : T.comparesCodes = true := by
  cases T <;> first | rfl | exact absurd hT (by decide)

theorem exists_rival {keep : ℕ → Bool}
    (hkeep : if perHalf T then keep 0 ≠ keep 1 ∧ keep 2 ≠ keep 3
      else (range 4).countP keep = 2) (hi : i < 4) : ∃ j, Rivals T i j ∧ keep j = !keep i := by
  by_cases hT : perHalf T = true
  · rw [if_pos hT] at hkeep
    refine ⟨if i % 2 = 0 then i + 1
      else i - 1, ⟨hi, by split <;> omega, fun _ => by split <;> omega⟩, ?_⟩
    have hi' : i = 0 ∨ i = 1 ∨ i = 2 ∨ i = 3 := by omega
    rcases hi' with rfl | rfl | rfl | rfl
    · exact eq_not_iff.mpr hkeep.1.symm
    · exact eq_not_iff.mpr hkeep.1
    · exact eq_not_iff.mpr hkeep.2.symm
    · exact eq_not_iff.mpr hkeep.2
  · rw [if_neg hT] at hkeep
    by_contra hnone
    have hsame : ∀ j ∈ range 4, keep j = keep i := by
      intro j hj
      by_contra hne
      exact hnone ⟨j, ⟨hi, mem_range.mp hj, fun h => absurd h hT⟩, eq_not_iff.mpr hne⟩
    rw [countP_congr fun j hj => by rw [hsame j hj]] at hkeep
    cases hki : keep i <;> simp [hki] at hkeep

theorem repMagnitude_ge_zero (hcodes : T.comparesCodes = true) {x : ℕ}
    (hx : repMagnitude T x ≠ none) : (repMagnitude T x).ge (repMagnitude T 0) = true := by
  refine repMagnitude_ge_of_index hcodes (by simp) ?_ hx
  cases T <;> simp [repMagnitude, ofNat, ofValue, SoftFloat.customValue, ieeeValue, infIndex]

variable [Conversions]

theorem keptAt_half (hT : perHalf T = true) (i : ℕ) :
    keptAt T c (2 * (i / 2)) = !keptAt T c (2 * (i / 2) + 1) ∧
      keptAt T c (2 * (i / 2)) =
        (elementMagnitude T (c (2 * (i / 2)))).ge (elementMagnitude T (c (2 * (i / 2) + 1))) := by
  have h0 : 2 * (i / 2) / 2 = i / 2 := by omega
  have h1 : (2 * (i / 2) + 1) / 2 = i / 2 := by omega
  simp only [keptAt, if_pos hT, h0, h1, zeroIdx]
  cases (elementMagnitude T (c (2 * (i / 2)))).ge (elementMagnitude T (c (2 * (i / 2) + 1))) <;>
    simp

theorem keptAt_iff (hT : perHalf T = false) (i : ℕ) : keptAt T c i = true ↔
    i = (selectTop2 fun i => elementMagnitude T (c i)).1 ∨
      i = (selectTop2 fun i => elementMagnitude T (c i)).2 := by
  simp [keptAt, hT]

theorem keptAt_ge (hnum : ∀ i < 4, elementMagnitude T (c i) ≠ none) (hT : perHalf T = false)
    (hi : i < 4) (hj : j < 4) (hki : keptAt T c i = true) (hkj : keptAt T c j = false) :
    (elementMagnitude T (c i)).ge (elementMagnitude T (c j)) = true := by
  have htop := selectTop2_spec hnum
  rw [keptAt_iff hT] at hki
  rw [← not_eq_true, keptAt_iff hT, not_or] at hkj
  have hbeats : Beats (fun i => elementMagnitude T (c i)) i j := by
    rcases hki with hki | hki
    · rw [hki]
      exact htop.fst_beats j hj hkj.1
    · rw [hki]
      exact htop.snd_beats j hj hkj.1 hkj.2
  exact hbeats.ge (hnum i hi) (hnum j hj)

theorem keptAt_count (hnum : ∀ i < 4, elementMagnitude T (c i) ≠ none)
    (hT : perHalf T = false) : (range 4).countP (keptAt T c) = 2 := by
  have htop := selectTop2_spec hnum
  have h0 := htop.fst_lt
  have h1 := htop.snd_lt
  have hne := htop.ne
  have hcount : ∀ k0 < 4, ∀ k1 < 4, k0 ≠ k1 →
      (range 4).countP (fun i => decide (i = k0) || decide (i = k1)) = 2 := by
    decide
  rw [← hcount _ h0 _ h1 hne]
  congr 1
  funext i
  simp [keptAt, hT]

section
variable (hc : ∀ i < 4, c i < 2 ^ T.codeBits)
include hc

theorem keptAt_leaves (hT : perHalf T = false) (hcodes : T.comparesCodes = true) (hi : i < 4) :
    keptAt T c i = true ↔ ¬ Leaves c i := by
  have hmag : ∀ j < 4, elementMagnitude T (c j) = ofNat (c j) :=
    fun j hj => elementMagnitude_code hcodes (hc j hj)
  have hnum : ∀ j < 4, elementMagnitude T (c j) ≠ none := fun j hj => by simp [hmag j hj, ofNat]
  rw [keptAt_iff hT, (selectTop2_spec hnum).mem_iff hnum hi, Leaves, not_iff_not]
  constructor
  · rintro ⟨a, ha, b, hb, hab, hai, hbi⟩
    exact ⟨a, ha, b, hb, hab, (beats_congr hmag ha hi).mp hai, (beats_congr hmag hb hi).mp hbi⟩
  · rintro ⟨a, ha, b, hb, hab, hai, hbi⟩
    exact ⟨a, ha, b, hb, hab, (beats_congr hmag ha hi).mpr hai,
      (beats_congr hmag hb hi).mpr hbi⟩

theorem keptAt_half_le (hT : perHalf T = true) (hi : i < 4) (hj : j < 4)
    (hhalf : i / 2 = j / 2) (hki : keptAt T c i = true) (hkj : keptAt T c j = false) :
    c j ≤ c i := by
  have hcodes := perHalf_comparesCodes hT
  obtain ⟨hone, hge⟩ := keptAt_half (c := c) hT i
  rw [elementMagnitude_code hcodes (hc _ (by omega)),
    elementMagnitude_code hcodes (hc _ (by omega))] at hge
  rcases mod_two_eq_zero_or_one i with h | h
  · have hi' : 2 * (i / 2) = i := by omega
    have hj' : j = i ∨ j = i + 1 := by omega
    rcases hj' with rfl | rfl
    · exact le_rfl
    · rw [hi', hki] at hge
      exact ofNat_ge.mp hge.symm
  · have hi' : 2 * (i / 2) + 1 = i := by omega
    have hj' : j = i ∨ j = 2 * (i / 2) := by omega
    rcases hj' with rfl | rfl
    · exact le_rfl
    · rw [hi', hkj, Bool.false_eq, ← not_eq_true, ofNat_ge] at hge
      omega

theorem keptAt_rep_ge [Conversions.ValuePreserving] (hok : SignsAgree T c) (hij : Rivals T i j)
    (hki : keptAt T c i = true) (hkj : keptAt T c j = false) :
    (repMagnitude T (c i)).ge (repMagnitude T (c j)) = true := by
  obtain ⟨hi, hj, hhalf⟩ := hij
  obtain ⟨hnum, hsigns⟩ := hok
  by_cases hcodes : T.comparesCodes = true
  · have hle : c j ≤ c i := by
      by_cases hT : perHalf T = true
      · exact keptAt_half_le hc hT hi hj (hhalf hT) hki hkj
      · have h := keptAt_ge (fun k hk => by simp [elementMagnitude_code hcodes (hc k hk), ofNat])
          (not_eq_true _ ▸ hT) hi hj hki hkj
        rw [elementMagnitude_code hcodes (hc i hi), elementMagnitude_code hcodes (hc j hj)] at h
        exact ofNat_ge.mp h
    by_cases hsame : negative T (c j) = negative T (c i)
    · exact repMagnitude_ge hcodes hle (hc i hi) hsame (hnum j hj) (hnum i hi)
    -- of two codes with different signs the negative one is the larger
    have hneg : negative T (c i) = true ∧ negative T (c j) = false := by
      simp only [negative, decide_eq_decide, decide_eq_true_eq,
        decide_eq_false_iff_not] at hsame ⊢
      omega
    refine hsigns hcodes i hi j hj hneg.1 hneg.2 ?_
    by_cases hT : perHalf T = true
    · exact .inl ⟨hT, hhalf hT⟩
    · have hT' : perHalf T = false := not_eq_true _ ▸ hT
      refine .inr ⟨hT', (keptAt_leaves hc hT' hcodes hi).mp hki, ?_⟩
      by_contra hleave
      rw [(keptAt_leaves hc hT' hcodes hj).mpr hleave] at hkj
      exact absurd hkj (by decide)
  · have hcodes' : T.comparesCodes = false := not_eq_true _ ▸ hcodes
    have hT : perHalf T = false := by
      by_contra h
      exact hcodes (perHalf_comparesCodes (Bool.not_eq_false _ ▸ h))
    have hmag : ∀ k < 4, elementMagnitude T (c k) = repMagnitude T (c k) :=
      fun k hk => elementMagnitude_eq hcodes' (hc k hk)
    rw [← hmag i hi, ← hmag j hj]
    exact keptAt_ge (fun k hk => hmag k hk ▸ hnum k hk) hT hi hj hki hkj

theorem elementMagnitude_num [Conversions.ValuePreserving]
    (hnum : ∀ i < 4, repMagnitude T (c i) ≠ none) :
    ∀ i < 4, elementMagnitude T (c i) ≠ none := by
  intro i hi
  by_cases hcodes : T.comparesCodes = true
  · rw [elementMagnitude_code hcodes (hc i hi)]
    exact some_ne_none _
  · rw [elementMagnitude_eq (not_eq_true _ ▸ hcodes) (hc i hi)]
    exact hnum i hi

theorem keepsLargest_of_signs [Conversions.ValuePreserving] (hok : SignsAgree T c) :
    KeepsLargest T c (prunedAt T c) := by
  refine ⟨keptAt T c, ?_, fun i _ => rfl, fun i j hij => keptAt_rep_ge hc hok hij⟩
  by_cases hT : perHalf T = true
  · rw [if_pos hT]
    exact ⟨eq_not_iff.mp (keptAt_half hT 0).1, eq_not_iff.mp (keptAt_half hT 2).1⟩
  · rw [if_neg hT]
    exact keptAt_count (elementMagnitude_num hc hok.1) (not_eq_true _ ▸ hT)

theorem keptAt_of_displaces (hcodes : T.comparesCodes = true) (hi : i < 4)
    (hj : j < 4) (hni : negative T (c i) = true) (hnj : negative T (c j) = false)
    (h : Displaces T c i j) : Rivals T i j ∧ keptAt T c i = true ∧ keptAt T c j = false := by
  rcases h with ⟨hT, hhalf⟩ | ⟨hT, hleave, hleave'⟩
  · refine ⟨⟨hi, hj, fun _ => hhalf⟩, ?_⟩
    have hlt : c j < c i := by
      simp only [negative, decide_eq_true_eq, decide_eq_false_iff_not] at hni hnj
      omega
    have hone : keptAt T c j = !keptAt T c i := by
      have h := (keptAt_half (c := c) hT i).1
      have hcases : (2 * (i / 2) = i ∧ 2 * (i / 2) + 1 = j) ∨
          (2 * (i / 2) = j ∧ 2 * (i / 2) + 1 = i) ∨ i = j := by omega
      rcases hcases with ⟨h0, h1⟩ | ⟨h0, h1⟩ | h0
      · rw [h1, h0] at h
        rw [h, Bool.not_not]
      · rw [h1, h0] at h
        exact h
      · rw [h0] at hlt
        omega
    cases hki : keptAt T c i
    · rw [hki] at hone
      have hle := keptAt_half_le hc hT hj hi hhalf.symm hone hki
      omega
    · rw [hki] at hone
      exact ⟨rfl, hone⟩
  · refine ⟨⟨hi, hj, fun h => absurd h (hT ▸ Bool.false_ne_true)⟩,
      (keptAt_leaves hc hT hcodes hi).mpr hleave, ?_⟩
    rw [← not_eq_true, keptAt_leaves hc hT hcodes hj]
    exact not_not.mpr hleave'

theorem signs_of_keepsLargest (h : KeepsLargest T c (prunedAt T c)) : SignsAgree T c := by
  obtain ⟨keep, hcount, hval, hge⟩ := h
  have hnum : ∀ i < 4, repMagnitude T (c i) ≠ none := by
    intro i hi
    obtain ⟨j, hrival, hj⟩ := exists_rival hcount hi
    have hrival' : Rivals T j i := ⟨hrival.2.1, hi, fun hT => (hrival.2.2 hT).symm⟩
    cases hki : keep i <;> rw [hki] at hj
    · exact (some_of_ge (hge j i hrival' hj hki)).2
    · exact (some_of_ge (hge i j hrival hki hj)).1
  refine ⟨hnum, fun hcodes i hi j hj hni hnj hdis => ?_⟩
  obtain ⟨hrival, hki, hkj⟩ := keptAt_of_displaces hc hcodes hi hj hni hnj hdis
  -- a negative code is not zero, so whoever says what was kept says that `i` was
  have hpos : c i ≠ 0 := by
    simp only [negative, decide_eq_true_eq] at hni
    have := Nat.two_pow_pos (T.codeBits - 1)
    omega
  have hkeepi : keep i = true := by
    by_contra hne
    have h := hval i hi
    rw [prunedAt, if_pos hki, if_neg hne] at h
    exact hpos h
  cases hkeepj : keep j
  · exact hge i j hrival hkeepi hkeepj
  · have h := hval j hj
    rw [prunedAt, hkj, hkeepj, if_neg Bool.false_ne_true, if_pos rfl] at h
    rw [← h]
    exact repMagnitude_ge_zero hcodes (hnum i hi)

theorem prunedAt_half_zero (hT : perHalf T = true) :
    (prunedAt T c 2 = 0 ∧ prunedAt T c 3 = 0) ↔ (c 2 = 0 ∧ c 3 = 0) := by
  have hone : keptAt T c 2 = !keptAt T c 3 := (keptAt_half hT 2).1
  have hle2 := keptAt_half_le (i := 2) (j := 3) hc hT (by omega) (by omega) rfl
  have hle3 := keptAt_half_le (i := 3) (j := 2) hc hT (by omega) (by omega) rfl
  cases hk : keptAt T c 3 <;> rw [hk] at hone hle2 hle3 <;> rw [hone] at hle2 hle3 <;>
    simp [prunedAt, hk, hone]
  · have := hle2 rfl rfl
    omega
  · have := hle3 rfl rfl
    omega

end

end Kept

/-- The two positions that compression stores of a group; `none` if it has three elements other
than zero. -/
def groupPositions (q : ℕ → ℕ) : Option (ℕ × ℕ) :=
  (scanGroup q).map fun p => padGroup p.1 p.2

def maskOf (p : ℕ × ℕ) : ℕ := 1 <<< p.1 ||| 1 <<< p.2

def onesBelow (mask i : ℕ) : ℕ := (range i).countP fun j => mask.testBit j

def TwoFlags (T : ElemType) (mask : ℕ) : Prop :=
  mask < 16 ∧ onesBelow mask 4 = 2 ∧ (perHalf T = true → onesBelow mask 2 = 1)

instance (T : ElemType) (mask : ℕ) : Decidable (TwoFlags T mask) := by
  unfold TwoFlags
  infer_instance

section Positions

variable {q : ℕ → ℕ}

theorem scanGroup_congr {q' : ℕ → ℕ} (h : ∀ i < 4, (q i = 0 ↔ q' i = 0)) :
    scanGroup q = scanGroup q' := by
  unfold scanGroup
  refine foldl_ext _ _ _ fun s i hi => ?_
  simp [h i (mem_range.mp hi)]

/-- The positions are in order and no element other than zero is left out; if the group has one such
element in its second half and at most one in its first, they are in different halves. -/
structure Covers (q : ℕ → ℕ) (p : ℕ × ℕ) : Prop where
  lt : p.1 < p.2
  lt_four : p.2 < 4
  mem : ∀ i < 4, q i ≠ 0 → i = p.1 ∨ i = p.2
  low : q 2 = 0 → q 3 = 0 → p = (0, 1)
  halves : (q 0 = 0 ∨ q 1 = 0) → (q 2 = 0 ∨ q 3 = 0) → (q 2 ≠ 0 ∨ q 3 ≠ 0) →
    p.1 < 2 ∧ 2 ≤ p.2

instance (q : ℕ → ℕ) (p : ℕ × ℕ) : Decidable (Covers q p) :=
  decidable_of_iff (((p.1 < p.2 ∧ p.2 < 4) ∧ ∀ i < 4, q i ≠ 0 → i = p.1 ∨ i = p.2) ∧
      (q 2 = 0 → q 3 = 0 → p = (0, 1)) ∧
      ((q 0 = 0 ∨ q 1 = 0) → (q 2 = 0 ∨ q 3 = 0) → (q 2 ≠ 0 ∨ q 3 ≠ 0) →
        p.1 < 2 ∧ 2 ≤ p.2))
    ⟨fun h => ⟨h.1.1.1, h.1.1.2, h.1.2, h.2.1, h.2.2⟩,
      fun h => ⟨⟨⟨h.lt, h.lt_four⟩, h.mem⟩, h.low, h.halves⟩⟩

variable {p : ℕ × ℕ}

theorem Covers.congr {q' : ℕ → ℕ} (hq : ∀ i < 4, (q i = 0 ↔ q' i = 0)) (h : Covers q p) :
    Covers q' p := by
  obtain ⟨h0, h1, h2, h3⟩ : (q 0 = 0 ↔ q' 0 = 0) ∧ (q 1 = 0 ↔ q' 1 = 0) ∧
      (q 2 = 0 ↔ q' 2 = 0) ∧
      (q 3 = 0 ↔ q' 3 = 0) :=
    ⟨hq 0 (by omega), hq 1 (by omega), hq 2 (by omega), hq 3 (by omega)⟩
  refine ⟨h.lt, h.lt_four, fun i hi hne => h.mem i hi (mt (hq i hi).mp hne), ?_, ?_⟩
  · rw [← h2, ← h3]
    exact h.low
  · rw [← h0, ← h1, ne_eq, ne_eq, ← h2, ← h3]
    exact h.halves

theorem positions_of_bits : ∀ b0 < 2, ∀ b1 < 2, ∀ b2 < 2, ∀ b3 < 2,
    b0 + b1 + b2 + b3 ≤ 2 → groupPositions (fun i => [b0, b1, b2, b3].getD i 0) ≠ none := by
  decide

theorem covers_of_bits : ∀ b0 < 2, ∀ b1 < 2, ∀ b2 < 2, ∀ b3 < 2,
    ∀ p ∈ (groupPositions fun i => [b0, b1, b2, b3].getD i 0).toList,
      Covers (fun i => [b0, b1, b2, b3].getD i 0) p := by
  decide

def pattern (q : ℕ → ℕ) (i : ℕ) : ℕ :=
  [min (q 0) 1, min (q 1) 1, min (q 2) 1, min (q 3) 1].getD i 0

theorem pattern_zero (q : ℕ → ℕ) : ∀ i < 4, (pattern q i = 0 ↔ q i = 0) := by
  intro i hi
  have hpattern : pattern q i = min (q i) 1 := by
    have hi' : i = 0 ∨ i = 1 ∨ i = 2 ∨ i = 3 := by omega
    rcases hi' with rfl | rfl | rfl | rfl <;> rfl
  rw [hpattern]
  omega

theorem groupPositions_pattern (q : ℕ → ℕ) :
    groupPositions (pattern q) = groupPositions q := by
  rw [groupPositions, groupPositions, scanGroup_congr (pattern_zero q)]

theorem groupPositions_ne_none (h : min (q 0) 1 + min (q 1) 1 + min (q 2) 1 + min (q 3) 1 ≤ 2) :
    groupPositions q ≠ none := by
  rw [← groupPositions_pattern]
  exact positions_of_bits _ (by omega) _ (by omega) _ (by omega) _ (by omega) h

theorem groupPositions_covers (h : groupPositions q = some p) : Covers q p := by
  rw [← groupPositions_pattern] at h
  exact (covers_of_bits _ (by omega) _ (by omega) _ (by omega) _ (by omega) p
    (mem_toList.mpr h)).congr
    (pattern_zero q)

theorem maskOf_flags (h1 : p.1 < p.2) (h2 : p.2 < 4) :
    maskOf p < 16 ∧ onesBelow (maskOf p) 4 = 2 ∧
    (onesBelow (maskOf p) 2 = 1 ↔ p.1 < 2 ∧ 2 ≤ p.2) ∧ onesBelow (maskOf p) p.1 = 0 ∧
    onesBelow (maskOf p) p.2 = 1 ∧ ∀ i < 4, (maskOf p).testBit i = true ↔ i = p.1 ∨
    i = p.2 := by
  obtain ⟨a, b⟩ := p
  dsimp only at h1 h2 ⊢
  revert a
  revert b
  decide

end Positions

end VortexGpu.Tensor
