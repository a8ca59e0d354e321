import YdbTest.CollationRoundTrip

namespace YdbTest.Collation

open Access Mem

section UnicodeNumeric

open col_unicode_numeric

variable {src dst : Descriptor} {m : Mem} {n i j k : Nat} {s t : Nat → UInt8} {b : UInt8}

def Digit (s : Nat → UInt8) (j : Nat) : Prop := j % 3 = 2 ∧ s (j - 2) = 224 ∧ s (j - 1) = 165

instance (s : Nat → UInt8) (j : Nat) : Decidable (Digit s j) :=
  inferInstanceAs (Decidable (_ ∧ _))

def reversed (b : UInt8) : UInt8 := UInt8.ofNat (341 - b.toNat)

theorem reversed_reversed (b : UInt8) : reversed (reversed b) = b := by
  have hlt := b.toNat_lt
  apply UInt8.toNat_inj.mp
  rw [reversed, reversed, UInt8.toNat_ofNat', UInt8.toNat_ofNat']
  omega

theorem turn_dst_third : (turn i m).dst (i + 2) =
    if m.dst i = 224 ∧ m.dst (i + 1) = 165 then reversed (m.dst (i + 2)) else m.dst (i + 2) := by
  rw [turn]
  split
  next h =>
    rw [if_neg]
    rintro ⟨h1, h2⟩
    exact h.elim (fun h => h h1) fun h => h h2
  next h =>
    push Not at h
    rw [if_pos h, store_dst, if_pos rfl]
    rfl

theorem turns_dst_before (hj : j < i) : (turns n i m).dst j = m.dst j := by
  fun_induction turns n i m with
  | case1 i m h ih => rw [ih (by omega), turn_dst (by omega)]
  | case2 => rfl

theorem turns_dst (hj : j < n) (hi : i % 3 = 0) (hij : i ≤ j) : (turns n i m).dst j =
    if Digit m.dst j then reversed (m.dst j) else m.dst j := by
  fun_induction turns n i m with
  | case1 i m h ih =>
    by_cases hlt : j < i + 3
    · rw [turns_dst_before hlt]
      by_cases h2 : j = i + 2
      · rw [h2, turn_dst_third]
        have hmod : (i + 2) % 3 = 2 := by omega
        simp only [Digit, hmod, true_and, Nat.add_sub_cancel]
        rfl
      · rw [turn_dst h2, if_neg]
        rintro ⟨hmod, -⟩
        omega
    · have hdigit : Digit (turn i m).dst j ↔ Digit m.dst j := by
        unfold Digit
        apply and_congr_right
        intro hmod
        rw [turn_dst (by omega), turn_dst (by omega)]
      rw [ih (by omega) (by omega), turn_dst (by omega)]
      simp only [hdigit]
  | case2 i m h => omega

/-- What `strncpy` takes: NULs from the first one on. -/
def padded (s : Nat → UInt8) (j : Nat) : UInt8 := if ∀ k < j, s k ≠ 0 then s j else 0

theorem loaded_dst (hj : j < src.len) : (loaded src dst).dst j = padded src.val j := by
  by_cases hz : padded src.val j = 0
  · rw [hz]
    by_contra hb
    obtain ⟨hsrc, hk⟩ := (loaded_dst_source hj hb).mp rfl
    rw [padded, if_pos hk] at hz
    exact hb (hsrc.symm.trans hz)
  · rw [loaded_dst_source hj hz]
    unfold padded at hz ⊢
    split_ifs at hz ⊢ with hk
    · exact ⟨rfl, hk⟩
    · exact absurd rfl hz

def turned (s : Nat → UInt8) (j : Nat) : UInt8 := if Digit s j then reversed (s j) else s j

theorem turned_congr (h : ∀ i ≤ j, s i = t i) : turned s j = turned t j := by
  have hdigit : Digit s j ↔ Digit t j := by
    rw [Digit, Digit, h _ (Nat.sub_le j 2), h _ (Nat.sub_le j 1)]
  unfold turned
  simp only [hdigit, h j (Nat.le_refl j)]

theorem hindinumreverse_output (hfit : src.len ≤ dst.len) :
    (hindinumreverse (some src) (some dst)).code = SUCCESS ∧
      (hindinumreverse (some src) (some dst)).output.len = src.len ∧
      ∀ j < src.len, (hindinumreverse (some src) (some dst)).output.val j =
        turned (padded src.val) j := by
  simp only [hindinumreverse]
  by_cases h0 : src.len = 0
  · rw [if_pos h0]
    exact ⟨rfl, h0.symm, fun j hj => by omega⟩
  · rw [if_neg h0, if_neg (Nat.not_lt.mpr hfit)]
    refine ⟨rfl, rfl, fun j hj => ?_⟩
    change (turns src.len 0 (loaded src dst)).dst j = _
    rw [turns_dst hj rfl (Nat.zero_le j)]
    have hle (i : Nat) (hi : i ≤ j) : (loaded src dst).dst i = padded src.val i :=
      loaded_dst (by omega)
    exact turned_congr hle

theorem turned_not_digit (h : j % 3 ≠ 2) : turned s j = s j := if_neg fun hd => h hd.1

theorem digit_turned : Digit (turned s) j ↔ Digit s j := by
  unfold Digit
  apply and_congr_right
  intro hmod
  rw [turned_not_digit (by omega), turned_not_digit (by omega)]

theorem turned_turned : turned (turned s) j = s j := by
  rw [turned]
  simp only [digit_turned]
  by_cases hd : Digit s j
  · rw [if_pos hd, turned, if_pos hd, reversed_reversed]
  · rw [if_neg hd, turned, if_neg hd]

theorem padded_congr (h : ∀ i ≤ j, s i = t i) : padded s j = padded t j := by
  have hall : (∀ k < j, s k ≠ 0) ↔ ∀ k < j, t k ≠ 0 := by
    apply forall₂_congr
    intro k hk
    rw [h k (by omega)]
  unfold padded
  simp only [hall, h j (Nat.le_refl j)]

theorem padded_eq_zero : padded s j = 0 ↔ ∃ i ≤ j, s i = 0 := by
  unfold padded
  split_ifs with h
  · constructor
    · exact fun hz => ⟨j, Nat.le_refl j, hz⟩
    · rintro ⟨i, hi, hz⟩
      obtain hlt | rfl := Nat.lt_or_eq_of_le hi
      · exact absurd hz (h i hlt)
      · exact hz
  · push Not at h
    obtain ⟨i, hi, hz⟩ := h
    exact iff_of_true rfl ⟨i, Nat.le_of_lt hi, hz⟩

theorem not_digit (hz : s (j - 1) = 0) : ¬Digit s j := by
  rintro ⟨-, -, h⟩
  rw [hz] at h
  exact absurd h (by decide)

theorem turned_padded (hk : k < j) (hz : padded s k = 0) : turned (padded s) j = 0 := by
  obtain ⟨i, hi, hz⟩ := padded_eq_zero.mp hz
  have hlast : padded s (j - 1) = 0 := padded_eq_zero.mpr ⟨i, by omega, hz⟩
  rw [turned, if_neg (not_digit hlast), padded_eq_zero]
  exact ⟨i, by omega, hz⟩

def Ends (s : Nat → UInt8) (i : Nat) : Prop := s i = 0 ∨ s i = 85 ∧ Digit s i

theorem reversed_eq_zero : reversed b = 0 ↔ b = 85 := by
  constructor
  · intro h
    rw [← reversed_reversed b, h]
    rfl
  · rintro rfl
    rfl

theorem turned_eq_zero (h : turned s i = 0) : Ends s i := by
  unfold turned at h
  split_ifs at h with hd
  · exact Or.inr ⟨reversed_eq_zero.mp h, hd⟩
  · exact Or.inl h

theorem twice_of_nul (hij : i < j) (hz : s i = 0) : turned (padded (turned (padded s))) j = 0 := by
  have hkey (k : Nat) (hk : i < k) : turned (padded s) k = 0 :=
    turned_padded hk (padded_eq_zero.mpr ⟨i, Nat.le_refl i, hz⟩)
  by_cases hlast : i < j - 1
  · exact turned_padded (k := j - 1) (by omega)
      (padded_eq_zero.mpr ⟨j - 1, Nat.le_refl _, hkey _ hlast⟩)
  · obtain rfl : i = j - 1 := by omega
    have hj : padded (turned (padded s)) j = 0 := padded_eq_zero.mpr ⟨j, Nat.le_refl j, hkey j hij⟩
    rw [turned, if_neg, hj]
    rintro ⟨hmod, -, h⟩
    have hnul : turned (padded s) (j - 1) = 0 := by
      rw [turned_not_digit (by omega)]
      exact padded_eq_zero.mpr ⟨j - 1, Nat.le_refl _, hz⟩
    have hpad : padded (turned (padded s)) (j - 1) = 0 :=
      padded_eq_zero.mpr ⟨j - 1, Nat.le_refl _, hnul⟩
    rw [hpad] at h
    exact absurd h (by decide)

theorem twice_iff : (∀ j < n, turned (padded (turned (padded s))) j = s j) ↔
    ∀ i j, i < j → j < n → Ends s i → s j = 0 := by
  constructor
  · intro h i j hij hj hend
    rw [← h j hj]
    by_cases hnul : ∃ a ≤ i, s a = 0
    · obtain ⟨a, ha, hz⟩ := hnul
      exact twice_of_nul (Nat.lt_of_le_of_lt ha hij) hz
    · push Not at hnul
      have hpad (a : Nat) (ha : a ≤ i) : padded s a = s a := if_pos fun k hk => hnul k (by omega)
      obtain ⟨h85, hd⟩ := hend.resolve_left (hnul i (Nat.le_refl i))
      have hkey : turned (padded s) i = 0 := by
        rw [turned_congr hpad, turned, if_pos hd, h85]
        rfl
      exact turned_padded hij (padded_eq_zero.mpr ⟨i, Nat.le_refl i, hkey⟩)
  · intro h j hj
    have hpad (a : Nat) (ha : a ≤ j) : padded s a = s a := by
      unfold padded
      split_ifs with hall
      · rfl
      · push Not at hall
        obtain ⟨k, hk, hz⟩ := hall
        exact (h k a hk (by omega) (Or.inl hz)).symm
    have hkey (a : Nat) (ha : a ≤ j) : turned (padded s) a = turned s a :=
      turned_congr fun i hi => hpad i (by omega)
    have hpadkey (a : Nat) (ha : a ≤ j) : padded (turned (padded s)) a = turned s a := by
      by_cases hall : ∀ k < a, turned (padded s) k ≠ 0
      · exact (if_pos hall).trans (hkey a ha)
      · rw [padded, if_neg hall]
        push Not at hall
        obtain ⟨k, hk, hz⟩ := hall
        rw [hkey k (by omega)] at hz
        have hends := turned_eq_zero hz
        have hnul : s (a - 1) = 0 ∨ k = a - 1 := by
          by_cases hlast : k < a - 1
          · exact Or.inl (h k (a - 1) hlast (by omega) hends)
          · exact Or.inr (by omega)
        have hnot : ¬Digit s a := by
          rintro ⟨hmod, h1, h2⟩
          obtain hnul | rfl := hnul
          · exact not_digit hnul ⟨hmod, h1, h2⟩
          · rw [turned_not_digit (by omega), h2] at hz
            exact absurd hz (by decide)
        rw [turned, if_neg hnot]
        exact (h k a hk (by omega) hends).symm
    rw [turned_congr hpadkey, turned_turned]

end UnicodeNumeric

open col_chinese (System)

theorem bytes_eq_iff {d e : Descriptor} (hlen : d.len = e.len) :
    d.bytes = e.bytes ↔ ∀ j < e.len, d.val j = e.val j := by
  rw [Descriptor.bytes, Descriptor.bytes, hlen, List.map_inj_left]
  simp only [List.mem_range]

/-- `col_unicode_numeric` gives a string back if and only if nothing but NULs follows a NUL, or a
digit with the byte 85 that the key has a NUL for. -/
theorem unicode_numeric_round_iff (sys : System) (src dst back : Descriptor)
    (hfit : src.len ≤ dst.len) (hback : src.len ≤ back.len) :
    (gtm_ac_xback sys .col_unicode_numeric
        (gtm_ac_xform sys .col_unicode_numeric src dst).output back).output.bytes = src.bytes ↔
      ∀ i j, i < j → j < src.len → Ends src.val i → src.val j = 0 := by
  obtain ⟨-, hlen, hval⟩ := hindinumreverse_output hfit
  have hfit' :
      (col_unicode_numeric.hindinumreverse (some src) (some dst)).output.len ≤ back.len := by
    rw [hlen]
    exact hback
  obtain ⟨-, hlen', hval'⟩ := hindinumreverse_output hfit'
  rw [← twice_iff]
  refine (bytes_eq_iff (hlen'.trans hlen)).trans (forall₂_congr fun j hj => ?_)
  have heq := hval' j (by rw [hlen]; exact hj)
  rw [turned_congr fun i hi => padded_congr fun a ha => hval a (by omega)] at heq
  rw [← heq]

def digit (n : UInt8) : Descriptor :=
  ⟨3, fun i => if i = 0 then 224 else if i = 1 then 165 else 166 + n⟩

theorem unicode_numeric_round_zero :
    (gtm_ac_xback ascii .col_unicode_numeric
      (gtm_ac_xform ascii .col_unicode_numeric (digit 0) (digit 0)).output (digit 0)).output.bytes =
        [224, 165, 166] := by
  apply (unicode_numeric_round_iff ascii (digit 0) (digit 0) (digit 0) (Nat.le_refl 3)
    (Nat.le_refl 3)).mpr
  rintro i j - - (h | ⟨h, -⟩)
  · simp only [digit] at h
    split_ifs at h <;> exact absurd h (by decide)
  · simp only [digit] at h
    split_ifs at h <;> exact absurd h (by decide)

end YdbTest.Collation
