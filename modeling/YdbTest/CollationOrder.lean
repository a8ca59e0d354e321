import YdbTest.CollationNumeric

namespace YdbTest.Collation

open Access Mem
open col_chinese (System)

/-- One string is in front of another if it is its start, or less at the first byte where they
differ. -/
def Ordered (less : Nat → UInt8 → UInt8 → Prop) (d e : Descriptor) : Prop :=
  ∃ k, (∀ j < k, d.val j = e.val j) ∧
    (k = d.len ∧ k < e.len ∨ k < d.len ∧ k < e.len ∧ less k (d.val k) (e.val k))

/-- The order in which the keys stand in a database. -/
def Before : Descriptor → Descriptor → Prop := Ordered fun _ x y => x < y

theorem ordered_iff {less : Nat → UInt8 → UInt8 → Prop} {d e : Descriptor} {k : Nat}
    (hirrefl : ∀ i x, ¬less i x x) (hsame : ∀ j < k, d.val j = e.val j) (hk : k < d.len)
    (hk' : k < e.len) (hdiff : d.val k ≠ e.val k) :
    Ordered less d e ↔ less k (d.val k) (e.val k) := by
  constructor
  · rintro ⟨i, hi, h⟩
    obtain hlt | rfl | hgt := Nat.lt_trichotomy i k
    · obtain ⟨rfl, -⟩ | ⟨-, -, hless⟩ := h
      · omega
      · rw [hsame i hlt] at hless
        exact absurd hless (hirrefl i _)
    · obtain ⟨rfl, -⟩ | ⟨-, -, hless⟩ := h
      · omega
      · exact hless
    · exact absurd (hi k hgt) hdiff
  · exact fun h => ⟨k, hsame, Or.inr ⟨hk, hk', h⟩⟩

section Keys

variable {φ : (Nat → UInt8) → Nat → UInt8 → UInt8} {src src' d e : Descriptor} {k : Nat}

/-- Every byte of a key is made of the source's byte, in a way that the bytes in front of it say. -/
structure Coded (φ : (Nat → UInt8) → Nat → UInt8 → UInt8) (src d : Descriptor) : Prop where
  len : d.len = src.len
  val : ∀ j < src.len, d.val j = φ src.val j (src.val j)

structure Code (φ : (Nat → UInt8) → Nat → UInt8 → UInt8) : Prop where
  congr {s t : Nat → UInt8} {k : Nat} : (∀ j < k, s j = t j) → φ s k = φ t k
  injective (s : Nat → UInt8) (k : Nat) : Function.Injective (φ s k)

variable (hφ : Code φ) (hd : Coded φ src d) (he : Coded φ src' e)

include hφ hd he

theorem agree_iff (h : k ≤ src.len) (h' : k ≤ src'.len) :
    (∀ j < k, d.val j = e.val j) ↔ ∀ j < k, src.val j = src'.val j := by
  induction k with
  | zero =>
    apply iff_of_true
    · exact fun j hj => absurd hj (Nat.not_lt_zero j)
    · exact fun j hj => absurd hj (Nat.not_lt_zero j)
  | succ k ih =>
    rw [Nat.forall_lt_succ_right, Nat.forall_lt_succ_right, ih (by omega) (by omega)]
    apply and_congr_right
    intro hsame
    rw [hd.val k h, he.val k h', hφ.congr hsame]
    exact (hφ.injective _ _).eq_iff

theorem before_iff :
    Before d e ↔ Ordered (fun k x y => φ src.val k x < φ src.val k y) src src' := by
  unfold Before Ordered
  rw [hd.len, he.len]
  apply exists_congr
  intro k
  constructor
  · rintro ⟨hsame, ⟨hk, hk'⟩ | ⟨hk, hk', hlt⟩⟩
    · exact ⟨(agree_iff hφ hd he (by omega) (by omega)).mp hsame, Or.inl ⟨hk, hk'⟩⟩
    · have hsrc := (agree_iff hφ hd he (by omega) (by omega)).mp hsame
      rw [hd.val k hk, he.val k hk', ← hφ.congr hsrc] at hlt
      exact ⟨hsrc, Or.inr ⟨hk, hk', hlt⟩⟩
  · rintro ⟨hsrc, ⟨hk, hk'⟩ | ⟨hk, hk', hlt⟩⟩
    · exact ⟨(agree_iff hφ hd he (by omega) (by omega)).mpr hsrc, Or.inl ⟨hk, hk'⟩⟩
    · refine ⟨(agree_iff hφ hd he (by omega) (by omega)).mpr hsrc, Or.inr ⟨hk, hk', ?_⟩⟩
      rw [hd.val k hk, he.val k hk', ← hφ.congr hsrc]
      exact hlt

end Keys

/-- What the plugins that do not call `iconv` make of a byte. -/
def rank : Plugin → (Nat → UInt8) → Nat → UInt8 → UInt8
  | .col_polish, _, _, b => lookup col_polish.xform_table b
  | .col_polish_rev, _, _, b => lookup col_polish_rev.xform_table b
  | .col_complex, _, _, b => col_complex.swap b
  | .col_chinese, _, _, b => b
  | .col_straight, _, _, b => lookup col_straight.xform_table b
  | .col_reverse, _, _, b => lookup col_reverse.xform_table b
  | .col_unicode_numeric, s, k, b => if Digit s k then reversed b else b

variable {src dst : Descriptor}

theorem col_straight_inverse : Inverse col_straight.xform_table col_straight.inverse_table := by
  decide +kernel

theorem Inverse.code {table table' : List Nat} (h : Inverse table table') :
    Code fun _ _ b => Collation.lookup table b where
  congr _ := rfl
  injective _ _ := Function.LeftInverse.injective h.lookup

theorem rank_code (p : Plugin) : Code (rank p) := by
  cases p with
  | col_polish => exact col_polish_inverse.code
  | col_polish_rev => exact col_polish_rev_inverse.code
  | col_complex => exact ⟨fun _ => rfl, fun _ _ => Function.LeftInverse.injective swap_swap⟩
  | col_chinese => exact ⟨fun _ => rfl, fun _ _ => Function.injective_id⟩
  | col_straight => exact col_straight_inverse.code
  | col_reverse => exact col_reverse_inverse.code
  | col_unicode_numeric =>
    constructor
    · intro s t k h
      have hdigit : Digit s k ↔ Digit t k := by
        unfold Digit
        apply and_congr_right
        intro hmod
        rw [h _ (by omega), h _ (by omega)]
      funext b
      simp only [rank, hdigit]
    · intro s k
      have hrank : rank .col_unicode_numeric s k = if Digit s k then reversed else id := by
        funext b
        rw [rank]
        split_ifs <;> rfl
      rw [hrank]
      split_ifs
      · exact Function.LeftInverse.injective reversed_reversed
      · exact Function.injective_id

theorem coded_of_bytes {f : UInt8 → UInt8} {d : Descriptor} (h : d.bytes = src.bytes.map f) :
    Coded (fun _ _ => f) src d := by
  have hlen : d.len = src.len := by
    rw [← length_bytes, h, List.length_map, length_bytes]
  refine ⟨hlen, ?_⟩
  rw [Descriptor.bytes, Descriptor.bytes, List.map_map, hlen, List.map_inj_left] at h
  exact fun j hj => h j (List.mem_range.mpr hj)

theorem xform_coded (sys : System) {p : Plugin} (hp : p ≠ .col_chinese) (hfit : src.len ≤ dst.len)
    (hok : (gtm_ac_xform sys p src dst).code = SUCCESS)
    (hnul : p = .col_unicode_numeric → ∀ j < src.len, src.val j ≠ 0) :
    Coded (rank p) src (gtm_ac_xform sys p src dst).output := by
  cases p with
  | col_polish => exact coded_of_bytes (byTable_output hfit)
  | col_polish_rev => exact coded_of_bytes (byTable_output hfit)
  | col_complex => exact coded_of_bytes (complex_output hok)
  | col_chinese => exact absurd rfl hp
  | col_straight => exact coded_of_bytes (byTable_output hfit)
  | col_reverse => exact coded_of_bytes (byTable_output hfit)
  | col_unicode_numeric =>
    obtain ⟨-, hlen, hval⟩ := hindinumreverse_output hfit
    refine ⟨hlen, fun j hj => (hval j hj).trans ?_⟩
    have hpad (i : Nat) (hi : i ≤ j) : padded src.val i = src.val i :=
      if_pos fun k hk => hnul rfl k (by omega)
    exact turned_congr hpad

theorem reversed_lt {x y : UInt8} :
    reversed x < reversed y ↔ if (x < 86 ↔ y < 86) then y < x else x < y := by
  have hx := x.toNat_lt
  have hy := y.toNat_lt
  have h86 (b : UInt8) : b < 86 ↔ b.toNat < 86 := UInt8.lt_iff_toNat_lt
  rw [reversed, reversed]
  simp only [h86]
  rw [UInt8.lt_iff_toNat_lt, UInt8.lt_iff_toNat_lt, UInt8.lt_iff_toNat_lt, UInt8.toNat_ofNat',
    UInt8.toNat_ofNat']
  split_ifs with h <;> omega

theorem lookup_straight (b : UInt8) : lookup col_straight.xform_table b = b := by
  have h : ∀ n ∈ List.range 256, col_straight.xform_table.getD n 0 = n := by decide +kernel
  rw [lookup, h _ (List.mem_range.mpr b.toNat_lt), UInt8.ofNat_toNat]

theorem lookup_reverse_lt {x y : UInt8} :
    lookup col_reverse.xform_table x < lookup col_reverse.xform_table y ↔ y < x := by
  have h : ∀ n ∈ List.range 256, col_reverse.xform_table.getD n 0 = 255 - n := by decide +kernel
  have hx := x.toNat_lt
  have hy := y.toNat_lt
  rw [lookup, lookup, h _ (List.mem_range.mpr hx), h _ (List.mem_range.mpr hy),
    UInt8.lt_iff_toNat_lt, UInt8.lt_iff_toNat_lt, UInt8.toNat_ofNat', UInt8.toNat_ofNat']
  omega

/-- When a byte is less than another for a plugin, behind some bytes. -/
def less : Plugin → (Nat → UInt8) → Nat → UInt8 → UInt8 → Prop
  | .col_polish, _, _, x, y =>
    lookup col_polish.xform_table x < lookup col_polish.xform_table y
  | .col_polish_rev, _, _, x, y =>
    lookup col_polish_rev.xform_table x < lookup col_polish_rev.xform_table y
  | .col_complex, _, _, x, y => col_complex.swap x < col_complex.swap y
  | .col_chinese, _, _, x, y | .col_straight, _, _, x, y => x < y
  | .col_reverse, _, _, x, y => y < x
  | .col_unicode_numeric, s, k, x, y =>
    if Digit s k ∧ (x < 86 ↔ y < 86) then y < x else x < y

theorem rank_lt {p : Plugin} {s : Nat → UInt8} {k : Nat} {x y : UInt8} :
    rank p s k x < rank p s k y ↔ less p s k x y := by
  cases p with
  | col_polish => rfl
  | col_polish_rev => rfl
  | col_complex => rfl
  | col_chinese => rfl
  | col_straight => rw [rank, rank, lookup_straight, lookup_straight, less]
  | col_reverse => exact lookup_reverse_lt
  | col_unicode_numeric =>
    rw [rank, rank, less]
    by_cases hd : Digit s k
    · rw [if_pos hd, if_pos hd, reversed_lt]
      simp only [hd, true_and]
    · rw [if_neg hd, if_neg hd, if_neg fun h => hd h.1]

/-- The order that a plugin gives to strings. -/
theorem xform_before_iff (sys : System) (p : Plugin) (hp : p ≠ .col_chinese)
    (src dst src' dst' : Descriptor) (hfit : src.len ≤ dst.len) (hfit' : src'.len ≤ dst'.len)
    (hok : (gtm_ac_xform sys p src dst).code = SUCCESS)
    (hok' : (gtm_ac_xform sys p src' dst').code = SUCCESS)
    (hnul : p = .col_unicode_numeric →
      (∀ j < src.len, src.val j ≠ 0) ∧ ∀ j < src'.len, src'.val j ≠ 0) :
    Before (gtm_ac_xform sys p src dst).output (gtm_ac_xform sys p src' dst').output ↔
      Ordered (less p src.val) src src' := by
  have hcoded := xform_coded sys hp hfit hok fun h => (hnul h).1
  have hcoded' := xform_coded sys hp hfit' hok' fun h => (hnul h).2
  rw [before_iff (rank_code p) hcoded hcoded']
  simp only [rank_lt, Ordered]

theorem xform_before_nine :
    Before (gtm_ac_xform ascii .col_unicode_numeric (digit 9) (digit 9)).output
      (gtm_ac_xform ascii .col_unicode_numeric (digit 0) (digit 0)).output := by
  apply (xform_before_iff ascii .col_unicode_numeric (by simp) (digit 9) (digit 9) (digit 0)
    (digit 0) (Nat.le_refl 3) (Nat.le_refl 3) (by decide) (by decide)
    fun _ => ⟨by decide, by decide⟩).mpr
  exact ⟨2, by decide, Or.inr ⟨by decide, by decide, by simp only [less]; decide⟩⟩

def fold (b : UInt8) : UInt8 := if 65 ≤ b ∧ b ≤ 90 then b + 32 else b

def letters : List Nat := List.range' 65 26 ++ List.range' 97 26

theorem polish_letters : ∀ m ∈ letters, ∀ n ∈ letters,
    (lookup col_polish.xform_table (UInt8.ofNat m) < lookup col_polish.xform_table (UInt8.ofNat n) ↔
      fold (UInt8.ofNat m) < fold (UInt8.ofNat n) ∨
        fold (UInt8.ofNat m) = fold (UInt8.ofNat n) ∧ n < m) := by
  decide +kernel

/-- `col_polish` sorts words by the alphabet, a small letter in front of the capital one, whatever
stands in front of the letters by which they differ. -/
theorem polish_alphabetical (sys : System) (src dst src' dst' : Descriptor) (k : Nat)
    (hfit : src.len ≤ dst.len) (hfit' : src'.len ≤ dst'.len)
    (hsame : ∀ j < k, src.val j = src'.val j) (hk : k < src.len) (hk' : k < src'.len)
    (hdiff : src.val k ≠ src'.val k) (hx : (src.val k).toNat ∈ letters)
    (hy : (src'.val k).toNat ∈ letters) :
    Before (gtm_ac_xform sys .col_polish src dst).output
        (gtm_ac_xform sys .col_polish src' dst').output ↔
      fold (src.val k) < fold (src'.val k) ∨
        fold (src.val k) = fold (src'.val k) ∧ src'.val k < src.val k := by
  have hletters := polish_letters _ hx _ hy
  rw [UInt8.ofNat_toNat, UInt8.ofNat_toNat, ← UInt8.lt_iff_toNat_lt] at hletters
  have hcoded : Coded (rank .col_polish) src (gtm_ac_xform sys .col_polish src dst).output :=
    xform_coded sys (by simp) hfit (byTable_code hfit) (by simp)
  have hcoded' : Coded (rank .col_polish) src' (gtm_ac_xform sys .col_polish src' dst').output :=
    xform_coded sys (by simp) hfit' (byTable_code hfit') (by simp)
  rw [before_iff (rank_code .col_polish) hcoded hcoded', ← hletters]
  exact ordered_iff (fun _ _ => Nat.lt_irrefl _) hsame hk hk' hdiff

def word (x y : UInt8) : Descriptor := ⟨2, fun i => if i = 0 then x else y⟩

theorem polish_alphabetical_two :
    Before (gtm_ac_xform ascii .col_polish (word 65 98) (word 65 98)).output
      (gtm_ac_xform ascii .col_polish (word 65 67) (word 65 67)).output := by
  apply (polish_alphabetical ascii (word 65 98) (word 65 98) (word 65 67) (word 65 67) 1
    (Nat.le_refl 2) (Nat.le_refl 2) (by decide) (by decide) (by decide) (by decide) (by decide)
    (by decide)).mpr
  exact Or.inl (by decide)

end YdbTest.Collation
