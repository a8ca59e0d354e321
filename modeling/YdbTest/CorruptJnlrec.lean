import YdbTest.Rounding
import Mathlib.Data.BitVec

namespace YdbTest.CorruptJnlrec

open Rounding

abbrev UInt := BitVec 32

/-- `drand48()`, over 2^48. -/
abbrev Draw := Fin (2 ^ 48)

def half : Draw := ⟨2 ^ 47, Nat.pow_lt_pow_right Nat.one_lt_two (Nat.lt_succ_self 47)⟩

def WRITE_GRANULARITY : UInt := 4

/-- How the program ends: without a write, or with one of `len` bytes from `start`. -/
inductive Outcome where
  | skip
  | skipLessThan512
  | wrote (start len : UInt)
  deriving DecidableEq

/-- `n * drand48()` as an `unsigned int`: the product is a `double`. -/
def fraction (n : UInt) (x : Draw) : UInt := BitVec.ofNat 32 (scaled 53 48 n.toNat x)

def roundUp (len : UInt) : UInt :=
  (len + WRITE_GRANULARITY - 1) / WRITE_GRANULARITY * WRITE_GRANULARITY

/-- From the start on that has been chosen; the bytes that are written come from further draws. -/
def corrupt (OsFileSize badDataStartOffset : UInt) (amount : Draw) : Outcome :=
  let len := fraction (OsFileSize - badDataStartOffset) amount
  if badDataStartOffset + len > OsFileSize then .skipLessThan512
  else .wrote badDataStartOffset len

def main (lastEpochOffset OsFileSize : UInt) (length where_ amount : Draw) : Outcome :=
  if lastEpochOffset ≥ OsFileSize then .skip
  else
    let len := roundUp (fraction (OsFileSize - lastEpochOffset) length)
    corrupt OsFileSize
      (if where_ < half then lastEpochOffset else lastEpochOffset + len) amount

/-- A write is within the file, and neither its start nor the length that remained has wrapped. -/
def Outcome.Inside (lastEpochOffset OsFileSize : UInt) : Outcome → Prop
  | .wrote start len => lastEpochOffset ≤ start ∧ start.toNat + len.toNat ≤ OsFileSize.toNat
  | _ => True

variable {lastEpochOffset OsFileSize n start : UInt} {length where_ amount x : Draw}

theorem fraction_toNat : (fraction n x).toNat = scaled 53 48 n.toNat x := by
  have hle : scaled 53 48 n.toNat x ≤ n.toNat := by
    by_cases hn : n.toNat = 0
    · rw [hn, scaled_zero]
    · exact (scaled_lt (by decide) x.isLt (Nat.pos_of_ne_zero hn)).le
  rw [fraction, BitVec.toNat_ofNat, Nat.mod_eq_of_lt (hle.trans_lt n.isLt)]

theorem fraction_lt (hn : 0 < n.toNat) : (fraction n x).toNat < n.toNat := by
  rw [fraction_toNat]
  exact scaled_lt (by decide) x.isLt hn

theorem fraction_le : (fraction n x).toNat ≤ n.toNat := by
  by_cases hn : n.toNat = 0
  · rw [fraction_toNat, hn, scaled_zero]
  · exact (fraction_lt (Nat.pos_of_ne_zero hn)).le

theorem roundUp_toNat (len : UInt) :
    (roundUp len).toNat = (len.toNat + 3) % 2 ^ 32 / 4 * 4 := by
  have hadd : len + WRITE_GRANULARITY - 1 = len + 3 := by
    rw [WRITE_GRANULARITY]
    bv_omega
  have hmul : (len.toNat + 3) % 2 ^ 32 / 4 * 4 < 2 ^ 32 :=
    (Nat.div_mul_le_self _ 4).trans_lt (Nat.mod_lt _ (Nat.two_pow_pos 32))
  rw [roundUp, hadd, BitVec.toNat_mul, BitVec.toNat_udiv, BitVec.toNat_add]
  exact Nat.mod_eq_of_lt hmul

theorem sum_le (h : start ≤ OsFileSize) :
    start.toNat + (fraction (OsFileSize - start) x).toNat ≤ OsFileSize.toNat := by
  have hle := fraction_le (n := OsFileSize - start) (x := x)
  rw [BitVec.toNat_sub_of_le h] at hle
  rw [BitVec.le_def] at h
  omega

theorem past_iff : start + n > OsFileSize ↔ OsFileSize.toNat < (start.toNat + n.toNat) % 2 ^ 32 := by
  rw [gt_iff_lt, BitVec.lt_def, BitVec.toNat_add]

theorem corrupt_of_start (h : start ≤ OsFileSize) :
    corrupt OsFileSize start x = .wrote start (fraction (OsFileSize - start) x) := by
  have hsum := sum_le (x := x) h
  rw [corrupt, if_neg]
  rw [past_iff, Nat.mod_eq_of_lt (hsum.trans_lt OsFileSize.isLt)]
  exact not_lt.mpr hsum

theorem corrupt_inside (hlow : lastEpochOffset ≤ start) (hhigh : start ≤ OsFileSize) :
    (corrupt OsFileSize start x).Inside lastEpochOffset OsFileSize := by
  rw [corrupt_of_start hhigh]
  exact ⟨hlow, sum_le hhigh⟩

theorem corrupt_wrapped (hlow : start < lastEpochOffset) (hhigh : start ≤ OsFileSize) :
    ¬ (corrupt OsFileSize start x).Inside lastEpochOffset OsFileSize := by
  rw [corrupt_of_start hhigh]
  exact fun h => absurd (BitVec.lt_def.mp hlow) (not_lt.mpr (BitVec.le_def.mp h.1))

theorem corrupt_past (hstart : OsFileSize < start) :
    (corrupt OsFileSize start x).Inside lastEpochOffset OsFileSize ↔
      start.toNat + scaled 53 48 (2 ^ 32 - (start.toNat - OsFileSize.toNat)) x < 2 ^ 32 := by
  have hlt : OsFileSize.toNat < start.toNat := BitVec.lt_def.mp hstart
  have hremain : (OsFileSize - start).toNat = 2 ^ 32 - (start.toNat - OsFileSize.toNat) :=
    BitVec.toNat_sub_of_lt hstart
  have hlen := fraction_toNat (n := OsFileSize - start) (x := x)
  have hmax := fraction_le (n := OsFileSize - start) (x := x)
  rw [hremain] at hlen hmax
  rw [← hlen, corrupt]
  constructor
  · intro h
    by_contra hwrap
    have hsum : (start.toNat + (fraction (OsFileSize - start) x).toNat) % 2 ^ 32 =
        start.toNat + (fraction (OsFileSize - start) x).toNat - 2 ^ 32 := by
      have := start.isLt
      rw [Nat.mod_eq_sub_mod (not_lt.mp hwrap), Nat.mod_eq_of_lt (by omega)]
    rw [if_neg (by rw [past_iff, hsum]; omega)] at h
    exact absurd h.2 (by omega)
  · intro h
    rw [if_pos (by rw [past_iff, Nat.mod_eq_of_lt h]; exact Nat.lt_add_right _ hlt)]
    trivial

theorem rounded_le {n len : Nat} (hn : 0 < n) (x : Draw)
    (hlen : len = (scaled 53 48 n x + 3) % 2 ^ 32 / 4 * 4) : len ≤ n + 2 := by
  have hpart : scaled 53 48 n x < n := scaled_lt (Nat.lt_succ_of_lt (by decide)) x.isLt hn
  have hmod := Nat.mod_le (scaled 53 48 n x + 3) (2 ^ 32)
  have hdiv := Nat.div_mul_le_self ((scaled 53 48 n x + 3) % 2 ^ 32) 4
  omega

/-- A write leaves the file exactly if the rounded length overshoots the end of the file, is used
for the start, and the last draw is high enough for the sum of start and length to wrap. -/
theorem writes_inside_iff (lastEpochOffset OsFileSize : UInt) (length where_ amount : Draw) :
    let n := OsFileSize.toNat - lastEpochOffset.toNat
    let len := (scaled 53 48 n length + 3) % 2 ^ 32 / 4 * 4
    (main lastEpochOffset OsFileSize length where_ amount).Inside lastEpochOffset OsFileSize ↔
      OsFileSize ≤ lastEpochOffset ∨ where_ < half ∨ len ≤ n ∨
        lastEpochOffset.toNat + len + scaled 53 48 (2 ^ 32 - (len - n)) amount < 2 ^ 32 := by
  intro n len
  by_cases hepoch : OsFileSize ≤ lastEpochOffset
  · rw [main, if_pos hepoch]
    exact iff_of_true trivial (Or.inl hepoch)
  have hlt := BitVec.not_le.mp hepoch
  have hlow := BitVec.lt_def.mp hlt
  have hlen : (roundUp (fraction (OsFileSize - lastEpochOffset) length)).toNat = len := by
    rw [roundUp_toNat, fraction_toNat, BitVec.toNat_sub_of_le (BitVec.le_of_lt hlt)]
  rw [main, if_neg hepoch]
  dsimp only
  generalize roundUp (fraction (OsFileSize - lastEpochOffset) length) = len' at hlen
  by_cases hwhere : where_ < half
  · rw [if_pos hwhere]
    exact iff_of_true (corrupt_inside (BitVec.le_refl _) (BitVec.le_of_lt hlt))
      (Or.inr (Or.inl hwhere))
  rw [if_neg hwhere, or_iff_right hepoch, or_iff_right hwhere]
  have hover : len ≤ n + 2 := rounded_le (Nat.sub_pos_of_lt hlow) length rfl
  have hsize := OsFileSize.isLt
  have hlt32 : len < 2 ^ 32 := hlen ▸ len'.isLt
  have hstart : (lastEpochOffset + len').toNat = (lastEpochOffset.toNat + len) % 2 ^ 32 := by
    rw [BitVec.toNat_add, hlen]
  by_cases hwrap : lastEpochOffset.toNat + len < 2 ^ 32
  · rw [Nat.mod_eq_of_lt hwrap] at hstart
    by_cases hfits : len ≤ n
    · refine iff_of_true (corrupt_inside ?_ ?_) (Or.inl hfits)
      · rw [BitVec.le_def, hstart]
        exact Nat.le_add_right _ _
      · rw [BitVec.le_def, hstart]
        omega
    · have hpast : OsFileSize < lastEpochOffset + len' := by
        rw [BitVec.lt_def, hstart]
        omega
      have hexcess : lastEpochOffset.toNat + len - OsFileSize.toNat = len - n := by omega
      rw [or_iff_right hfits, corrupt_past hpast, hstart, hexcess]
  · rw [Nat.mod_eq_sub_mod (not_lt.mp hwrap), Nat.mod_eq_of_lt (by omega)] at hstart
    refine iff_of_false (corrupt_wrapped ?_ ?_) ?_
    · rw [BitVec.lt_def, hstart]
      omega
    · rw [BitVec.le_def, hstart]
      omega
    · rintro (hfits | hsum)
      · omega
      · omega

/-- The last epoch two bytes before the end of a file of 2^31 - 1 bytes, and three draws of 0.5. -/
theorem writes_past_end : ¬ ∀ (lastEpochOffset OsFileSize : UInt) (length where_ amount : Draw),
    (main lastEpochOffset OsFileSize length where_ amount).Inside lastEpochOffset OsFileSize := by
  intro h
  have hrun : main 2147483645 2147483647 half half half = .wrote 2147483649 2147483647 := by
    decide +kernel
  have hin := h 2147483645 2147483647 half half half
  rw [hrun] at hin
  exact absurd hin.2 (by decide)

end YdbTest.CorruptJnlrec
