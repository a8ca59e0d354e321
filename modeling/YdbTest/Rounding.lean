import Mathlib.Data.Nat.Log
import Mathlib.Tactic.Ring
import Mathlib.Tactic.Linarith

namespace YdbTest.Rounding

variable {b p n k s : Nat}

/-- The place of the last of the `b` significant bits. -/
def ulp (b p : Nat) : Nat := 2 ^ (Nat.log 2 p + 1 - b)

/-- A natural number rounded to `b` significant bits, to the nearest and to even on a tie. -/
def nearest (b p : Nat) : Nat :=
  let u := ulp b p
  let q := p / u
  let r := p % u
  (if 2 * r < u then q else if u < 2 * r then q + 1 else q + q % 2) * u

/-- The integer part of the product of `n` and `k / 2^s`, rounded to `b` significant bits. -/
def scaled (b s n k : Nat) : Nat := nearest b (n * k) / 2 ^ s

theorem nearest_le_half : 2 * nearest b p ≤ 2 * p + ulp b p := by
  have hp : p / ulp b p * ulp b p + p % ulp b p = p := Nat.div_add_mod' p (ulp b p)
  unfold nearest
  dsimp only
  split
  · omega
  · split
    · rw [Nat.add_mul]
      omega
    · have hodd : p / ulp b p % 2 * ulp b p ≤ 1 * ulp b p :=
        Nat.mul_le_mul_right _ (Nat.le_of_lt_succ (Nat.mod_lt _ Nat.two_pos))
      rw [Nat.add_mul]
      omega

theorem pow_mul_ulp_le (h : b ≤ Nat.log 2 p) (hb : 0 < b) (hp : p ≠ 0) :
    2 ^ (b - 1) * ulp b p ≤ p := by
  have hexp : b - 1 + (Nat.log 2 p + 1 - b) = Nat.log 2 p := by omega
  calc 2 ^ (b - 1) * ulp b p
      = 2 ^ Nat.log 2 p := by rw [ulp, ← pow_add, hexp]
    _ ≤ p := Nat.pow_log_le_self 2 hp

theorem nearest_of_short (h : Nat.log 2 p < b) : nearest b p = p := by
  have hu : ulp b p = 1 := by
    rw [ulp, Nat.sub_eq_zero_of_le h]
    rfl
  simp [nearest, hu, Nat.mod_one]

theorem nearest_le (hb : 0 < b) : 2 ^ b * nearest b p ≤ (2 ^ b + 1) * p := by
  by_cases hlog : Nat.log 2 p < b
  · rw [nearest_of_short hlog]
    exact Nat.mul_le_mul_right p (Nat.le_succ _)
  · have hp : p ≠ 0 := by
      rintro rfl
      rw [Nat.log_zero_right] at hlog
      exact hlog hb
    have hulp := pow_mul_ulp_le (not_lt.mp hlog) hb hp
    have hpow : 2 ^ b = 2 ^ (b - 1) * 2 := by rw [← pow_succ, Nat.sub_add_cancel hb]
    calc 2 ^ b * nearest b p
        = 2 ^ (b - 1) * (2 * nearest b p) := by rw [hpow, mul_assoc]
      _ ≤ 2 ^ (b - 1) * (2 * p + ulp b p) := Nat.mul_le_mul_left _ nearest_le_half
      _ = 2 ^ b * p + 2 ^ (b - 1) * ulp b p := by rw [mul_add, ← mul_assoc, ← hpow]
      _ ≤ 2 ^ b * p + p := Nat.add_le_add_left hulp _
      _ = (2 ^ b + 1) * p := by rw [add_mul, one_mul]

theorem scaled_zero : scaled b s 0 k = 0 := by
  have h : nearest b 0 = 0 := by simp [nearest]
  rw [scaled, Nat.zero_mul, h, Nat.zero_div]

theorem scaled_lt (hs : s < b) (hk : k < 2 ^ s) (hn : 0 < n) : scaled b s n k < n := by
  have hround := nearest_le (p := n * k) (Nat.zero_lt_of_lt hs)
  have hpow : 2 ^ s < 2 ^ b := Nat.pow_lt_pow_right Nat.one_lt_two hs
  rw [scaled, Nat.div_lt_iff_lt_mul (Nat.two_pow_pos s)]
  refine Nat.lt_of_mul_lt_mul_left (a := 2 ^ b) (hround.trans_lt ?_)
  have hfrac : (2 ^ b + 1) * k < 2 ^ b * 2 ^ s := by
    have hk' : k + 1 ≤ 2 ^ s := hk
    calc (2 ^ b + 1) * k
        = 2 ^ b * k + k := by rw [add_mul, one_mul]
      _ < 2 ^ b * k + 2 ^ b := Nat.add_lt_add_left (hk.trans hpow) _
      _ = 2 ^ b * (k + 1) := (Nat.mul_succ _ _).symm
      _ ≤ 2 ^ b * 2 ^ s := Nat.mul_le_mul_left _ hk'
  calc (2 ^ b + 1) * (n * k)
      = n * ((2 ^ b + 1) * k) := by ring
    _ < n * (2 ^ b * 2 ^ s) := Nat.mul_lt_mul_of_pos_left hfrac hn
    _ = 2 ^ b * (n * 2 ^ s) := by ring

end YdbTest.Rounding
