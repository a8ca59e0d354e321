import Mathlib.Data.List.Basic
import Mathlib.Data.BitVec

namespace YdbTest.LittleEndian

abbrev Byte := BitVec 8

variable {w : Nat}

def pack (w : Nat) : List Byte → BitVec w
  | [] => 0#w
  | b :: s => b.setWidth w ||| pack w s <<< 8

theorem pack_singleton (b : Byte) : pack w [b] = b.setWidth w := by
  rw [pack, pack, BitVec.zero_shiftLeft, BitVec.or_zero]

theorem pack_append (s t : List Byte) : pack w (s ++ t) = pack w s ||| pack w t <<< (8 * s.length) := by
  induction s with
  | nil => rw [List.nil_append, pack, List.length_nil, BitVec.shiftLeft_zero, BitVec.zero_or]
  | cons b s ih =>
    rw [List.cons_append, pack, ih, pack, BitVec.shiftLeft_or_distrib, ← BitVec.shiftLeft_add,
      BitVec.or_assoc]
    rfl

theorem getLsbD_pack_of_le {s : List Byte} {i : Nat} (h : 8 * s.length ≤ i) :
    (pack w s).getLsbD i = false := by
  induction s generalizing i with
  | nil => exact BitVec.getLsbD_zero
  | cons b s ih =>
    rw [List.length_cons] at h
    have hb : b.getLsbD i = false := BitVec.getLsbD_of_ge b i (by omega)
    have hs : (pack w s).getLsbD (i - 8) = false := ih (by omega)
    rw [pack, BitVec.getLsbD_or, BitVec.getLsbD_setWidth, BitVec.getLsbD_shiftLeft, hb, hs]
    simp

theorem pack_take {n : Nat} (h : w ≤ 8 * n) (s : List Byte) : pack w (s.take n) = pack w s := by
  obtain hs | hs := Nat.le_total s.length n
  · rw [List.take_of_length_le hs]
  · have hz : pack w (s.drop n) <<< (8 * (s.take n).length) = 0#w := by
      rw [List.length_take_of_le hs]
      exact BitVec.shiftLeft_eq_zero h
    have happ := pack_append (w := w) (s.take n) (s.drop n)
    rw [List.take_append_drop, hz, BitVec.or_zero] at happ
    exact happ.symm

theorem pack_shiftRight {s : List Byte} (h : 8 * s.length ≤ w) (k : Nat) :
    pack w s >>> (8 * k) = pack w (s.drop k) := by
  induction k generalizing s with
  | zero => rfl
  | succ k ih =>
    cases s with
    | nil => rw [pack, BitVec.zero_ushiftRight, List.drop_nil, pack]
    | cons b s =>
      rw [List.length_cons] at h
      have hone : pack w (b :: s) >>> 8 = pack w s := by
        apply BitVec.eq_of_getLsbD_eq
        intro i hi
        have hb : b.getLsbD (8 + i) = false := BitVec.getLsbD_of_ge b _ (by omega)
        rw [BitVec.getLsbD_ushiftRight, pack, BitVec.getLsbD_or, BitVec.getLsbD_setWidth, hb,
          BitVec.getLsbD_shiftLeft, Nat.add_sub_cancel_left]
        by_cases hlt : 8 + i < w
        · simp [hlt]
        · rw [getLsbD_pack_of_le (show 8 * s.length ≤ i by omega)]
          simp
      rw [show 8 * (k + 1) = 8 + 8 * k by omega, BitVec.shiftRight_add, hone,
        ih (Nat.le_trans (by omega) h), List.drop_succ_cons]

theorem pack_concat_xor (s : List Byte) (b : Byte) :
    pack w (s ++ [b]) = pack w s ^^^ b.setWidth w <<< (8 * s.length) := by
  rw [pack_append, pack_singleton]
  apply BitVec.eq_of_getLsbD_eq
  intro i hi
  rw [BitVec.getLsbD_or, BitVec.getLsbD_xor, BitVec.getLsbD_shiftLeft]
  by_cases hlt : i < 8 * s.length
  · simp [hlt]
  · rw [getLsbD_pack_of_le (Nat.le_of_not_lt hlt), Bool.false_or, Bool.false_xor]

end YdbTest.LittleEndian
