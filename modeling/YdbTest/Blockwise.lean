import Mathlib.Data.List.Basic

namespace YdbTest.Blockwise

variable {α σ : Type*} {n : Nat} {f : σ → List α → σ} {s : List α}

/-- The blocks of `n + 1` signs at the front of the text are worked into the state; what is left
over is kept. -/
def absorb (n : Nat) (f : σ → List α → σ) (h : σ) (s : List α) : σ × List α :=
  if n < s.length then absorb n f (f h (s.take (n + 1))) (s.drop (n + 1)) else (h, s)
termination_by s.length
decreasing_by
  rw [List.length_drop]
  omega

theorem absorb_of_le (h : σ) (hs : s.length ≤ n) : absorb n f h s = (h, s) := by
  rw [absorb, if_neg (Nat.not_lt.mpr hs)]

theorem absorb_block (h : σ) (hs : n < s.length) :
    absorb n f h s = absorb n f (f h (s.take (n + 1))) (s.drop (n + 1)) := by
  rw [absorb, if_pos hs]

theorem length_rest_le (n : Nat) (f : σ → List α → σ) (h : σ) (s : List α) :
    (absorb n f h s).2.length ≤ n := by
  induction h, s using absorb.induct n f with
  | case1 h s hs ih => rwa [absorb_block h hs]
  | case2 h s hs =>
    rw [absorb_of_le h (Nat.not_lt.mp hs)]
    exact Nat.not_lt.mp hs

theorem absorb_append (h : σ) (s t : List α) :
    absorb n f h (s ++ t) = absorb n f (absorb n f h s).1 ((absorb n f h s).2 ++ t) := by
  induction h, s using absorb.induct n f with
  | case1 h s hs ih =>
    have hlt : n < (s ++ t).length := by
      rw [List.length_append]
      omega
    rw [absorb_block h hlt, absorb_block h hs, List.take_append_of_le_length hs,
      List.drop_append_of_le_length hs]
    exact ih
  | case2 h s hs => rw [absorb_of_le h (Nat.not_lt.mp hs)]

end YdbTest.Blockwise
