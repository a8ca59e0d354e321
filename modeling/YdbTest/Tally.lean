import Mathlib.Algebra.BigOperators.Fin
import Mathlib.Algebra.Order.BigOperators.Group.Finset

namespace YdbTest.Tally

variable {P : Type*} {n : Nat} (w : P → Nat)

/-- How much the places of `n` processes come to. -/
def tally (f : Fin n → P) : Nat := ∑ j, w (f j)

variable {w} {f : Fin n → P} {j : Fin n} {p : P}

theorem tally_update : tally w (Function.update f j p) + w (f j) = tally w f + w p := by
  have hnew := Finset.add_sum_erase Finset.univ (fun k => w (Function.update f j p k))
    (Finset.mem_univ j)
  have hold := Finset.add_sum_erase Finset.univ (fun k => w (f k)) (Finset.mem_univ j)
  have hrest : ∑ k ∈ Finset.univ.erase j, w (Function.update f j p k) =
      ∑ k ∈ Finset.univ.erase j, w (f k) := by
    refine Finset.sum_congr rfl fun k hk => ?_
    rw [Function.update_of_ne (Finset.ne_of_mem_erase hk)]
  simp only [Function.update_self] at hnew
  rw [tally, tally]
  omega

theorem tally_eq_zero : tally w f = 0 ↔ ∀ j, w (f j) = 0 := by
  rw [tally, Finset.sum_eq_zero_iff]
  exact ⟨fun h j => h j (Finset.mem_univ j), fun h j _ => h j⟩

theorem tally_full (hw : ∀ p, w p ≤ 1) (h : tally w f = n) (j : Fin n) : w (f j) = 1 := by
  by_contra hj
  have hlt : tally w f < ∑ _k : Fin n, 1 :=
    Finset.sum_lt_sum (fun k _ => hw (f k))
      ⟨j, Finset.mem_univ j, Nat.lt_of_le_of_ne (hw (f j)) hj⟩
  rw [Finset.sum_const, Finset.card_univ, Fintype.card_fin, smul_eq_mul, Nat.mul_one] at hlt
  omega

end YdbTest.Tally
