import Mathlib.Logic.Equiv.Basic
import Mathlib.Algebra.Group.End
import Mathlib.Tactic.Common

namespace YdbTest.Shuffle

open Equiv

/-- The numbers that can be drawn: for the last of `n` positions one below `n`, and so on. -/
def Legal : Nat → List Nat → Prop
  | 0, ds => ds = []
  | n + 1, ds => ∃ d rest, ds = d :: rest ∧ d ≤ n ∧ Legal n rest

def rearrange : Nat → List Nat → Perm Nat
  | n + 1, d :: ds => swap (n + 1) (d + 1) * rearrange n ds
  | _, _ => 1

/-- Only the positions up to `n` are rearranged. -/
def Within (n : Nat) (σ : Perm Nat) : Prop := ∀ i, σ i ≠ i → 1 ≤ i ∧ i ≤ n

variable {n d : Nat} {ds : List Nat} {σ : Perm Nat}

theorem within_zero (h : Within 0 σ) : σ = 1 := by
  ext i
  by_contra hi
  have := h i hi
  omega

theorem Within.fixes (h : Within n σ) : σ (n + 1) = n + 1 := by
  by_contra hi
  have := (h _ hi).2
  omega

theorem Within.last (h : Within (n + 1) σ) : ∃ d, d ≤ n ∧ σ (n + 1) = d + 1 := by
  by_cases hlast : σ (n + 1) = n + 1
  · exact ⟨n, le_rfl, hlast⟩
  · have hmoved : σ (σ (n + 1)) ≠ σ (n + 1) := fun he => hlast (σ.injective he)
    obtain ⟨hpos, hle⟩ := h _ hmoved
    exact ⟨σ (n + 1) - 1, by omega, by omega⟩

theorem Within.before (h : Within (n + 1) σ) (hd : σ (n + 1) = d + 1) (hle : d ≤ n) :
    Within n (swap (n + 1) (d + 1) * σ) := by
  intro i hi
  rw [Perm.mul_apply] at hi
  by_cases hlast : i = n + 1
  · subst hlast
    rw [hd, swap_apply_right] at hi
    exact absurd rfl hi
  · have hne : σ i ≠ d + 1 := fun he => hlast (σ.injective (he.trans hd.symm))
    by_cases hfix : σ i = i
    · rw [hfix, swap_apply_of_ne_of_ne hlast (hfix ▸ hne)] at hi
      exact absurd rfl hi
    · have := h i hfix
      omega

theorem within_rearrange (h : Legal n ds) : Within n (rearrange n ds) := by
  induction n generalizing ds with
  | zero => exact fun i hi => absurd rfl hi
  | succ n ih =>
    obtain ⟨d, rest, rfl, hd, hrest⟩ := h
    intro i hi
    by_cases hfix : rearrange n rest i = i
    · rw [rearrange, Perm.mul_apply, hfix] at hi
      obtain ⟨-, rfl | rfl⟩ := swap_apply_ne_self_iff.mp hi
      · omega
      · omega
    · have := ih hrest i hfix
      omega

theorem existsUnique_draws (h : Within n σ) : ∃! ds, Legal n ds ∧ rearrange n ds = σ := by
  induction n generalizing σ with
  | zero => exact ⟨[], ⟨rfl, (within_zero h).symm⟩, fun ds hds => hds.1⟩
  | succ n ih =>
    obtain ⟨d, hle, hd⟩ := h.last
    obtain ⟨ds, ⟨hlegal, hds⟩, hunique⟩ := ih (h.before hd hle)
    refine ⟨d :: ds, ⟨⟨d, ds, rfl, hle, hlegal⟩, ?_⟩, ?_⟩
    · rw [rearrange, hds, ← mul_assoc, swap_mul_self, one_mul]
    · rintro es ⟨⟨e, rest, rfl, -, hrest⟩, hes⟩
      have hlast : σ (n + 1) = e + 1 := by
        rw [← hes, rearrange, Perm.mul_apply, (within_rearrange hrest).fixes, swap_apply_left]
      obtain rfl : d = e := by omega
      have hbefore : rearrange n rest = swap (n + 1) (d + 1) * σ := by
        rw [← hes, rearrange, ← mul_assoc, swap_mul_self, one_mul]
      rw [hunique rest ⟨hrest, hbefore⟩]

end YdbTest.Shuffle
