import Mathlib.Data.List.Nodup
import Mathlib.Logic.Function.Basic

namespace YdbTest.Claims

open Function

variable {τ ω : Type*} [DecidableEq τ]

/-- Each item that has been counted up has been taken by one worker, once. -/
structure Owned (claimed : τ → Nat) (taken : ω → List τ) : Prop where
  claims : ∀ t, claimed t ≠ 0 ↔ ∃ w, t ∈ taken w
  apart : ∀ t w u, t ∈ taken w → t ∈ taken u → w = u
  nodup : ∀ w, (taken w).Nodup

variable {claimed : τ → Nat} {taken : ω → List τ} {t s : τ} {w u : ω}

omit [DecidableEq τ] in
theorem owned_nil : Owned (fun _ : τ => 0) (fun _ : ω => ([] : List τ)) where
  claims _ := iff_of_false (fun h => h rfl) fun ⟨_, h⟩ => List.not_mem_nil h
  apart _ _ _ h := absurd h List.not_mem_nil
  nodup _ := List.nodup_nil

theorem counted_iff : update claimed t (claimed t + 1) s ≠ 0 ↔ s = t ∨ claimed s ≠ 0 := by
  obtain rfl | hs := eq_or_ne s t
  · rw [update_self]
    exact iff_of_true (Nat.succ_ne_zero _) (Or.inl rfl)
  · rw [update_of_ne hs, or_iff_right hs]

namespace Owned

variable (h : Owned claimed taken)

include h

theorem leave (ht : claimed t ≠ 0) : Owned (update claimed t (claimed t + 1)) taken where
  claims s := by
    rw [counted_iff, ← h.claims s]
    exact or_iff_right_of_imp fun hs => hs ▸ ht
  apart := h.apart
  nodup := h.nodup

theorem take [DecidableEq ω] (ht : claimed t = 0) :
    Owned (update claimed t (claimed t + 1)) (update taken w (taken w ++ [t])) := by
  have hnot : ∀ u, t ∉ taken u := fun u hu => (h.claims t).mpr ⟨u, hu⟩ ht
  have hmem : ∀ u s, s ∈ update taken w (taken w ++ [t]) u ↔ s ∈ taken u ∨ u = w ∧ s = t := by
    intro u s
    obtain rfl | hu := eq_or_ne u w
    · rw [update_self, List.mem_append, List.mem_singleton, eq_self, true_and]
    · rw [update_of_ne hu]
      exact (or_iff_left fun hs => hu hs.1).symm
  refine ⟨fun s => ?_, fun s u v hu hv => ?_, fun u => ?_⟩
  · simp only [counted_iff, hmem]
    constructor
    · rintro (rfl | hs)
      · exact ⟨w, Or.inr ⟨rfl, rfl⟩⟩
      · obtain ⟨u, hu⟩ := (h.claims s).mp hs
        exact ⟨u, Or.inl hu⟩
    · rintro ⟨u, hu | ⟨-, rfl⟩⟩
      · exact Or.inr ((h.claims s).mpr ⟨u, hu⟩)
      · exact Or.inl rfl
  · obtain hus | ⟨rfl, rfl⟩ := (hmem u s).mp hu
    · obtain hvs | ⟨-, rfl⟩ := (hmem v s).mp hv
      · exact h.apart s u v hus hvs
      · exact absurd hus (hnot u)
    · obtain hvs | ⟨rfl, -⟩ := (hmem v s).mp hv
      · exact absurd hvs (hnot v)
      · rfl
  · obtain rfl | hu := eq_or_ne u w
    · rw [update_self]
      exact (h.nodup u).append (List.nodup_singleton t) (List.disjoint_singleton.mpr (hnot u))
    · rw [update_of_ne hu]
      exact h.nodup u

theorem taken_once [DecidableEq ω] (ht : claimed t ≠ 0) :
    ∃ w, (taken w).count t = 1 ∧ ∀ u, u ≠ w → t ∉ taken u := by
  obtain ⟨w, hw⟩ := (h.claims t).mp ht
  exact ⟨w, List.count_eq_one_of_mem (h.nodup w) hw, fun u hu ht => hu (h.apart t u w ht hw)⟩

end Owned

end YdbTest.Claims
