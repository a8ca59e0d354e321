import Mathlib.Logic.Function.Iterate
import Mathlib.Data.List.Basic

namespace YdbTest.ForLoop

variable {σ τ : Type}

/-- A counted loop from `lo` up to `hi` in steps of one; the body sees the
counter. Nothing runs when `hi < lo`. -/
def forLoop (lo hi : Nat) (body : Nat → σ → σ) (s : σ) : σ :=
  (List.range' lo (hi + 1 - lo)).foldl (fun s j => body j s) s

/-- The same loop, left after the first round whose result satisfies `quit`. -/
def forUntil (quit : σ → Bool) (body : Nat → σ → σ) : List Nat → σ → σ
  | [], s => s
  | j :: js, s => if quit (body j s) then body j s else forUntil quit body js (body j s)

theorem forLoop_empty (lo hi : Nat) (body : Nat → σ → σ) (s : σ) (h : hi < lo) :
    forLoop lo hi body s = s := by
  have h0 : hi + 1 - lo = 0 := by omega
  simp [forLoop, h0]

theorem forLoop_succ (lo hi : Nat) (body : Nat → σ → σ) (s : σ) (h : lo ≤ hi + 1) :
    forLoop lo (hi + 1) body s = body (hi + 1) (forLoop lo hi body s) := by
  have h1 : hi + 1 + 1 - lo = (hi + 1 - lo) + 1 := by omega
  have h2 : lo + (hi + 1 - lo) = hi + 1 := by omega
  simp [forLoop, h1, List.range'_concat, h2]

theorem forLoop_const (lo hi : Nat) (f : σ → σ) (s : σ) :
    forLoop lo hi (fun _ => f) s = f^[hi + 1 - lo] s := by
  unfold forLoop
  generalize hi + 1 - lo = n
  induction n generalizing lo s with
  | zero => rfl
  | succ n ih => rw [List.range'_succ, List.foldl_cons, ih, Function.iterate_succ_apply]

theorem forLoop_induct (lo hi : Nat) (body : Nat → σ → σ) (s : σ) (inv : Nat → σ → Prop)
    (hlo : lo ≤ hi + 1) (h0 : inv lo s)
    (hstep : ∀ j t, lo ≤ j → j ≤ hi → inv j t → inv (j + 1) (body j t)) :
    inv (hi + 1) (forLoop lo hi body s) := by
  induction hi with
  | zero =>
    obtain rfl | rfl : lo = 0 ∨ lo = 1 := by omega
    · exact hstep 0 s (Nat.le_refl _) (Nat.le_refl _) h0
    · exact h0
  | succ hi ih =>
    by_cases hl : lo = hi + 2
    · rw [forLoop_empty lo (hi + 1) body s (by omega), ← hl]
      exact h0
    · rw [forLoop_succ lo hi body s (by omega)]
      exact hstep (hi + 1) _ (by omega) (Nat.le_refl _)
        (ih (by omega) (fun j t h1 h2 => hstep j t h1 (by omega)))

theorem forUntil_never (quit : σ → Bool) (body : Nat → σ → σ) (js : List Nat) (s : σ)
    (inv : σ → Prop) (h0 : inv s) (hstep : ∀ j ∈ js, ∀ t, inv t → inv (body j t))
    (hq : ∀ t, inv t → quit t = false) :
    forUntil quit body js s = js.foldl (fun s j => body j s) s := by
  induction js generalizing s with
  | nil => rfl
  | cons j js ih =>
    have hj : inv (body j s) := hstep j (by simp) s h0
    rw [forUntil, hq _ hj, List.foldl_cons]
    exact ih (body j s) hj (fun k hk => hstep k (by simp [hk]))

theorem foldl_related (js : List Nat) (f : Nat → σ → σ) (g : Nat → τ → τ) (s : σ) (t : τ)
    (R : σ → τ → Prop) (h0 : R s t) (hstep : ∀ j ∈ js, ∀ s t, R s t → R (f j s) (g j t)) :
    R (js.foldl (fun s j => f j s) s) (js.foldl (fun t j => g j t) t) := by
  induction js generalizing s t with
  | nil => exact h0
  | cons j js ih =>
    exact ih (f j s) (g j t) (hstep j (by simp) s t h0) (fun k hk => hstep k (by simp [hk]))

end YdbTest.ForLoop
