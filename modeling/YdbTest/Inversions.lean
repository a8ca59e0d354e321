import Mathlib.Data.List.Perm.Basic
import Mathlib.Data.Nat.Choose.Basic
import Mathlib.Tactic.Linarith

namespace YdbTest.Inversions

variable {α : Type} (r : α → α → Prop) [DecidableRel r] {a b : α} {as bs cs : List α}

def inversions : List α → Nat
  | [] => 0
  | a :: as => as.countP (fun b => r b a) + inversions as

theorem inversions_le (as : List α) : inversions r as ≤ as.length.choose 2 := by
  induction as with
  | nil => exact Nat.le_refl 0
  | cons a as ih =>
    have hc := List.countP_le_length (p := fun b => decide (r b a)) (l := as)
    have hs := Nat.choose_succ_succ' as.length 1
    rw [Nat.choose_one_right] at hs
    rw [inversions, List.length_cons, hs]
    exact Nat.add_le_add hc ih

theorem inversions_insert (as bs : List α) : inversions r (as ++ b :: bs) =
    inversions r (as ++ bs) + as.countP (fun a => r b a) + bs.countP (fun a => r a b) := by
  induction as with
  | nil =>
    simp only [List.nil_append, inversions, List.countP_nil]
    omega
  | cons a as ih =>
    simp only [List.cons_append, inversions, ih, List.countP_append, List.countP_cons]
    omega

variable {r}

theorem inversions_append_lt (as : List α) (hp : bs.Perm cs)
    (h : inversions r bs < inversions r cs) :
    inversions r (as ++ bs) < inversions r (as ++ cs) := by
  induction as with
  | nil => exact h
  | cons a as ih =>
    have hc := (hp.append_left as).countP_eq (fun b => decide (r b a))
    simp only [List.cons_append, inversions, hc]
    omega

theorem perm_exchange (bs cs : List α) (a b : α) :
    (b :: (bs ++ a :: cs)).Perm (a :: (bs ++ b :: cs)) := by
  have h₁ : (bs ++ a :: cs).Perm (a :: (bs ++ cs)) := List.perm_middle
  have h₂ : (bs ++ b :: cs).Perm (b :: (bs ++ cs)) := List.perm_middle
  exact ((h₁.cons b).trans (List.Perm.swap a b _)).trans (h₂.cons a).symm

theorem inversions_exchange (as bs cs : List α) (hba : r b a) (hab : ¬ r a b)
    (hl : ∀ x ∈ bs, r x b → r x a) (hr : ∀ x ∈ bs, r a x → r b x) :
    inversions r (as ++ b :: (bs ++ a :: cs)) < inversions r (as ++ a :: (bs ++ b :: cs)) := by
  apply inversions_append_lt as (perm_exchange bs cs a b)
  have hcl : bs.countP (fun x => r x b) ≤ bs.countP (fun x => r x a) :=
    List.countP_mono_left (fun x hx h => by simpa using hl x hx (by simpa using h))
  have hcr : bs.countP (fun x => r a x) ≤ bs.countP (fun x => r b x) :=
    List.countP_mono_left (fun x hx h => by simpa using hr x hx (by simpa using h))
  simp only [inversions, inversions_insert, List.countP_append, List.countP_cons, hba, hab]
  simp only [decide_true, decide_false, if_true]
  simp only [Bool.false_eq_true, if_false]
  omega

end YdbTest.Inversions
