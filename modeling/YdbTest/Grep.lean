import Mathlib.Data.List.Infix

namespace YdbTest.Grep

variable {α : Type*} [DecidableEq α]

/-- The numbers `grep -n` prints: the lines that contain a text. -/
def numbers (pat : List α) : Nat → List (List α) → List Nat
  | _, [] => []
  | n, l :: ls => if pat <:+: l then n :: numbers pat (n + 1) ls else numbers pat (n + 1) ls

variable {pat l : List α} {ls : List (List α)} {n m : Nat}

theorem mem_numbers_ge (h : m ∈ numbers pat n ls) : n ≤ m := by
  induction ls generalizing n with
  | nil => exact absurd h List.not_mem_nil
  | cons l ls ih =>
    rw [numbers] at h
    split at h
    · obtain rfl | h := List.mem_cons.mp h
      · exact Nat.le_refl _
      · exact Nat.le_of_succ_le (ih h)
    · exact Nat.le_of_succ_le (ih h)

theorem numbers_eq_nil : numbers pat n ls = [] ↔ ∀ l ∈ ls, ¬ pat <:+: l := by
  induction ls generalizing n with
  | nil => exact iff_of_true rfl fun _ h => absurd h List.not_mem_nil
  | cons l ls ih =>
    rw [numbers, List.forall_mem_cons]
    split
    next h => exact iff_of_false (List.cons_ne_nil _ _) fun h' => h'.1 h
    next h => rw [ih, and_iff_right h]

theorem numbers_eq_first :
    numbers pat n (l :: ls) = [n] ↔ pat <:+: l ∧ ∀ l' ∈ ls, ¬ pat <:+: l' := by
  rw [numbers]
  split
  next h => rw [List.cons.injEq, and_iff_right rfl, numbers_eq_nil, and_iff_right h]
  next h =>
    refine iff_of_false (fun he => ?_) fun h' => h h'.1
    have hmem := he ▸ List.mem_singleton_self n
    exact absurd (mem_numbers_ge hmem) (Nat.not_succ_le_self n)

section Word

variable (word : α → Bool)

def wordAt (pat l : List α) : Bool :=
  decide (pat <+: l) && (l.drop pat.length).head?.all fun c => !word c

/-- `grep -w` in what is left of a line, where `free` says that no word goes on into it. -/
def wordFrom (pat : List α) (free : Bool) : List α → Bool
  | [] => free && wordAt word pat []
  | c :: l => free && wordAt word pat (c :: l) || wordFrom pat (!word c) l

/-- Whether `grep -w` finds a text in a line. -/
def hasWord (pat l : List α) : Bool := wordFrom word pat true l

variable {word}

theorem hasWord_front {c : α} (hc : word c = false) (pat l : List α) :
    hasWord word pat (pat ++ c :: l) = true := by
  have hat : wordAt word pat (pat ++ c :: l) = true := by
    rw [wordAt, List.drop_left, decide_eq_true (List.prefix_append pat _), List.head?_cons]
    simp [hc]
  rw [hasWord]
  cases hl : pat ++ c :: l with
  | nil => simp at hl
  | cons d r => rw [wordFrom, ← hl, hat, Bool.true_and, Bool.true_or]

end Word

end YdbTest.Grep
