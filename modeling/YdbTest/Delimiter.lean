import Mathlib.Data.List.Infix

namespace YdbTest.Delimiter

variable {α : Type*}

/-- `a` belongs to the first piece. -/
def consHead (a : α) : List (List α) → List (List α)
  | [] => [[a]]
  | w :: ws => (a :: w) :: ws

theorem foldr_consHead (s w : List α) (ws : List (List α)) :
    s.foldr consHead (w :: ws) = (s ++ w) :: ws := by
  induction s with
  | nil => rfl
  | cons a s ih => rw [List.foldr_cons, ih]; rfl

variable [DecidableEq α] {c : α} {r s t : List α}

/-- The pieces between the occurrences of `d`, which are looked for from the left; `k` signs of
the last one are still to be passed over. -/
def splitFrom (d : List α) : Nat → List α → List (List α)
  | _, [] => [[]]
  | k + 1, _ :: s => splitFrom d k s
  | 0, a :: s =>
    if d <+: a :: s then [] :: splitFrom d (d.length - 1) s else consHead a (splitFrom d 0 s)

def split (d s : List α) : List (List α) := splitFrom d 0 s

theorem splitFrom_append (d u s : List α) : splitFrom d u.length (u ++ s) = split d s := by
  induction u with
  | nil => rfl
  | cons a u ih => exact ih

theorem split_append_self (hr : c :: r = s) (t : List α) : split s (s ++ t) = [] :: split s t := by
  subst hr
  have hpre : c :: r <+: c :: (r ++ t) := List.prefix_append (c :: r) t
  have hrest : splitFrom (c :: r) ((c :: r).length - 1) (r ++ t) = split (c :: r) t :=
    splitFrom_append (c :: r) r t
  rw [List.cons_append, split, splitFrom, if_pos hpre, hrest]

theorem split_append_of_notMem (hs : c ∉ s) (t : List α) :
    split (c :: r) (s ++ t) = s.foldr consHead (split (c :: r) t) := by
  induction s with
  | nil => rfl
  | cons a s ih =>
    rw [List.mem_cons, not_or] at hs
    have hne : ¬ c :: r <+: a :: (s ++ t) := by
      rw [List.cons_prefix_cons]
      exact fun h => hs.1 h.1
    rw [List.cons_append, split, splitFrom, if_neg hne, List.foldr_cons, ← ih hs.2]
    rfl

theorem split_of_notMem (hs : c ∉ s) : split (c :: r) s = [s] := by
  have h := split_append_of_notMem (r := r) hs []
  rw [List.append_nil] at h
  rw [h]
  exact (foldr_consHead s [] []).trans (by rw [List.append_nil])

theorem split_first (hs : c ∉ s) (t : List α) :
    split (c :: r) (s ++ (c :: r ++ t)) = s :: split (c :: r) t := by
  rw [split_append_of_notMem hs, split_append_self rfl, foldr_consHead, List.append_nil]

theorem split_once (hs : c ∉ s) (ht : c ∉ t) : split (c :: r) (s ++ (c :: r ++ t)) = [s, t] := by
  rw [split_first hs, split_of_notMem ht]

theorem split_apart (hs : c ∉ s) (ht : c ∉ t) (h : ¬ r <+: t) :
    split (c :: r) (s ++ c :: t) = [s ++ c :: t] := by
  have hne : ¬ c :: r <+: c :: t := by
    rw [List.cons_prefix_cons]
    exact fun hp => h hp.2
  have hrest : split (c :: r) (c :: t) = [c :: t] := by
    rw [split, splitFrom, if_neg hne]
    exact congrArg (consHead c) (split_of_notMem ht)
  rw [split_append_of_notMem hs, hrest, foldr_consHead]

theorem split_ne_nil (d s : List α) : split d s ≠ [] := by
  cases s with
  | nil => exact List.cons_ne_nil _ _
  | cons a s =>
    rw [split, splitFrom]
    split
    · exact List.cons_ne_nil _ _
    · cases splitFrom d 0 s <;> exact List.cons_ne_nil _ _

theorem eq_of_length_two (h : (split [c] s).length = 2) :
    ∃ p t, s = p ++ c :: t ∧ c ∉ p ∧ c ∉ t := by
  have hlen (s : List α) : (split [c] s).length = s.count c + 1 := by
    induction s with
    | nil => rfl
    | cons a s ih =>
      rw [split, splitFrom]
      split_ifs with hp
      · rw [List.cons_prefix_cons] at hp
        rw [← hp.1, List.count_cons_self, List.length_cons]
        exact congrArg (· + 1) ih
      · have hac : a ≠ c := fun hac => hp (List.cons_prefix_cons.mpr ⟨hac.symm, List.nil_prefix⟩)
        rw [List.count_cons_of_ne hac, ← ih]
        obtain ⟨w, ws, hw⟩ := List.exists_cons_of_ne_nil (split_ne_nil [c] s)
        rw [split] at hw ⊢
        rw [hw]
        rfl
  have hone : s.count c = 1 := Nat.succ.inj ((hlen s).symm.trans h)
  obtain ⟨p, t, rfl⟩ := List.append_of_mem (List.count_pos_iff.mp (hone ▸ Nat.one_pos))
  rw [List.count_append, List.count_cons_self] at hone
  refine ⟨p, t, rfl, ?_, ?_⟩ <;> rw [← List.count_eq_zero] <;> omega

end YdbTest.Delimiter
