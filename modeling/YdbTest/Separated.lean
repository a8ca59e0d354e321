import Mathlib.Data.List.Infix

namespace YdbTest.Separated

variable {α : Type*} {c : α} {p s t : List α} {ws : List (List α)}

theorem prefix_of_sep (hp : c ∉ p) (h : p <+: s ++ c :: t) : p <+: s := by
  obtain h' | h' := List.prefix_or_prefix_of_prefix h (List.prefix_append s (c :: t))
  · exact h'
  · obtain ⟨u, rfl⟩ := h'
    obtain ⟨v, hv⟩ := h
    cases u with
    | nil => rw [List.append_nil]
    | cons a u =>
      rw [List.append_assoc, List.append_cancel_left_eq, List.cons_append, List.cons.injEq] at hv
      exact absurd (List.mem_append_right _ (hv.1 ▸ List.mem_cons_self)) hp

theorem infix_sep (hne : p ≠ []) (hp : c ∉ p) : p <:+: s ++ c :: t ↔ p <:+: s ∨ p <:+: t := by
  induction s with
  | nil =>
    have hnot : ¬ p <+: c :: t := by
      intro h
      have hnil := prefix_of_sep (s := []) hp h
      exact hne (List.prefix_nil.mp hnil)
    rw [List.nil_append, List.infix_cons_iff, List.infix_nil, or_iff_right hnot, or_iff_right hne]
  | cons a s ih =>
    have hpre : p <+: a :: s ++ c :: t ↔ p <+: a :: s :=
      ⟨prefix_of_sep hp, fun h => h.trans (List.prefix_append _ _)⟩
    rw [List.cons_append, List.infix_cons_iff, ih, List.infix_cons_iff, ← or_assoc,
      ← List.cons_append, hpre]

def after (c : α) (ws : List (List α)) : List α := ws.flatMap (c :: ·)

theorem intercalate_cons (w : List α) (ws : List (List α)) :
    [c].intercalate (w :: ws) = w ++ after c ws := by
  induction ws generalizing w with
  | nil => rw [List.intercalate_singleton, after, List.flatMap_nil, List.append_nil]
  | cons u us ih =>
    rw [List.intercalate_cons_cons, ih, List.append_assoc]
    rfl

theorem intercalate_concat (h : ws ≠ []) (w : List α) :
    [c].intercalate (ws ++ [w]) = [c].intercalate ws ++ c :: w := by
  cases ws with
  | nil => exact absurd rfl h
  | cons u us =>
    rw [List.cons_append, intercalate_cons, intercalate_cons, after, List.flatMap_append,
      List.flatMap_singleton, List.append_assoc]
    rfl

theorem infix_intercalate (hne : p ≠ []) (hp : c ∉ p) :
    p <:+: [c].intercalate ws ↔ ∃ w ∈ ws, p <:+: w := by
  induction ws with
  | nil => simp [hne]
  | cons w ws ih =>
    cases ws with
    | nil => simp
    | cons u us =>
      rw [List.intercalate_cons_cons, List.append_assoc, List.singleton_append, infix_sep hne hp, ih]
      simp only [List.exists_mem_cons_iff]

theorem prefix_after (hp : c ∉ p) (h : p <+: s ++ after c ws) : p <+: s := by
  cases ws with
  | nil =>
    rw [after, List.flatMap_nil, List.append_nil] at h
    exact h
  | cons w ws =>
    rw [after, List.flatMap_cons, List.cons_append] at h
    exact prefix_of_sep hp h

end YdbTest.Separated
