import Mathlib.Data.List.Lex
import Mathlib.Order.Lattice
import Mathlib.Tactic.Common

namespace YdbTest.PrefixOrder

variable {α : Type*} {p q x y z : List α} {a b : α}

theorem exists_next (h : q <+: x) (hne : x ≠ q) : ∃ a, q ++ [a] <+: x := by
  obtain ⟨t, rfl⟩ := h
  cases t with
  | nil => exact absurd (List.append_nil q) hne
  | cons a t => exact ⟨a, t, by rw [List.append_assoc]; rfl⟩

theorem next_unique (h : q ++ [a] <+: x) (h' : q ++ [b] <+: x) : a = b := by
  have heq := List.prefix_of_prefix_length_le h h' (by simp)
  have hsame := heq.eq_of_length (by simp)
  exact List.singleton_inj.mp (List.append_cancel_left hsame)

theorem prefix_of_next (h : q ++ [a] <+: x) : q <+: x := (List.prefix_append q [a]).trans h

theorem ne_of_next (h : q ++ [a] <+: x) : x ≠ q := fun heq => by
  have hlen := h.length_le
  rw [heq, List.length_append, List.length_singleton] at hlen
  omega

theorem prefix_append_cases {t : List α} (h : x <+: p ++ t) :
    x <+: p ∨ ∃ s, s ≠ [] ∧ x = p ++ s ∧ s <+: t := by
  obtain hxp | ⟨s, rfl⟩ := List.prefix_or_prefix_of_prefix h (List.prefix_append p t)
  · exact Or.inl hxp
  · by_cases hs : s = []
    · subst hs
      rw [List.append_nil]
      exact Or.inl (List.prefix_refl p)
    · exact Or.inr ⟨s, hs, rfl, (List.prefix_append_right_inj p).mp h⟩

theorem prefix_dropLast_iff (hy : y ≠ []) : x <+: y.dropLast ↔ x <+: y ∧ x ≠ y := by
  obtain ⟨t, a, rfl⟩ := List.eq_nil_or_concat' y |>.resolve_left hy
  rw [List.dropLast_concat, List.prefix_concat_iff]
  constructor
  · intro h
    refine ⟨Or.inr h, ?_⟩
    rintro rfl
    have hlen := h.length_le
    rw [List.length_append, List.length_singleton] at hlen
    omega
  · rintro ⟨h | h, hne⟩
    · exact absurd h hne
    · exact h

variable [LinearOrder α]

theorem le_of_front (h : p <+: x) : p ≤ x := by
  induction p generalizing x with
  | nil => exact not_lt.mp List.not_lex_nil
  | cons a p ih =>
    obtain ⟨t, rfl⟩ := h
    exact List.cons_le_cons a (ih (List.prefix_append p t))

theorem append_lt_append (q : List α) (h : a < b) (x y : List α) :
    q ++ a :: x < q ++ b :: y :=
  List.Lex.append_left (· < ·) (List.Lex.rel h) q

theorem lt_of_branch (hx : q ++ [a] <+: x) (hy : q ++ [b] <+: y) (h : a < b) : x < y := by
  obtain ⟨s, rfl⟩ := hx
  obtain ⟨t, rfl⟩ := hy
  rw [List.append_assoc, List.append_assoc]
  exact append_lt_append q h s t

theorem branch_le (hx : q ++ [a] <+: x) (hy : q ++ [b] <+: y) (h : x ≤ y) : a ≤ b :=
  not_lt.mp fun hlt => absurd h (not_le.mpr (lt_of_branch hy hx hlt))

theorem exists_branch (h : ¬ p <+: x) (h' : ¬ x <+: p) :
    ∃ q a b, q ++ [a] <+: p ∧ q ++ [b] <+: x ∧ a ≠ b := by
  induction p generalizing x with
  | nil => exact absurd List.nil_prefix h
  | cons a p ih =>
    cases x with
    | nil => exact absurd List.nil_prefix h'
    | cons b x =>
      by_cases hab : a = b
      · subst hab
        have hp : ¬ p <+: x := fun hp => h ((List.prefix_cons_inj a).mpr hp)
        have hx : ¬ x <+: p := fun hx => h' ((List.prefix_cons_inj a).mpr hx)
        obtain ⟨q, c, d, hc, hd, hne⟩ := ih hp hx
        exact ⟨a :: q, c, d, (List.prefix_cons_inj a).mpr hc, (List.prefix_cons_inj a).mpr hd, hne⟩
      · exact ⟨[], a, b, List.prefix_append [a] p, List.prefix_append [b] x, hab⟩

/-- What does not begin with `p` is before all lists that do, or behind all of them. -/
theorem lt_iff_of_branch (hx : p <+: x) (hz : p <+: z) (hy : ¬ p <+: y) : x < y ↔ z < y := by
  by_cases hyp : y <+: p
  · exact ⟨fun h => absurd (le_of_front (hyp.trans hx)) (not_le.mpr h),
      fun h => absurd (le_of_front (hyp.trans hz)) (not_le.mpr h)⟩
  · obtain ⟨q, a, b, ha, hb, hne⟩ := exists_branch hy hyp
    have hside {w : List α} (hw : p <+: w) : w < y ↔ a < b :=
      ⟨fun h => lt_of_le_of_ne (branch_le (ha.trans hw) hb h.le) hne,
        fun h => lt_of_branch (ha.trans hw) hb h⟩
    exact (hside hx).trans (hside hz).symm

theorem prefix_between (hx : p <+: x) (hz : p <+: z) (hxy : x ≤ y) (hyz : y ≤ z) : p <+: y := by
  by_contra hy
  obtain heq | hlt := hxy.eq_or_lt
  · exact hy (heq ▸ hx)
  · exact absurd ((lt_iff_of_branch hx hz hy).mp hlt) (not_lt.mpr hyz)

theorem lt_beyond (hx : p <+: x) (hz : p <+: z) (hy : ¬ p <+: y) (h : x < y) : z < y :=
  (lt_iff_of_branch hx hz hy).mp h

end YdbTest.PrefixOrder
