import YdbTest.Separated

namespace YdbTest.Awk

open Separated

abbrev Text := List Char

def index : Text → Text → Nat
  | [], t => if t = [] then 1 else 0
  | c :: s, t => if t <+: c :: s then 1 else if index s t = 0 then 0 else index s t + 1

theorem index_ne_zero (s t : Text) : index s t ≠ 0 ↔ t <:+: s := by
  induction s with
  | nil =>
    rw [index, List.infix_nil]
    split_ifs with h <;> simp [h]
  | cons c s ih =>
    rw [index, List.infix_cons_iff, ← ih]
    split_ifs with hp hz
    · simp [hp]
    · simp [hp, hz]
    · simp [hz]

/-- `sub(p,"",t)` for a pattern of letters, digits and commas. -/
def sub (p : Text) : Text → Text
  | [] => []
  | c :: s => if p <+: c :: s then (c :: s).drop p.length else c :: sub p s

variable {p s t : Text} {ws : List Text}

theorem index_eq_zero : index s t = 0 ↔ ¬ t <:+: s := by
  rw [← index_ne_zero, not_not]

theorem index_eq_one (ht : t ≠ []) : index s t = 1 ↔ t <+: s := by
  cases s with
  | nil =>
    rw [index, if_neg ht, List.prefix_nil]
    exact iff_of_false Nat.zero_ne_one ht
  | cons c s =>
    rw [index]
    split_ifs with hp hz
    · exact iff_of_true rfl hp
    · exact iff_of_false not_false hp
    · exact iff_of_false (fun h => hz (Nat.succ.inj h)) hp

theorem sub_append_self (hp : p ≠ []) (s : Text) : sub p (p ++ s) = s := by
  cases p with
  | nil => exact absurd rfl hp
  | cons c p =>
    rw [List.cons_append, sub, ← List.cons_append, if_pos (List.prefix_append _ _), List.drop_left]

theorem sub_after_plain (hs : ',' ∉ s) (t : Text) :
    sub (',' :: p) (s ++ t) = s ++ sub (',' :: p) t := by
  induction s with
  | nil => rfl
  | cons c s ih =>
    rw [List.mem_cons, not_or] at hs
    have hnot : ¬ ',' :: p <+: c :: (s ++ t) := by
      rw [List.cons_prefix_cons]
      exact fun h => hs.1 h.1
    rw [List.cons_append, sub, if_neg hnot, ih hs.2, List.cons_append]

theorem sub_after (hp : ',' ∉ p) (hplain : ∀ w ∈ ws, ',' ∉ w) (hws : ∀ w ∈ ws, p <+: w → w = p) :
    sub (',' :: p) (after ',' ws) = after ',' (ws.erase p) := by
  have hcons : ∀ w ws, after ',' (w :: ws) = ',' :: (w ++ after ',' ws) := fun _ _ => rfl
  induction ws with
  | nil => rfl
  | cons w ws ih =>
    rw [List.forall_mem_cons] at hplain hws
    by_cases hw : w = p
    · rw [hw, List.erase_cons_head]
      exact sub_append_self (List.cons_ne_nil _ _) _
    · have hnot : ¬ ',' :: p <+: ',' :: (w ++ after ',' ws) := by
        rw [List.cons_prefix_cons]
        exact fun h => hw (hws.1 (prefix_after hp h.2))
      rw [List.erase_cons_tail (by simpa using hw), hcons, hcons, sub, if_neg hnot,
        sub_after_plain hplain.1, ih hplain.2 hws.2]

end YdbTest.Awk
