import YdbTest.Separated
import Mathlib.Data.List.TakeWhile

namespace YdbTest.Dealing

variable {α : Type*} {ws : List α} {w : α} {k : Nat}

def next : List α → List α
  | [] => []
  | [w] => [w]
  | _ :: w :: ws => w :: ws

def pick (k : Nat) (ws : List α) : Option α := ws[min k (ws.length - 1)]?

theorem pick_zero (ws : List α) : pick 0 ws = ws.head? := by
  rw [pick, Nat.zero_min, List.head?_eq_getElem?]

theorem pick_succ (k : Nat) (ws : List α) : pick (k + 1) ws = pick k (next ws) := by
  match ws with
  | [] => rfl
  | [w] =>
    rw [next, pick, pick]
    simp
  | v :: w :: ws =>
    have hmin : min (k + 1) ((v :: w :: ws).length - 1) = min k ((w :: ws).length - 1) + 1 := by
      rw [List.length_cons, List.length_cons, Nat.add_sub_cancel, Nat.add_sub_cancel]
      omega
    rw [next, pick, pick, hmin, List.getElem?_cons_succ]

theorem pick_of_lt (h : k < ws.length) : pick k ws = ws[k]? := by
  rw [pick, Nat.min_eq_left (by omega)]

theorem pick_of_le (h : ws.length ≤ k + 1) : pick k ws = ws.getLast? := by
  rw [pick, Nat.min_eq_right (by omega), List.getLast?_eq_getElem?]

theorem next_eq_nil : next ws = [] ↔ ws = [] := by
  match ws with
  | [] => exact iff_of_true rfl rfl
  | [w] => exact iff_of_false (List.cons_ne_nil _ _) (List.cons_ne_nil _ _)
  | v :: w :: ws => exact iff_of_false (List.cons_ne_nil _ _) (List.cons_ne_nil _ _)

theorem mem_next (h : w ∈ next ws) : w ∈ ws := by
  match ws, h with
  | [_], h => exact h
  | _ :: _ :: _, h => exact List.mem_cons_of_mem _ h

theorem pick_isSome (k : Nat) (h : ws ≠ []) : (pick k ws).isSome = true := by
  have hlen := List.length_pos_iff.mpr h
  rw [pick, List.getElem?_eq_getElem (by omega), Option.isSome_some]

section Text

variable [DecidableEq α] {c : α} {parts : List (List α)}

def front (c : α) (t : List α) : List α := t.takeWhile (· ≠ c)

def behind (c : α) (t : List α) : List α := if c ∈ t then (t.dropWhile (· ≠ c)).tail else t

theorem ne_sep {s : List α} (h : c ∉ s) : ∀ a ∈ s, decide (a ≠ c) = true :=
  fun _ ha => decide_eq_true fun hac => h (hac ▸ ha)

theorem front_plain {t : List α} (h : c ∉ t) : front c t = t :=
  List.takeWhile_eq_self_iff.mpr (ne_sep h)

theorem front_sep {s : List α} (h : c ∉ s) (t : List α) : front c (s ++ c :: t) = s := by
  rw [front, List.takeWhile_append_of_pos (ne_sep h), List.takeWhile_cons_of_neg (by simp),
    List.append_nil]

theorem behind_sep {s : List α} (h : c ∉ s) (t : List α) : behind c (s ++ c :: t) = t := by
  rw [behind, if_pos (by simp), List.dropWhile_append_of_pos (ne_sep h),
    List.dropWhile_cons_of_neg (by simp)]
  rfl

theorem front_intercalate (hparts : ∀ s ∈ parts, c ∉ s) (hne : parts ≠ []) :
    some (front c ([c].intercalate parts)) = parts.head? := by
  match parts with
  | [s] =>
    have hs : c ∉ s := hparts s (List.mem_singleton_self s)
    have hone : [c].intercalate [s] = s := by simp
    rw [hone, front_plain hs]
    rfl
  | s :: t :: parts =>
    have hcons : [c].intercalate (s :: t :: parts) = s ++ c :: [c].intercalate (t :: parts) := by
      simp [List.intercalate_cons_cons]
    rw [hcons, front_sep (hparts s List.mem_cons_self)]
    rfl

theorem behind_intercalate (hparts : ∀ s ∈ parts, c ∉ s) :
    behind c ([c].intercalate parts) = [c].intercalate (next parts) := by
  match parts with
  | [] => rfl
  | [s] =>
    have hs : c ∉ s := hparts s (List.mem_singleton_self s)
    have hone : [c].intercalate [s] = s := by simp
    rw [next, hone, behind, if_neg hs]
  | s :: t :: parts =>
    have hcons : [c].intercalate (s :: t :: parts) = s ++ c :: [c].intercalate (t :: parts) := by
      simp [List.intercalate_cons_cons]
    rw [next, hcons, behind_sep (hparts s List.mem_cons_self)]

end Text

end YdbTest.Dealing
