import Mathlib.Data.List.Basic
import Mathlib.Data.List.TakeDrop

namespace YdbTest.Positions

variable {α : Type*}

/-- `$extract(s,i,j)`, with positions counted from 1. -/
def extract (s : List α) (i j : Nat) : List α := (s.take j).drop (i - 1)

def at_ (s : List α) (i : Nat) : Option α := if i = 0 then none else s[i - 1]?

/-- The first position from `pos` on that is past the end or holds a character to stop at. -/
def scan (stop : α → Bool) (s : List α) (pos : Nat) : Nat :=
  pos + ((s.drop (pos - 1)).takeWhile fun c => !stop c).length

variable {a b s t : List α} {c : α} {pos : Nat}

theorem scan_append {stop : α → Bool} (ht : ∀ c ∈ t, stop c = false)
    (hb : ∀ c, b.head? = some c → stop c = true) :
    scan stop (a ++ t ++ b) (a.length + 1) = a.length + 1 + t.length := by
  have hdrop : (a ++ t ++ b).drop (a.length + 1 - 1) = t ++ b := by
    rw [Nat.add_sub_cancel, List.append_assoc, List.drop_left]
  have htake : (t ++ b).takeWhile (fun c => !stop c) = t := by
    rw [List.takeWhile_append_of_pos fun c hc => by rw [ht c hc]; rfl]
    cases b with
    | nil => exact List.append_nil t
    | cons c b =>
      rw [List.takeWhile_cons, hb c rfl]
      exact List.append_nil t
  rw [scan, hdrop, htake]

theorem at_append (k : Nat) : at_ (a ++ b) (a.length + k + 1) = b[k]? := by
  rw [at_, if_neg (Nat.succ_ne_zero _), Nat.add_sub_cancel, List.getElem?_append_right (by omega),
    Nat.add_sub_cancel_left]

theorem extract_prefix : extract (a ++ b) 1 a.length = a := by
  rw [extract, List.take_left]
  rfl

theorem extract_middle : extract (a ++ t ++ b) (a.length + 1) (a.length + t.length) = t := by
  rw [extract, ← List.length_append, List.take_left, Nat.add_sub_cancel, List.drop_left]

theorem extract_suffix : extract (a ++ b) (a.length + 1) (a ++ b).length = b := by
  rw [extract, List.take_length, Nat.add_sub_cancel, List.drop_left]

variable [DecidableEq α]

/-- `$find(s,c,pos)`: the position behind the first `c` from `pos` on, and zero if there is none. -/
def find (s : List α) (c : α) (pos : Nat) : Nat :=
  match (s.drop (pos - 1)).idxOf? c with
  | none => 0
  | some k => pos - 1 + k + 2

theorem idxOf?_append (h : c ∉ a) : (a ++ c :: b).idxOf? c = some a.length := by
  induction a with
  | nil => simp [List.idxOf?_cons]
  | cons d a ih =>
    rw [List.mem_cons, not_or] at h
    have hne : (d == c) = false := by simpa using Ne.symm h.1
    rw [List.cons_append, List.idxOf?_cons, hne, ih h.2]
    rfl

theorem find_none (h : c ∉ s.drop (pos - 1)) : find s c pos = 0 := by
  rw [find, List.idxOf?_eq_none_iff.mpr h]

theorem find_append (h : c ∉ a.drop (pos - 1)) (hpos : pos - 1 ≤ a.length) :
    find (a ++ c :: b) c pos = a.length + 2 := by
  have hdrop : (a ++ c :: b).drop (pos - 1) = a.drop (pos - 1) ++ c :: b :=
    List.drop_append_of_le_length hpos
  rw [find, hdrop, idxOf?_append h]
  dsimp only
  rw [List.length_drop]
  omega

end YdbTest.Positions
