import Mathlib.Data.List.Basic
import YdbTest.Regexp

namespace YdbTest.Regexp

variable {α : Type}

def findFrom (s : List α) (r : Ere α) (i : Nat) : Option (Nat × Nat) :=
  ((List.range (s.length + 1)).drop i).findSome? fun i => (ends s r i).max?.map fun j => (i, j)

def keepChar (s : List α) (i : Nat) (rest : List (List α)) : List (List α) :=
  match s[i]? with
  | none => [[]]
  | some c => rest.modifyHead (c :: ·)

/-- What is kept of the text from a position on when all matches are taken out. An empty match right
behind another match is none. -/
def parts (s : List α) (r : Ere α) : Nat → Nat → Bool → List (List α)
  | 0, i, _ => [s.drop i]
  | n + 1, i, behind =>
    match findFrom s r i with
    | none => [s.drop i]
    | some (a, b) =>
      if behind && a == i && b == i then keepChar s i (parts s r n (i + 1) false)
      else (s.take a).drop i ::
        if a == b then keepChar s a (parts s r n (a + 1) false)
        else if b < s.length then parts s r n b true
        else [[]]

/-- What `sub` and `gsub` keep of a text. -/
def kept (all : Bool) (r : Ere α) (s : List α) : List (List α) :=
  if all then parts s r (s.length + 1) 0 false
  else
    match find s r with
    | none => [s]
    | some (i, j) => [s.take i, s.drop j]

def matched (all : Bool) (r : Ere α) (s : List α) : Nat := (kept all r s).length - 1

/-- `sub(r,repl,s)` and `gsub(r,repl,s)` -/
def replace (all : Bool) (r : Ere α) (repl s : List α) : List α := repl.intercalate (kept all r s)

variable {all : Bool} {r : Ere α} {repl s t : List α}

theorem findFrom_zero (s : List α) (r : Ere α) : findFrom s r 0 = find s r := rfl

theorem keepChar_ne_nil {i : Nat} {rest : List (List α)} (h : rest ≠ []) :
    keepChar s i rest ≠ [] := by
  rw [keepChar]
  split
  · exact List.cons_ne_nil _ _
  · exact fun hnil => h (List.modifyHead_eq_nil_iff.mp hnil)

theorem parts_ne_nil (n i : Nat) (behind : Bool) : parts s r n i behind ≠ [] := by
  induction n generalizing i behind with
  | zero => exact List.cons_ne_nil _ _
  | succ n ih =>
    rw [parts]
    split
    · exact List.cons_ne_nil _ _
    · split
      · exact keepChar_ne_nil (ih _ _)
      · exact List.cons_ne_nil _ _

theorem matched_eq_zero : matched all r s = 0 ↔ find s r = none := by
  have htwo (x : List α) {rest : List (List α)} (h : rest ≠ []) : (x :: rest).length - 1 ≠ 0 := by
    have hlen := List.length_pos_iff.mpr h
    rw [List.length_cons]
    omega
  rw [matched, kept]
  cases all with
  | false =>
    rw [if_neg Bool.false_ne_true]
    cases find s r <;> simp
  | true =>
    rw [if_pos rfl, parts, findFrom_zero]
    cases find s r with
    | none => simp
    | some p =>
      refine ⟨fun h => absurd h (htwo _ ?_), nofun⟩
      split_ifs
      · exact keepChar_ne_nil (parts_ne_nil _ _ _)
      · exact parts_ne_nil _ _ _
      · exact List.cons_ne_nil _ _

theorem replace_of_none (h : find s r = none) : replace all r repl s = s := by
  rw [replace, kept]
  cases all with
  | false =>
    rw [if_neg Bool.false_ne_true, h]
    exact List.intercalate_singleton
  | true =>
    rw [if_pos rfl, parts, findFrom_zero, h]
    exact List.intercalate_singleton

theorem replace_eq_of_kept (h : kept all r s = kept all r t) :
    replace all r repl s = replace all r repl t := by
  rw [replace, h, replace]

theorem matched_eq_of_kept (h : kept all r s = kept all r t) :
    matched all r s = matched all r t := by
  rw [matched, h, matched]

end YdbTest.Regexp
