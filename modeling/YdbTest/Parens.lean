import Mathlib.Data.List.Basic

namespace YdbTest.Parens

abbrev Text := List Char

/-- The depth of parentheses behind a text that begins at depth `d`; none if one is closed that was
not opened. -/
def depth : Nat → Text → Option Nat
  | d, [] => some d
  | d, c :: t =>
    if c = '(' then depth (d + 1) t
    else if c = ')' then if d = 0 then none else depth (d - 1) t
    else depth d t

/-- From any depth the text leads back to it. -/
def Balanced (t : Text) : Prop := ∀ d, depth d t = some d

variable {a b t : Text} {c : Char} {d : Nat}

theorem depth_append (a b : Text) (d : Nat) :
    depth d (a ++ b) = (depth d a).bind fun e => depth e b := by
  induction a generalizing d with
  | nil => rfl
  | cons c a ih =>
    rw [List.cons_append, depth, depth]
    by_cases ho : c = '('
    · rw [if_pos ho, if_pos ho, ih]
    · rw [if_neg ho, if_neg ho]
      by_cases hc : c = ')'
      · rw [if_pos hc, if_pos hc]
        by_cases hd : d = 0
        · rw [if_pos hd, if_pos hd]
          rfl
        · rw [if_neg hd, if_neg hd, ih]
      · rw [if_neg hc, if_neg hc, ih]

theorem Balanced.nil : Balanced [] := fun _ => rfl

theorem Balanced.append (ha : Balanced a) (hb : Balanced b) : Balanced (a ++ b) := by
  intro d
  rw [depth_append, ha, Option.bind_some, hb]

theorem Balanced.cons (ho : c ≠ '(') (hc : c ≠ ')') (ht : Balanced t) : Balanced (c :: t) := by
  intro d
  rw [depth, if_neg ho, if_neg hc, ht]

theorem Balanced.wrap (ht : Balanced t) : Balanced ('(' :: (t ++ [')'])) := by
  intro d
  rw [depth, if_pos rfl, depth_append, ht, Option.bind_some]
  rfl

theorem Balanced.plain (h : ∀ c ∈ t, c ≠ '(' ∧ c ≠ ')') : Balanced t := by
  induction t with
  | nil => exact Balanced.nil
  | cons c t ih =>
    obtain ⟨⟨ho, hc⟩, h⟩ := List.forall_mem_cons.mp h
    exact (ih h).cons ho hc

theorem Balanced.call (ha : Balanced a) (ht : Balanced t) : Balanced (a ++ '(' :: (t ++ [')'])) :=
  ha.append ht.wrap

theorem Balanced.sep (ha : Balanced a) (ho : c ≠ '(') (hc : c ≠ ')') (hb : Balanced b) :
    Balanced (a ++ c :: b) := ha.append (hb.cons ho hc)

end YdbTest.Parens
