import YdbTest.MString

namespace YdbTest.Literal

open MString

def quote : Nat := 34

def backslash : Nat := 92

/-- What a letter behind a backslash stands for. -/
def letters : List (Nat × Nat) :=
  [(quote, quote), (backslash, backslash), (102, 12), (110, 10), (114, 13), (116, 9)]

def hex (c : Nat) : Option Nat :=
  if 48 ≤ c ∧ c ≤ 57 then some (c - 48)
  else if 65 ≤ c ∧ c ≤ 70 then some (c - 55)
  else if 97 ≤ c ∧ c ≤ 102 then some (c - 87)
  else none

/-- The character that an escape sequence stands for, and the length of the sequence without its
backslash. Other backslashes stand for themselves. -/
def escape : Str → Option (Nat × Nat)
  | [] => none
  | c :: s =>
    if c = 120 then
      (hex (s.getD 0 0)).bind fun x => (hex (s.getD 1 0)).map fun y => (16 * x + y, 3)
    else (letters.lookup c).map (·, 1)

/-- The value of a string up to its closing quote, and the text behind it; `k` characters belong to
the escape sequence before. -/
def read : Nat → Str → Option (Str × Str)
  | _, [] => none
  | k + 1, _ :: s => read k s
  | 0, c :: s =>
    if c = quote then some ([], s)
    else
      match if c = backslash then escape s else none with
      | some (d, k) => (read k s).map fun (v, r) => (d :: v, r)
      | none => (read 0 s).map fun (v, r) => (c :: v, r)

def Kept : Str → Prop
  | [] => True
  | c :: s => c ≠ quote ∧ (c = backslash → escape (s ++ [quote]) = none) ∧ Kept s

instance : DecidablePred Kept := fun s => by
  induction s with
  | nil => exact isTrue trivial
  | cons c s ih => exact inferInstanceAs (Decidable (_ ∧ _ ∧ _))

variable {s v r : Str} {k : Nat}

theorem escape_quote (s r : Str) : escape (s ++ quote :: r) = escape (s ++ [quote]) := by
  have hquote : hex quote = none := rfl
  match s with
  | [] => rfl
  | [c] => simp [escape, hquote]
  | [c, a] => simp [escape, hquote]
  | c :: a :: b :: s => simp [escape]

theorem escape_pos {d : Nat} (h : escape s = some (d, k)) : 1 ≤ k := by
  cases s with
  | nil => cases h
  | cons c s =>
    rw [escape] at h
    split at h
    · obtain ⟨x, -, hy⟩ := Option.bind_eq_some_iff.mp h
      obtain ⟨y, -, hk⟩ := Option.map_eq_some_iff.mp hy
      obtain ⟨-, rfl⟩ := Prod.mk.injEq .. ▸ hk
      decide
    · obtain ⟨x, -, hk⟩ := Option.map_eq_some_iff.mp h
      obtain ⟨-, rfl⟩ := Prod.mk.injEq .. ▸ hk
      decide

theorem map_some_iff {o : Option (Str × Str)} {d : Nat} :
    o.map (fun (v, r) => (d :: v, r)) = some (v, r) ↔ ∃ w, o = some (w, r) ∧ v = d :: w := by
  constructor
  · intro h
    obtain ⟨⟨w, r'⟩, ho, hv⟩ := Option.map_eq_some_iff.mp h
    cases hv
    exact ⟨w, ho, rfl⟩
  · rintro ⟨w, rfl, rfl⟩
    rfl

theorem read_length (h : read k s = some (v, r)) : v.length + k + r.length + 1 ≤ s.length := by
  induction s generalizing k v with
  | nil =>
    rw [read] at h
    cases h
  | cons c s ih =>
    rw [List.length_cons]
    cases k with
    | succ k =>
      rw [read] at h
      have := ih h
      omega
    | zero =>
      rw [read] at h
      split at h
      · cases h
        rw [List.length_nil]
        omega
      · split at h
        · obtain ⟨w, hw, rfl⟩ := map_some_iff.mp h
          have := ih hw
          rw [List.length_cons]
          omega
        · obtain ⟨w, hw, rfl⟩ := map_some_iff.mp h
          have := ih hw
          rw [List.length_cons]
          omega

theorem read_quote (r : Str) : read 0 (quote :: r) = some ([], r) := by
  rw [read, if_pos rfl]

theorem read_char {c : Nat} (hc : c ≠ quote) (he : c = backslash → escape (s ++ [quote]) = none) :
    read 0 (c :: (s ++ quote :: r)) =
      (read 0 (s ++ quote :: r)).map fun (v, r) => (c :: v, r) := by
  have hnone : (if c = backslash then escape (s ++ quote :: r) else none) = none := by
    split
    · rename_i hb
      rw [escape_quote, he hb]
    · rfl
  rw [read, if_neg hc, hnone]

theorem read_kept (hs : Kept s) (r : Str) : read 0 (s ++ quote :: r) = some (s, r) := by
  induction s with
  | nil => exact read_quote r
  | cons c s ih =>
    obtain ⟨hc, he, hs⟩ := hs
    rw [List.cons_append, read_char hc he, ih hs]
    rfl

theorem read_short (h : read 0 (s ++ quote :: r) = some (v, r)) (hs : ¬ Kept s) :
    v.length < s.length := by
  induction s generalizing v with
  | nil => exact absurd trivial hs
  | cons c s ih =>
    by_cases hc : c = quote
    · rw [hc, List.cons_append, read_quote, Option.some.injEq, Prod.mk.injEq] at h
      have := congrArg List.length h.2
      rw [List.length_append, List.length_cons] at this
      omega
    · by_cases he : c = backslash → escape (s ++ [quote]) = none
      · rw [List.cons_append, read_char hc he] at h
        obtain ⟨w, hw, rfl⟩ := map_some_iff.mp h
        have := ih hw fun hk => hs ⟨hc, he, hk⟩
        rw [List.length_cons, List.length_cons]
        omega
      · obtain ⟨rfl, hseq⟩ := Classical.not_imp.mp he
        obtain ⟨⟨d, k⟩, hk⟩ := Option.ne_none_iff_exists'.mp hseq
        rw [List.cons_append, read, if_neg hc, if_pos rfl, escape_quote, hk] at h
        obtain ⟨w, hw, rfl⟩ := map_some_iff.mp h
        have hread := read_length hw
        have hpos := escape_pos hk
        rw [List.length_append, List.length_cons] at hread
        rw [List.length_cons, List.length_cons]
        omega

end YdbTest.Literal
