import YdbTest.Awk

namespace YdbTest.Printf

open Awk

/-- Where a directive of a format is: at its flags and its width, behind its point, behind a minus
there, in the digits of its precision, or behind them. -/
inductive Place
  | width
  | precision
  | negative
  | digits
  | closed

/-- What has been read behind the percent sign. -/
structure Directive where
  text : Text
  place : Place
  modifiers : List Char

inductive Next
  | more (d : Directive)
  | percent
  /-- No directive: what has been read is text. -/
  | literal
  /-- An argument is asked for, and there is none. -/
  | fatal

def Directive.next (d : Directive) (c : Char) : Next :=
  let go (place : Place) : Next := .more { d with text := d.text ++ [c], place := place }
  if c = '%' then .percent
  else if c.isDigit then
    match d.place with
    | .width => go .width
    | .closed => .literal
    | _ => go .digits
  else if c ∈ " +#'".toList then
    match d.place with
    | .width => go .width
    | _ => .literal
  else if c = '-' then
    match d.place with
    | .width => go .width
    | .precision => go .negative
    | _ => .literal
  else if c = '.' then
    match d.place with
    | .width => go .precision
    | _ => .literal
  else if c = '*' then
    match d.place with
    | .digits | .closed => .literal
    | _ => .fatal
  else if c ∈ "hlL".toList then
    if c ∈ d.modifiers then .literal
    else .more ⟨d.text ++ [c], if d.place matches .digits then .closed else d.place,
      c :: d.modifiers⟩
  else if c ∈ "$aAcdeEfFgGiosuxX".toList then .fatal
  else .literal

def printfFrom : Option Directive → Text → Option Text
  | none, [] => some []
  | some d, [] => some ('%' :: d.text)
  | none, c :: s =>
    if c = '%' then printfFrom (some ⟨[], .width, []⟩) s else (printfFrom none s).map (c :: ·)
  | some d, c :: s =>
    match d.next c with
    | .more d => printfFrom (some d) s
    | .percent => (printfFrom none s).map ('%' :: ·)
    | .literal => (printfFrom none s).map (('%' :: (d.text ++ [c])) ++ ·)
    | .fatal => none

/-- awk's `printf` with a text as its format and nothing else. -/
def printf (s : Text) : Option Text := printfFrom none s

def Short (r s : Text) : Prop := r.length ≤ s.length ∧ (r.length = s.length → r = s)

variable {r s t v w : Text} {d d' : Directive} {c : Char}

theorem Short.refl (s : Text) : Short s s := ⟨Nat.le_refl _, fun _ => rfl⟩

theorem Short.antisymm (h : Short r s) (h' : Short s r) : r = s := h.2 (Nat.le_antisymm h.1 h'.1)

theorem Short.append (h : Short r s) (h' : Short v w) : Short (r ++ v) (s ++ w) := by
  constructor
  · simpa using Nat.add_le_add h.1 h'.1
  · intro heq
    have hr := h.1
    have hv := h'.1
    rw [List.length_append, List.length_append] at heq
    rw [h.2 (by omega), h'.2 (by omega)]

theorem Short.cons (h : Short r s) (c : Char) : Short (c :: r) (c :: s) :=
  Short.append (Short.refl [c]) h

theorem text_of_more (h : d.next c = .more d') : d'.text = d.text ++ [c] := by
  unfold Directive.next at h
  simp only at h
  split_ifs at h <;> (try split at h) <;> first | exact Next.noConfusion h | skip
  all_goals rw [← Next.more.inj h]

theorem printfFrom_short (o : Option Directive) (h : printfFrom o s = some r) :
    Short r ((o.elim [] fun d => '%' :: d.text) ++ s) := by
  induction s generalizing o r with
  | nil =>
    cases o with
    | none => exact Option.some.inj h ▸ Short.refl _
    | some d =>
      rw [List.append_nil]
      exact Option.some.inj h ▸ Short.refl _
  | cons c s ih =>
    cases o with
    | none =>
      rw [printfFrom] at h
      split at h
      · rename_i hc
        rw [hc]
        exact ih (some ⟨[], .width, []⟩) h
      · obtain ⟨u, hu, rfl⟩ := Option.map_eq_some_iff.mp h
        exact (ih none hu).cons c
    | some d =>
      have hwhole : ('%' :: d.text) ++ c :: s = ('%' :: (d.text ++ [c])) ++ s := by simp
      rw [printfFrom] at h
      rw [Option.elim_some, hwhole]
      cases hnext : d.next c with
      | more d' =>
        rw [hnext] at h
        rw [← text_of_more hnext]
        exact ih (some d') h
      | percent =>
        rw [hnext] at h
        obtain ⟨u, hu, rfl⟩ := Option.map_eq_some_iff.mp h
        have hle := (ih none hu).1
        simp only [Option.elim_none, List.nil_append] at hle
        constructor
        · simp only [List.length_cons, List.length_append]
          omega
        · intro heq
          simp only [List.length_cons, List.length_append, List.length_nil] at heq
          omega
      | literal =>
        rw [hnext] at h
        obtain ⟨u, hu, rfl⟩ := Option.map_eq_some_iff.mp h
        exact Short.append (Short.refl _) (ih none hu)
      | fatal =>
        rw [hnext] at h
        exact nomatch h

theorem printf_short (h : printf s = some r) : Short r s := printfFrom_short none h

/-- A percent sign that a width stands before is printed without it, and `%$` has no argument. -/
example : printf "100%5%".toList = some "100%".toList ∧ printf "%.l.".toList = some "%.l.".toList ∧
    printf "%$".toList = none := by decide

end YdbTest.Printf
