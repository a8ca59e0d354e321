import Mathlib.Data.List.Basic
import Mathlib.Tactic.Common

namespace YdbTest

/-- A program that takes its numbers from the front of a list. It gives nothing when the numbers do
not last or one of them is too large; what it leaves has no influence on what it gives. -/
structure Draw (α : Type) where
  run : List Nat → Option (α × List Nat)
  front : ∀ ds a rest, run ds = some (a, rest) →
    ∃ used, ds = used ++ rest ∧ ∀ more, run (used ++ more) = some (a, more)

namespace Draw

variable {α β : Type} {m : Draw α} {f : α → Draw β} {a : α} {b : β} {d n : Nat} {ds rest : List Nat}

def Can (m : Draw α) (a : α) : Prop := ∃ ds rest, m.run ds = some (a, rest)

theorem can_iff : m.Can a ↔ ∃ used, ∀ more, m.run (used ++ more) = some (a, more) := by
  constructor
  · rintro ⟨ds, rest, h⟩
    obtain ⟨used, -, hused⟩ := m.front ds a rest h
    exact ⟨used, hused⟩
  · rintro ⟨used, hused⟩
    exact ⟨used ++ [], [], hused []⟩

instance : Monad Draw where
  pure a :=
    { run := fun ds => some (a, ds)
      front := by
        rintro ds b rest h
        obtain ⟨rfl, rfl⟩ := Prod.mk.inj (Option.some.inj h)
        exact ⟨[], rfl, fun more => rfl⟩ }
  bind m f :=
    { run := fun ds => (m.run ds).bind fun p => (f p.1).run p.2
      front := by
        intro ds b rest h
        obtain ⟨⟨a, mid⟩, hm, hf⟩ := Option.bind_eq_some_iff.mp h
        obtain ⟨used, rfl, hused⟩ := m.front ds a mid hm
        obtain ⟨used', rfl, hused'⟩ := (f a).front mid b rest hf
        refine ⟨used ++ used', (List.append_assoc _ _ _).symm, fun more => ?_⟩
        rw [List.append_assoc, hused, Option.bind_some]
        exact hused' more }

theorem run_bind : (m >>= f).run ds = (m.run ds).bind fun p => (f p.1).run p.2 := rfl

theorem can_pure {b : α} : (pure a : Draw α).Can b ↔ b = a := by
  constructor
  · rintro ⟨ds, rest, h⟩
    exact (Prod.mk.inj (Option.some.inj h)).1.symm
  · rintro rfl
    exact ⟨[], [], rfl⟩

theorem can_bind : (m >>= f).Can b ↔ ∃ a, m.Can a ∧ (f a).Can b := by
  constructor
  · rintro ⟨ds, rest, h⟩
    obtain ⟨⟨a, mid⟩, hm, hf⟩ := Option.bind_eq_some_iff.mp h
    exact ⟨a, ⟨ds, mid, hm⟩, mid, rest, hf⟩
  · rintro ⟨a, hm, hf⟩
    obtain ⟨used, hused⟩ := can_iff.mp hm
    obtain ⟨used', hused'⟩ := can_iff.mp hf
    refine ⟨used ++ (used' ++ []), [], ?_⟩
    rw [run_bind, hused, Option.bind_some]
    exact hused' []

def random (n : Nat) : Draw Nat where
  run
    | [] => none
    | d :: ds => if d < n then some (d, ds) else none
  front := by
    intro ds a rest h
    cases ds with
    | nil => cases h
    | cons d ds =>
      obtain ⟨hd, h⟩ := Option.ite_none_right_eq_some.mp h
      obtain ⟨rfl, rfl⟩ := Prod.mk.inj (Option.some.inj h)
      exact ⟨[d], rfl, fun more => if_pos hd⟩

theorem can_random : (random n).Can d ↔ d < n := by
  constructor
  · rintro ⟨ds, rest, h⟩
    cases ds with
    | nil => cases h
    | cons e ds =>
      obtain ⟨he, h⟩ := Option.ite_none_right_eq_some.mp h
      rwa [← (Prod.mk.inj (Option.some.inj h)).1]
  · exact fun h => ⟨[d], [], if_pos h⟩

def ofOption : Option α → Draw α
  | some a => pure a
  | none => ⟨fun _ => none, fun _ _ _ h => absurd h (Option.some_ne_none _).symm⟩

theorem can_ofOption {o : Option α} : (ofOption o).Can a ↔ o = some a := by
  cases o with
  | none =>
    refine iff_of_false ?_ (Option.some_ne_none a).symm
    rintro ⟨ds, rest, h⟩
    cases h
  | some b =>
    rw [ofOption, can_pure, Option.some.injEq]
    exact eq_comm

def choose (l : List α) : Draw α := do
  let d ← random l.length
  ofOption l[d]?

theorem can_choose {l : List α} : (choose l).Can a ↔ a ∈ l := by
  simp only [choose, can_bind, can_random, can_ofOption, List.mem_iff_getElem?]
  constructor
  · rintro ⟨d, -, h⟩
    exact ⟨d, h⟩
  · rintro ⟨d, h⟩
    exact ⟨d, (List.getElem?_eq_some_iff.mp h).1, h⟩

def Uses (m : Draw α) : Prop := ∀ ds a rest, m.run ds = some (a, rest) → rest.length < ds.length

theorem uses_random : (random n).Uses := by
  intro ds a rest h
  obtain ⟨used, rfl, -⟩ := (random n).front ds a rest h
  cases used with
  | nil =>
    rw [List.nil_append] at h
    cases rest with
    | nil => cases h
    | cons d rest =>
      obtain ⟨-, h⟩ := Option.ite_none_right_eq_some.mp h
      exact absurd (congrArg List.length (Prod.mk.inj (Option.some.inj h)).2) (by simp)
  | cons d used =>
    rw [List.length_append, List.length_cons]
    omega

theorem Uses.bind (h : m.Uses) : (m >>= f).Uses := by
  intro ds b rest hrun
  obtain ⟨⟨a, mid⟩, hm, hf⟩ := Option.bind_eq_some_iff.mp hrun
  obtain ⟨used, rfl, -⟩ := (f a).front mid b rest hf
  have hlt := h ds a (used ++ rest) hm
  rw [List.length_append] at hlt
  omega

variable {m : Draw (Option α)}

def rounds (m : Draw (Option α)) : Nat → List Nat → Option (α × List Nat)
  | 0, _ => none
  | n + 1, ds =>
    (m.run ds).bind fun p => p.1.elim (rounds m n p.2) fun a => some (a, p.2)

theorem rounds_front (h : m.Uses) (hrun : rounds m n ds = some (a, rest)) :
    ∃ used, ds = used ++ rest ∧
      ∀ more k, used.length ≤ k → rounds m k (used ++ more) = some (a, more) := by
  induction n generalizing ds with
  | zero => cases hrun
  | succ n ih =>
    obtain ⟨⟨o, mid⟩, hm, hrest⟩ := Option.bind_eq_some_iff.mp hrun
    have hlt := h ds o mid hm
    obtain ⟨used, rfl, hused⟩ := m.front ds o mid hm
    rw [List.length_append] at hlt
    cases o with
    | none =>
      obtain ⟨used', rfl, hused'⟩ := ih hrest
      refine ⟨used ++ used', (List.append_assoc _ _ _).symm, fun more k hk => ?_⟩
      rw [List.length_append] at hk
      obtain ⟨k, rfl⟩ : ∃ j, k = j + 1 := ⟨k - 1, by omega⟩
      rw [List.append_assoc, rounds, hused, Option.bind_some]
      exact hused' more k (by omega)
    | some b =>
      obtain ⟨rfl, rfl⟩ := Prod.mk.inj (Option.some.inj hrest)
      refine ⟨used, rfl, fun more k hk => ?_⟩
      obtain ⟨k, rfl⟩ : ∃ j, k = j + 1 := ⟨k - 1, by omega⟩
      rw [rounds, hused]
      rfl

/-- `m` is run until it gives something. -/
def untilSome (m : Draw (Option α)) (h : m.Uses) : Draw α where
  run ds := rounds m (ds.length + 1) ds
  front := by
    intro ds a rest hrun
    obtain ⟨used, hds, hused⟩ := rounds_front h hrun
    refine ⟨used, hds, fun more => hused more _ ?_⟩
    rw [List.length_append]
    omega

theorem can_untilSome (h : m.Uses) : (m.untilSome h).Can a ↔ m.Can (some a) := by
  constructor
  · rintro ⟨ds, rest, hrun⟩
    change rounds m (ds.length + 1) ds = some (a, rest) at hrun
    generalize ds.length + 1 = n at hrun
    induction n generalizing ds with
    | zero => cases hrun
    | succ n ih =>
      obtain ⟨⟨o, mid⟩, hm, hrest⟩ := Option.bind_eq_some_iff.mp hrun
      cases o with
      | none => exact ih mid hrest
      | some b =>
        obtain ⟨rfl, rfl⟩ := Prod.mk.inj (Option.some.inj hrest)
        exact ⟨ds, mid, hm⟩
  · rintro ⟨ds, rest, hm⟩
    refine ⟨ds, rest, ?_⟩
    change rounds m (ds.length + 1) ds = some (a, rest)
    rw [rounds, hm]
    rfl

end Draw

end YdbTest
