import Mathlib.Data.List.Basic
import Mathlib.Tactic.Common

namespace YdbTest.Asserts

/-- How a program may end before its end: at an assertion that fails, or at a variable that has no
value. -/
inductive Stop where
  | assert | undef
  deriving DecidableEq

variable {α β σ : Type} {A : Stop → Prop} {m : Except Stop α} {f : α → Except Stop β}
  {P Q : α → Prop} {R : β → Prop}

def value : Option α → Except Stop α
  | some a => .ok a
  | none => .error .undef

def assert (c : Bool) : Except Stop Unit := if c then .ok () else .error .assert

def Ensures (A : Stop → Prop) (m : Except Stop α) (P : α → Prop) : Prop :=
  match m with
  | .ok a => P a
  | .error e => A e

@[simp] theorem value_some (a : α) : value (some a) = .ok a := rfl

@[simp] theorem assert_true : assert true = .ok () := rfl

@[simp] theorem ok_bind (a : α) (f : α → Except Stop β) : (Except.ok a >>= f) = f a := rfl

theorem Ensures.pure {a : α} (h : P a) : Ensures A (.ok a) P := h

theorem Ensures.mono (h : Ensures A m P) (hPQ : ∀ a, P a → Q a) : Ensures A m Q := by
  cases m with
  | ok a => exact hPQ a h
  | error e => exact h

theorem Ensures.bind (h : Ensures A m P) (hf : ∀ a, P a → Ensures A (f a) R) :
    Ensures A (m >>= f) R := by
  cases m with
  | ok a => exact hf a h
  | error e => exact h

theorem Ensures.attach (h : Ensures A m P) : Ensures A m fun a => m = .ok a ∧ P a := by
  cases m with
  | ok a => exact ⟨rfl, h⟩
  | error e => exact h

theorem Ensures.value {o : Option α} (hA : A .undef ∨ o.isSome = true) :
    Ensures A (value o) fun a => o = some a := by
  cases o with
  | some a => exact rfl
  | none => exact hA.elim id fun h => by cases h

theorem Ensures.foldlM {Inv : σ → Prop} {step : σ → α → Except Stop σ} {s : σ} {l : List α}
    (hstep : ∀ a ∈ l, ∀ s, Inv s → Ensures A (step s a) Inv) (h : Inv s) :
    Ensures A (l.foldlM step s) Inv := by
  induction l generalizing s with
  | nil => exact h
  | cons a l ih =>
    rw [List.forall_mem_cons] at hstep
    rw [List.foldlM_cons]
    exact (hstep.1 s h).bind fun s' hs' => ih hstep.2 hs'

theorem Ensures.exists_ok (h : Ensures (fun _ => False) m P) : ∃ a, m = .ok a ∧ P a := by
  cases m with
  | ok a => exact ⟨a, rfl, h⟩
  | error e => exact h.elim

end YdbTest.Asserts
