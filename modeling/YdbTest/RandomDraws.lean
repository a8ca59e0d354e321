import Mathlib.Tactic.Common

namespace YdbTest.RandomDraws

/-- What `$random` is still going to draw, zeros once the list has ended, and the variables of the
program. -/
structure Supply (σ : Type) where
  draws : List Nat
  vars : σ

abbrev Gen (σ α : Type) := StateT (Supply σ) Option α

variable {σ α β : Type}

def random (n : Nat) : Gen σ Nat := fun ρ =>
  match ρ.draws with
  | [] => some (0, ρ)
  | d :: ds => some (d % n, { ρ with draws := ds })

/-- A text that is chosen by a draw of 0 or 1: `$select($random(2):a,1:b)` -/
def either (a b : α) : Gen σ α := do
  let n ← random 2
  return if n ≠ 0 then a else b

def Gives (m : Gen σ α) (ρ : Supply σ) (P : α → Supply σ → Prop) : Prop :=
  ∃ x ρ', m ρ = some (x, ρ') ∧ P x ρ'

structure Drawn (ρ ρ' : Supply σ) : Prop where
  draws : ρ'.draws.length ≤ ρ.draws.length
  vars : ρ'.vars = ρ.vars

/-- The program ends having made draws only. -/
def Quiet (m : Gen σ α) (P : α → Prop) : Prop := ∀ ρ, Gives m ρ fun x ρ' => Drawn ρ ρ' ∧ P x

variable {m : Gen σ α} {f : α → Gen σ β} {ρ ρ' ρ'' : Supply σ} {P : α → Supply σ → Prop}
  {Q : β → Supply σ → Prop}

theorem Gives.pure {x : α} (h : P x ρ) : Gives (pure x) ρ P := ⟨x, ρ, rfl, h⟩

theorem Gives.bind {Q : β → Supply σ → Prop} (h : Gives m ρ P)
    (hf : ∀ x ρ', P x ρ' → Gives (f x) ρ' Q) : Gives (m >>= f) ρ Q := by
  obtain ⟨x, ρ', hm, hx⟩ := h
  obtain ⟨y, ρ'', hy, hQ⟩ := hf x ρ' hx
  refine ⟨y, ρ'', ?_, hQ⟩
  change (m ρ).bind (fun p => f p.1 p.2) = _
  rw [hm]
  exact hy

theorem Gives.mono {Q : α → Supply σ → Prop} (h : Gives m ρ P) (hPQ : ∀ x ρ', P x ρ' → Q x ρ') :
    Gives m ρ Q := by
  obtain ⟨x, ρ', hm, hx⟩ := h
  exact ⟨x, ρ', hm, hPQ x ρ' hx⟩

theorem Gives.get {f : Supply σ → Gen σ β} {Q : β → Supply σ → Prop} (h : Gives (f ρ) ρ Q) :
    Gives (get >>= f) ρ Q := by
  obtain ⟨y, ρ', hy, hQ⟩ := h
  exact ⟨y, ρ', hy, hQ⟩

theorem Gives.modify {g : Supply σ → Supply σ} {f : Gen σ β} {Q : β → Supply σ → Prop}
    (h : Gives f (g ρ) Q) : Gives (modify g >>= fun _ => f) ρ Q := by
  obtain ⟨y, ρ', hy, hQ⟩ := h
  exact ⟨y, ρ', hy, hQ⟩

theorem Drawn.refl (ρ : Supply σ) : Drawn ρ ρ := ⟨Nat.le_refl _, rfl⟩

theorem Drawn.trans (h : Drawn ρ ρ') (h' : Drawn ρ' ρ'') : Drawn ρ ρ'' :=
  ⟨Nat.le_trans h'.draws h.draws, h'.vars.trans h.vars⟩

theorem random_gives (n : Nat) (ρ : Supply σ) :
    Gives (random n) ρ fun x ρ' => ρ'.draws.length = ρ.draws.length - 1 ∧ ρ'.vars = ρ.vars ∧
      (ρ.draws = [] → x = 0) := by
  obtain ⟨draws, vars⟩ := ρ
  cases draws with
  | nil => exact ⟨0, _, rfl, rfl, rfl, fun _ => rfl⟩
  | cons d ds => exact ⟨d % n, ⟨ds, vars⟩, rfl, rfl, rfl, fun h => by cases h⟩

section Quiet

variable {P : α → Prop} {Q : β → Prop}

theorem Quiet.pure {x : α} (h : P x) : Quiet (σ := σ) (pure x) P :=
  fun ρ => Gives.pure ⟨Drawn.refl ρ, h⟩

theorem Quiet.bind (h : Quiet m P) (hf : ∀ x, P x → Quiet (f x) Q) : Quiet (m >>= f) Q := by
  intro ρ
  refine (h ρ).bind fun x ρ' ⟨hd, hx⟩ => ((hf x hx) ρ').mono fun y ρ'' ⟨hd', hy⟩ => ?_
  exact ⟨hd.trans hd', hy⟩

theorem Quiet.random (n : Nat) : Quiet (σ := σ) (random n) fun _ => True := by
  intro ρ
  refine (random_gives n ρ).mono fun x ρ' ⟨hlen, hvars, _⟩ => ⟨⟨?_, hvars⟩, trivial⟩
  rw [hlen]
  exact Nat.sub_le _ _

theorem Quiet.random_lt {n : Nat} (hn : 0 < n) : Quiet (σ := σ) (RandomDraws.random n) (· < n) := by
  rintro ⟨draws, vars⟩
  cases draws with
  | nil => exact ⟨0, _, rfl, .refl _, hn⟩
  | cons d ds => exact ⟨d % n, ⟨ds, vars⟩, rfl, ⟨Nat.le_succ _, rfl⟩, Nat.mod_lt d hn⟩

theorem Quiet.either {a b : α} (ha : P a) (hb : P b) : Quiet (σ := σ) (either a b) P := by
  refine (Quiet.random 2).bind fun n _ => Quiet.pure ?_
  split
  · exact ha
  · exact hb

end Quiet

end YdbTest.RandomDraws
