import Mathlib.Logic.Function.Iterate
import Mathlib.Tactic.Common

namespace YdbTest.Orbits

variable {α : Type*} (f : α → α) (a : α)

/-- From `n` it takes `k` steps to come to `a` for the first time. -/
def Steps (n : α) (k : Nat) : Prop := f^[k] n = a ∧ ∀ j < k, f^[j] n ≠ a

variable {f a} {n v c : α} {k l : Nat} {S S' : α → Prop} {p q : List α}

theorem steps_self : Steps f a a 0 := ⟨rfl, fun j hj => absurd hj (Nat.not_lt_zero j)⟩

theorem steps_zero (h : Steps f a n 0) : n = a := h.1

theorem steps_succ (hn : n ≠ a) : Steps f a n (k + 1) ↔ Steps f a (f n) k := by
  constructor
  · rintro ⟨hk, hlt⟩
    exact ⟨hk, fun j hj => hlt (j + 1) (Nat.succ_lt_succ hj)⟩
  · rintro ⟨hk, hlt⟩
    refine ⟨hk, fun j hj => ?_⟩
    cases j with
    | zero => exact hn
    | succ j => exact hlt j (Nat.lt_of_succ_lt_succ hj)

theorem Steps.unique (h : Steps f a n k) (h' : Steps f a n l) : k = l := by
  obtain hlt | he | hlt := Nat.lt_trichotomy k l
  · exact absurd h.1 (h'.2 k hlt)
  · exact he
  · exact absurd h'.1 (h.2 l hlt)

theorem Steps.pos (h : Steps f a n k) (hn : n ≠ a) : 0 < k := by
  cases k with
  | zero => exact absurd (steps_zero h) hn
  | succ k => exact Nat.succ_pos k

theorem Steps.next (h : Steps f a n k) (hn : n ≠ a) : ∃ l, k = l + 1 ∧ Steps f a (f n) l := by
  cases k with
  | zero => exact absurd (steps_zero h) hn
  | succ k => exact ⟨k, rfl, (steps_succ hn).mp h⟩

theorem Steps.congr {g : α → α} (h : Steps f a n k) (hg : ∀ j < k, g (f^[j] n) = f (f^[j] n)) :
    (∀ j ≤ k, g^[j] n = f^[j] n) ∧ Steps g a n k := by
  have heq : ∀ j ≤ k, g^[j] n = f^[j] n := by
    intro j hj
    induction j with
    | zero => rfl
    | succ j ih =>
      rw [Function.iterate_succ_apply', ih (Nat.le_of_succ_le hj), hg j hj,
        Function.iterate_succ_apply']
  refine ⟨heq, (heq k (Nat.le_refl _)).trans h.1, fun j hj => ?_⟩
  rw [heq j (Nat.le_of_lt hj)]
  exact h.2 j hj

theorem Steps.drop {j : Nat} (h : Steps f a n k) (hj : j ≤ k) : Steps f a (f^[j] n) (k - j) := by
  refine ⟨?_, fun i hi => ?_⟩
  · rw [← Function.iterate_add_apply, Nat.sub_add_cancel hj]
    exact h.1
  · rw [← Function.iterate_add_apply]
    exact h.2 _ (by omega)

variable (f a S) in
/-- What is reached from `c`, by a step at least, before a step would leave `a` or a member of
`S`. -/
inductive Walked : α → α → Prop
  | one {c : α} (hc : c ≠ a) (hS : ¬ S c) : Walked c (f c)
  | more {c v : α} (hc : c ≠ a) (hS : ¬ S c) (h : Walked (f c) v) : Walked c v

theorem walked_iff : Walked f a S c v ↔ c ≠ a ∧ ¬ S c ∧ (v = f c ∨ Walked f a S (f c) v) := by
  constructor
  · intro h
    cases h with
    | one hc hS => exact ⟨hc, hS, Or.inl rfl⟩
    | more hc hS h => exact ⟨hc, hS, Or.inr h⟩
  · rintro ⟨hc, hS, rfl | h⟩
    · exact Walked.one hc hS
    · exact Walked.more hc hS h

theorem Walked.mono (hS : ∀ n, S n → S' n) (h : Walked f a S' c v) : Walked f a S c v := by
  induction h with
  | one hc hn => exact Walked.one hc fun h => hn (hS _ h)
  | more hc hn _ ih => exact Walked.more hc (fun h => hn (hS _ h)) ih

theorem walked_all (h : Steps f a c k) :
    Walked f a (fun _ => False) c v ↔ ∃ j, 1 ≤ j ∧ j ≤ k ∧ f^[j] c = v := by
  induction k generalizing c with
  | zero =>
    have hc := steps_zero h
    subst hc
    refine iff_of_false (fun h => (walked_iff.mp h).1 rfl) ?_
    rintro ⟨j, h1, h0, -⟩
    omega
  | succ k ih =>
    have hc : c ≠ a := h.2 0 (Nat.succ_pos k)
    rw [walked_iff, ih ((steps_succ hc).mp h)]
    constructor
    · rintro ⟨-, -, rfl | ⟨j, h1, hk, rfl⟩⟩
      · exact ⟨1, (Nat.le_refl _), by omega, rfl⟩
      · exact ⟨j + 1, by omega, by omega, rfl⟩
    · rintro ⟨j, h1, hk, rfl⟩
      refine ⟨hc, id, ?_⟩
      obtain rfl | hj := Nat.eq_or_lt_of_le h1
      · exact Or.inl rfl
      · exact Or.inr ⟨j - 1, by omega, by omega, by
          rw [← Function.iterate_succ_apply]
          congr
          omega⟩

theorem Walked.extend (h : Walked f a S c v) (hv : v ≠ a) (hS : ¬ S v) : Walked f a S c (f v) := by
  induction h with
  | one hc hn => exact Walked.more hc hn (Walked.one hv hS)
  | more hc hn _ ih => exact Walked.more hc hn (ih hv hS)

variable (f a S) in
/-- The steps from `c` lead through the members of the list to `n`. -/
inductive Leads (c : α) : List α → α → Prop
  | nil : Leads c [] c
  | snoc {p : List α} {n : α} (h : Leads c p n) (hn : n ≠ a) (hS : ¬ S n) : Leads c (p ++ [n]) (f n)

theorem leads_nil (h : Leads f a S c [] n) : n = c := by
  generalize hp : ([] : List α) = p at h
  cases h with
  | nil => rfl
  | snoc => simp at hp

theorem Leads.walked (h : Leads f a S c p n) (hp : p ≠ []) : Walked f a S c n := by
  induction h with
  | nil => exact absurd rfl hp
  | @snoc p n h hn hS ih =>
    by_cases hnil : p = []
    · subst hnil
      rw [leads_nil h] at hn hS ⊢
      exact Walked.one hn hS
    · exact (ih hnil).extend hn hS

theorem Leads.head (h : Leads f a S c p n) (hp : p ≠ []) : c ≠ a ∧ ¬ S c := by
  obtain ⟨hc, hS, -⟩ := walked_iff.mp (h.walked hp)
  exact ⟨hc, hS⟩

theorem Leads.head_mem (h : Leads f a S c p n) (hp : p ≠ []) : c ∈ p := by
  induction h with
  | nil => exact absurd rfl hp
  | @snoc p n h hn hS ih =>
    by_cases hnil : p = []
    · subst hnil
      rw [leads_nil h]
      exact List.mem_append_right _ List.mem_cons_self
    · exact List.mem_append_left _ (ih hnil)

theorem Leads.mem_walked (h : Leads f a S c p n) : ∀ x ∈ p, x = c ∨ Walked f a S c x := by
  induction h with
  | nil => exact fun x hx => absurd hx List.not_mem_nil
  | @snoc p n h hn hS ih =>
    intro x hx
    obtain hx | hx := List.mem_append.mp hx
    · exact ih x hx
    · rw [List.mem_singleton.mp hx]
      by_cases hnil : p = []
      · subst hnil
        exact Or.inl (leads_nil h)
      · exact Or.inr (h.walked hnil)

theorem Leads.bound {B : α → Prop} (h : Leads f a S c p n) (hp : ∀ x ∈ p.tail, B x)
    (hn : p ≠ [] → B n) (hw : ∀ v, Walked f a S n v → B v) :
    ∀ x ∈ p, ∀ v, Walked f a S x v → B v := by
  induction h with
  | nil => exact fun x hx => absurd hx List.not_mem_nil
  | @snoc p m h hm hS ih =>
    have hlast : ∀ v, Walked f a S m v → B v := by
      intro v hv
      obtain ⟨-, -, rfl | hv⟩ := walked_iff.mp hv
      · exact hn (by simp)
      · exact hw v hv
    intro x hx
    obtain hx | hx := List.mem_append.mp hx
    · have hne : p ≠ [] := List.ne_nil_of_mem hx
      rw [List.tail_append_of_ne_nil hne] at hp
      apply ih (fun y hy => hp y (List.mem_append_left _ hy)) _ hlast x hx
      exact fun _ => hp m (List.mem_append_right _ List.mem_cons_self)
    · rw [List.mem_singleton.mp hx]
      exact hlast

theorem Leads.steps (h : Leads f a S c p n) (hk : Steps f a n k) :
    Steps f a c (p.length + k) ∧
      ∀ x j, (x, j) ∈ p.zipIdx → Steps f a x (p.length + k - j) := by
  induction h generalizing k with
  | nil => exact ⟨by simpa using hk, fun x j hx => absurd hx List.not_mem_nil⟩
  | @snoc p m h hm hS ih =>
    have hlen : (p ++ [m]).length + k = p.length + (k + 1) := by
      rw [List.length_append, List.length_singleton]
      omega
    rw [hlen]
    have hm' := (steps_succ hm).mpr hk
    obtain ⟨hc, hx⟩ := ih hm'
    refine ⟨hc, ?_⟩
    intro x j hxj
    rw [List.zipIdx_append, List.mem_append] at hxj
    obtain hxj | hxj := hxj
    · exact hx x j hxj
    · obtain ⟨rfl, rfl⟩ : x = m ∧ j = p.length := by simpa using hxj
      rwa [Nat.add_sub_cancel_left]

end YdbTest.Orbits
