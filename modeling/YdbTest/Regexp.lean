import Mathlib.Data.List.Dedup
import Mathlib.Data.List.Infix
import Mathlib.Order.Basic
import Mathlib.Tactic.Common

namespace YdbTest.Regexp

/-- Extended regular expressions. A `look` takes no character and asks for the ones before and
behind it. -/
inductive Ere (α : Type) where
  | eps
  | sym (p : α → Bool)
  | look (p : Option α → Option α → Bool)
  | cat (r q : Ere α)
  | alt (r q : Ere α)
  | star (r : Ere α)

variable {α : Type}

def before (s : List α) (i : Nat) : Option α := if i = 0 then none else s[i - 1]?

/-- The expression matches the text from position `i` up to position `j`. -/
inductive Matches (s : List α) : Ere α → Nat → Nat → Prop
  | eps {i} : i ≤ s.length → Matches s .eps i i
  | sym {p i} : (s[i]?).any p = true → Matches s (.sym p) i (i + 1)
  | look {p i} : i ≤ s.length → p (before s i) s[i]? = true → Matches s (.look p) i i
  | cat {r q i j k} : Matches s r i j → Matches s q j k → Matches s (.cat r q) i k
  | left {r q i j} : Matches s r i j → Matches s (.alt r q) i j
  | right {r q i j} : Matches s q i j → Matches s (.alt r q) i j
  | done {r i} : i ≤ s.length → Matches s (.star r) i i
  | more {r i j k} : Matches s r i j → Matches s (.star r) j k → Matches s (.star r) i k

def turns (next : Nat → List Nat) : Nat → Nat → List Nat
  | 0, i => [i]
  | n + 1, i => (i :: ((next i).filter (i < ·)).flatMap (turns next n)).dedup

def ends (s : List α) : Ere α → Nat → List Nat
  | .eps, i => [i]
  | .sym p, i => if (s[i]?).any p then [i + 1] else []
  | .look p, i => if p (before s i) s[i]? then [i] else []
  | .cat r q, i => ((ends s r i).flatMap (ends s q)).dedup
  | .alt r q, i => (ends s r i ++ ends s q i).dedup
  | .star r, i => turns (ends s r) (s.length - i) i

def find (s : List α) (r : Ere α) : Option (Nat × Nat) :=
  (List.range (s.length + 1)).findSome? fun i => (ends s r i).max?.map fun j => (i, j)

def delete (r : Ere α) (s : List α) : List α :=
  match find s r with
  | none => s
  | some (i, j) => s.take i ++ s.drop j

variable {s t w : List α} {r q : Ere α} {p : α → Bool} {i j k n : Nat} {next : Nat → List Nat}

theorem Matches.le (h : Matches s r i j) : i ≤ j ∧ j ≤ s.length := by
  induction h with
  | eps h => exact ⟨le_rfl, h⟩
  | sym h =>
    obtain ⟨c, hc, _⟩ := (Option.any_eq_true _ _).mp h
    exact ⟨Nat.le_succ _, (List.getElem?_eq_some_iff.mp hc).1⟩
  | look h => exact ⟨le_rfl, h⟩
  | cat _ _ ih ih' => exact ⟨ih.1.trans ih'.1, ih'.2⟩
  | left _ ih => exact ih
  | right _ ih => exact ih
  | done h => exact ⟨le_rfl, h⟩
  | more _ _ ih ih' => exact ⟨ih.1.trans ih'.1, ih'.2⟩

theorem matches_cat : Matches s (.cat r q) i k ↔ ∃ j, Matches s r i j ∧ Matches s q j k := by
  constructor
  · rintro ⟨⟩
    exact ⟨_, ‹_›, ‹_›⟩
  · rintro ⟨j, hr, hq⟩
    exact .cat hr hq

theorem matches_alt : Matches s (.alt r q) i j ↔ Matches s r i j ∨ Matches s q i j := by
  constructor
  · rintro ⟨⟩
    · exact Or.inl ‹_›
    · exact Or.inr ‹_›
  · rintro (h | h)
    · exact .left h
    · exact .right h

theorem mem_turns_of (h : i ≤ s.length) (hnext : ∀ i j, i ≤ s.length → j ∈ next i → Matches s r i j)
    (hj : j ∈ turns next n i) : Matches s (.star r) i j := by
  induction n generalizing i with
  | zero =>
    obtain rfl := List.mem_singleton.mp hj
    exact .done h
  | succ n ih =>
    rw [turns, List.mem_dedup, List.mem_cons, List.mem_flatMap] at hj
    obtain rfl | ⟨k, hk, hj⟩ := hj
    · exact .done h
    · have hmatch := hnext i k h (List.mem_of_mem_filter hk)
      exact .more hmatch (ih hmatch.le.2 hj)

theorem mem_turns (hnext : ∀ i j, Matches s r i j → j ∈ next i) (h : Matches s (.star r) i j)
    (hn : s.length ≤ i + n) : j ∈ turns next n i := by
  generalize hq : Ere.star r = q at h
  induction h generalizing n with
  | done h =>
    cases n with
    | zero => exact List.mem_singleton_self _
    | succ n =>
      rw [turns, List.mem_dedup]
      exact List.mem_cons_self
  | @more r' i k j hmatch hrest _ ih =>
    obtain rfl := Ere.star.inj hq
    obtain ⟨hle, hlast⟩ := hmatch.le
    obtain rfl | hlt := hle.eq_or_lt
    · exact ih hn rfl
    · cases n with
      | zero => omega
      | succ n =>
        rw [turns, List.mem_dedup, List.mem_cons, List.mem_flatMap]
        refine Or.inr ⟨k, List.mem_filter.mpr ⟨hnext i k hmatch, decide_eq_true hlt⟩, ?_⟩
        exact ih (by omega) rfl
  | _ => cases hq

theorem mem_ends (hi : i ≤ s.length) : j ∈ ends s r i ↔ Matches s r i j := by
  induction r generalizing i j with
  | eps =>
    rw [ends, List.mem_singleton]
    constructor
    · rintro rfl
      exact .eps hi
    · rintro ⟨⟩
      rfl
  | sym p =>
    rw [ends]
    constructor
    · intro h
      split at h
      · next hp =>
        obtain rfl := List.mem_singleton.mp h
        exact .sym hp
      · cases h
    · rintro ⟨⟩
      next hp =>
        rw [if_pos hp]
        exact List.mem_singleton_self _
  | look p =>
    rw [ends]
    constructor
    · intro h
      split at h
      · next hp =>
        obtain rfl := List.mem_singleton.mp h
        exact .look hi hp
      · cases h
    · rintro ⟨⟩
      next hp =>
        rw [if_pos hp]
        exact List.mem_singleton_self _
  | cat r q ihr ihq =>
    rw [ends, List.mem_dedup, List.mem_flatMap, matches_cat]
    constructor
    · rintro ⟨k, hk, hj⟩
      have hmatch := (ihr hi).mp hk
      exact ⟨k, hmatch, (ihq hmatch.le.2).mp hj⟩
    · rintro ⟨k, hk, hj⟩
      exact ⟨k, (ihr hi).mpr hk, (ihq hk.le.2).mpr hj⟩
  | alt r q ihr ihq => rw [ends, List.mem_dedup, List.mem_append, matches_alt, ihr hi, ihq hi]
  | star r ih =>
    rw [ends]
    constructor
    · exact mem_turns_of hi fun i j hi => (ih hi).mp
    · exact fun h => mem_turns (fun i j hmatch => (ih (hmatch.le.1.trans hmatch.le.2)).mpr hmatch) h
        (by omega)

theorem find_eq_none : find s r = none ↔ ∀ i j, ¬ Matches s r i j := by
  simp only [find, List.findSome?_eq_none_iff, List.mem_range, Option.map_eq_none_iff,
    List.max?_eq_none_iff, List.eq_nil_iff_forall_not_mem]
  constructor
  · intro h i j hmatch
    have hi : i ≤ s.length := hmatch.le.1.trans hmatch.le.2
    exact h i (Nat.lt_succ_of_le hi) j ((mem_ends hi).mpr hmatch)
  · intro h i hi j hj
    exact h i j ((mem_ends (Nat.le_of_lt_succ hi)).mp hj)

def sequence (rs : List (Ere α)) : Ere α := rs.foldr .cat .eps

variable [DecidableEq α]

def char (c : α) : Ere α := .sym fun d => decide (d = c)

end YdbTest.Regexp
