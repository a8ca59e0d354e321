import YdbTest.ForLoop
import Mathlib.Tactic

namespace YdbTest.CInt

open ForLoop

variable {σ τ : Type}

/-- A 32-bit `int` result. Signed overflow is undefined, so it has no value. -/
def int (x : Int) : Option Int :=
  if -2147483648 ≤ x ∧ x ≤ 2147483647 then some x else none

def add (a b : Int) : Option Int := int (a + b)

def mul (a b : Int) : Option Int := int (a * b)

def div (a b : Int) : Option Int := if b = 0 then none else int (a.tdiv b)

def mod (a b : Int) : Option Int := if b = 0 then none else int (a.tmod b)

/-- Conversion to `unsigned long long`. -/
def ull (a : Int) : Nat := (a % 18446744073709551616).toNat

/-- `((unsigned long long)a * b) % m` stored in an `int`. -/
def mulModUll (a b m : Int) : Option Int :=
  if ull m = 0 then none else int ((ull a * ull b % 18446744073709551616 % ull m : Nat) : Int)

/-- `for (j = lo; j <= hi; j++)`, where the increment is `int` arithmetic too. -/
def forInt (body : Int → σ → Option σ) : Nat → Int → Int → σ → Option σ
  | 0, _, _, _ => none
  | fuel + 1, j, hi, s =>
    if j ≤ hi then do
      let s ← body j s
      let j ← add j 1
      forInt body fuel j hi s
    else some s

theorem int_eq {x : Int} (h0 : -2147483648 ≤ x) (h1 : x ≤ 2147483647) : int x = some x :=
  if_pos ⟨h0, h1⟩

theorem ull_natCast {a : Nat} (h : a < 18446744073709551616) : ull (a : Int) = a := by
  unfold ull; omega

theorem mul_natCast {a b : Nat} (h : a * b ≤ 2147483647) :
    mul a b = some ((a * b : Nat) : Int) := by
  rw [mul, ← Nat.cast_mul]
  exact int_eq (by omega) (by omega)

theorem mod_natCast {a b : Nat} (hb : 0 < b) (h : b ≤ 2147483647) :
    mod a b = some ((a % b : Nat) : Int) := by
  have hm : a % b < b := Nat.mod_lt a hb
  have hz : (b : Int) ≠ 0 := by omega
  have ht : (a : Int).tmod b = ((a % b : Nat) : Int) := rfl
  rw [mod, if_neg hz, ht]
  exact int_eq (by omega) (by omega)

theorem div_natCast {a b : Nat} (hb : 0 < b) (h : a ≤ 2147483647) :
    div a b = some ((a / b : Nat) : Int) := by
  have hm : a / b ≤ a := Nat.div_le_self a b
  have hz : (b : Int) ≠ 0 := by omega
  have ht : (a : Int).tdiv b = ((a / b : Nat) : Int) := rfl
  rw [div, if_neg hz, ht]
  generalize a / b = q at hm
  exact int_eq (by omega) (by omega)

/-- The product is formed in 64 bits, where it fits for any two `int` values. -/
theorem mulModUll_natCast {a b m : Nat} (ha : a ≤ 2147483647) (hb : b ≤ 2147483647)
    (hm : 0 < m) (h : m ≤ 2147483647) :
    mulModUll a b m = some ((a * b % m : Nat) : Int) := by
  have hab : a * b ≤ 2147483647 * 2147483647 := Nat.mul_le_mul ha hb
  have hr : a * b % m < m := Nat.mod_lt _ hm
  rw [mulModUll, ull_natCast (by omega), ull_natCast (by omega), ull_natCast (by omega),
    if_neg (by omega), Nat.mod_eq_of_lt (by omega : a * b < 18446744073709551616)]
  exact int_eq (by omega) (by omega)

/-- A C loop whose body always has a value computes the plain loop, as long as
the counter cannot step past the largest `int`. The view `f` carries the plain
state to the C state, `inv` what the body needs of the plain state. -/
theorem forInt_eq_forLoop (f : τ → σ) (inv : τ → Prop) (body : Int → σ → Option σ)
    (step : Nat → τ → τ) (lo hi fuel : Nat) (t : τ)
    (hhi : hi < 2147483647) (hfuel : hi + 1 - lo < fuel) (h0 : inv t)
    (hstep : ∀ j t, lo ≤ j → j ≤ hi → inv t →
      body j (f t) = some (f (step j t)) ∧ inv (step j t)) :
    forInt body fuel lo hi (f t) = some (f (forLoop lo hi step t)) := by
  generalize hn : hi + 1 - lo = n at hfuel
  induction n generalizing lo fuel t with
  | zero =>
    obtain ⟨fuel, rfl⟩ : ∃ k, fuel = k + 1 := ⟨fuel - 1, by omega⟩
    rw [forInt, if_neg (by omega), forLoop_empty lo hi step t (by omega)]
  | succ n ih =>
    obtain ⟨fuel, rfl⟩ : ∃ k, fuel = k + 1 := ⟨fuel - 1, by omega⟩
    obtain ⟨hb, hi'⟩ := hstep lo t (Nat.le_refl lo) (by omega) h0
    have hj : add (lo : Int) 1 = some ((lo + 1 : Nat) : Int) := by
      rw [add, Nat.cast_succ]
      exact int_eq (by omega) (by omega)
    have hl : forLoop lo hi step t = forLoop (lo + 1) hi step (step lo t) := by
      have h1 : hi + 1 - lo = (hi + 1 - (lo + 1)) + 1 := by omega
      rw [forLoop, h1, List.range'_succ, List.foldl_cons]
      rfl
    rw [forInt, if_pos (by omega), hb, hl]
    simp only [Option.bind_eq_bind, Option.bind_some, hj]
    exact ih (lo + 1) fuel (step lo t) hi'
      (fun j t h1 h2 => hstep j t (by omega) h2) (by omega) (by omega)

/-- Counting up to the largest `int` has no value: the last `j++` overflows. -/
theorem forInt_intMax (body : Int → σ → Option σ) (fuel : Nat) (j : Int) (s : σ)
    (hj : j ≤ 2147483647) : forInt body fuel j 2147483647 s = none := by
  induction fuel generalizing j s with
  | zero => rfl
  | succ fuel ih =>
    rw [forInt, if_pos hj]
    cases body j s with
    | none => rfl
    | some s =>
      simp only [Option.bind_eq_bind, Option.bind_some, add, int]
      split
      · rename_i h
        exact ih (j + 1) s h.2
      · rfl

end YdbTest.CInt
