import YdbTest.ModWalk
import YdbTest.MString
import YdbTest.TreeStore

namespace YdbTest.Pfill

open MString TreeStore ModWalk

/-- Whether the jobs run in UTF-8 mode and with `gtm_test_useshortglobals`. -/
structure Env where
  utf8 : Bool
  shortgbl : Bool

inductive Act
  | set
  | kill
  | ver

def root : List Nat := [6, 11, 14, 18, 19, 24, 26, 29, 30, 33]

def regname : Str := lit "abcdefghi"

variable (e : Env)

def global (regindex : Nat) : Str :=
  94 :: regname.getD (regindex - 1) 0 ::
    (if e.shortgbl then [] else lit "randomdatabasefilling")

def y (ndx : Nat) : Str := justify e.utf8 (dec ndx) 15

/-- The regions and indices that the two loops of `filling` go through. -/
def visits (prime root : Nat) : List (Nat × Nat) :=
  (residues prime root (prime - 1) 1).zipIdx.flatMap fun (ndx, i) =>
    (List.range 9).map fun k => ((i + k) % 9 + 1, ndx)

/-- The updates of `filling`, of which a verification makes none. -/
def filling (act : Act) (prime root : Nat) : List (Upd Str Nat Str) :=
  match act with
  | .kill => (visits prime root).map fun v => .kill (global e v.1, [v.2])
  | .set => (visits prime root).map fun v => .set (global e v.1, [v.2]) (y e v.2)
  | .ver => []

/-- The visits at which `EXAM` does not find `y`. -/
def fails (prime root : Nat) (db : Store Str Nat Str) : List (Nat × Nat) :=
  (visits prime root).filter fun v => get db (global e v.1, [v.2]) ≠ some (y e v.2)

def in0 (act : Act) (pno : Nat) : List (Upd Str Nat Str) :=
  filling e act 251 (root.getD (pno - 1) 0)

def in0Fails (pno : Nat) (db : Store Str Nat Str) : List (Nat × Nat) :=
  fails e 251 (root.getD (pno - 1) 0) db

variable {e} {g g' n prime r pno : Nat} {act : Act} {u : Upd Str Nat Str}

theorem mem_visits : (g, n) ∈ visits prime r ↔
    (1 ≤ g ∧ g ≤ 9) ∧ n ∈ residues prime r (prime - 1) 1 := by
  simp only [visits, List.mem_flatMap, List.mem_map, List.mem_range, Prod.exists, Prod.mk.injEq]
  constructor
  · rintro ⟨ndx, i, hmem, k, hk, rfl, rfl⟩
    exact ⟨by omega, List.fst_mem_of_mem_zipIdx hmem⟩
  · rintro ⟨hg, hn⟩
    obtain ⟨i, hi, hget⟩ := List.getElem_of_mem hn
    refine ⟨n, i, ?_, (g + 8 - i % 9) % 9, by omega, by omega, rfl⟩
    rw [List.mem_zipIdx_iff_getElem?, List.getElem?_eq_getElem hi, hget]

theorem global_injective (hg : 1 ≤ g ∧ g ≤ 9) (hg' : 1 ≤ g' ∧ g' ≤ 9)
    (h : global e g = global e g') : g = g' := by
  have hletter := (List.cons.inj (List.cons.inj h).2).1
  have hall : ∀ g < 10, ∀ g' < 10, 1 ≤ g → 1 ≤ g' →
      regname.getD (g - 1) 0 = regname.getD (g' - 1) 0 → g = g' := by decide
  exact hall g (by omega) g' (by omega) hg.1 hg'.1 hletter

section Roots

instance prime_251 : Fact (Nat.Prime 251) := ⟨by norm_num⟩

theorem root_powers : ∀ r ∈ root, (r : ZMod 251) ^ 250 = 1 ∧ (r : ZMod 251) ^ 125 ≠ 1 ∧
    (r : ZMod 251) ^ 50 ≠ 1 := by
  decide +kernel

theorem orderOf_root (hr : r ∈ root) : orderOf (r : ZMod 251) = 251 - 1 := by
  obtain ⟨h250, h125, h50⟩ := root_powers r hr
  refine orderOf_eq_of_pow_and_pow_div_prime (by omega) h250 fun q hq hdvd => ?_
  have hq' : q = 2 ∨ q = 5 := by
    rw [show 251 - 1 = 2 * 5 ^ 3 by rfl, hq.dvd_mul] at hdvd
    obtain h | h := hdvd
    · exact Or.inl ((Nat.prime_dvd_prime_iff_eq hq Nat.prime_two).mp h)
    · exact Or.inr ((Nat.prime_dvd_prime_iff_eq hq Nat.prime_five).mp (hq.dvd_of_dvd_pow h))
  obtain rfl | rfl := hq'
  · exact h125
  · exact h50

theorem getD_root (h1 : 1 ≤ pno) (h10 : pno ≤ 10) : root.getD (pno - 1) 0 ∈ root := by
  have hall : ∀ k < 10, root.getD k 0 ∈ root := by decide
  exact hall (pno - 1) (by omega)

theorem root_not_dvd (hr : r ∈ root) : ¬ 251 ∣ r := by
  have hall : ∀ r ∈ root, ¬ 251 ∣ r := by decide
  exact hall r hr

theorem mem_visits_root (hr : r ∈ root) :
    (g, n) ∈ visits 251 r ↔ (1 ≤ g ∧ g ≤ 9) ∧ 1 ≤ n ∧ n ≤ 250 := by
  rw [mem_visits]
  refine and_congr_right fun _ => ⟨fun h => ?_, fun h => ?_⟩
  · have := residues_bounds (root_not_dvd hr) h
    omega
  · exact mem_residues (orderOf_root hr) h.1 (by omega)

end Roots

end YdbTest.Pfill
