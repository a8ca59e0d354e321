import Mathlib.Data.ZMod.Basic
import Mathlib.GroupTheory.OrderOfElement
import Mathlib.FieldTheory.Finite.Basic

namespace YdbTest.ModWalk

variable {p : Nat}

theorem iterate_mul_mod (p r n x : Nat) (hx : x < p) :
    (fun x => x * r % p)^[n] x = x * r ^ n % p := by
  induction n generalizing x with
  | zero => simp [Nat.mod_eq_of_lt hx]
  | succ n ih =>
    rw [Function.iterate_succ_apply, ih _ (Nat.mod_lt _ (Nat.zero_lt_of_lt hx)), Nat.mod_mul_mod,
      Nat.pow_succ', Nat.mul_assoc]

theorem pow_mod_eq_iff (r a b : Nat) :
    r ^ a % p = r ^ b % p ↔ (r : ZMod p) ^ a = (r : ZMod p) ^ b := by
  rw [← Nat.cast_pow, ← Nat.cast_pow, ZMod.natCast_eq_natCast_iff']

theorem pow_mod_injective (r : Nat) {a b : Nat} (ha : a < orderOf (r : ZMod p))
    (hb : b < orderOf (r : ZMod p)) (h : r ^ a % p = r ^ b % p) : a = b :=
  pow_injOn_Iio_orderOf ha hb ((pow_mod_eq_iff r a b).mp h)

theorem pow_order_mod (r : Nat) : r ^ orderOf (r : ZMod p) % p = r ^ 0 % p :=
  (pow_mod_eq_iff r _ 0).mpr (by rw [pow_orderOf_eq_one, pow_zero])

theorem pow_mod_pos [hp : Fact p.Prime] (r n : Nat) (hr : ¬ p ∣ r) : 0 < r ^ n % p :=
  Nat.pos_of_ne_zero fun h => hr (hp.out.dvd_of_dvd_pow (Nat.dvd_of_mod_eq_zero h))

/-- The residues that a loop of `k` turns goes through when it starts with `x`. -/
def residues (p r : Nat) : Nat → Nat → List Nat
  | 0, _ => []
  | k + 1, x => x :: residues p r k (x * r % p)

theorem residues_eq (r : Nat) {k x : Nat} (hx : x < p) :
    residues p r k x = (List.range k).map fun i => x * r ^ i % p := by
  induction k generalizing x with
  | zero => rfl
  | succ k ih =>
    have hp : 0 < p := Nat.zero_lt_of_lt hx
    rw [residues, ih (Nat.mod_lt _ hp), List.range_succ_eq_map, List.map_cons, List.map_map,
      pow_zero, Nat.mul_one, Nat.mod_eq_of_lt hx]
    refine congrArg _ (List.map_congr_left fun i _ => ?_)
    rw [Nat.mod_mul_mod, Function.comp_apply, pow_succ', Nat.mul_assoc]

theorem not_dvd_of_order [hp : Fact p.Prime] {r : Nat} (hr : orderOf (r : ZMod p) = p - 1) :
    ¬ p ∣ r := by
  intro hdvd
  rw [(ZMod.natCast_eq_zero_iff r p).mpr hdvd, orderOf_eq_zero_iff'.mpr] at hr
  · have := hp.out.two_le
    omega
  · intro k hk hz
    rw [zero_pow (Nat.ne_of_gt hk)] at hz
    exact zero_ne_one hz

theorem exists_pow_mod [hp : Fact p.Prime] {r n : Nat} (hr : orderOf (r : ZMod p) = p - 1)
    (h1 : 1 ≤ n) (hn : n < p) : ∃ i < p - 1, r ^ i % p = n := by
  have hmaps : Set.MapsTo (fun i => r ^ i % p) (Finset.range (p - 1)) (Finset.Ico 1 p) := by
    intro i _
    have hlt : r ^ i % p < p := Nat.mod_lt _ hp.out.pos
    exact Finset.mem_coe.mpr (Finset.mem_Ico.mpr ⟨pow_mod_pos r i (not_dvd_of_order hr), hlt⟩)
  have hinj : Set.InjOn (fun i => r ^ i % p) (Finset.range (p - 1)) := by
    intro a ha b hb h
    have ha' := Finset.mem_range.mp (Finset.mem_coe.mp ha)
    have hb' := Finset.mem_range.mp (Finset.mem_coe.mp hb)
    exact pow_mod_injective r (hr ▸ ha') (hr ▸ hb') h
  have hcard : (Finset.Ico 1 p).card ≤ (Finset.range (p - 1)).card := by
    rw [Nat.card_Ico, Finset.card_range]
  obtain ⟨i, hi, heq⟩ := Finset.surjOn_of_injOn_of_card_le _ hmaps hinj hcard
    (Finset.mem_coe.mpr (Finset.mem_Ico.mpr ⟨h1, hn⟩))
  exact ⟨i, Finset.mem_range.mp (Finset.mem_coe.mp hi), heq⟩

theorem mem_residues [hp : Fact p.Prime] {r n : Nat} (hr : orderOf (r : ZMod p) = p - 1)
    (h1 : 1 ≤ n) (hn : n < p) : n ∈ residues p r (p - 1) 1 := by
  obtain ⟨i, hi, heq⟩ := exists_pow_mod hr h1 hn
  rw [residues_eq r hp.out.one_lt]
  exact List.mem_map.mpr ⟨i, List.mem_range.mpr hi, by rw [Nat.one_mul, heq]⟩

theorem residues_bounds [hp : Fact p.Prime] {r k n : Nat} (hr : ¬ p ∣ r)
    (h : n ∈ residues p r k 1) : 1 ≤ n ∧ n < p := by
  rw [residues_eq r hp.out.one_lt] at h
  obtain ⟨i, _, rfl⟩ := List.mem_map.mp h
  rw [Nat.one_mul]
  exact ⟨pow_mod_pos r i hr, Nat.mod_lt _ hp.out.pos⟩

end YdbTest.ModWalk
