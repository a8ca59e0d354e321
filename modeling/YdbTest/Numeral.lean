import Mathlib.Data.Nat.Digits.Lemmas

namespace YdbTest.Numeral

/-- The number that digits are written for, the highest first. -/
def value (b : ℕ) (ds : List ℕ) : ℕ := ds.foldl (fun v d => v * b + d) 0

variable {b n : ℕ} {ds es : List ℕ}

theorem value_nil : value b [] = 0 := rfl

theorem value_concat (ds : List ℕ) (d : ℕ) : value b (ds ++ [d]) = value b ds * b + d := by
  rw [value, List.foldl_append]
  rfl

theorem value_append (ds es : List ℕ) :
    value b (ds ++ es) = value b ds * b ^ es.length + value b es := by
  induction es using List.reverseRecOn with
  | nil => simp [value_nil]
  | append_singleton es e ih =>
    rw [← List.append_assoc, value_concat, ih, value_concat, List.length_append,
      List.length_singleton, pow_succ]
    ring

theorem value_cons (d : ℕ) (ds : List ℕ) :
    value b (d :: ds) = d * b ^ ds.length + value b ds := by
  rw [← List.singleton_append, value_append]
  simp [value]

theorem value_lt (h : ∀ d ∈ ds, d < b) : value b ds < b ^ ds.length := by
  induction ds using List.reverseRecOn with
  | nil => simp [value]
  | append_singleton ds d ih =>
    simp only [List.mem_append, List.mem_singleton] at h
    have hd := h d (Or.inr rfl)
    have hds := ih fun a ha => h a (Or.inl ha)
    rw [value_concat, List.length_append, List.length_singleton, pow_succ]
    calc value b ds * b + d < value b ds * b + b := by omega
      _ = (value b ds + 1) * b := by ring
      _ ≤ b ^ ds.length * b := Nat.mul_le_mul_right b hds

theorem value_drop (h : ∀ d ∈ ds, d < b) (k : ℕ) :
    value b (ds.drop k) = value b ds % b ^ (ds.drop k).length := by
  have hsplit := value_append (b := b) (ds.take k) (ds.drop k)
  rw [List.take_append_drop] at hsplit
  rw [hsplit, Nat.mul_add_mod_self_right,
    Nat.mod_eq_of_lt (value_lt fun d hd => h d (List.mem_of_mem_drop hd))]

theorem value_replicate_zero (n : ℕ) : value b (List.replicate n 0) = 0 := by
  induction n with
  | zero => rfl
  | succ n ih => rw [List.replicate_succ', value_concat, ih, Nat.zero_mul]

/-- The digits of `n`, the highest first; there is always one. -/
def write (b n : ℕ) : List ℕ := if n = 0 then [0] else (Nat.digits b n).reverse

theorem write_step (hb : 2 ≤ b) (hn : b ≤ n) : write b n = write b (n / b) ++ [n % b] := by
  have hpos : n / b ≠ 0 := (Nat.div_pos hn (by omega)).ne'
  rw [write, write, if_neg (by omega), if_neg hpos, Nat.digits_def' (by omega) (by omega),
    List.reverse_cons]

theorem write_small (hn : n < b) : write b n = [n] := by
  rw [write]
  split_ifs with h
  · rw [h]
  · rw [Nat.digits_of_lt b n h hn]
    rfl

theorem value_write (hb : 2 ≤ b) (n : ℕ) : value b (write b n) = n := by
  induction n using Nat.strongRecOn with
  | ind n ih =>
    by_cases hn : n < b
    · rw [write_small hn]
      simp [value]
    · have hlt : n / b < n := Nat.div_lt_self (by omega) (by omega)
      rw [write_step hb (by omega), value_concat, ih _ hlt, Nat.div_add_mod']

theorem write_lt (hb : 2 ≤ b) {d : ℕ} (hd : d ∈ write b n) : d < b := by
  rw [write] at hd
  split_ifs at hd
  · rw [List.mem_singleton.mp hd]
    omega
  · exact Nat.digits_lt_base (by omega) (List.mem_reverse.mp hd)

theorem write_length (hb : 2 ≤ b) {k : ℕ} (hk : k ≠ 0) (hn : n < b ^ k) :
    (write b n).length ≤ k := by
  rw [write]
  split_ifs with h
  · exact Nat.one_le_iff_ne_zero.mpr hk
  · rw [List.length_reverse]
    exact (Nat.digits_length_le_iff (by omega) n).mpr hn

theorem write_value (hb : 2 ≤ b) (hne : ds ≠ []) (h : ∀ d ∈ ds, d < b) :
    write b (value b ds) = ds ∨ (write b (value b ds)).length < ds.length := by
  induction ds using List.reverseRecOn with
  | nil => exact absurd rfl hne
  | append_singleton ds d ih =>
    simp only [List.mem_append, List.mem_singleton] at h
    have hd := h d (Or.inr rfl)
    rw [value_concat]
    by_cases hds : ds = []
    · rw [hds, value_nil, Nat.zero_mul, Nat.zero_add, write_small hd]
      exact Or.inl rfl
    · by_cases h0 : value b ds = 0
      · have hlen := List.length_pos_iff.mpr hds
        rw [h0, Nat.zero_mul, Nat.zero_add, write_small hd, List.length_append]
        exact Or.inr (by simpa using hlen)
      · have hbig : b ≤ value b ds * b + d :=
          (Nat.le_mul_of_pos_left b (Nat.pos_of_ne_zero h0)).trans (Nat.le_add_right _ _)
        have hdiv : (value b ds * b + d) / b = value b ds := by
          rw [Nat.mul_comm, Nat.mul_add_div (by omega), Nat.div_eq_of_lt hd, Nat.add_zero]
        have hmod : (value b ds * b + d) % b = d := by
          rw [Nat.mul_add_mod_self_right, Nat.mod_eq_of_lt hd]
        rw [write_step hb hbig, hdiv, hmod, List.length_append, List.length_append]
        refine (ih hds fun a ha => h a (Or.inl ha)).imp ?_ ?_
        · exact fun heq => by rw [heq]
        · exact fun hlt => Nat.add_lt_add_right hlt _

def flip (ds : List ℕ) : List ℕ := ds.map (1 - ·)

theorem value_flip (h : ∀ d ∈ ds, d < 2) : value 2 (flip ds) + value 2 ds + 1 = 2 ^ ds.length := by
  induction ds using List.reverseRecOn with
  | nil => rfl
  | append_singleton ds d ih =>
    simp only [List.mem_append, List.mem_singleton] at h
    have hd := h d (Or.inr rfl)
    have hds := ih fun a ha => h a (Or.inl ha)
    have hmap : flip (ds ++ [d]) = flip ds ++ [1 - d] := List.map_append
    rw [hmap, value_concat, value_concat, List.length_append, List.length_singleton, pow_succ]
    omega

theorem value_high {d : ℕ} (hd : d < 2) (h : ∀ e ∈ ds, e < 2) :
    2 ^ ds.length ≤ value 2 (d :: ds) ↔ d = 1 := by
  have hlt := value_lt h
  rw [value_cons]
  obtain rfl | rfl : d = 0 ∨ d = 1 := by omega
  · simp only [Nat.zero_mul, Nat.zero_add, zero_ne_one, iff_false, not_le]
    exact hlt
  · simp

end YdbTest.Numeral
