import YdbTest.MString

namespace YdbTest.Decimal

open MString

theorem digitsStr_cons (d : Nat) (ds : List Nat) :
    digitsStr (d :: ds) = digitsStr ds ++ [48 + d] := by
  simp [digitsStr]

theorem isDigit_of_mem_digitsStr {ds : List Nat} (h : ∀ d ∈ ds, d < 10) {c : Nat}
    (hc : c ∈ digitsStr ds) : 48 ≤ c ∧ c ≤ 57 := by
  simp only [digitsStr, List.mem_map, List.mem_reverse] at hc
  obtain ⟨d, hd, rfl⟩ := hc
  have := h d hd
  omega

theorem readNumber_digitsStr (dot : Bool) (m scale : Nat) (ds : List Nat) (s : Str)
    (h : ∀ d ∈ ds, d < 10) :
    readNumber dot m scale (digitsStr ds ++ s) =
      readNumber dot (m * 10 ^ ds.length + Nat.ofDigits 10 ds)
        (if dot then scale + ds.length else scale) s := by
  induction ds generalizing s with
  | nil => simp [digitsStr]
  | cons d ds ih =>
    have hd : d < 10 := h d (by simp)
    have hdig : isDigit (48 + d) = true := by simp [isDigit]; omega
    rw [digitsStr_cons, List.append_assoc, ih _ (fun e he => h e (by simp [he]))]
    simp only [List.singleton_append, readNumber, hdig, if_true, Nat.ofDigits_cons,
      List.length_cons, Nat.add_sub_cancel_left]
    congr 1
    · rw [Nat.pow_succ]
      ring
    · cases dot <;> simp [Nat.add_assoc]

theorem lastDigits_length (scale m : Nat) : (lastDigits scale m).length = scale := by
  induction scale generalizing m with
  | zero => rfl
  | succ scale ih => simp [lastDigits, ih]

theorem lastDigits_lt (scale m : Nat) : ∀ d ∈ lastDigits scale m, d < 10 := by
  induction scale generalizing m with
  | zero => simp [lastDigits]
  | succ scale ih =>
    intro d hd
    rw [lastDigits, List.mem_cons] at hd
    obtain rfl | hd := hd
    · exact Nat.mod_lt _ (by omega)
    · exact ih (m / 10) d hd

theorem ofDigits_lastDigits (scale m : Nat) :
    Nat.ofDigits 10 (lastDigits scale m) = m % 10 ^ scale := by
  induction scale generalizing m with
  | zero => simp [lastDigits, Nat.mod_one]
  | succ scale ih =>
    rw [lastDigits, Nat.ofDigits_cons, ih, Nat.pow_succ', Nat.mod_mul]

theorem lastDigits_mul_pow (scale m : Nat) :
    lastDigits scale (m * 10 ^ scale) = List.replicate scale 0 := by
  induction scale with
  | zero => rfl
  | succ scale ih =>
    have hten : m * 10 ^ (scale + 1) = m * 10 ^ scale * 10 := by rw [Nat.pow_succ, Nat.mul_assoc]
    rw [lastDigits, hten, Nat.mul_mod_left, Nat.mul_div_cancel _ (by omega), ih]
    rfl

theorem ofDigits_dropWhile_zero (ds : List Nat) :
    Nat.ofDigits 10 ds * 10 ^ (ds.dropWhile (· == 0)).length =
      Nat.ofDigits 10 (ds.dropWhile (· == 0)) * 10 ^ ds.length := by
  induction ds with
  | nil => rfl
  | cons d ds ih =>
    by_cases hd : d = 0
    · subst hd
      rw [List.dropWhile_cons_of_pos (by simp), Nat.ofDigits_cons, List.length_cons, Nat.pow_succ]
      calc (0 + 10 * Nat.ofDigits 10 ds) * 10 ^ (ds.dropWhile (· == 0)).length
          = 10 * (Nat.ofDigits 10 ds * 10 ^ (ds.dropWhile (· == 0)).length) := by ring
        _ = _ := by rw [ih]; ring
    · rw [List.dropWhile_cons_of_neg (by simpa using hd)]

theorem digits_head (n : Nat) (s : Str) (hs : s.head? ≠ some 45) :
    (digits n ++ s).head? ≠ some 45 := by
  intro h
  cases hd : digits n with
  | nil => exact hs (by simpa [hd] using h)
  | cons c cs =>
    have hc : c ∈ digitsStr (Nat.digits 10 n) := by
      rw [show digitsStr (Nat.digits 10 n) = digits n from rfl, hd]
      simp
    have := isDigit_of_mem_digitsStr (fun d hd => Nat.digits_lt_base (by omega) hd) hc
    rw [hd] at h
    simp at h
    omega

theorem dec_eq_digits {n : Nat} (h : n ≠ 0) : dec n = digits n := if_neg h

theorem dec_digit {m : Nat} {c : Nat} (hc : c ∈ dec m) : 48 ≤ c ∧ c ≤ 57 := by
  by_cases hm : m = 0
  · subst hm
    obtain rfl : c = 48 := by simpa [dec] using hc
    omega
  · rw [dec_eq_digits hm] at hc
    exact isDigit_of_mem_digitsStr (fun d hd => Nat.digits_lt_base (by omega) hd) hc

theorem readNumber_digits (n : Nat) (s : Str) :
    readNumber false 0 0 (digits n ++ s) = readNumber false n 0 s := by
  rw [digits, readNumber_digitsStr _ _ _ _ _ (fun d hd => Nat.digits_lt_base (by omega) hd),
    Nat.ofDigits_digits]
  simp

theorem readNumber_dec (n : Nat) : readNumber false 0 0 (dec n) = (n, 0) := by
  by_cases h : n = 0
  · subst h
    rfl
  · rw [dec_eq_digits h, ← List.append_nil (digits n), readNumber_digits, readNumber]

theorem toNat_dec (n : Nat) : toNat (dec n) = n := by
  have hh : number (dec n) = (false, readNumber false 0 0 (dec n)) := by
    have hn : (dec n).head? ≠ some 45 := by
      by_cases h : n = 0
      · subst h
        decide
      · rw [dec_eq_digits h, ← List.append_nil (digits n)]
        exact digits_head n [] (by simp)
    unfold number
    split
    · rename_i heq
      rw [heq] at hn
      simp at hn
    · rfl
  rw [MString.toNat, hh, readNumber_dec]

theorem dec_injective {m n : Nat} (h : dec m = dec n) : m = n := by
  rw [← toNat_dec m, h, toNat_dec]

theorem readNumber_decimal (m scale : Nat) :
    (readNumber false 0 0 (decimal m scale)).1 * 10 ^ scale =
      m * 10 ^ (readNumber false 0 0 (decimal m scale)).2 := by
  have hdrop := ofDigits_dropWhile_zero (lastDigits scale m)
  rw [ofDigits_lastDigits, lastDigits_length] at hdrop
  have hm := Nat.div_add_mod m (10 ^ scale)
  unfold decimal
  split
  · rename_i hf
    have hnil : (lastDigits scale m).dropWhile (· == 0) = [] := by
      simpa [fracDigits, digitsStr] using hf
    rw [hnil] at hdrop
    have hz : m % 10 ^ scale = 0 := by simpa using hdrop
    rw [hz, Nat.add_zero] at hm
    rw [readNumber_dec]
    change m / 10 ^ scale * 10 ^ scale = m * 10 ^ 0
    rw [Nat.pow_zero, Nat.mul_one, Nat.mul_comm, hm]
  · have hlt : ∀ d ∈ (lastDigits scale m).dropWhile (· == 0), d < 10 := fun d hd =>
      lastDigits_lt scale m d (List.dropWhile_subset _ hd)
    have hpoint (s : Str) : readNumber false (m / 10 ^ scale) 0 (46 :: s) =
        readNumber true (m / 10 ^ scale) 0 s := by simp [readNumber, isDigit]
    rw [readNumber_digits, hpoint, fracDigits, ← List.append_nil (digitsStr _),
      readNumber_digitsStr true _ _ _ _ hlt]
    simp only [readNumber, if_true, Nat.zero_add]
    rw [Nat.add_mul, ← hdrop]
    calc m / 10 ^ scale * 10 ^ ((lastDigits scale m).dropWhile (· == 0)).length * 10 ^ scale +
          m % 10 ^ scale * 10 ^ ((lastDigits scale m).dropWhile (· == 0)).length
        = (10 ^ scale * (m / 10 ^ scale) + m % 10 ^ scale) *
          10 ^ ((lastDigits scale m).dropWhile (· == 0)).length := by ring
      _ = _ := by rw [hm]

theorem decimal_injective {m n scale scale' : Nat} (h : decimal m scale = decimal n scale') :
    m * 10 ^ scale' = n * 10 ^ scale := by
  have hm := readNumber_decimal m scale
  have hn := readNumber_decimal n scale'
  rw [← h] at hn
  generalize readNumber false 0 0 (decimal m scale) = r at hm hn
  have hpos : 0 < 10 ^ r.2 := Nat.pow_pos (by omega)
  apply Nat.eq_of_mul_eq_mul_left hpos
  calc 10 ^ r.2 * (m * 10 ^ scale') = m * 10 ^ r.2 * 10 ^ scale' := by ring
    _ = r.1 * 10 ^ scale' * 10 ^ scale := by rw [← hm]; ring
    _ = 10 ^ r.2 * (n * 10 ^ scale) := by rw [hn]; ring

theorem dec_eq_decimal (n : Nat) : dec n = decimal n 0 := by
  simp [decimal, fracDigits, lastDigits, digitsStr]

theorem decimal_head (m scale : Nat) :
    ∃ c s, decimal m scale = c :: s ∧ (c = 46 ∨ 48 ≤ c ∧ c ≤ 57) := by
  have hdig (n : Nat) (c : Nat) (s : Str) (h : digits n = c :: s) : 48 ≤ c ∧ c ≤ 57 :=
    isDigit_of_mem_digitsStr (fun d hd => Nat.digits_lt_base (by omega) hd)
      (show c ∈ digitsStr (Nat.digits 10 n) by
        rw [show digitsStr (Nat.digits 10 n) = digits n from rfl, h]; simp)
  unfold decimal
  split
  · by_cases h : m / 10 ^ scale = 0
    · rw [h]
      exact ⟨48, [], rfl, Or.inr (by omega)⟩
    · rw [dec_eq_digits h]
      cases hd : digits (m / 10 ^ scale) with
      | nil =>
        have : Nat.digits 10 (m / 10 ^ scale) = [] := by simpa [digits, digitsStr] using hd
        exact absurd (Nat.digits_eq_nil_iff_eq_zero.mp this) h
      | cons c s => exact ⟨c, s, rfl, Or.inr (hdig _ c s hd)⟩
  · cases hd : digits (m / 10 ^ scale) with
    | nil => exact ⟨46, _, rfl, Or.inl rfl⟩
    | cons c s => exact ⟨c, _, rfl, Or.inr (hdig _ c s hd)⟩

theorem dec_ne_nil (m : Nat) : dec m ≠ [] := by
  intro h
  obtain ⟨c, s, hs, -⟩ := decimal_head m 0
  rw [← dec_eq_decimal, h] at hs
  exact List.cons_ne_nil c s hs.symm

theorem decimal_eq_zero {m scale : Nat} (h : decimal m scale = [48]) : m = 0 := by
  have h0 : decimal m scale = decimal 0 0 := by rw [h]; rfl
  have := decimal_injective h0
  simpa using this

theorem neg_decimal {m scale : Nat} (h : m ≠ 0) :
    neg (decimal m scale) = 45 :: decimal m scale :=
  if_neg fun h0 => h (decimal_eq_zero h0)

end YdbTest.Decimal
