import YdbTest.GenStrUnique

namespace YdbTest.UgenStrUnique

open MString Decimal GenStr GenStrUnique

variable {env : Env} {type : Nat}

theorem charLen_ascii {a : Nat} (h : a < 128) (s : Str) : charLen (a :: s) = 1 := by
  have h2 : ¬ 194 ≤ a := by omega
  have h3 : ¬ 224 ≤ a := by omega
  have h4 : ¬ 240 ≤ a := by omega
  obtain _ | ⟨b, _ | ⟨c, _ | ⟨d, s⟩⟩⟩ := s <;> simp [charLen, h2, h3, h4]

theorem charsAux_ascii (utf8 : Bool) (s : Str) (n : Nat) (hs : ∀ a ∈ s, a < 128)
    (hn : s.length ≤ n) : charsAux utf8 n s = s.map ([·]) := by
  induction s generalizing n with
  | nil => cases n <;> rfl
  | cons a s ih =>
    obtain ⟨n, rfl⟩ : ∃ k, n = k + 1 := ⟨n - 1, by simp at hn; omega⟩
    have hk : (if utf8 = true then charLen (a :: s) else 1) = 1 := by
      rw [charLen_ascii (hs a (by simp)), ite_self]
    rw [charsAux, hk]
    simp only [List.take_succ_cons, List.take_zero, List.drop_succ_cons, List.drop_zero,
      List.map_cons]
    rw [ih n (fun b hb => hs b (by simp [hb])) (by simpa using hn)]

theorem chars_ascii (utf8 : Bool) {s : Str} (hs : ∀ a ∈ s, a < 128) :
    chars utf8 s = s.map ([·]) :=
  charsAux_ascii utf8 s _ hs (Nat.le_refl _)

theorem extract_ascii (utf8 : Bool) {s : Str} (hs : ∀ a ∈ s, a < 128) (i j : Nat) :
    extract utf8 s i j = (s.take j).drop (i - 1) := by
  rw [extract, chars_ascii utf8 hs, ← List.map_take, ← List.map_drop]
  generalize (s.take j).drop (i - 1) = t
  induction t with
  | nil => rfl
  | cons a t ih => rw [List.map_cons, List.flatten_cons, ih]; rfl

theorem template_range : ∀ a ∈ template, 48 ≤ a ∧ a < 123 := by decide

theorem extract_template (env : Env) (i j : Nat) :
    extract env.utf8 template i j = (template.take j).drop (i - 1) :=
  extract_ascii _ (fun a ha => by have := template_range a ha; omega) i j

theorem marker_eq (env : Env) (type : Nat) : ∃ s, marker env type = 127 :: s := by
  unfold marker
  split
  · exact ⟨_, rfl⟩
  · cases hu : env.utf8 <;> exact ⟨_, rfl⟩

def mixed (env : Env) (type int : Nat) : Str :=
  extract env.utf8 template (int % 13) (int % 61) ++ marker env type ++ dec int

theorem mixed_injective {m n : Nat} (h : mixed env type m = mixed env type n) : m = n := by
  obtain ⟨s, hs⟩ := marker_eq env type
  have hdrop (int : Nat) : (mixed env type int).dropWhile (· != 127) = 127 :: s ++ dec int := by
    have hpos : ∀ a ∈ (template.take (int % 61)).drop (int % 13 - 1), (a != 127) = true := by
      intro a ha
      have := template_range a (List.mem_of_mem_take (List.mem_of_mem_drop ha))
      simp only [bne_iff_ne, ne_eq]
      omega
    rw [mixed, extract_template, hs, List.append_assoc, List.dropWhile_append_of_pos hpos]
    rfl
  have heq := congrArg (List.dropWhile (· != 127)) h
  rw [hdrop, hdrop] at heq
  exact dec_injective (List.append_cancel_left heq)

theorem mixed_head (env : Env) (type : Nat) {int : Nat} (h : int % 13 = 4) :
    ∃ c s, mixed env type int = c :: s ∧ (c = 68 ∨ c = 127) := by
  obtain ⟨s, hs⟩ := marker_eq env type
  unfold mixed
  rw [extract_template, hs, h]
  by_cases hj : int % 61 < 4
  · have hnil : (template.take (int % 61)).drop (4 - 1) = [] := by
      rw [List.drop_eq_nil_iff, List.length_take]
      omega
    rw [hnil]
    exact ⟨127, _, rfl, Or.inr rfl⟩
  · obtain ⟨j, hj'⟩ : ∃ j, int % 61 = 4 + j := ⟨int % 61 - 4, by omega⟩
    have hcons : template = 65 :: 66 :: 67 :: 68 :: template.drop 4 := rfl
    rw [hj', hcons, Nat.add_comm 4 j]
    exact ⟨68, _, rfl, Or.inl rfl⟩

/-- Where the digits of class `itemno` start among the code points, for the
classes that are not decimal numbers. -/
theorem offset_lt {k : Nat} (h5 : 5 ≤ k) (h13 : k < 13) : offset (k - 4) + 10 ≤ 1114112 := by
  interval_cases k <;> decide

theorem offset_disjoint {k l d e : Nat} (hk5 : 5 ≤ k) (hk : k < 13) (hl5 : 5 ≤ l) (hl : l < 13)
    (hd : d < 10) (he : e < 10) (h : offset (k - 4) + d = offset (l - 4) + e) : k = l := by
  interval_cases k <;> interval_cases l <;> simp only [offset] at h <;> omega

theorem utf8Char_head {c : Nat} (h : c < 10 ∨ 128 ≤ c) :
    ∃ a s, utf8Char c = a :: s ∧ (a < 10 ∨ 194 ≤ a) := by
  unfold utf8Char
  split_ifs
  · exact ⟨_, _, rfl, by omega⟩
  · exact ⟨_, _, rfl, by omega⟩
  · exact ⟨_, _, rfl, by omega⟩
  · exact ⟨_, _, rfl, by omega⟩

/-- The classes of `ugenstr` as one definition each, the ASCII digits class
being the canonical number. -/
theorem ugenstr_eq (hu : env.utf8 = true) (ht : type ≠ 2) {int : Nat} (h : 1 ≤ int) :
    ugenstr env int type =
      if int % 13 = 0 ∨ int % 13 = 6 then dec int
      else if int % 13 = 1 then neg (dec int)
      else if int % 13 = 2 then decimal (31415692 * int) 7
      else if int % 13 = 3 then neg (decimal (31415692 * int) 7)
      else if int % 13 = 4 then mixed env type int
      else ugenstrLoop env (offset (int % 13 - 4)) int := by
  have hlt := Nat.mod_lt int (show 0 < 13 by omega)
  unfold ugenstr mixed
  simp only [hu, if_true, if_neg ht]
  generalize hk : int % 13 = k at hlt ⊢
  interval_cases k <;> simp [offset, ugenstrLoop_dec h]

/-- The class a first byte of `ugenstr` belongs to, up to the sign for numbers. -/
theorem ugenstr_head (hu : env.utf8 = true) (ht : type ≠ 2) {int : Nat} (h : 1 ≤ int) :
    ∃ c s, ugenstr env int type = c :: s ∧
      ((int % 13 = 0 ∨ int % 13 = 6 ∨ int % 13 = 2) ∧ (c = 46 ∨ 48 ≤ c ∧ c ≤ 57) ∨
        (int % 13 = 1 ∨ int % 13 = 3) ∧ c = 45 ∨
        int % 13 = 4 ∧ (c = 68 ∨ c = 127) ∨
        5 ≤ int % 13 ∧ int % 13 ≠ 6 ∧ (c < 10 ∨ 194 ≤ c)) := by
  rw [ugenstr_eq hu ht h]
  split_ifs with h0 h1 h2 h3 h4
  · obtain ⟨c, s, hs, hc⟩ := decimal_head int 0
    exact ⟨c, s, by rw [dec_eq_decimal, hs], by omega⟩
  · exact ⟨45, _, by rw [dec_eq_decimal]; exact neg_decimal (by omega), by omega⟩
  · obtain ⟨c, s, hs, hc⟩ := decimal_head (31415692 * int) 7
    exact ⟨c, s, hs, by omega⟩
  · exact ⟨45, _, neg_decimal (by omega), by omega⟩
  · obtain ⟨c, s, hs, hc⟩ := mixed_head env type h4
    exact ⟨c, s, hs, by omega⟩
  · obtain ⟨d, s, hd, hs⟩ := @ugenstrLoop_head env (offset (int % 13 - 4)) int h
    have ho : offset (int % 13 - 4) + d < 10 ∨ 128 ≤ offset (int % 13 - 4) + d := by
      have hlt := Nat.mod_lt int (show 0 < 13 by omega)
      generalize int % 13 = k at *
      interval_cases k <;> simp [offset] at * <;> omega
    obtain ⟨a, t, hat, ha⟩ := utf8Char_head ho
    rw [char, hu, if_pos rfl, hat] at hs
    exact ⟨a, t ++ s, hs, by omega⟩

/-- Ten million times the number a numeric class writes, sign aside. -/
def amount (int : Nat) : Nat :=
  if int % 13 = 2 ∨ int % 13 = 3 then 31415692 * int else 10000000 * int

theorem amount_ne {m n : Nat} (hm : m % 13 = 2 ∧ (n % 13 = 0 ∨ n % 13 = 6) ∨ m % 13 = 3 ∧ n % 13 = 1)
    (hlt : n ≤ 50000016) : 31415692 * m ≠ 10000000 * n := by
  intro h
  obtain ⟨k, rfl⟩ : ∃ k, m = 2500000 * k := ⟨m / 2500000, by omega⟩
  obtain rfl : n = 7853923 * k := by omega
  have hk : k < 7 := by omega
  interval_cases k <;> omega

theorem amount_injective {m n : Nat} (hm : m ≤ 50000016) (hn : n ≤ 50000016)
    (hclass : (m % 13 = 0 ∨ m % 13 = 6 ∨ m % 13 = 2) ∧ (n % 13 = 0 ∨ n % 13 = 6 ∨ n % 13 = 2) ∨
      (m % 13 = 1 ∨ m % 13 = 3) ∧ (n % 13 = 1 ∨ n % 13 = 3))
    (h : amount m = amount n) : m = n := by
  unfold amount at h
  split_ifs at h with h1 h2 h2
  · exact Nat.eq_of_mul_eq_mul_left (by decide) h
  · refine absurd h (amount_ne ?_ hn)
    clear h
    omega
  · refine absurd h.symm (amount_ne ?_ hm)
    clear h
    omega
  · exact Nat.eq_of_mul_eq_mul_left (by decide) h

theorem ugenstr_numeric (hu : env.utf8 = true) (ht : type ≠ 2) {int : Nat} (h : 1 ≤ int) :
    ∃ a scale, a * 10 ^ 7 = amount int * 10 ^ scale ∧
      (int % 13 = 0 ∨ int % 13 = 6 ∨ int % 13 = 2 → ugenstr env int type = decimal a scale) ∧
      (int % 13 = 1 ∨ int % 13 = 3 → ugenstr env int type = neg (decimal a scale)) := by
  rw [ugenstr_eq hu ht h]
  unfold amount
  by_cases hs : int % 13 = 2 ∨ int % 13 = 3
  · refine ⟨31415692 * int, 7, by rw [if_pos hs], fun hc => ?_, fun hc => ?_⟩
    · rw [if_neg (by omega), if_neg (by omega), if_pos (by omega)]
    · rw [if_neg (by omega), if_neg (by omega), if_neg (by omega), if_pos (by omega)]
  · refine ⟨int, 0, by rw [if_neg hs]; ring, fun hc => ?_, fun hc => ?_⟩
    · rw [if_pos (by omega), dec_eq_decimal]
    · rw [if_neg (by omega), if_pos (by omega), dec_eq_decimal]

theorem amount_eq {a b m n scale scale' : Nat} (hm : a * 10 ^ 7 = amount m * 10 ^ scale)
    (hn : b * 10 ^ 7 = amount n * 10 ^ scale') (h : a * 10 ^ scale' = b * 10 ^ scale) :
    amount m = amount n := by
  have hpos : 0 < 10 ^ scale * 10 ^ scale' := by positivity
  apply Nat.eq_of_mul_eq_mul_right hpos
  calc amount m * (10 ^ scale * 10 ^ scale') = a * 10 ^ 7 * 10 ^ scale' := by rw [hm]; ring
    _ = b * 10 ^ 7 * 10 ^ scale := by rw [Nat.mul_right_comm, h]; ring
    _ = amount n * (10 ^ scale * 10 ^ scale') := by rw [hn]; ring

theorem amount_pos {int : Nat} (h : 1 ≤ int) : amount int ≠ 0 := by
  unfold amount
  split_ifs <;> omega

theorem ugenstr_injective_numeric (hu : env.utf8 = true) (ht : type ≠ 2) {m n : Nat} (hm : 1 ≤ m)
    (hn : 1 ≤ n) (hm' : m ≤ 50000016) (hn' : n ≤ 50000016)
    (hclass : (m % 13 = 0 ∨ m % 13 = 6 ∨ m % 13 = 2) ∧ (n % 13 = 0 ∨ n % 13 = 6 ∨ n % 13 = 2) ∨
      (m % 13 = 1 ∨ m % 13 = 3) ∧ (n % 13 = 1 ∨ n % 13 = 3))
    (h : ugenstr env m type = ugenstr env n type) : m = n := by
  obtain ⟨a, scale, ha, hapos, haneg⟩ := ugenstr_numeric hu ht hm
  obtain ⟨b, scale', hb, hbpos, hbneg⟩ := ugenstr_numeric hu ht hn
  have nonzero {c k int : Nat} (hint : 1 ≤ int) (hc : c * 10 ^ 7 = amount int * 10 ^ k) : c ≠ 0 := by
    rintro rfl
    have hp := amount_pos hint
    have hk : (10 : Nat) ^ k ≠ 0 := by positivity
    rw [Nat.zero_mul] at hc
    exact absurd hc.symm (Nat.mul_ne_zero hp hk)
  apply amount_injective hm' hn' hclass
  obtain ⟨h1, h2⟩ | ⟨h1, h2⟩ := hclass
  · rw [hapos h1, hbpos h2] at h
    exact amount_eq ha hb (decimal_injective h)
  · rw [haneg h1, hbneg h2] at h
    exact amount_eq ha hb (neg_decimal_injective (nonzero hm ha) (nonzero hn hb) h)

theorem ugenstr_injective (hu : env.utf8 = true) (ht : type ≠ 2) {m n : Nat} (hm : 1 ≤ m)
    (hn : 1 ≤ n) (hm' : m ≤ 50000016) (hn' : n ≤ 50000016)
    (h : ugenstr env m type = ugenstr env n type) : m = n := by
  obtain ⟨c, s, hc, hclass⟩ := ugenstr_head hu ht hm
  obtain ⟨d, t, hd, hclass'⟩ := ugenstr_head hu ht hn
  obtain rfl : c = d := (List.cons.inj (hc.symm.trans (h.trans hd))).1
  by_cases hnum : (m % 13 = 0 ∨ m % 13 = 6 ∨ m % 13 = 2) ∧
      (n % 13 = 0 ∨ n % 13 = 6 ∨ n % 13 = 2) ∨
      (m % 13 = 1 ∨ m % 13 = 3) ∧ (n % 13 = 1 ∨ n % 13 = 3)
  · exact ugenstr_injective_numeric hu ht hm hn hm' hn' hnum h
  rw [ugenstr_eq hu ht hm, ugenstr_eq hu ht hn] at h
  by_cases h4 : m % 13 = 4
  · have h4' : n % 13 = 4 := by omega
    simp only [h4, h4'] at h
    exact mixed_injective h
  · have hm5 : 5 ≤ m % 13 ∧ m % 13 ≠ 6 := by omega
    have hn5 : 5 ≤ n % 13 ∧ n % 13 ≠ 6 := by omega
    rw [if_neg (by omega), if_neg (by omega), if_neg (by omega), if_neg (by omega),
      if_neg (by omega), if_neg (by omega), if_neg (by omega), if_neg (by omega),
      if_neg (by omega), if_neg (by omega)] at h
    have hmlt := Nat.mod_lt m (show 0 < 13 by omega)
    have hnlt := Nat.mod_lt n (show 0 < 13 by omega)
    obtain ⟨d, s, hd, hs⟩ := @ugenstrLoop_head env (offset (m % 13 - 4)) m hm
    obtain ⟨e, t, he, ht⟩ := @ugenstrLoop_head env (offset (n % 13 - 4)) n hn
    have hmo := offset_lt hm5.1 hmlt
    have hno := offset_lt hn5.1 hnlt
    have hcode := ((char_prefixCode env.utf8).inj _ _ s t (by omega) (by omega)
      (hs.symm.trans (h.trans ht))).1
    have hmod := offset_disjoint hm5.1 hmlt hn5.1 hnlt hd he hcode
    rw [hmod] at h
    exact ugenstrLoop_injective hno h

theorem ugenstr_eq_genstr (h : ¬ (env.utf8 = true ∧ type ≠ 2)) (int : Nat) :
    ugenstr env int type = genstr env int := by
  unfold ugenstr
  split_ifs <;> simp_all

theorem ugenstr_injective_any {m n : Nat} (hm : 1 ≤ m) (hn : 1 ≤ n) (hm' : m ≤ 50000016)
    (hn' : n ≤ 50000016) (h : ugenstr env m type = ugenstr env n type) : m = n := by
  by_cases htype : env.utf8 = true ∧ type ≠ 2
  · exact ugenstr_injective htype.1 htype.2 hm hn hm' hn' h
  · rw [ugenstr_eq_genstr htype, ugenstr_eq_genstr htype] at h
    exact genstr_injective hm hn h

theorem genstr_head_ne_space {int : Nat} :
    (genstr env int).head? ≠ some space := by
  obtain ⟨c, s, hs, hc⟩ := genstr_head env int
  rw [hs, List.head?_cons]
  simp only [ne_eq, Option.some.injEq, space]
  omega

theorem ugenstr_head_ne_space {int : Nat} (h : 1 ≤ int) :
    (ugenstr env int type).head? ≠ some space := by
  by_cases htype : env.utf8 = true ∧ type ≠ 2
  · obtain ⟨c, s, hs, hc⟩ := ugenstr_head htype.1 htype.2 h
    rw [hs, List.head?_cons]
    simp only [ne_eq, Option.some.injEq, space]
    omega
  · rw [ugenstr_eq_genstr htype]
    exact genstr_head_ne_space

/-- On the indices of `imptp` both generators are one-to-one, in every
environment and for every type of string asked for. -/
theorem genstr_ugenstr_injective (env : Env) (type : Nat) (int1 int2 : Nat)
    (h1 : 1 ≤ int1) (h2 : 1 ≤ int2) (h1' : int1 ≤ 50000016) (h2' : int2 ≤ 50000016)
    (hne : int1 ≠ int2) :
    genstr env int1 ≠ genstr env int2 ∧ ugenstr env int1 type ≠ ugenstr env int2 type :=
  ⟨fun h => hne (genstr_injective h1 h2 h),
    fun h => hne (ugenstr_injective_any h1 h2 h1' h2' h)⟩

theorem genstr_ugenstr_injective_integer_multiple :
    genstr ⟨true, 63, false⟩ 15000000 ≠ genstr ⟨true, 63, false⟩ 47123538 ∧
      ugenstr ⟨true, 63, false⟩ 15000000 0 ≠ ugenstr ⟨true, 63, false⟩ 47123538 0 :=
  genstr_ugenstr_injective ⟨true, 63, false⟩ 0 15000000 47123538 (by omega) (by omega) (by omega)
    (by omega) (by omega)

end YdbTest.UgenStrUnique
