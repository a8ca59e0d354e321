import YdbTest.Decimal
import YdbTest.GenStr

namespace YdbTest.GenStrUnique

open MString Decimal GenStr

variable {α : Type} {env : Env}

/-- No code of a `P` element is a proper beginning of another's. -/
structure PrefixCode (P : α → Prop) (f : α → Str) : Prop where
  ne_nil : ∀ a, f a ≠ []
  inj : ∀ a b s t, P a → P b → f a ++ s = f b ++ t → a = b ∧ s = t

theorem PrefixCode.flatMap_injective {P : α → Prop} {f : α → Str} (hf : PrefixCode P f)
    {as bs : List α} (ha : ∀ a ∈ as, P a) (hb : ∀ b ∈ bs, P b)
    (h : as.flatMap f = bs.flatMap f) : as = bs := by
  induction as generalizing bs with
  | nil =>
    cases bs with
    | nil => rfl
    | cons b bs => exact absurd (List.append_eq_nil_iff.mp h.symm).1 (hf.ne_nil b)
  | cons a as ih =>
    cases bs with
    | nil => exact absurd (List.append_eq_nil_iff.mp h).1 (hf.ne_nil a)
    | cons b bs =>
      obtain ⟨hab, hrest⟩ := hf.inj a b _ _ (ha a (by simp)) (hb b (by simp)) h
      rw [hab, ih (fun x hx => ha x (by simp [hx])) (fun x hx => hb x (by simp [hx])) hrest]

theorem foldl_append_right (f : α → Str) (as : List α) (s : Str) :
    as.foldl (fun str a => str ++ f a) s = s ++ as.flatMap f := by
  induction as generalizing s with
  | nil => simp
  | cons a as ih => simp [ih]

theorem foldl_append_left (f : α → Str) (as : List α) (s : Str) :
    as.foldl (fun str a => f a ++ str) s = as.reverse.flatMap f ++ s := by
  induction as generalizing s with
  | nil => simp
  | cons a as ih => simp [ih]

theorem utf8Char_prefixCode : PrefixCode (fun c => c < 1114112) utf8Char := by
  refine ⟨fun a => ?_, fun a b s t _ _ h => ?_⟩
  · unfold utf8Char
    split_ifs <;> simp
  · unfold utf8Char at h
    split_ifs at h <;> simp only [List.cons_append, List.nil_append, List.cons.injEq] at h <;>
      first
        | exact ⟨by omega, h.2⟩
        | exact ⟨by omega, h.2.2⟩
        | exact ⟨by omega, h.2.2.2⟩
        | exact ⟨by omega, h.2.2.2.2⟩
        | omega

theorem byte_prefixCode (P : Nat → Prop) : PrefixCode P zchar := by
  refine ⟨fun a => by simp [zchar], fun a b s t _ _ h => ?_⟩
  simpa [zchar] using h

theorem char_prefixCode (utf8 : Bool) : PrefixCode (fun c => c < 1114112) (char utf8) := by
  cases utf8 with
  | false => exact byte_prefixCode _
  | true => exact utf8Char_prefixCode

theorem genstrChar_prefixCode (env : Env) : PrefixCode (fun c => c < 1114112) (genstrChar env) := by
  unfold genstrChar
  split
  · exact byte_prefixCode _
  · exact char_prefixCode env.utf8

theorem PrefixCode.offset {f : Nat → Str} (hf : PrefixCode (fun c => c < 1114112) f) (o : Nat) :
    PrefixCode (fun d => o + d < 1114112) (fun d => f (o + d)) := by
  refine ⟨fun d => hf.ne_nil _, fun a b s t ha hb h => ?_⟩
  obtain ⟨hab, hst⟩ := hf.inj _ _ _ _ ha hb h
  exact ⟨by omega, hst⟩

theorem genstrLoop_injective {radix o m n : Nat} {str : Str} (hr : 1 < radix)
    (ho : o + radix ≤ 1114112) (h : genstrLoop env radix o m str = genstrLoop env radix o n str) :
    m = n := by
  have hd (k : Nat) : ∀ d ∈ Nat.digits radix k, o + d < 1114112 := fun d hd => by
    have := Nat.digits_lt_base hr hd
    omega
  unfold genstrLoop at h
  rw [foldl_append_right (fun d => genstrChar env (o + d)),
    foldl_append_right (fun d => genstrChar env (o + d))] at h
  exact Nat.digits_inj_iff.mp (((genstrChar_prefixCode env).offset o).flatMap_injective (hd m) (hd n)
    (List.append_cancel_left h))

/-- The first byte of `genstr` tells the classes apart, up to the sign for numbers. -/
theorem genstr_head (env : Env) (int : Nat) :
    ∃ c s, genstr env int = c :: s ∧
      ((int % 8 = 0 ∨ int % 8 = 2) ∧ (c = 46 ∨ 48 ≤ c ∧ c ≤ 57) ∨
        (int % 8 = 1 ∨ int % 8 = 3) ∧ c = 45 ∨ int % 8 = 4 ∧ c = 0 ∨ int % 8 = 5 ∧ c = 65 ∨
        int % 8 = 6 ∧ c = 97 ∨ int % 8 = 7 ∧ c = 37) := by
  have hpre (radix o : Nat) (c : Nat) (str : Str) : ∃ s,
      genstrLoop env radix o int (c :: str) = c :: s := by
    unfold genstrLoop
    rw [foldl_append_right (fun d => genstrChar env (o + d))]
    exact ⟨_, rfl⟩
  have hlt := Nat.mod_lt int (show 0 < 8 by omega)
  unfold genstr
  split
  case h_1 heq =>
    obtain ⟨c, s, hs, hc⟩ := decimal_head (314 * int) 2
    exact ⟨c, s, hs, Or.inl ⟨Or.inl heq, hc⟩⟩
  case h_2 heq => exact ⟨45, _, neg_decimal (by omega), by omega⟩
  case h_3 heq =>
    obtain ⟨c, s, hs, hc⟩ := decimal_head int 0
    exact ⟨c, s, by rw [dec_eq_decimal, hs], Or.inl ⟨Or.inr heq, hc⟩⟩
  case h_4 heq => exact ⟨45, _, by rw [dec_eq_decimal]; exact neg_decimal (by omega), by omega⟩
  case h_5 heq =>
    obtain ⟨s, hs⟩ := hpre 256 0 0 [1, 2, 3, 4, 5, 6, 7, 8, 9, 10, 0]
    exact ⟨0, s, hs, by omega⟩
  case h_6 heq =>
    obtain ⟨s, hs⟩ := hpre 26 65 65 (lit "BCDEFGHIJKLMNOPQRSTUVWXYZ")
    exact ⟨65, s, hs, by omega⟩
  case h_7 heq =>
    obtain ⟨s, hs⟩ := hpre 26 97 97 (lit "bcdefghijklmnopqrstuvwxyz")
    exact ⟨97, s, hs, by omega⟩
  case h_8 h0 h1 h2 h3 h4 h5 h6 =>
    simp only [imp_false] at h0 h1 h2 h3 h4 h5 h6
    obtain ⟨s, hs⟩ := hpre 26 65 37 []
    exact ⟨37, s, hs, by omega⟩

theorem neg_decimal_injective {m n scale scale' : Nat} (hm : m ≠ 0) (hn : n ≠ 0)
    (h : neg (decimal m scale) = neg (decimal n scale')) : m * 10 ^ scale' = n * 10 ^ scale := by
  rw [neg_decimal hm, neg_decimal hn] at h
  exact decimal_injective (List.cons.inj h).2

theorem genstr_injective_class {m n : Nat} (hm : 1 ≤ m) (hn : 1 ≤ n) (hmod : m % 8 = n % 8)
    (h : genstr env m = genstr env n) : m = n := by
  have hlt := Nat.mod_lt n (show 0 < 8 by omega)
  unfold genstr at h
  rw [hmod] at h
  generalize n % 8 = k at h hlt
  interval_cases k <;> simp only [dec_eq_decimal] at h
  · have := decimal_injective h
    omega
  · have := neg_decimal_injective (by omega) (by omega) h
    omega
  · have := decimal_injective h
    omega
  · have := neg_decimal_injective (by omega) (by omega) h
    omega
  · exact genstrLoop_injective (by omega) (by omega) h
  · exact genstrLoop_injective (by omega) (by omega) h
  · exact genstrLoop_injective (by omega) (by omega) h
  · exact genstrLoop_injective (by omega) (by omega) h

theorem genstr_injective {m n : Nat} (hm : 1 ≤ m) (hn : 1 ≤ n)
    (h : genstr env m = genstr env n) : m = n := by
  obtain ⟨c, s, hc, hclass⟩ := genstr_head env m
  obtain ⟨d, t, hd, hclass'⟩ := genstr_head env n
  obtain rfl : c = d := (List.cons.inj (hc.symm.trans (h.trans hd))).1
  have hmod : m % 8 = n % 8 ∨ m % 8 = 0 ∧ n % 8 = 2 ∨ m % 8 = 2 ∧ n % 8 = 0 ∨
      m % 8 = 1 ∧ n % 8 = 3 ∨ m % 8 = 3 ∧ n % 8 = 1 := by omega
  clear hc hd hclass hclass'
  -- `3.14*m` is an integer only for multiples of fifty, and those fall in other classes.
  obtain hmod | ⟨h1, h2⟩ | ⟨h1, h2⟩ | ⟨h1, h2⟩ | ⟨h1, h2⟩ := hmod
  · exact genstr_injective_class hm hn hmod h
  all_goals unfold genstr at h
  · simp only [h1, h2, dec_eq_decimal] at h
    have := decimal_injective h
    omega
  · simp only [h1, h2, dec_eq_decimal] at h
    have := decimal_injective h
    omega
  · simp only [h1, h2, dec_eq_decimal] at h
    have := neg_decimal_injective (by omega) (by omega) h
    omega
  · simp only [h1, h2, dec_eq_decimal] at h
    have := neg_decimal_injective (by omega) (by omega) h
    omega

/-- Code points that begin the strings of class `itemno`, which are runs of
ten consecutive digits. -/
theorem ugenstrLoop_head {o int : Nat} (h : 1 ≤ int) :
    ∃ d s, d < 10 ∧ ugenstrLoop env o int = char env.utf8 (o + d) ++ s := by
  unfold ugenstrLoop
  rw [foldl_append_left (fun d => char env.utf8 (o + d)), List.append_nil]
  cases hd : (Nat.digits 10 int).reverse with
  | nil =>
    rw [List.reverse_eq_nil_iff, Nat.digits_eq_nil_iff_eq_zero] at hd
    omega
  | cons d ds =>
    have hmem : d ∈ Nat.digits 10 int := by
      rw [← List.mem_reverse, hd]
      simp
    exact ⟨d, _, Nat.digits_lt_base (by omega) hmem, rfl⟩

theorem ugenstrLoop_injective {o m n : Nat} (ho : o + 10 ≤ 1114112)
    (h : ugenstrLoop env o m = ugenstrLoop env o n) : m = n := by
  have hd (k : Nat) : ∀ d ∈ (Nat.digits 10 k).reverse, o + d < 1114112 := fun d hd => by
    have := Nat.digits_lt_base (by omega) (List.mem_reverse.mp hd)
    omega
  unfold ugenstrLoop at h
  rw [foldl_append_left (fun d => char env.utf8 (o + d)),
    foldl_append_left (fun d => char env.utf8 (o + d)), List.append_nil, List.append_nil] at h
  have := ((char_prefixCode env.utf8).offset o).flatMap_injective (hd m) (hd n) h
  exact Nat.digits_inj_iff.mp (List.reverse_injective this)

theorem ugenstrLoop_dec {int : Nat} (h : 1 ≤ int) : ugenstrLoop env 48 int = dec int := by
  have hc (c : Nat) (hlt : c < 10) : char env.utf8 (48 + c) = [48 + c] := by
    unfold char utf8Char
    split_ifs <;> first | rfl | omega
  unfold ugenstrLoop
  rw [foldl_append_left (fun d => char env.utf8 (48 + d)), List.append_nil,
    dec_eq_digits (by omega), digits, digitsStr]
  have hlt : ∀ d ∈ (Nat.digits 10 int).reverse, d < 10 := fun d hd =>
    Nat.digits_lt_base (by omega) (List.mem_reverse.mp hd)
  revert hlt
  generalize (Nat.digits 10 int).reverse = ds
  intro hlt
  induction ds with
  | nil => rfl
  | cons d ds ih =>
    rw [List.flatMap_cons, hc d (hlt d (by simp)), ih (fun e he => hlt e (by simp [he]))]
    rfl

end YdbTest.GenStrUnique
