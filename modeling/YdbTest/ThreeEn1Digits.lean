import YdbTest.ThreeEn1
import YdbTest.Decimal

namespace YdbTest.ThreeEn1

open MString Decimal

variable {n m : Nat}

theorem di_ds : ∀ d < 10, di (ds d) = d ∧ space ∉ ds d := by decide

theorem dec_eq (n : Nat) : ∃ es : List Nat, es ≠ [] ∧ (∀ d ∈ es, d < 10) ∧ Nat.ofDigits 10 es = n ∧
    dec n = digitsStr es := by
  by_cases hn : n = 0
  · subst hn
    exact ⟨[0], List.cons_ne_nil 0 [], by simp, rfl, rfl⟩
  · refine ⟨Nat.digits 10 n, Nat.digits_ne_nil_iff_ne_zero.mpr hn,
      fun d hd => Nat.digits_lt_base (by decide) hd, Nat.ofDigits_digits 10 n, dec_eq_digits hn⟩

theorem splitOn_inttostr {es : List Nat} (hne : es ≠ []) (hlt : ∀ d ∈ es, d < 10)
    (h : dec n = digitsStr es) : (inttostr n).splitOn space = es.reverse.map ds := by
  have hwords : (dec n).map (fun c => ds (c - 48)) = es.reverse.map ds := by
    rw [h, digitsStr, List.map_map]
    apply List.map_congr_left
    intro d _
    rw [Function.comp_apply, Nat.add_sub_cancel_left]
  rw [inttostr, hwords]
  apply List.splitOn_intercalate
  · intro w hw
    obtain ⟨d, hd, rfl⟩ := List.mem_map.mp hw
    exact (di_ds d (hlt d (List.mem_reverse.mp hd))).2
  · simpa using hne

theorem strtoint_inttostr (n : Nat) : strtoint (inttostr n) = n := by
  obtain ⟨es, hne, hlt, hof, hdec⟩ := dec_eq n
  have hfold : ∀ es : List Nat, (∀ d ∈ es, d < 10) →
      es.foldr (fun d n => 10 * n + di (ds d)) 0 = Nat.ofDigits 10 es := by
    intro es hlt
    induction es with
    | nil => rfl
    | cons d es ih =>
      obtain ⟨hd, hlt⟩ := List.forall_mem_cons.mp hlt
      rw [List.foldr_cons, ih hlt, Nat.ofDigits_cons, (di_ds d hd).1, Nat.add_comm]
  rw [strtoint, splitOn_inttostr hne hlt hdec, List.foldl_map, List.foldl_reverse, hfold es hlt, hof]

theorem inttostr_injective (h : inttostr m = inttostr n) : m = n := by
  rw [← strtoint_inttostr m, h, strtoint_inttostr]

end YdbTest.ThreeEn1
