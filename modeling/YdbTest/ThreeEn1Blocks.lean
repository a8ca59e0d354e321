import YdbTest.ThreeEn1
import Mathlib.Order.Basic

namespace YdbTest.ThreeEn1.Problem

variable {l : Problem} {tmp c m s t : Nat}

theorem size_pos : 0 < l.size := by
  have hdiv : 1 ≤ (l.j - l.i + l.k) / l.k := by
    rw [Nat.le_div_iff_mul_le l.pos]
    omega
  unfold size
  simp only []
  split
  · omega
  · exact hdiv

theorem limitsFrom_of_lt (h : tmp < l.j) : ∃ tmp', tmp < tmp' ∧ tmp' ≤ l.j ∧
    l.limitsFrom tmp = tmp' :: l.limitsFrom tmp' := by
  have hpos := @size_pos l
  rw [limitsFrom, dif_pos ⟨h, hpos⟩]
  refine ⟨_, ?_, ?_, rfl⟩
  · split <;> omega
  · split <;> omega

theorem limitsFrom_end (h : ¬ tmp < l.j) : l.limitsFrom tmp = [] := by
  rw [limitsFrom, dif_neg fun hc => h hc.1]

theorem limitsFrom_sorted (n : Nat) (h : l.j - tmp = n) :
    (tmp :: l.limitsFrom tmp).Pairwise (· < ·) ∧ ∀ m ∈ l.limitsFrom tmp, m ≤ l.j := by
  induction n using Nat.strong_induction_on generalizing tmp with
  | _ n ih =>
    by_cases hlt : tmp < l.j
    · obtain ⟨tmp', hgt, hle, heq⟩ := limitsFrom_of_lt hlt
      obtain ⟨hsorted, hbound⟩ := ih (l.j - tmp') (by omega) rfl
      rw [heq]
      constructor
      · refine List.pairwise_cons.mpr ⟨?_, hsorted⟩
        intro m hm
        obtain rfl | hm := List.mem_cons.mp hm
        · exact hgt
        · exact Nat.lt_trans hgt ((List.pairwise_cons.mp hsorted).1 m hm)
      · intro m hm
        obtain rfl | hm := List.mem_cons.mp hm
        · exact hle
        · exact hbound m hm
    · rw [limitsFrom_end hlt]
      exact ⟨List.pairwise_singleton _ _, fun m hm => absurd hm List.not_mem_nil⟩

theorem limitsFrom_cover (n : Nat) (h : l.j - tmp = n) (hc : tmp < c) (hj : c ≤ l.j) :
    ∃ (idx m : Nat), (l.limitsFrom tmp)[idx]? = some m ∧ c ≤ m ∧
      ∀ p, (tmp :: l.limitsFrom tmp)[idx]? = some p → p < c := by
  induction n using Nat.strong_induction_on generalizing tmp with
  | _ n ih =>
    obtain ⟨tmp', hgt, hle, heq⟩ := limitsFrom_of_lt (l := l) (Nat.lt_of_lt_of_le hc hj)
    rw [heq]
    by_cases hcm : c ≤ tmp'
    · exact ⟨0, tmp', rfl, hcm, fun p hp => Option.some.inj hp ▸ hc⟩
    · obtain ⟨idx, m, hm, hcm', hp⟩ := ih (l.j - tmp') (by omega) rfl (by omega)
      exact ⟨idx + 1, m, hm, hcm', hp⟩

theorem limit_zero : l.limit 0 = none := rfl

theorem limit_succ (idx : Nat) : l.limit (idx + 1) = l.limits[idx]? := by
  rw [limit, if_neg (Nat.succ_ne_zero idx), Nat.add_sub_cancel]

theorem first_succ (idx : Nat) : ∃ p : Nat, ((l.i - 1) :: l.limits)[idx]? = none ∧ l.first (idx + 1) = l.i ∨
    ((l.i - 1) :: l.limits)[idx]? = some p ∧ l.first (idx + 1) = p + 1 := by
  have hi := l.one_le
  cases idx with
  | zero =>
    refine ⟨l.i - 1, Or.inr ⟨rfl, ?_⟩⟩
    change l.i = l.i - 1 + 1
    omega
  | succ idx =>
    have hlimit : l.limit (idx + 1 + 1 - 1) = l.limits[idx]? := limit_succ idx
    rw [first, hlimit, List.getElem?_cons_succ]
    cases l.limits[idx]? with
    | none => exact ⟨0, Or.inl ⟨rfl, rfl⟩⟩
    | some p => exact ⟨p, Or.inr ⟨rfl, rfl⟩⟩

theorem last_of_limit (h : l.limit t = some m) : l.last t = m := by
  rw [last, h, Option.getD_some]

theorem block_range (h : l.limit t = some m) : l.i ≤ l.first t ∧ l.first t ≤ m ∧ m ≤ l.j := by
  cases t with
  | zero => exact absurd h (by rw [limit_zero]; exact (Option.some_ne_none m).symm)
  | succ idx =>
    rw [limit_succ] at h
    have hi := l.one_le
    obtain ⟨hsorted, hbound⟩ := limitsFrom_sorted (l := l) (l.j - (l.i - 1)) rfl
    have hm : ((l.i - 1) :: l.limits)[idx + 1]? = some m := h
    obtain ⟨hlt, hget⟩ := List.getElem?_eq_some_iff.mp hm
    obtain ⟨p, ⟨hp, -⟩ | ⟨hp, hfirst⟩⟩ := first_succ (l := l) idx
    · have := List.getElem?_eq_none_iff.mp hp
      omega
    · obtain ⟨hlt', hget'⟩ := List.getElem?_eq_some_iff.mp hp
      have hord := List.pairwise_iff_getElem.mp hsorted idx (idx + 1) hlt' hlt (Nat.lt_succ_self idx)
      have hbase : l.i - 1 ≤ p := by
        cases idx with
        | zero =>
          have : l.i - 1 = p := hget'
          omega
        | succ idx =>
          have h0 := List.pairwise_iff_getElem.mp hsorted 0 (idx + 1) (Nat.succ_pos _) hlt'
            (Nat.succ_pos idx)
          have : l.i - 1 < p := by
            rw [← hget']
            exact h0
          omega
      have hmem : m ∈ l.limits := List.mem_of_getElem? h
      have hj := hbound m hmem
      change ((l.i - 1) :: l.limits)[idx] < ((l.i - 1) :: l.limits)[idx + 1] at hord
      rw [hget, hget'] at hord
      omega

theorem block_order (hs : l.limit s = some m) (ht : (l.limit t).isSome) (hst : s < t) :
    m < l.first t := by
  obtain ⟨m', ht⟩ := Option.isSome_iff_exists.mp ht
  cases s with
  | zero => exact absurd hs (by rw [limit_zero]; exact (Option.some_ne_none m).symm)
  | succ a =>
    obtain ⟨b, rfl⟩ : ∃ b, t = b + 1 := ⟨t - 1, by omega⟩
    rw [limit_succ] at hs ht
    obtain ⟨hsorted, -⟩ := limitsFrom_sorted (l := l) (l.j - (l.i - 1)) rfl
    have hsa : ((l.i - 1) :: l.limits)[a + 1]? = some m := hs
    obtain ⟨hlt, hget⟩ := List.getElem?_eq_some_iff.mp hsa
    obtain ⟨p, ⟨hp, -⟩ | ⟨hp, hfirst⟩⟩ := first_succ (l := l) b
    · have h1 := List.getElem?_eq_none_iff.mp hp
      have h2 := (List.getElem?_eq_some_iff.mp ht).1
      rw [List.length_cons] at h1
      omega
    · obtain ⟨hlt', hget'⟩ := List.getElem?_eq_some_iff.mp hp
      rw [hfirst]
      obtain hab | hab := Nat.eq_or_lt_of_le (show a + 1 ≤ b by omega)
      · subst hab
        have : m = p := hget.symm.trans hget'
        omega
      · have hord := List.pairwise_iff_getElem.mp hsorted (a + 1) b hlt hlt' hab
        change ((l.i - 1) :: l.limits)[a + 1] < ((l.i - 1) :: l.limits)[b] at hord
        rw [hget, hget'] at hord
        omega

theorem exists_block (hi : l.i ≤ c) (hj : c ≤ l.j) :
    ∃ t m, l.limit t = some m ∧ l.first t ≤ c ∧ c ≤ m := by
  have hpos := l.one_le
  obtain ⟨idx, m, hm, hcm, hp⟩ := limitsFrom_cover (l := l) (l.j - (l.i - 1)) rfl
    (show l.i - 1 < c by omega) hj
  refine ⟨idx + 1, m, (limit_succ idx).trans hm, ?_, hcm⟩
  obtain ⟨p, ⟨-, hfirst⟩ | ⟨hpre, hfirst⟩⟩ := first_succ (l := l) idx
  · omega
  · have := hp p hpre
    omega

theorem block_unique {m m' : Nat} (hs : l.limit s = some m) (ht : l.limit t = some m')
    (h1 : l.first s ≤ c) (h2 : c ≤ m) (h3 : l.first t ≤ c) (h4 : c ≤ m') : s = t := by
  obtain hlt | he | hlt := Nat.lt_trichotomy s t
  · have := block_order hs (by rw [ht]; rfl) hlt
    omega
  · exact he
  · have := block_order ht (by rw [hs]; rfl) hlt
    omega

end YdbTest.ThreeEn1.Problem
