import YdbTest.CIndexWalk

namespace YdbTest.IndexUnique

open ModWalk IndexWalk CIndexWalk

def IndicesDistinct {ι : Type} [LE ι] [OfNat ι 1] (jobcnt : Nat) (last : ι)
    (walk : Nat → List (ι × ι)) : Prop :=
  (∀ jobno jobno', 1 ≤ jobno → jobno ≤ jobcnt → 1 ≤ jobno' → jobno' ≤ jobcnt →
    ∀ x ∈ walk jobno, ∀ y ∈ walk jobno', (jobno, x.1) ≠ (jobno', y.1) → x.2 ≠ y.2) ∧
  ∀ jobno, 1 ≤ jobno → jobno ≤ jobcnt → ∀ x ∈ walk jobno, 1 ≤ x.2 ∧ x.2 ≤ last

/-- The indices of `imptp`, each job looping from 1 to `top`. -/
def ImptpDistinct (jobcnt : Nat) : Prop :=
  IndicesDistinct jobcnt (prime - 1) (fun jobno => impjobWalk jobcnt jobno 0 (top jobcnt))

/-- The same of simpleapi_imptp.c, whose loops must also stay within `int`. -/
def SimpleApiDistinct (jobcnt : Nat) : Prop :=
  ∃ top, cTop jobcnt = some top ∧ ∃ walk : Nat → List (Int × Int),
    (∀ jobno : Nat, 1 ≤ jobno → jobno ≤ jobcnt →
      cImpjobWalk jobcnt jobno 0 top = some (walk jobno)) ∧
    IndicesDistinct jobcnt ((prime : Int) - 1) walk

theorem root_not_dvd : ¬ prime ∣ root := by decide

theorem eq_of_prime_dvd_pred {q : Nat} (hq : q.Prime) (h : q ∣ prime - 1) :
    q = 2 ∨ q = 3 ∨ q = 11 ∨ q = 281 ∨ q = 337 := by
  have hf : prime - 1 = 2 ^ 4 * (3 * (11 * (281 * 337))) := by decide
  have dvd_prime {a : Nat} (ha : a.Prime) (hd : q ∣ a) : q = a :=
    (Nat.prime_dvd_prime_iff_eq hq ha).mp hd
  rw [hf, hq.dvd_mul, hq.dvd_mul, hq.dvd_mul, hq.dvd_mul] at h
  obtain h | h | h | h | h := h
  · exact Or.inl (dvd_prime Nat.prime_two (hq.dvd_of_dvd_pow h))
  · exact Or.inr (Or.inl (dvd_prime Nat.prime_three h))
  · exact Or.inr (Or.inr (Or.inl (dvd_prime (by norm_num) h)))
  · exact Or.inr (Or.inr (Or.inr (Or.inl (dvd_prime (by norm_num) h))))
  · exact Or.inr (Or.inr (Or.inr (Or.inr (dvd_prime (by norm_num) h))))

theorem five_ne_zero : (5 : ZMod 50000017) ≠ 0 := by reduce_mod_char; decide

/-- `root` is a primitive root of `prime`: its order is that of the whole group. -/
theorem orderOf_root : orderOf (root : ZMod prime) = prime - 1 := by
  have hf : Fact (Nat.Prime 50000017) := ⟨prime_prime⟩
  have h : orderOf (5 : ZMod 50000017) = 50000016 := by
    refine orderOf_eq_of_pow_and_pow_div_prime (by norm_num)
      (ZMod.pow_card_sub_one_eq_one five_ne_zero) ?_
    intro q hq hd
    obtain rfl | rfl | rfl | rfl | rfl := eq_of_prime_dvd_pred hq hd <;>
      (norm_num; reduce_mod_char; decide)
  exact h

theorem startIndex_pos (jobcnt jobno lasti : Nat) :
    1 ≤ startIndex jobcnt jobno lasti ∧ startIndex jobcnt jobno lasti ≤ prime - 1 := by
  have hp := pow_mod_pos root (jobno - 1 + lasti * jobcnt) root_not_dvd
  have hl := Nat.mod_lt (root ^ (jobno - 1 + lasti * jobcnt)) prime_prime.pos
  rw [startIndex_eq]
  omega

/-- The exponent of the index of iteration `loop` of job `jobno`. -/
def exponent (jobcnt jobno loop : Nat) : Nat := jobno - 1 + (loop - 1) * jobcnt

theorem exponent_le (jobcnt jobno loop : Nat) (hj : jobno ≤ jobcnt) (h1 : 1 ≤ jobno)
    (hl : 1 ≤ loop) (ht : loop ≤ top jobcnt) : exponent jobcnt jobno loop + 1 ≤ prime := by
  have hm : loop * jobcnt ≤ prime :=
    (Nat.mul_le_mul_right jobcnt ht).trans (Nat.div_mul_le_self prime jobcnt)
  obtain ⟨l, rfl⟩ : ∃ l, loop = l + 1 := ⟨loop - 1, by omega⟩
  rw [exponent, Nat.add_sub_cancel]
  rw [Nat.succ_mul] at hm
  omega

theorem exponent_injective {jobcnt jobno jobno' loop loop' : Nat} (hj : 1 ≤ jobno)
    (hj' : 1 ≤ jobno') (hc : jobno ≤ jobcnt) (hc' : jobno' ≤ jobcnt) (hl : 1 ≤ loop)
    (hl' : 1 ≤ loop') (h : exponent jobcnt jobno loop = exponent jobcnt jobno' loop') :
    jobno = jobno' ∧ loop = loop' := by
  have hpos : 0 < jobcnt := by omega
  unfold exponent at h
  have hmod := congrArg (· % jobcnt) h
  have hdiv := congrArg (· / jobcnt) h
  simp only [Nat.add_mul_mod_self_right, Nat.add_mul_div_right _ _ hpos,
    Nat.mod_eq_of_lt (by omega : jobno - 1 < jobcnt),
    Nat.mod_eq_of_lt (by omega : jobno' - 1 < jobcnt),
    Nat.div_eq_of_lt (by omega : jobno - 1 < jobcnt),
    Nat.div_eq_of_lt (by omega : jobno' - 1 < jobcnt)] at hmod hdiv
  omega

theorem startIndex_injective {jobcnt jobno jobno' loop loop' : Nat} (hj : 1 ≤ jobno)
    (hj' : 1 ≤ jobno') (hc : jobno ≤ jobcnt) (hc' : jobno' ≤ jobcnt) (hl : 1 ≤ loop)
    (hl' : 1 ≤ loop') (he : exponent jobcnt jobno loop < prime - 1)
    (he' : exponent jobcnt jobno' loop' < prime - 1)
    (h : startIndex jobcnt jobno (loop - 1) = startIndex jobcnt jobno' (loop' - 1)) :
    jobno = jobno' ∧ loop = loop' := by
  rw [startIndex_eq, startIndex_eq] at h
  rw [← orderOf_root] at he he'
  exact exponent_injective hj hj' hc hc' hl hl' (pow_mod_injective root he he' h)

theorem startIndex_last {jobcnt : Nat} (h : jobcnt ∣ prime) :
    startIndex jobcnt jobcnt (top jobcnt - 1) = startIndex jobcnt 1 0 := by
  have hm : top jobcnt * jobcnt = prime := Nat.div_mul_cancel h
  have he : jobcnt - 1 + (top jobcnt - 1) * jobcnt = prime - 1 := by
    obtain ⟨t, ht⟩ : ∃ t, top jobcnt = t + 1 :=
      Nat.exists_eq_succ_of_ne_zero (fun h0 => by rw [h0, Nat.zero_mul] at hm; exact absurd hm (by decide))
    rw [ht, Nat.succ_mul] at hm
    rw [ht, Nat.add_sub_cancel]
    have : 0 < jobcnt := Nat.pos_of_dvd_of_pos h prime_prime.pos
    omega
  rw [startIndex_eq, startIndex_eq, he, ← orderOf_root, pow_order_mod]
  simp

/-- Only a job count that divides `prime` lets the last job's last loop reach the order. -/
theorem exponent_lt_of_not_dvd {jobcnt jobno loop : Nat} (h : ¬ jobcnt ∣ prime) (h1 : 1 ≤ jobno)
    (hc : jobno ≤ jobcnt) (hl : 1 ≤ loop) (ht : loop ≤ top jobcnt) :
    exponent jobcnt jobno loop < prime - 1 := by
  have he := exponent_le jobcnt jobno loop hc h1 hl ht
  by_contra hn
  apply h
  have hm : loop * jobcnt ≤ prime :=
    (Nat.mul_le_mul_right jobcnt ht).trans (Nat.div_mul_le_self prime jobcnt)
  obtain ⟨l, rfl⟩ : ∃ l, loop = l + 1 := ⟨loop - 1, by omega⟩
  rw [exponent, Nat.add_sub_cancel] at he hn
  rw [Nat.succ_mul] at hm
  have hp := prime_prime.pos
  have heq : (l + 1) * jobcnt = prime := by rw [Nat.succ_mul]; omega
  exact Dvd.intro_left _ heq

theorem imptpDistinct_of_not_dvd {jobcnt : Nat} (h : ¬ jobcnt ∣ prime) :
    ImptpDistinct jobcnt := by
  constructor
  · intro jobno jobno' h1 hc h1' hc' x hx y hy hne heq
    rw [mem_impjobWalk _ _ _ _ (Nat.zero_le _)] at hx hy
    obtain ⟨hx0, hxt, hxi⟩ := hx
    obtain ⟨hy0, hyt, hyi⟩ := hy
    rw [hxi, hyi] at heq
    obtain ⟨hj, hl⟩ := startIndex_injective h1 h1' hc hc' hx0 hy0
      (exponent_lt_of_not_dvd h h1 hc hx0 hxt) (exponent_lt_of_not_dvd h h1' hc' hy0 hyt) heq
    exact hne (by rw [hj, hl])
  · intro jobno h1 hc x hx
    rw [mem_impjobWalk _ _ _ _ (Nat.zero_le _)] at hx
    rw [hx.2.2]
    exact startIndex_pos jobcnt jobno (x.1 - 1)

/-- The first pair and the last pair share an index when `top` wraps the whole group. -/
theorem not_imptpDistinct_of_dvd {jobcnt : Nat} (h : jobcnt ∣ prime) : ¬ ImptpDistinct jobcnt := by
  intro hd
  have hc : 1 ≤ jobcnt := Nat.pos_of_dvd_of_pos h prime_prime.pos
  have hm : top jobcnt * jobcnt = prime := Nat.div_mul_cancel h
  have ht : 1 ≤ top jobcnt := Nat.div_pos (Nat.le_of_dvd prime_prime.pos h) hc
  have hne : (1, 1) ≠ (jobcnt, top jobcnt) := by
    intro heq
    obtain ⟨h1, h2⟩ := Prod.mk.inj heq
    rw [← h2, ← h1] at hm
    exact absurd hm (by decide)
  refine hd.1 1 jobcnt (Nat.le_refl 1) hc hc (Nat.le_refl jobcnt) (1, startIndex jobcnt 1 0) ?_
    (top jobcnt, startIndex jobcnt jobcnt (top jobcnt - 1)) ?_ hne (startIndex_last h).symm
  · exact (mem_impjobWalk _ _ _ _ (Nat.zero_le _) _).mpr ⟨Nat.zero_lt_one, ht, rfl⟩
  · exact (mem_impjobWalk _ _ _ _ (Nat.zero_le _) _).mpr ⟨ht, Nat.le_refl _, rfl⟩

theorem mem_castWalk {walk : List (Nat × Nat)} {x : Int × Int} :
    x ∈ castWalk walk ↔ ∃ y ∈ walk, ((y.1 : Int), (y.2 : Int)) = x := by
  simp only [castWalk, List.mem_map]

theorem indicesDistinct_congr {ι : Type} [LE ι] [OfNat ι 1] {jobcnt : Nat} {last : ι}
    {walk walk' : Nat → List (ι × ι)}
    (h : ∀ jobno, 1 ≤ jobno → jobno ≤ jobcnt → walk jobno = walk' jobno)
    (hd : IndicesDistinct jobcnt last walk) : IndicesDistinct jobcnt last walk' := by
  constructor
  · intro jobno jobno' h1 hc h1' hc' x hx y hy
    rw [← h jobno h1 hc] at hx
    rw [← h jobno' h1' hc'] at hy
    exact hd.1 jobno jobno' h1 hc h1' hc' x hx y hy
  · intro jobno h1 hc x hx
    rw [← h jobno h1 hc] at hx
    exact hd.2 jobno h1 hc x hx

theorem indicesDistinct_castWalk (jobcnt last : Nat) (walk : Nat → List (Nat × Nat)) :
    IndicesDistinct jobcnt (last : Int) (fun jobno => castWalk (walk jobno)) ↔
      IndicesDistinct jobcnt last walk := by
  constructor
  · rintro ⟨hd, hr⟩
    constructor
    · intro jobno jobno' h1 hc h1' hc' x hx y hy hne heq
      apply hd jobno jobno' h1 hc h1' hc' (x.1, x.2) (mem_castWalk.mpr ⟨x, hx, rfl⟩)
        (y.1, y.2) (mem_castWalk.mpr ⟨y, hy, rfl⟩)
      · simpa using hne
      · simpa using heq
    · intro jobno h1 hc x hx
      have := hr jobno h1 hc (x.1, x.2) (mem_castWalk.mpr ⟨x, hx, rfl⟩)
      omega
  · rintro ⟨hd, hr⟩
    constructor
    · intro jobno jobno' h1 hc h1' hc' x hx y hy hne heq
      obtain ⟨u, hu, rfl⟩ := mem_castWalk.mp hx
      obtain ⟨v, hv, rfl⟩ := mem_castWalk.mp hy
      apply hd jobno jobno' h1 hc h1' hc' u hu v hv
      · simpa using hne
      · simpa using heq
    · intro jobno h1 hc x hx
      obtain ⟨u, hu, rfl⟩ := mem_castWalk.mp hx
      have := hr jobno h1 hc u hu
      omega

theorem simpleApiDistinct_iff {jobcnt : Nat} (h1 : 1 ≤ jobcnt) (h : jobcnt < 2147483647) :
    SimpleApiDistinct jobcnt ↔ ImptpDistinct jobcnt := by
  have ht : top jobcnt < 2147483647 :=
    (Nat.div_le_self prime jobcnt).trans_lt (by decide)
  have hp : (prime : Int) - 1 = ((prime - 1 : Nat) : Int) := by unfold prime; norm_num
  have hw (jobno : Nat) (hc : jobno ≤ jobcnt) :
      cImpjobWalk jobcnt jobno 0 (top jobcnt) =
        some (castWalk (impjobWalk jobcnt jobno 0 (top jobcnt))) :=
    cImpjobWalk_eq jobcnt jobno 0 (top jobcnt) h (by omega) (by omega) ht
  unfold SimpleApiDistinct ImptpDistinct
  rw [hp, ← indicesDistinct_castWalk]
  constructor
  · rintro ⟨t, htop, walk, hwalk, hd⟩
    obtain rfl : top jobcnt = t := Option.some.inj ((cTop_eq jobcnt h1).symm.trans htop)
    apply indicesDistinct_congr _ hd
    intro jobno hj hc
    exact Option.some.inj ((hwalk jobno hj hc).symm.trans (hw jobno hc))
  · intro hd
    exact ⟨top jobcnt, cTop_eq jobcnt h1, _, fun jobno _ hc => hw jobno hc, hd⟩

theorem not_simpleApiDistinct_intMax : ¬ SimpleApiDistinct 2147483647 := by
  rintro ⟨t, -, walk, hwalk, -⟩
  have h := hwalk 1 (Nat.le_refl 1) (by omega)
  rw [cImpjobWalk, Nat.cast_ofNat, cNroot_intMax, Option.bind_eq_bind, Option.bind_none] at h
  exact absurd h (by simp)

/-- No index is used twice exactly when the job count does not divide `prime`:
`top` is one loop too many for the last job when it does. -/
theorem indices_distinct_iff (jobcnt : Nat) (h1 : 1 ≤ jobcnt) :
    (ImptpDistinct jobcnt ↔ ¬ jobcnt ∣ prime) ∧
    (jobcnt ≤ 2147483647 →
      (SimpleApiDistinct jobcnt ↔ ¬ jobcnt ∣ prime ∧ jobcnt ≠ 2147483647)) := by
  have hm : ImptpDistinct jobcnt ↔ ¬ jobcnt ∣ prime :=
    ⟨fun hd hdvd => not_imptpDistinct_of_dvd hdvd hd, imptpDistinct_of_not_dvd⟩
  refine ⟨hm, fun hmax => ?_⟩
  by_cases he : jobcnt = 2147483647
  · subst he
    exact ⟨fun h => absurd h not_simpleApiDistinct_intMax, fun h => absurd rfl h.2⟩
  · rw [simpleApiDistinct_iff h1 (by omega), hm]
    exact ⟨fun h => ⟨h, he⟩, fun h => h.1⟩

theorem indices_distinct_iff_five :
    (ImptpDistinct 5 ↔ ¬ 5 ∣ prime) ∧
    (SimpleApiDistinct 5 ↔ ¬ 5 ∣ prime ∧ 5 ≠ 2147483647) :=
  ⟨(indices_distinct_iff 5 (by omega)).1, (indices_distinct_iff 5 (by omega)).2 (by omega)⟩

/-- One job alone comes back to its first index in its last loop. -/
theorem index_repeats_one_job :
    (1, startIndex 1 1 0) ∈ impjobWalk 1 1 0 (top 1) ∧
    (50000017, startIndex 1 1 0) ∈ impjobWalk 1 1 0 (top 1) ∧
    ¬ ImptpDistinct 1 ∧ ¬ SimpleApiDistinct 1 := by
  have hl : startIndex 1 1 0 = startIndex 1 1 (50000017 - 1) :=
    (@startIndex_last 1 (one_dvd prime)).symm
  refine ⟨(mem_impjobWalk _ _ _ _ (Nat.zero_le _) _).mpr ⟨Nat.zero_lt_one, by decide, rfl⟩,
    (mem_impjobWalk _ _ _ _ (Nat.zero_le _) _).mpr ⟨by decide, by decide, hl⟩,
    not_imptpDistinct_of_dvd (one_dvd prime), ?_⟩
  rw [simpleApiDistinct_iff (Nat.le_refl 1) (by omega)]
  exact not_imptpDistinct_of_dvd (one_dvd prime)

end YdbTest.IndexUnique
