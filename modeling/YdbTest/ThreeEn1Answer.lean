import YdbTest.ThreeEn1Lines

namespace YdbTest.ThreeEn1

open MString MLocks Orbits

variable {l : Problem} {db0 : Db} {σ σ' : Sys} {n c k v : Nat} {late : Bool}

def collatz (n : Nat) : Nat := if n % 2 = 0 then n / 2 else 3 * n + 1

theorem mnum_eq (h : n < 10 ^ 18) : mnum n = n := by
  have hlen := (Nat.digits_length_le_iff (b := 10) (by decide) n).mpr h
  have hk : (Nat.digits 10 n).length - 18 = 0 := Nat.sub_eq_zero_of_le hlen
  unfold mnum
  rw [hk]
  change n / 10 ^ 0 * 10 ^ 0 = n
  rw [Nat.pow_zero, Nat.div_one, Nat.mul_one]

theorem next_eq (hn : n < 10 ^ 18) (hc : collatz n < 10 ^ 18) : next n = collatz n := by
  unfold collatz at hc ⊢
  unfold next
  split
  · exact mnum_eq (by omega)
  · rename_i hodd
    rw [if_neg hodd] at hc
    rw [mnum_eq (n := 3 * n) (by omega), mnum_eq hc]

/-- From the number one comes to 1, through numbers of at most 18 digits. -/
def Returns (c : Nat) : Prop := ∃ k, Steps collatz 1 c k ∧ ∀ j ≤ k, collatz^[j] c < 10 ^ 18

theorem Returns.next (h : Returns c) : ∃ k, Steps collatz 1 c k ∧ Steps next 1 c k ∧
    ∀ j ≤ k, next^[j] c = collatz^[j] c := by
  obtain ⟨k, hk, hb⟩ := h
  obtain ⟨heq, hsteps⟩ := hk.congr (g := ThreeEn1.next) fun j hj => by
    apply next_eq (hb j (Nat.le_of_lt hj))
    rw [← Function.iterate_succ_apply' collatz]
    exact hb (j + 1) hj
  exact ⟨k, hk, hsteps, heq⟩

def lengths (l : Problem) : Set Nat := {k | ∃ c, InRange l c ∧ Steps collatz 1 c k}

def reached (l : Problem) : Set Nat :=
  {v | ∃ c k j, InRange l c ∧ Steps collatz 1 c k ∧ 1 ≤ j ∧ j ≤ k ∧ collatz^[j] c = v}

/-- What the sequential solution has computed. -/
structure Answer (l : Problem) (σ : Sys) : Prop where
  once : ∀ c, InRange l c → ∃ w, (σ.workers w).processed.count c = 1 ∧
    ∀ u ≠ w, c ∉ (σ.workers u).processed
  result : ∃ r, σ.db.result = some r ∧ IsGreatest (lengths l) r
  steps : ∀ n v, σ.db.step (inttostr n) = some v → ∃ k, v = inttostr k ∧ Steps collatz 1 n k
  highest : ∃ h, σ.db.highest = some h ∧ IsGreatest (reached l) h

section Fresh

variable (hfresh : ∀ n, ¬ Known db0.step n) (htraj : ∀ c, InRange l c → Returns c)

include hfresh

theorem sound_of_fresh : Sound db0.step :=
  fun n v hv => absurd (by rw [Known, hv]; rfl) (hfresh n)

theorem reached_iff (hk : Steps next 1 c k) :
    Reached db0 c v ↔ ∃ j, 1 ≤ j ∧ j ≤ k ∧ next^[j] c = v := by
  rw [← walked_all hk]
  constructor
  · exact fun h => h.mono fun _ hf => absurd hf id
  · exact fun h => h.mono fun n hn => hfresh n hn

include htraj

theorem paths_fresh : paths l db0.step = lengths l := by
  ext k
  constructor
  · rintro ⟨c, hc, -, hk⟩
    obtain ⟨k', hsteps, hnext, -⟩ := (htraj c hc).next
    exact ⟨c, hc, hk.unique hnext ▸ hsteps⟩
  · rintro ⟨c, hc, hk⟩
    obtain ⟨k', hsteps, hnext, -⟩ := (htraj c hc).next
    exact ⟨c, hc, hfresh c, hk.unique hsteps ▸ hnext⟩

theorem heights_fresh : heights l db0 = reached l := by
  ext v
  constructor
  · rintro ⟨c, hc, hv⟩
    obtain ⟨k, hsteps, hnext, heq⟩ := (htraj c hc).next
    obtain ⟨j, h1, hk, rfl⟩ := (reached_iff hfresh hnext).mp hv
    exact ⟨c, k, j, hc, hsteps, h1, hk, (heq j hk).symm⟩
  · rintro ⟨c, k', j, hc, hk', h1, hj, rfl⟩
    obtain ⟨k, hsteps, hnext, heq⟩ := (htraj c hc).next
    have hkk := hk'.unique hsteps
    subst hkk
    exact ⟨c, hc, (reached_iff hfresh hnext).mpr ⟨j, h1, hj, heq j hj⟩⟩

theorem steps_of_origin (ho : Origin l db0 n) (hn : Steps next 1 n k) : Steps collatz 1 n k := by
  obtain ⟨c, hc, hcase⟩ := ho
  obtain ⟨m, hsteps, hnext, heq⟩ := (htraj c hc).next
  have hplace : ∃ j ≤ m, next^[j] c = n := by
    obtain rfl | hr := hcase
    · exact ⟨0, Nat.zero_le _, rfl⟩
    · obtain ⟨j, -, hj, hv⟩ := (reached_iff hfresh hnext).mp hr
      exact ⟨j, hj, hv⟩
  obtain ⟨j, hj, rfl⟩ := hplace
  rw [hn.unique (hnext.drop hj), heq j hj]
  exact hsteps.drop hj

end Fresh

theorem greatest_of_insert_zero {s : Set Nat} {r : Nat} (h : IsGreatest (insert 0 s) r)
    (hne : ∃ k ∈ s, 0 < k) : IsGreatest s r := by
  obtain ⟨k, hk, hpos⟩ := hne
  have hr : k ≤ r := h.2 (Set.mem_insert_of_mem _ hk)
  refine ⟨(Set.mem_insert_iff.mp h.1).resolve_left (by omega), fun m hm => ?_⟩
  exact h.2 (Set.mem_insert_of_mem _ hm)

theorem getD_of_greatest {o : Option Nat} {s : Set Nat} (h : IsGreatest s (o.getD 0))
    (hne : ∃ k ∈ s, 0 < k) : ∃ r, o = some r ∧ IsGreatest s r := by
  cases o with
  | none =>
    obtain ⟨k, hk, hpos⟩ := hne
    exact absurd (h.2 hk) (Nat.not_le.mpr hpos)
  | some r => exact ⟨r, rfl, h⟩

/-- However the jobs and the parent take turns, the parent reports the sequential answer. -/
theorem threeen1f_answer (hfresh : ∀ n, ¬ Known db0.step n) (hresult : db0.result.getD 0 = 0)
    (hhighest : db0.highest.getD 0 = 0) (hj : 1 < l.j) (htraj : ∀ c, InRange l c → Returns c)
    (h : Reaches l db0 σ) (hp : σ.parent = .report late)
    (ha : late = true → ∃ w, (σ.workers w).pc = .done) : Answer l σ := by
  have hs := sound_of_fresh hfresh
  have hatt : Attended σ := by
    cases late with
    | false => exact attended_of_not_late h hp
    | true => exact ha rfl
  have hlast : InRange l l.j := ⟨l.le, Nat.le_refl _⟩
  obtain ⟨m, hm, -, -⟩ := (htraj l.j hlast).next
  have hmpos : 0 < m := hm.pos (by omega)
  refine ⟨fun c hc => processed_once h hp hatt hc, ?_, ?_, ?_⟩
  · have hres := report_result hs h hp hatt
    have hne : ∃ k ∈ lengths l, 0 < k := ⟨m, ⟨l.j, hlast, hm⟩, hmpos⟩
    rw [hresult, paths_fresh hfresh htraj] at hres
    exact getD_of_greatest (greatest_of_insert_zero hres hne) hne
  · intro n v hv
    have hd := (reaches_values hs h).globals
    obtain ⟨k, rfl, hk⟩ := hd.sound n v hv
    have hknown : Known σ.db.step n := by
      rw [Known, hv]
      rfl
    exact ⟨k, rfl, steps_of_origin hfresh htraj (hd.origin n hknown (hfresh n)) hk⟩
  · have hhigh := report_highest hs h hp hatt
    have hne : ∃ v ∈ reached l, 0 < v :=
      ⟨1, ⟨l.j, m, m, hlast, hm, hmpos, Nat.le_refl _, hm.1⟩, Nat.one_pos⟩
    rw [hhighest, heights_fresh hfresh htraj] at hhigh
    exact getD_of_greatest (greatest_of_insert_zero hhigh hne) hne

inductive Turn
  | parent
  | giveUp
  | job (w : Nat)

def act (l : Problem) (σ : Sys) : Turn → Option Sys
  | .parent => parentStep l σ
  | .giveUp => if σ.parent = .wait then some { σ with parent := .unlockL1 true } else none
  | .job w => workerStep l w σ

theorem reaches_act {turns : List Turn} (h : Reaches l db0 σ)
    (ha : turns.foldlM (act l) σ = some σ') : Reaches l db0 σ' := by
  induction turns generalizing σ with
  | nil => exact Option.some.inj ha ▸ h
  | cons a turns ih =>
    obtain ⟨τ, hτ, ha⟩ := Option.bind_eq_some_iff.mp ha
    refine ih (h.step ?_) ha
    cases a with
    | parent => exact Step.parent hτ
    | giveUp =>
      simp only [act] at hτ
      split at hτ
      · rename_i hp
        exact Option.some.inj hτ ▸ Step.giveUp hp
      · exact absurd hτ (Option.some_ne_none _).symm
    | job w => exact Step.worker w hτ

def run (l : Problem) (turns : List Turn) (db : Db) : Option Sys :=
  turns.foldlM (act l) (start db)

theorem exists_run (l : Problem) (db0 : Db) (turns : List Turn) {α : Type} {f : Sys → α} {a : α}
    (h : (run l turns db0).map f = some a) : ∃ σ, Reaches l db0 σ ∧ f σ = a := by
  obtain ⟨σ, hσ, heq⟩ := Option.map_eq_some_iff.mp h
  exact ⟨σ, reaches_act .start hσ, heq⟩

theorem exists_two (l l' : Problem) (db0 : Db) (after : Db → Db) (turns turns' : List Turn)
    {f : Sys → Sys → Bool}
    (h : ((run l turns db0).bind fun σ => (run l' turns' (after σ.db)).map (f σ)) = some true) :
    ∃ σ σ', Reaches l db0 σ ∧ Reaches l' (after σ.db) σ' ∧ f σ σ' = true := by
  obtain ⟨σ, hσ, h⟩ := Option.bind_eq_some_iff.mp h
  obtain ⟨σ', hσ', hf⟩ := Option.map_eq_some_iff.mp h
  exact ⟨σ, σ', reaches_act .start hσ, reaches_act .start hσ', hf⟩

/-- One job takes all the blocks, and makes `n` steps after it has counted itself down. -/
def alone (n : Nat) : List Turn :=
  List.replicate 4 Turn.parent ++ List.replicate 2 (Turn.job 0) ++ List.replicate 2 Turn.parent ++
    List.replicate n (Turn.job 0) ++ [Turn.parent]

def nobody : List Turn := List.replicate 4 Turn.parent ++ [Turn.giveUp, Turn.parent, Turn.parent]

def newDb : Db := ⟨0, fun _ => 0, fun _ => none, none, none, none, none, none⟩

def oneNumber (n : Nat) (h : 1 ≤ n) : Problem := ⟨n, n, 1, 0, h, Nat.le_refl n, Nat.one_pos⟩

def one : Problem := oneNumber 1 (Nat.le_refl 1)

def two : Problem := oneNumber 2 (by decide)

def large : Problem := oneNumber 852681529448813909 (by decide)

theorem inRange_oneNumber {n : Nat} {h : 1 ≤ n} (hc : InRange (oneNumber n h) c) : c = n :=
  Nat.le_antisymm hc.2 hc.1

theorem steps_two : Steps collatz 1 2 1 := ⟨by decide, by decide⟩

theorem steps_large : Steps collatz 1 852681529448813909 158 :=
  ⟨by decide +kernel, by decide +kernel⟩

theorem newDb_fresh (n : Nat) : ¬ Known newDb.step n := Bool.false_ne_true

/-- Two jobs for the numbers 2, 3 and 4, in blocks of one. -/
def twoToFour : Problem := ⟨2, 4, 2, 1, by decide, by decide, by decide⟩

def together : List Turn :=
  List.replicate 6 Turn.parent ++ [Turn.job 0, Turn.job 1, Turn.job 1, Turn.job 0] ++
    List.replicate 2 Turn.parent ++ (List.replicate 21 [Turn.job 1, Turn.job 0]).flatten ++
    List.replicate 5 (Turn.job 0) ++ [Turn.parent]

theorem returns_twoToFour (hc : InRange twoToFour c) : Returns c := by
  have hcases : c = 2 ∨ c = 3 ∨ c = 4 := by
    have hle : 2 ≤ c ∧ c ≤ 4 := hc
    omega
  obtain rfl | rfl | rfl := hcases
  · exact ⟨1, steps_two, by decide⟩
  · exact ⟨7, ⟨by decide, by decide⟩, by decide⟩
  · exact ⟨2, ⟨by decide, by decide⟩, by decide⟩

theorem threeen1f_answer_twoToFour :
    ∃ σ, Reaches twoToFour newDb σ ∧ σ.parent = .report false ∧
      (σ.workers 0).processed = [3] ∧ (σ.workers 1).processed = [2, 4] ∧ Answer twoToFour σ := by
  obtain ⟨σ, h, heq⟩ := exists_run twoToFour newDb together
    (f := fun σ => (σ.parent, (σ.workers 0).processed, (σ.workers 1).processed))
    (a := (.report false, [3], [2, 4])) (by decide +kernel)
  obtain ⟨hp, heq⟩ := Prod.mk.inj heq
  obtain ⟨h0, h1⟩ := Prod.mk.inj heq
  exact ⟨σ, h, hp, h0, h1, threeen1f_answer newDb_fresh rfl rfl (by decide)
    (fun _ => returns_twoToFour) h hp fun hf => absurd hf (by decide)⟩

/-- A run from a table without nodes that ends with another answer. -/
def Misses (l : Problem) (db0 : Db) : Prop :=
  (∀ n, ¬ Known db0.step n) ∧ (∀ c, InRange l c → ∃ k, Steps collatz 1 c k) ∧
    ∃ σ late, Reaches l db0 σ ∧ σ.parent = .report late ∧ ¬ Answer l σ

theorem misses_of_result (late : Bool) (turns : List Turn) (r : Option Nat) {n m : Nat} {hn : 1 ≤ n}
    (hfresh : ∀ n, ¬ Known db0.step n) (hm : Steps collatz 1 n m) (hr : r ≠ some m)
    (h : (run (oneNumber n hn) turns db0).map (fun σ => (σ.parent, σ.db.result)) =
      some (.report late, r)) : Misses (oneNumber n hn) db0 := by
  obtain ⟨σ, hσ, heq⟩ := exists_run _ _ _ h
  obtain ⟨hp, hres⟩ := Prod.mk.inj heq
  refine ⟨hfresh, fun c hc => ⟨m, inRange_oneNumber hc ▸ hm⟩, σ, late, hσ, hp, fun ha => ?_⟩
  obtain ⟨k, hk, ⟨c, hc, hsteps⟩, -⟩ := ha.result
  rw [inRange_oneNumber hc] at hsteps
  rw [hk, hsteps.unique hm] at hres
  exact hr hres.symm

/-- The number 1 alone, a `^result` that was there, jobs that do not start, and numbers of more
than 18 digits. -/
theorem answer_missed : Misses one newDb ∧ Misses two { newDb with result := some 7 } ∧
    Misses two newDb ∧ Misses large newDb := by
  refine ⟨?_, ?_, ?_, ?_⟩
  · exact misses_of_result false (alone 7) none newDb_fresh steps_self
      (by decide) (by decide +kernel)
  · exact misses_of_result false (alone 11) (some 7) newDb_fresh steps_two
      (by decide) (by decide +kernel)
  · exact misses_of_result true nobody none newDb_fresh steps_two
      (by decide) (by decide +kernel)
  · exact misses_of_result false (alone 563) (some 277) newDb_fresh steps_large
      (by decide) (by decide +kernel)

end YdbTest.ThreeEn1
