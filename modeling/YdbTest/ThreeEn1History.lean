import YdbTest.ThreeEn1Answer

namespace YdbTest.ThreeEn1

open MString MLocks Orbits

variable {l : Problem} {db db' : Db} {σ σ' : Sys} {n c k v : Nat} {late late' : Bool}

/-- The assignments of `dbinit`, one by one. -/
def cleared : List (Db → Db) :=
  [fun db => { db with count := 0 }, fun db => { db with highest := some 0 },
    fun db => { db with reads := some 0 }, fun db => { db with result := some 0 },
    fun db => { db with root := some 0 }, fun db => { db with updates := some 0 }]

/-- What lines leave in the database. -/
inductive History : Db → Prop
  | new : History newDb
  /-- The line has been reported; with an `n` below 6 a crash cuts `dbinit` short. -/
  | line {db : Db} {l : Problem} {σ : Sys} {late : Bool} (h : History db) (hr : Reaches l db σ)
      (hp : σ.parent = .report late) (n : Nat) :
      History ((cleared.take n).foldl (fun db f => f db) σ.db)
  /-- A crash, at any point before the end of a line. -/
  | crash {db : Db} {l : Problem} {σ : Sys} (h : History db) (hr : Reaches l db σ) : History σ.db

theorem cleared_step {fs : List (Db → Db)} (hfs : fs ⊆ cleared) (db : Db) :
    (fs.foldl (fun db f => f db) db).step = db.step := by
  have hkeep : ∀ f ∈ cleared, ∀ db : Db, (f db).step = db.step := by simp [cleared]
  induction fs generalizing db with
  | nil => rfl
  | cons f fs ih =>
    obtain ⟨hf, hfs⟩ := List.cons_subset.mp hfs
    rw [List.foldl_cons, ih hfs, hkeep f hf]

theorem History.sound (h : History db) : Sound db.step := by
  induction h with
  | new => exact sound_of_fresh newDb_fresh
  | line h hr hp n ih =>
    rw [cleared_step (List.take_subset _ _)]
    exact (reaches_values ih hr).globals.sound
  | crash h hr ih => exact (reaches_values ih hr).globals.sound

/-- The result and the highest number that are written for a line. -/
def reported (σ : Sys) : Option Nat × Option Nat := (σ.db.result, σ.db.highest)

/-- What is in the database before a line does not stand for more than the line, and what the line
does not go through again is in it. -/
structure Reusable (l : Problem) (db : Db) : Prop where
  resultLe : db.result.getD 0 = 0 ∨ ∃ k ∈ paths l newDb.step, db.result.getD 0 ≤ k
  resultGe : ∀ k ∈ paths l newDb.step, k ≤ db.result.getD 0 ∨ ∃ k' ∈ paths l db.step, k ≤ k'
  highestLe : db.highest.getD 0 = 0 ∨ ∃ v ∈ heights l newDb, db.highest.getD 0 ≤ v
  highestGe : ∀ v ∈ heights l newDb, v ≤ db.highest.getD 0 ∨ ∃ v' ∈ heights l db, v ≤ v'
  unset : l.j = 1 → db.result = none ∧ db.highest = none

theorem paths_subset : paths l db.step ⊆ paths l newDb.step := by
  rintro k ⟨c, hc, -, hk⟩
  exact ⟨c, hc, newDb_fresh c, hk⟩

theorem heights_subset : heights l db ⊆ heights l newDb := by
  rintro v ⟨c, hc, hv⟩
  exact ⟨c, hc, hv.mono fun n hn => absurd hn (newDb_fresh n)⟩

theorem greatest_iff {s t : Set Nat} {r m g : Nat} (hst : t ⊆ s) (hg : IsGreatest (insert r t) g)
    (hm : IsGreatest (insert 0 s) m) :
    g = m ↔ (r = 0 ∨ ∃ k ∈ s, r ≤ k) ∧ ∀ k ∈ s, k ≤ r ∨ ∃ k' ∈ t, k ≤ k' := by
  constructor
  · rintro rfl
    constructor
    · obtain h0 | hs := Set.mem_insert_iff.mp hm.1
      · exact Or.inl (Nat.le_zero.mp (h0 ▸ hg.2 (Set.mem_insert _ _)))
      · exact Or.inr ⟨g, hs, hg.2 (Set.mem_insert _ _)⟩
    · intro k hk
      have hle : k ≤ g := hm.2 (Set.mem_insert_of_mem _ hk)
      obtain rfl | ht := Set.mem_insert_iff.mp hg.1
      · exact Or.inl hle
      · exact Or.inr ⟨g, ht, hle⟩
  · rintro ⟨hle, hge⟩
    apply Nat.le_antisymm
    · obtain rfl | ht := Set.mem_insert_iff.mp hg.1
      · obtain h0 | ⟨k, hk, hrk⟩ := hle
        · rw [h0]
          exact Nat.zero_le _
        · exact hrk.trans (hm.2 (Set.mem_insert_of_mem _ hk))
      · exact hm.2 (Set.mem_insert_of_mem _ (hst ht))
    · obtain rfl | hs := Set.mem_insert_iff.mp hm.1
      · exact Nat.zero_le _
      · obtain hr | ⟨k, hk, hmk⟩ := hge m hs
        · exact hr.trans (hg.2 (Set.mem_insert _ _))
        · exact hmk.trans (hg.2 (Set.mem_insert_of_mem _ hk))

theorem report_one (hs : Sound db.step) (h : Reaches l db σ) (hj : l.j = 1) :
    σ.db.result = db.result ∧ σ.db.highest = db.highest := by
  have hd := (reaches_values hs h).globals
  have hi := l.one_le
  constructor
  · obtain heq | ⟨c, k, hc, h1, -⟩ := hd.resultUp
    · exact heq
    · obtain ⟨h2, h3⟩ := hc
      omega
  · obtain heq | ⟨c, v, hc, hv, -⟩ := hd.highUp
    · exact heq
    · obtain ⟨h2, h3⟩ := hc
      have := (walked_iff.mp hv).1
      omega

theorem fresh_some (h : Reaches l newDb σ) (hp : σ.parent = .report late) (ha : Attended σ)
    (hj : 1 < l.j) : 0 < σ.db.result.getD 0 ∧ 0 < σ.db.highest.getD 0 := by
  have hs : Sound newDb.step := sound_of_fresh newDb_fresh
  have hlast : InRange l l.j := ⟨l.le, Nat.le_refl _⟩
  have hknown := (known_of_range h hp ha hlast).resolve_left (by omega)
  have hk := steps_known (reaches_values hs h).globals.sound hknown
  have hpos := hk.pos (by omega)
  constructor
  · have hres := report_result hs h hp ha
    exact hpos.trans_le (hres.2 (Set.mem_insert_of_mem _ ⟨l.j, hlast, newDb_fresh _, hk⟩))
  · have hhigh := report_highest hs h hp ha
    have hone : Reached newDb l.j 1 := (reached_iff newDb_fresh hk).mpr ⟨_, hpos, Nat.le_refl _, hk.1⟩
    exact Nat.one_pos.trans_le (hhigh.2 (Set.mem_insert_of_mem _ ⟨l.j, hlast, hone⟩))

theorem option_eq_iff {o o' : Option Nat} (h : 0 < o'.getD 0) : o = o' ↔ o.getD 0 = o'.getD 0 := by
  refine ⟨fun heq => heq ▸ rfl, fun heq => ?_⟩
  cases o with
  | none => exact absurd heq.symm (Nat.ne_of_gt h)
  | some a =>
    cases o' with
    | none => exact absurd h (Nat.lt_irrefl 0)
    | some b => exact congrArg some heq

/-- After any lines and crashes, exactly then a line is reported as on a fresh database. -/
theorem reported_eq_iff (hist : History db) (h : Reaches l db σ) (hp : σ.parent = .report late)
    (ha : Attended σ) (h' : Reaches l newDb σ') (hp' : σ'.parent = .report late')
    (ha' : Attended σ') : reported σ = reported σ' ↔ Reusable l db := by
  have hs := hist.sound
  have hs' : Sound newDb.step := sound_of_fresh newDb_fresh
  have hres := greatest_iff paths_subset (report_result hs h hp ha) (report_result hs' h' hp' ha')
  have hhigh :=
    greatest_iff heights_subset (report_highest hs h hp ha) (report_highest hs' h' hp' ha')
  have hsplit : reported σ = reported σ' ↔
      σ.db.result = σ'.db.result ∧ σ.db.highest = σ'.db.highest := Prod.ext_iff
  rw [hsplit]
  have hone := l.one_le.trans l.le
  obtain hj | hj := Nat.eq_or_lt_of_le hone
  · obtain ⟨h1, h2⟩ := report_one hs h hj.symm
    obtain ⟨h1', h2'⟩ := report_one hs' h' hj.symm
    constructor
    · rintro ⟨he1, he2⟩
      obtain ⟨hle, hge⟩ := hres.mp (congrArg (fun o : Option Nat => o.getD 0) he1)
      obtain ⟨hle', hge'⟩ := hhigh.mp (congrArg (fun o : Option Nat => o.getD 0) he2)
      exact ⟨hle, hge, hle', hge', fun _ => ⟨h1.symm.trans (he1.trans h1'),
        h2.symm.trans (he2.trans h2')⟩⟩
    · intro hr
      obtain ⟨hn1, hn2⟩ := hr.unset hj.symm
      rw [h1, h1', h2, h2', hn1, hn2]
      exact ⟨rfl, rfl⟩
  · obtain ⟨hpos, hpos'⟩ := fresh_some h' hp' ha' hj
    rw [option_eq_iff hpos, option_eq_iff hpos', hres, hhigh]
    constructor
    · rintro ⟨⟨h1, h2⟩, h3, h4⟩
      exact ⟨h1, h2, h3, h4, fun hj' => by omega⟩
    · exact fun hr => ⟨⟨hr.resultLe, hr.resultGe⟩, hr.highestLe, hr.highestGe⟩

/-- A crash leaves no number in the table that `^result` has not taken in. -/
theorem crash_result (hist : History db) (hr : Reusable l db) (h : Reaches l db σ) :
    (σ.db.result.getD 0 = 0 ∨ ∃ k ∈ paths l newDb.step, σ.db.result.getD 0 ≤ k) ∧
      ∀ k ∈ paths l newDb.step, k ≤ σ.db.result.getD 0 ∨ ∃ k' ∈ paths l σ.db.step, k ≤ k' := by
  have hd := (reaches_values hist.sound h).globals
  have htaken : ∀ k ∈ paths l db.step, k ≤ σ.db.result.getD 0 ∨ k ∈ paths l σ.db.step := by
    rintro k ⟨c, hc, h0, hk⟩
    by_cases hknown : Known σ.db.step c
    · exact Or.inl (hd.resultLow c k hknown h0 hk)
    · exact Or.inr ⟨c, hc, hknown, hk⟩
  constructor
  · obtain heq | ⟨c, k, hc, -, -, hk, heq⟩ := hd.resultUp
    · rw [heq]
      exact hr.resultLe
    · exact Or.inr ⟨k, ⟨c, hc, newDb_fresh c, hk⟩, by rw [heq]; exact Nat.le_refl k⟩
  · intro k hk
    obtain hle | ⟨k', hk', hle⟩ := hr.resultGe k hk
    · exact Or.inl (hle.trans hd.resultGe)
    · obtain hle' | hmem := htaken k' hk'
      · exact Or.inl (hle.trans hle')
      · exact Or.inr ⟨k', hmem, hle⟩

def three : Problem := oneNumber 3 (by decide)

theorem steps_three : Steps next 1 3 7 := ⟨by decide, by decide⟩

theorem dbinit_history (hist : History db) (h : Reaches l db σ) (hp : σ.parent = .report late) :
    History (dbinit σ.db) :=
  History.line hist h hp 6

theorem reusable_three (hr : db.result.getD 0 = 0) (hh : db.highest.getD 0 = 0)
    (h3 : ¬ Known db.step 3) (h10 : ¬ Known db.step 10) (h5 : ¬ Known db.step 5) :
    Reusable three db where
  resultLe := Or.inl hr
  resultGe := by
    rintro k ⟨c, hc, -, hk⟩
    rw [inRange_oneNumber hc] at hk
    exact Or.inr ⟨k, ⟨3, ⟨Nat.le_refl 3, Nat.le_refl 3⟩, h3, hk⟩, Nat.le_refl k⟩
  highestLe := Or.inl hh
  highestGe := by
    rintro v ⟨c, hc, hv⟩
    rw [inRange_oneNumber hc] at hv
    obtain ⟨j, -, hj, rfl⟩ := (reached_iff newDb_fresh steps_three).mp hv
    have hle : ∀ j ≤ 7, next^[j] 3 ≤ 16 := by decide
    have hwalk : Reached db 3 16 :=
      Walked.more (by decide) h3 (Walked.more (by decide) h10 (Walked.one (by decide) h5))
    exact Or.inr ⟨16, ⟨3, ⟨Nat.le_refl 3, Nat.le_refl 3⟩, hwalk⟩, hle j hj⟩
  unset := fun h => absurd h (by decide)

theorem reported_three_after_two : ∃ db σ σ', History db ∧ Known db.step 2 ∧
    Reaches three db σ ∧ Reaches three newDb σ' ∧ σ.parent = .report false ∧
    σ'.parent = .report false ∧ (reported σ = reported σ' ↔ Reusable three db) ∧
    Reusable three db := by
  obtain ⟨σ₂, σ, h₂, h, hf⟩ := exists_two two three newDb dbinit (alone 11) (alone 22)
    (f := fun σ₂ σ => decide (σ₂.parent = .report false) && (σ₂.db.step (inttostr 2)).isSome &&
      !(σ₂.db.step (inttostr 3)).isSome && !(σ₂.db.step (inttostr 10)).isSome &&
      !(σ₂.db.step (inttostr 5)).isSome && decide (σ.parent = .report false))
    (by decide +kernel)
  obtain ⟨σ', h', hp'⟩ := exists_run three newDb (alone 23)
    (f := Sys.parent) (a := .report false) (by decide +kernel)
  simp only [Bool.and_eq_true, decide_eq_true_eq, Bool.not_eq_true'] at hf
  obtain ⟨⟨⟨⟨⟨hp₂, h2⟩, h3⟩, h10⟩, h5⟩, hp⟩ := hf
  have hist : History (dbinit σ₂.db) := dbinit_history History.new h₂ hp₂
  refine ⟨dbinit σ₂.db, σ, σ', hist, h2, h, h', hp, hp', ?_, ?_⟩
  · exact reported_eq_iff hist h hp (attended_of_not_late h hp) h' hp' (attended_of_not_late h' hp')
  · exact reusable_three rfl rfl (Bool.eq_false_iff.mp h3) (Bool.eq_false_iff.mp h10)
      (Bool.eq_false_iff.mp h5)

def oneTwo : Problem := ⟨1, 2, 1, 0, Nat.one_pos, Nat.two_pos, Nat.one_pos⟩

/-- A line that is given twice, and one that is given again after a crash. -/
theorem reported_changes :
    (∃ σ₁ σ₂, Reaches oneTwo newDb σ₁ ∧ σ₁.parent = .report false ∧
      Reaches oneTwo (dbinit σ₁.db) σ₂ ∧ σ₂.parent = .report false ∧ reported σ₁ ≠ reported σ₂) ∧
    ∃ σ σ₁ σ₂, Reaches oneTwo newDb σ ∧ σ.parent = .report false ∧ Reaches oneTwo newDb σ₁ ∧
      Reaches oneTwo σ₁.db σ₂ ∧ σ₂.parent = .report false ∧ reported σ ≠ reported σ₂ := by
  constructor
  · obtain ⟨σ₁, σ₂, h₁, h₂, hf⟩ := exists_two oneTwo oneTwo newDb dbinit (alone 12) (alone 8)
      (f := fun σ₁ σ₂ => decide (σ₁.parent = .report false ∧ σ₂.parent = .report false ∧
        reported σ₁ ≠ reported σ₂)) (by decide +kernel)
    obtain ⟨hp₁, hp₂, hne⟩ := of_decide_eq_true hf
    exact ⟨σ₁, σ₂, h₁, hp₁, h₂, hp₂, hne⟩
  · obtain ⟨σ, h, heq⟩ := exists_run oneTwo newDb (alone 12)
      (f := fun σ => (σ.parent, reported σ)) (a := (.report false, some 1, some 1))
      (by decide +kernel)
    obtain ⟨hp, hrep⟩ := Prod.mk.inj heq
    obtain ⟨σ₁, σ₂, h₁, h₂, hf⟩ := exists_two oneTwo oneTwo newDb id ((alone 12).take 16) (alone 8)
      (f := fun _ σ₂ => decide (σ₂.parent = .report false ∧ reported σ₂ = (some 1, none)))
      (by decide +kernel)
    obtain ⟨hp₂, hrep₂⟩ := of_decide_eq_true hf
    refine ⟨σ, σ₁, σ₂, h, hp, h₁, h₂, hp₂, ?_⟩
    rw [hrep, hrep₂]
    decide

end YdbTest.ThreeEn1
