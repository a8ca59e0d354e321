import YdbTest.IndexWalk

namespace YdbTest.Resume

open ForLoop IndexWalk

variable {jobcnt jobno : Nat}

/-- One life of a job started at the saved `start`: the last iteration it
worked on and the `^lasti` it left, which a crash may leave one short. -/
structure Session (start : Nat) where
  stop : Nat
  saved : Nat
  start_le : start ≤ saved
  saved_le : saved ≤ stop
  stop_le : stop ≤ saved + 1

/-- The iterations of a session that `^lasti` records, with their indices. -/
def recorded (jobcnt jobno start : Nat) (s : Session start) : List (Nat × Nat) :=
  (impjobWalk jobcnt jobno start s.stop).filter (fun x => x.1 ≤ s.saved)

/-- What a job has recorded after any number of crash and resume cycles, each
session starting from the `^lasti` of the one before it. -/
inductive History (jobcnt jobno : Nat) : Nat → List (Nat × Nat) → Prop
  | fresh : History jobcnt jobno 0 []
  | resume {lasti : Nat} {walked : List (Nat × Nat)} (s : Session lasti) :
      History jobcnt jobno lasti walked →
      History jobcnt jobno s.saved (walked ++ recorded jobcnt jobno lasti s)

/-- The walk of `crashztp`, which leaves out the last recorded loop of each job. -/
def crashztpWalk (jobcnt : Nat) (lasti : Nat → Nat) : List (Nat × Nat × Nat) :=
  checkLoop jobcnt (fun jobno => lasti jobno - 1) (fun _ => false)
    (fun jobno loop i visited => visited ++ [(jobno, loop, i)]) []

/-- The pairs of each job one after another, the job in front. -/
def perJob (jobcnt : Nat) (walk : Nat → List (Nat × Nat)) : List (Nat × Nat × Nat) :=
  (List.range' 1 jobcnt).flatMap (fun jobno => (walk jobno).map (fun x => (jobno, x)))

theorem impjobWalk_append (jobcnt jobno a b c : Nat) (hab : a ≤ b) (hbc : b ≤ c) :
    impjobWalk jobcnt jobno a b ++ impjobWalk jobcnt jobno b c = impjobWalk jobcnt jobno a c := by
  have hs : c - a = (b - a) + (c - b) := by omega
  have hb : b + 1 = a + 1 + (b - a) := by omega
  rw [impjobWalk_eq _ _ _ _ hab, impjobWalk_eq _ _ _ _ hbc, impjobWalk_eq _ _ _ _ (hab.trans hbc),
    ← List.map_append, hs, hb, List.range'_append_1]

theorem recorded_eq (jobcnt jobno start : Nat) (s : Session start) :
    recorded jobcnt jobno start s = impjobWalk jobcnt jobno start s.saved := by
  have happ := impjobWalk_append jobcnt jobno start s.saved s.stop s.start_le s.saved_le
  have hin : (impjobWalk jobcnt jobno start s.saved).filter (fun x => x.1 ≤ s.saved) =
      impjobWalk jobcnt jobno start s.saved := by
    rw [List.filter_eq_self]
    intro x hx
    rw [mem_impjobWalk _ _ _ _ s.start_le] at hx
    simpa using hx.2.1
  have hout : (impjobWalk jobcnt jobno s.saved s.stop).filter (fun x => x.1 ≤ s.saved) = [] := by
    rw [List.filter_eq_nil_iff]
    intro x hx
    rw [mem_impjobWalk _ _ _ _ s.saved_le] at hx
    simpa using hx.1
  rw [recorded, ← happ, List.filter_append, hin, hout, List.append_nil]

theorem history_eq {lasti : Nat} {walked : List (Nat × Nat)}
    (h : History jobcnt jobno lasti walked) : walked = impjobWalk jobcnt jobno 0 lasti := by
  induction h with
  | fresh => rfl
  | resume s h ih =>
    rw [ih, recorded_eq, impjobWalk_append _ _ _ _ _ (Nat.zero_le _) s.start_le]

theorem foldl_walk (jobno : Nat) (js : List Nat) (f : Nat → Nat) (i : Nat)
    (visited : List (Nat × Nat × Nat)) :
    (js.foldl (fun u loop => (f u.1, u.2 ++ [(jobno, loop, u.1)])) (i, visited)).2 =
      visited ++ (js.foldl (fun u loop => (f u.1, u.2 ++ [(jobno, loop, u.1)])) (i, [])).2 := by
  induction js generalizing i visited with
  | nil => simp
  | cons j js ih =>
    rw [List.foldl_cons, List.foldl_cons, ih, ih (f i) ([] ++ _)]
    simp

theorem foldl_walk_eq (jobcnt jobno start count : Nat) :
    ((List.range' (start + 1) count).foldl
      (fun u loop => (u.1 * nroot jobcnt % prime, u.2 ++ [(jobno, loop, u.1)]))
      (startIndex jobcnt jobno start, ([] : List (Nat × Nat × Nat)))).2 =
    (impjobWalk jobcnt jobno start (start + count)).map (fun x => (jobno, x)) := by
  rw [impjobWalk_eq _ _ _ _ (Nat.le_add_right start count), Nat.add_sub_cancel_left]
  induction count generalizing start with
  | zero => rfl
  | succ count ih =>
    rw [List.range'_succ, List.foldl_cons,
      foldl_walk jobno _ (fun i => i * nroot jobcnt % prime), ← startIndex_succ, ih (start + 1)]
    simp

theorem checkLoop_walk (jobcnt : Nat) (lasti : Nat → Nat) :
    checkLoop jobcnt lasti (fun _ => false)
      (fun jobno loop i visited => visited ++ [(jobno, loop, i)]) [] =
    perJob jobcnt (fun jobno => impjobWalk jobcnt jobno 0 (lasti jobno)) := by
  have h := forLoop_induct 1 jobcnt
    (fun jobno (t : Nat × List (Nat × Nat × Nat)) =>
      ((t.1 * root) % prime,
        (forUntil (fun _ => false)
          (fun loop u => (u.1 * nroot jobcnt % prime, u.2 ++ [(jobno, loop, u.1)]))
          (List.range' 1 (lasti jobno)) t).2))
    (1, []) (fun jobno t => t.1 = startIndex jobcnt jobno 0 ∧
      t.2 = perJob (jobno - 1) (fun jobno => impjobWalk jobcnt jobno 0 (lasti jobno)))
    (by omega) (by simp [startIndex, forLoop_empty, perJob]) (by
      rintro jobno t h1 _ ⟨hi, hv⟩
      refine ⟨by rw [startIndex_zero_succ jobcnt jobno h1, hi], ?_⟩
      obtain ⟨j, rfl⟩ : ∃ j, jobno = j + 1 := ⟨jobno - 1, by omega⟩
      have hw := foldl_walk_eq jobcnt (j + 1) 0 (lasti (j + 1))
      rw [forUntil_never _ _ _ _ (fun _ => True) trivial (fun _ _ _ _ => trivial)
        (fun _ _ => rfl)]
      obtain ⟨i, v⟩ := t
      simp only at hi hv
      subst hi hv
      rw [foldl_walk (j + 1) _ (fun i => i * nroot jobcnt % prime)]
      rw [Nat.zero_add] at hw
      rw [hw, Nat.zero_add, Nat.add_sub_cancel, Nat.add_sub_cancel, perJob, perJob,
        List.range'_concat, List.flatMap_append, Nat.one_mul, Nat.add_comm 1 j]
      simp)
  exact h.2

/-- Resuming at `lasti` continues with the index the uninterrupted run has there. -/
theorem startIndex_resume (jobcnt jobno lasti : Nat) :
    startIndex jobcnt jobno lasti = root ^ (jobno - 1) * nroot jobcnt ^ lasti % prime := by
  rw [startIndex_eq, nroot_eq, Nat.mul_mod, ← Nat.pow_mod, ← Nat.mul_mod, ← Nat.pow_mul,
    ← Nat.pow_add, Nat.mul_comm jobcnt]

/-- For every vector of saved `^lasti` values, reached through any crash and
resume cycles, the checker enumerates what the jobs worked on: the resumed
segments joined together, and the uninterrupted runs. -/
theorem checkdb_walks_recorded (jobcnt : Nat) (lasti : Nat → Nat)
    (walked : Nat → List (Nat × Nat))
    (h : ∀ jobno, 1 ≤ jobno → jobno ≤ jobcnt →
      History jobcnt jobno (lasti jobno) (walked jobno)) :
    checkdbWalk jobcnt lasti = perJob jobcnt walked ∧
    checkdbWalk jobcnt lasti =
      perJob jobcnt (fun jobno => impjobWalk jobcnt jobno 0 (lasti jobno)) ∧
    crashztpWalk jobcnt lasti =
      perJob jobcnt (fun jobno => impjobWalk jobcnt jobno 0 (lasti jobno - 1)) ∧
    ∀ jobno, 1 ≤ jobno → jobno ≤ jobcnt → ∀ s : Session (lasti jobno),
      startIndex jobcnt jobno (lasti jobno) =
        root ^ (jobno - 1) * nroot jobcnt ^ lasti jobno % prime ∧
      impjobWalk jobcnt jobno 0 (lasti jobno) ++ impjobWalk jobcnt jobno (lasti jobno) s.stop =
        impjobWalk jobcnt jobno 0 s.stop := by
  have hrec : perJob jobcnt walked =
      perJob jobcnt (fun jobno => impjobWalk jobcnt jobno 0 (lasti jobno)) := by
    unfold perJob
    apply List.flatMap_congr
    intro jobno hj
    rw [List.mem_range'_1] at hj
    rw [history_eq (h jobno hj.1 (by omega))]
  refine ⟨?_, checkLoop_walk jobcnt lasti, checkLoop_walk jobcnt (fun jobno => lasti jobno - 1), ?_⟩
  · rw [hrec]
    exact checkLoop_walk jobcnt lasti
  · intro jobno _ _ s
    exact ⟨startIndex_resume jobcnt jobno (lasti jobno),
      impjobWalk_append jobcnt jobno 0 (lasti jobno) s.stop (Nat.zero_le _)
        (s.start_le.trans s.saved_le)⟩

/-- Two jobs, each crashed in its second iteration and then run through its third. -/
theorem checkdb_walks_two_crashed_jobs :
    checkdbWalk 2 (fun _ => 3) = perJob 2 (fun jobno =>
      [] ++ recorded 2 jobno 0 ⟨2, 1, by decide, by decide, by decide⟩ ++
        recorded 2 jobno 1 ⟨3, 3, by decide, by decide, by decide⟩) :=
  (checkdb_walks_recorded 2 (fun _ => 3) _ (fun _ _ _ =>
    @History.resume 2 _ 1 _ ⟨3, 3, by decide, by decide, by decide⟩
      (@History.resume 2 _ 0 _ ⟨2, 1, by decide, by decide, by decide⟩ History.fresh))).1

end YdbTest.Resume
