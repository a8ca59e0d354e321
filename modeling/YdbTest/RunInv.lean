import YdbTest.Run
import YdbTest.Shared
import YdbTest.Solo

namespace YdbTest.RunInv

open MString Globals Command Imptp Triggers CheckDb Iteration IndexWalk IndexUnique Closure Owner
  Discipline Isolation Stages Solo Shared Run Decimal

variable {c : Cfg} {ts : List Trigger} {ok : Sys → Act → Prop} {P : Db → Iter → Prop}
  {σ σ' : Sys} {it : Iter} {d : Draws} {db db' : Db} {todo done : List (List Cmd)} {s : St}

def iterAt (c : Cfg) (jobno loop : Nat) : Iter :=
  ⟨jobno, loop, startIndex c.jobcnt jobno (loop - 1)⟩

theorem eq_iterAt (h : Valid c it) : it = iterAt c it.jobno it.loop := by
  rw [iterAt, ← h.index]

/-- How a job came to the middle of an iteration, next to how it would have come there alone. -/
structure Under (c : Cfg) (ts : List Trigger) (db : Db) (p : Proc) (it : Iter) (d : Draws)
    (done todo : List (List Cmd)) (s : St) : Prop where
  atoms : atoms c it d = done ++ todo
  fresh : Fresh c it s
  agree : Agree (Owned c it) ⟨db, p⟩ (done.foldl (perform ts) s)
  lasti : lasti c db it.jobno =
    if hitsIn (lastiNode c it.jobno) done.flatten = 0 then it.loop - 1 else it.loop

def Settled (c : Cfg) (P : Db → Iter → Prop) (db : Db) (it : Iter) : Prop :=
  if it.loop ≤ CheckDb.lasti c db it.jobno then P db it else Blank c it (TreeStore.get db)

def Current (σ : Sys) (it : Iter) : Prop := ∃ todo, σ.jobs it.jobno = .busy it todo

def JobInv (c : Cfg) (ts : List Trigger) (db : Db) (p : Proc) (jobno : Nat) : Job → Prop
  | .down => True
  | .ready loop I => loop = lasti c db jobno + 1 ∧ I = startIndex c.jobcnt jobno (lasti c db jobno)
  | .busy it todo => Valid c it ∧ it.jobno = jobno ∧ ∃ d done s, Under c ts db p it d done todo s

structure Inv (c : Cfg) (ts : List Trigger) (P : Db → Iter → Prop) (σ : Sys) : Prop where
  range : ∀ jobno, σ.jobs jobno ≠ .down → 1 ≤ jobno ∧ jobno ≤ c.jobcnt
  job : ∀ jobno, JobInv c ts σ.db (σ.procs jobno) jobno (σ.jobs jobno)
  valid : ∀ jobno loop, 1 ≤ jobno → jobno ≤ c.jobcnt → 1 ≤ loop → loop ≤ lasti c σ.db jobno →
    Valid c (iterAt c jobno loop)
  settled : ∀ it, Valid c it → ¬ Current σ it → Settled c P σ.db it

/-- What a run needs so that every iteration in it satisfies `P` in the end. -/
structure Rules (c : Cfg) (ts : List Trigger) (ok : Sys → Act → Prop) (P : Db → Iter → Prop) :
    Prop where
  installed : Installed c ts
  congr : ∀ {db db' it}, (∀ n, Owned c it n → TreeStore.get db' n = TreeStore.get db n) →
    P db it → P db' it
  whole : ∀ it d s, Valid c it → Fresh c it s → P (run ts (commands c it d) s).db it
  begins : ∀ σ jobno d loop I, ok σ (.begin jobno d) → σ.jobs jobno = .ready loop I →
    exponent c.jobcnt jobno loop < prime - 1
  crash : ∀ σ it todo d done s, ok σ (.crash it.jobno) → σ.jobs it.jobno = .busy it todo →
    Valid c it → Under c ts σ.db (σ.procs it.jobno) it d done todo s → Settled c P σ.db it

theorem Settled.congr (hr : Rules c ts ok P) (h : Settled c P db it)
    (hn : ∀ n, Owned c it n → TreeStore.get db' n = TreeStore.get db n)
    (hl : it.loop ≤ lasti c db' it.jobno ↔ it.loop ≤ lasti c db it.jobno) : Settled c P db' it := by
  unfold Settled at h ⊢
  simp only [hl]
  split at h
  · rw [if_pos ‹_›]
    exact hr.congr hn h
  · rw [if_neg ‹_›]
    intro n ho
    rw [hn n ho, h n ho]

theorem perform_flatten (as : List (List Cmd)) (s : St) :
    as.foldl (perform ts) s = run ts as.flatten s := by
  induction as generalizing s with
  | nil => rfl
  | cons a as ih => rw [List.foldl_cons, ih, List.flatten_cons, run_append, perform]

theorem commands_of_atoms (h : atoms c it d = done ++ todo) :
    commands c it d = done.flatten ++ todo.flatten := by
  rw [← flatten_atoms, h, List.flatten_append]

section Work

variable {a : List Cmd} {p : Proc}

/-- The next atom of a job is in order, given where `$ztwormhole` is by then. -/
theorem Under.orderly (hi : Installed c ts) (h : Under c ts db p it d done (a :: todo) s) :
    Orderly c it p.ztwormhole a := by
  have hall := @commands_orderly c it d s.proc.ztwormhole
  rw [commands_of_atoms h.atoms, List.flatten_cons, orderly_append, orderly_append] at hall
  have hworm := run_worm hi hall.1
  rw [← perform_flatten, ← h.agree.proc] at hworm
  rw [hworm]
  exact hall.2.1

theorem Under.setsLasti (h : Under c ts db p it d done (a :: todo) s) : Each (SetsLasti c it) a := by
  have hall := @commands_setsLasti c it d
  rw [commands_of_atoms h.atoms, List.flatten_cons, each_append, each_append] at hall
  exact hall.2.1

theorem get_lasti_run {cs : List Cmd} (hi : Installed c ts)
    (ho : Orderly c it s.proc.ztwormhole cs) (hs : Each (SetsLasti c it) cs) (jobno : Nat) :
    TreeStore.get (run ts cs s).db (lastiNode c jobno) =
      if hitsIn (lastiNode c jobno) cs = 0 then TreeStore.get s.db (lastiNode c jobno)
      else some (dec it.loop) := by
  rw [run_common hi ho (n := lastiNode c jobno) rfl, look_lasti hs]

theorem lasti_run {cs : List Cmd} (hi : Installed c ts) (ho : Orderly c it s.proc.ztwormhole cs)
    (hs : Each (SetsLasti c it) cs) (jobno : Nat) : lasti c (run ts cs s).db jobno =
      if hitsIn (lastiNode c jobno) cs = 0 then lasti c s.db jobno else it.loop := by
  unfold CheckDb.lasti Globals.get
  rw [show ((Gbl.lasti, [fid c, dec jobno]) : Node) = lastiNode c jobno from rfl,
    get_lasti_run hi ho hs]
  split
  · rfl
  · exact toNat_dec _

theorem lasti_commands (hi : Installed c ts) (s : St) :
    lasti c (run ts (commands c it d) s).db it.jobno = it.loop := by
  rw [lasti_run hi (commands_orderly _) commands_setsLasti, if_neg hitsIn_lasti]

theorem Under.work (hi : Installed c ts) (h : Under c ts db p it d done (a :: todo) s) :
    Under c ts (run ts a ⟨db, p⟩).db (run ts a ⟨db, p⟩).proc it d (done ++ [a]) todo s where
  atoms := by rw [h.atoms, List.append_assoc, List.singleton_append]
  fresh := h.fresh
  agree := by
    rw [List.foldl_append]
    exact run_own hi (h.orderly hi) h.agree
  lasti := by
    have hl := h.lasti
    rw [lasti_run hi (s := ⟨db, p⟩) (h.orderly hi) h.setsLasti, List.flatten_append, hitsIn_append,
      List.flatten_singleton]
    change (if _ then CheckDb.lasti c db it.jobno else _) = _
    rw [hl]
    split_ifs <;> first | rfl | omega

theorem Under.lasti_other (hi : Installed c ts) (h : Under c ts db p it d done (a :: todo) s)
    {jobno : Nat} (hj : jobno ≠ it.jobno) :
    CheckDb.lasti c (run ts a ⟨db, p⟩).db jobno = CheckDb.lasti c db jobno := by
  rw [lasti_run hi (s := ⟨db, p⟩) (h.orderly hi) h.setsLasti,
    if_pos (hitsIn_lasti_other h.setsLasti hj)]

theorem Under.lasti_iff (hi : Installed c ts) (h : Under c ts db p it d done (a :: todo) s)
    {it' : Iter} (hv : Valid c it) (hv' : Valid c it') (hne : it' ≠ it) :
    it'.loop ≤ CheckDb.lasti c (run ts a ⟨db, p⟩).db it'.jobno ↔
      it'.loop ≤ CheckDb.lasti c db it'.jobno := by
  by_cases hj : it'.jobno = it.jobno
  · have hloop : it'.loop ≠ it.loop := fun hl => hne (by
      rw [eq_iterAt hv, eq_iterAt hv', hj, hl])
    have hb := h.lasti
    have ha := (h.work hi).lasti
    rw [hj]
    rw [ha, hb, List.flatten_append, hitsIn_append]
    split_ifs <;> omega
  · rw [h.lasti_other hi hj]

end Work

section Step

theorem Inv.move (hi : Inv c ts P σ) {jobno : Nat} {job : Job} {procs : Nat → Proc}
    (hprocs : ∀ j ≠ jobno, procs j = σ.procs j) (hrange : 1 ≤ jobno ∧ jobno ≤ c.jobcnt)
    (hjob : JobInv c ts σ.db (procs jobno) jobno job)
    (hleft : ∀ it todo, it.jobno = jobno → Valid c it → σ.jobs jobno = .busy it todo →
      Settled c P σ.db it ∨ ∃ todo', job = .busy it todo') :
    Inv c ts P ⟨σ.db, procs, Function.update σ.jobs jobno job⟩ where
  range := by
    intro j hj
    by_cases he : j = jobno
    · exact he ▸ hrange
    · exact hi.range j (by simpa [he] using hj)
  job := by
    intro j
    by_cases he : j = jobno
    · subst he
      simpa using hjob
    · simpa [he, hprocs j he] using hi.job j
  valid := hi.valid
  settled := by
    intro it hv hc
    by_cases hcur : Current σ it
    · obtain ⟨todo, hb⟩ := hcur
      by_cases he : it.jobno = jobno
      · obtain hs | ⟨todo', hto⟩ := hleft it todo he hv (he ▸ hb)
        · exact hs
        · exact absurd ⟨todo', by simpa [he] using hto⟩ hc
      · exact absurd ⟨todo, by simpa [he] using hb⟩ hc
    · exact hi.settled it hv hcur

theorem Under.settled (hr : Rules c ts ok P) {p : Proc} (hv : Valid c it)
    (h : Under c ts db p it d done [] s) : CheckDb.lasti c db it.jobno = it.loop ∧ P db it := by
  have hall : done.flatten = commands c it d := by
    rw [commands_of_atoms h.atoms, List.flatten_nil, List.append_nil]
  have hl := h.lasti
  rw [hall, if_neg hitsIn_lasti] at hl
  refine ⟨hl, hr.congr (fun n hn => h.agree.db n hn) ?_⟩
  rw [perform_flatten, hall]
  exact hr.whole it d s hv h.fresh

theorem Inv.work (hr : Rules c ts ok P) (hi : Inv c ts P σ) {jobno : Nat} {a : List Cmd}
    (h : σ.jobs jobno = .busy it (a :: todo)) :
    Inv c ts P ⟨(run ts a ⟨σ.db, σ.procs jobno⟩).db,
      Function.update σ.procs jobno (run ts a ⟨σ.db, σ.procs jobno⟩).proc,
      Function.update σ.jobs jobno (.busy it todo)⟩ := by
  have hjob := hi.job jobno
  rw [h] at hjob
  obtain ⟨hv, rfl, d, done, s, hu⟩ := hjob
  have hother {it' : Iter} (hv' : Valid c it') (hne : it' ≠ it) (n : Node) (hn : Owned c it' n) :
      TreeStore.get (run ts a ⟨σ.db, σ.procs it.jobno⟩).db n = TreeStore.get σ.db n :=
    run_other hr.installed (s := ⟨σ.db, σ.procs it.jobno⟩) (hu.orderly hr.installed)
      (fun ho => hne (owned_disjoint hv' hv hn ho)) (owned_not_shared hn)
  have hlasti (j : Nat) (hj : j ≠ it.jobno) :
      lasti c (run ts a ⟨σ.db, σ.procs it.jobno⟩).db j = lasti c σ.db j :=
    hu.lasti_other hr.installed hj
  have hw := hu.work hr.installed
  constructor
  case range =>
    intro j hj
    by_cases he : j = it.jobno
    · exact hi.range j (by rw [he, h]; simp)
    · exact hi.range j (by simpa [he] using hj)
  case job =>
    intro j
    by_cases he : j = it.jobno
    · subst he
      simp only [Function.update_self]
      exact ⟨hv, rfl, d, done ++ [a], s, by simpa using hw⟩
    · have hj := hi.job j
      simp only [Function.update_of_ne he]
      cases hb : σ.jobs j <;> rw [hb] at hj
      case down => trivial
      case ready => simpa [JobInv, hlasti j he] using hj
      case busy it' todo' =>
        obtain ⟨hv', rfl, d', done', s', hu'⟩ := hj
        have hne : it' ≠ it := fun hc => he (by rw [hc])
        refine ⟨hv', rfl, d', done', s', hu'.atoms, hu'.fresh, ⟨fun n hn => ?_, hu'.agree.proc⟩, ?_⟩
        · rw [← hu'.agree.db n hn]
          exact hother hv' hne n hn
        · rw [hlasti _ he]
          exact hu'.lasti
  case valid =>
    intro j loop h1 hc hl1 hl
    by_cases he : j = it.jobno
    · subst he
      rw [hw.lasti] at hl
      have hb := hu.lasti
      rw [List.flatten_append, hitsIn_append] at hl
      by_cases hcur : loop = it.loop
      · rw [hcur, ← eq_iterAt hv]
        exact hv
      · refine hi.valid _ loop h1 hc hl1 ?_
        rw [hb]
        split_ifs at hl ⊢ <;> omega
    · rw [hlasti j he] at hl
      exact hi.valid j loop h1 hc hl1 hl
  case settled =>
    intro it' hv' hcur
    have hne : it' ≠ it := by
      rintro rfl
      exact hcur ⟨todo, by simp⟩
    have hcur' : ¬ Current σ it' := by
      rintro ⟨todo', hb⟩
      by_cases he : it'.jobno = it.jobno
      · rw [he, h] at hb
        exact hne (Job.busy.inj hb).1.symm
      · exact hcur ⟨todo', by simpa [he] using hb⟩
    exact (hi.settled it' hv' hcur').congr hr (hother hv' hne)
      (hu.lasti_iff hr.installed hv hv' hne)

theorem Inv.step (hr : Rules c ts ok P) (hi : Inv c ts P σ) {a : Act} (hok : ok σ a)
    (hs : Step c ts σ a σ') : Inv c ts P σ' := by
  cases hs with
  | start jobno h1 hc h =>
    refine hi.move (fun j hj => Function.update_of_ne hj _ _) ⟨h1, hc⟩ ⟨rfl, rfl⟩ ?_
    intro it todo _ _ hb
    rw [h] at hb
    cases hb
  | begin jobno loop I d h ht =>
    have hjob := hi.job jobno
    have hrange := hi.range jobno (by rw [h]; simp)
    rw [h] at hjob
    obtain ⟨hloop, hI⟩ := hjob
    have hv : Valid c ⟨jobno, loop, I⟩ := by
      refine ⟨hrange.1, hrange.2, ?_, hr.begins σ jobno d loop I hok h, ?_⟩
      · change 1 ≤ loop
        omega
      · change I = startIndex c.jobcnt jobno (loop - 1)
        rw [hI, hloop, Nat.add_sub_cancel]
    have hnot : ¬ Current σ ⟨jobno, loop, I⟩ := by
      rintro ⟨todo, hb⟩
      rw [show (⟨jobno, loop, I⟩ : Iter).jobno = jobno from rfl, h] at hb
      cases hb
    have hfresh := hi.settled _ hv hnot
    rw [Settled, if_neg (by simp only; omega)] at hfresh
    refine hi.move (fun j _ => rfl) hrange ?_ ?_
    · refine ⟨hv, rfl, d, [], ⟨σ.db, σ.procs jobno⟩, rfl, hfresh, ⟨fun _ _ => rfl, rfl⟩, ?_⟩
      change lasti c σ.db jobno = loop - 1
      omega
    · intro it todo _ _ hb
      rw [h] at hb
      cases hb
  | work jobno it a todo h => exact hi.work hr h
  | finish jobno it h =>
    have hjob := hi.job jobno
    rw [h] at hjob
    obtain ⟨hv, rfl, d, done, s, hu⟩ := hjob
    obtain ⟨hl, hP⟩ := hu.settled hr hv
    refine hi.move (fun j _ => rfl) (hi.range _ (by rw [h]; simp)) ⟨by rw [hl], ?_⟩ ?_
    · rw [hl, hv.index, ← startIndex_succ, Nat.sub_add_cancel hv.loop_pos]
    · intro it' todo _ _ hb
      rw [h] at hb
      cases hb
      rw [Settled, if_pos (by omega)]
      exact Or.inl hP
  | stop jobno loop I h =>
    refine hi.move (fun j _ => rfl) (hi.range _ (by rw [h]; simp)) trivial ?_
    intro it todo _ _ hb
    rw [h] at hb
    cases hb
  | crash jobno it todo h =>
    have hjob := hi.job jobno
    rw [h] at hjob
    obtain ⟨hv, rfl, d, done, s, hu⟩ := hjob
    refine hi.move (fun j _ => rfl) (hi.range _ (by rw [h]; simp)) trivial ?_
    intro it' todo' _ _ hb
    rw [h] at hb
    cases hb
    exact Or.inl (hr.crash σ it todo d done s hok h hv hu)

theorem initial_get (n : Node) : TreeStore.get (Run.initial c).db n =
    if n = (.cntloop, [fid c]) ∨ n = (.cntseq, [fid c]) then some (dec 0) else none := by
  simp only [Run.initial, TreeStore.get_set, TreeStore.get_nil, eq_comm (b := n)]
  split_ifs <;> simp_all

theorem get_initial {n : Node} (hn : n.1 ≠ .cntloop ∧ n.1 ≠ .cntseq) :
    TreeStore.get (Run.initial c).db n = none := by
  rw [initial_get, if_neg]
  rintro (rfl | rfl)
  · exact hn.1 rfl
  · exact hn.2 rfl

theorem lasti_initial (jobno : Nat) : lasti c (Run.initial c).db jobno = 0 := by
  rw [lasti, Globals.get, get_initial (by simp)]
  rfl

theorem inv_initial : Inv c ts P (Run.initial c) where
  range := by simp [Run.initial]
  job := by simp [Run.initial, JobInv]
  valid := by
    intro jobno loop _ _ h1 hl
    rw [lasti_initial] at hl
    omega
  settled := by
    intro it hv _
    rw [Settled, if_neg (by have := hv.loop_pos; rw [lasti_initial]; omega)]
    refine fun n hn => get_initial ⟨fun hg => owned_not_shared hn ?_, fun hg => owned_not_shared hn ?_⟩ <;>
      rw [hg] <;> rfl

theorem inv_reaches (hr : Rules c ts ok P) (h : Reaches c ts ok σ) : Inv c ts P σ := by
  induction h with
  | initial => exact inv_initial
  | step _ hok hs ih => exact ih.step hr hok hs

/-- Once all jobs have stopped, every iteration up to `^lasti` is as it should be. -/
theorem settled_down (hr : Rules c ts ok P) (h : Reaches c ts ok σ) (hd : σ.Down)
    {jobno loop : Nat} (h1 : 1 ≤ jobno) (hc : jobno ≤ c.jobcnt) (hl1 : 1 ≤ loop)
    (hl : loop ≤ lasti c σ.db jobno) : P σ.db (iterAt c jobno loop) := by
  have hi := inv_reaches hr h
  have hv := hi.valid jobno loop h1 hc hl1 hl
  have hnot : ¬ Current σ (iterAt c jobno loop) := by
    rintro ⟨todo, hb⟩
    rw [hd] at hb
    cases hb
  have hs := hi.settled _ hv hnot
  rw [Settled] at hs
  exact (if_pos (show (iterAt c jobno loop).loop ≤ lasti c σ.db (iterAt c jobno loop).jobno from
    hl)).mp hs

theorem step_other (hr : Rules c ts ok P) (hi : Inv c ts P σ) {a : Act} (hs : Step c ts σ a σ')
    (hv : Valid c it) (hc : ¬ Current σ it) {n : Node} (hn : Owned c it n) :
    TreeStore.get σ'.db n = TreeStore.get σ.db n := by
  cases hs with
  | work jobno it' a todo h =>
    have hjob := hi.job jobno
    rw [h] at hjob
    obtain ⟨hv', rfl, d, done, s, hu⟩ := hjob
    refine run_other hr.installed (s := ⟨σ.db, σ.procs it'.jobno⟩) (hu.orderly hr.installed)
      (fun ho => hc ?_) (owned_not_shared hn)
    rw [owned_disjoint hv hv' hn ho]
    exact ⟨a :: todo, h⟩
  | start => rfl
  | begin => rfl
  | finish => rfl
  | stop => rfl
  | crash => rfl

end Step

section Execution

variable {j : Nat} {as : List (List Cmd)}

theorem reaches_work (hok : ∀ σ j, ok σ (.work j)) (h : Reaches c ts ok σ)
    (hb : σ.jobs j = .busy it (as ++ todo)) : ∃ σ', Reaches c ts ok σ' ∧
      σ'.jobs = Function.update σ.jobs j (.busy it todo) ∧
      σ'.db = (run ts as.flatten ⟨σ.db, σ.procs j⟩).db := by
  induction as generalizing σ with
  | nil =>
    refine ⟨σ, h, ?_, rfl⟩
    rw [← show σ.jobs j = .busy it todo from hb, Function.update_eq_self]
  | cons a as ih =>
    have hstep := Reaches.step h (hok σ j) (Step.work σ j it a (as ++ todo) hb)
    obtain ⟨σ', h', hjobs, hdb⟩ := ih hstep (by simp)
    refine ⟨σ', h', by simpa using hjobs, ?_⟩
    rw [hdb, List.flatten_cons, run_append]
    simp

theorem reaches_iteration (hok : ∀ σ a, (∀ j, a ≠ .crash j) → ok σ a) (h : Reaches c ts ok σ)
    {loop I : Nat} (hj : σ.jobs j = .ready loop I) (ht : loop ≤ Imptp.top c) (d : Draws) :
    ∃ σ', Reaches c ts ok σ' ∧
      σ'.jobs = Function.update σ.jobs j (.ready (loop + 1) (I * nroot c.jobcnt % prime)) ∧
      σ'.db = (run ts (commands c ⟨j, loop, I⟩ d) ⟨σ.db, σ.procs j⟩).db := by
  have hbegin := Reaches.step h (hok _ _ (by simp)) (Step.begin σ j loop I d hj ht)
  obtain ⟨σ', h', hjobs, hdb⟩ := @reaches_work c ts ok _ ⟨j, loop, I⟩ [] j
    (atoms c ⟨j, loop, I⟩ d) (fun _ _ => hok _ _ (by simp)) hbegin (by simp)
  have hfinish := Reaches.step h' (hok _ _ (by simp))
    (Step.finish σ' j ⟨j, loop, I⟩ (by rw [hjobs]; simp))
  refine ⟨_, hfinish, by simp [hjobs], ?_⟩
  rw [← flatten_atoms]
  exact hdb

theorem reaches_loops (hok : ∀ σ a, (∀ j, a ≠ .crash j) → ok σ a) (h1 : 1 ≤ j) (hj : j ≤ c.jobcnt)
    {n : Nat} (hn : n ≤ Imptp.top c) (d : Draws) : ∃ σ, Reaches c ts ok σ ∧
      σ.jobs = Function.update (fun _ => .down) j (.ready (n + 1) (startIndex c.jobcnt j n)) := by
  induction n with
  | zero =>
    refine ⟨_, Reaches.step Reaches.initial (hok _ _ (by simp)) (Step.start _ j h1 hj rfl), ?_⟩
    rw [lasti_initial]
    rfl
  | succ n ih =>
    obtain ⟨σ, h, hjobs⟩ := ih (by omega)
    obtain ⟨σ', h', hjobs', -⟩ := reaches_iteration hok h
      (by rw [hjobs, Function.update_self]) (by omega) d
    refine ⟨σ', h', ?_⟩
    rw [hjobs', hjobs, Function.update_idem, startIndex_succ]

theorem reaches_stopped (hok : ∀ σ a, (∀ j, a ≠ .crash j) → ok σ a) (h1 : 1 ≤ j) (hj : j ≤ c.jobcnt)
    {n : Nat} (hn : n + 1 ≤ Imptp.top c) (d : Draws) : ∃ σ p db, Reaches c ts ok σ ∧ σ.Down ∧
      σ.db = (run ts (commands c (iterAt c j (n + 1)) d) ⟨db, p⟩).db := by
  obtain ⟨σ, h, hjobs⟩ := @reaches_loops c ts ok j hok h1 hj n (by omega) d
  obtain ⟨σ', h', hjobs', hdb⟩ := reaches_iteration hok h
    (by rw [hjobs, Function.update_self]) hn d
  have hstop := Reaches.step h' (hok _ _ (by simp)) (Step.stop σ' j _ _
    (by rw [hjobs', Function.update_self]))
  refine ⟨_, _, _, hstop, fun jobno => ?_, hdb⟩
  simp only [hjobs', hjobs, Function.update_idem]
  by_cases he : jobno = j <;> simp [he]

end Execution

end YdbTest.RunInv
