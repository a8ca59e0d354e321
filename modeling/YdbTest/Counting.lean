import YdbTest.RunInv
import Mathlib.Algebra.Order.BigOperators.Group.Finset
import Mathlib.Order.Interval.Finset.Nat

namespace YdbTest.Counting

open MString Globals Command Imptp Triggers CheckDb Iteration Owner Discipline Isolation Shared Run
  RunInv TreeStore Decimal

variable {c : Cfg} {ts : List Trigger} {ok : Sys → Act → Prop} {P : Db → Iter → Prop}
  {σ σ' : Sys} {it : Iter} {d : Draws} {n : Node} {k : Nat}

/-- A node that every iteration adds `k` to, once. -/
structure Counter (c : Cfg) (n : Node) (k : Nat) : Prop where
  shared : key n.1 = .shared
  once : ∀ it d, hitsIn n (commands c it d) = 1
  adds : ∀ it d, Each (fun cmd => ∀ u ∈ commonUpd cmd, u.hits n = true →
    u = .modify n (increment k)) (commands c it d)

theorem cntloop_counter : Counter c (.cntloop, [fid c]) 1 :=
  ⟨rfl, fun _ _ => hitsIn_cntloop, fun _ _ cmd hcmd u hu => (commands_count cmd hcmd u hu).1⟩

theorem cntseq_counter : Counter c (.cntseq, [fid c]) (13 + c.jobcnt) :=
  ⟨rfl, fun _ _ => hitsIn_cntseq, fun _ _ cmd hcmd u hu => (commands_count cmd hcmd u hu).2⟩

def counted (c : Cfg) (n : Node) (db : Db) (jobno : Nat) : Job → Nat
  | .down => lasti c db jobno
  | .ready loop _ => loop - 1
  | .busy it todo => it.loop - hitsIn n todo.flatten

def total (c : Cfg) (n : Node) (σ : Sys) : Nat :=
  ∑ jobno ∈ Finset.Icc 1 c.jobcnt, counted c n σ.db jobno (σ.jobs jobno)

theorem sum_add {f g : Nat → Nat} {m i : Nat} (h1 : 1 ≤ i) (hm : i ≤ m)
    (hne : ∀ j ≠ i, g j = f j) (hi : g i = f i + k) :
    ∑ j ∈ Finset.Icc 1 m, g j = ∑ j ∈ Finset.Icc 1 m, f j + k := by
  have hmem : i ∈ Finset.Icc 1 m := Finset.mem_Icc.mpr ⟨h1, hm⟩
  have hg := Finset.add_sum_erase _ g hmem
  have hf := Finset.add_sum_erase _ f hmem
  have hrest : ∑ j ∈ (Finset.Icc 1 m).erase i, g j = ∑ j ∈ (Finset.Icc 1 m).erase i, f j :=
    Finset.sum_congr rfl (fun j hj => hne j (Finset.ne_of_mem_erase hj))
  omega

theorem total_move {procs : Nat → Proc} {jobno : Nat} {job : Job}
    (h : counted c n σ.db jobno job = counted c n σ.db jobno (σ.jobs jobno)) :
    total c n ⟨σ.db, procs, Function.update σ.jobs jobno job⟩ = total c n σ := by
  refine Finset.sum_congr rfl (fun j _ => ?_)
  by_cases hj : j = jobno
  · subst hj
    simpa using h
  · simp [hj]

theorem total_work (hr : Rules c ts ok P) (hi : Inv c ts P σ) (hn : Counter c n k) {jobno : Nat}
    {a : List Cmd} {todo : List (List Cmd)} (h : σ.jobs jobno = .busy it (a :: todo))
    (hc : TreeStore.get σ.db n = some (dec (k * total c n σ))) :
    TreeStore.get (run ts a ⟨σ.db, σ.procs jobno⟩).db n = some (dec (k * total c n
      ⟨(run ts a ⟨σ.db, σ.procs jobno⟩).db,
        Function.update σ.procs jobno (run ts a ⟨σ.db, σ.procs jobno⟩).proc,
        Function.update σ.jobs jobno (.busy it todo)⟩)) := by
  have hjob := hi.job jobno
  have hrange := hi.range jobno (by rw [h]; simp)
  rw [h] at hjob
  obtain ⟨hv, rfl, d, done, s, hu⟩ := hjob
  have hsplit := commands_of_atoms hu.atoms
  have honce := hn.once it d
  rw [hsplit, List.flatten_cons, hitsIn_append, hitsIn_append] at honce
  have hadds := hn.adds it d
  rw [hsplit, List.flatten_cons, each_append, each_append] at hadds
  have hget := run_common hr.installed (s := ⟨σ.db, σ.procs it.jobno⟩)
    (hu.orderly hr.installed) hn.shared
  have hupd : ∀ u ∈ a.flatMap commonUpd, u.hits n = true → u = .modify n (increment k) := by
    intro u hmem
    obtain ⟨cmd, hcmd, hmem⟩ := List.mem_flatMap.mp hmem
    exact hadds.2.1 cmd hcmd u hmem
  have htotal : total c n ⟨(run ts a ⟨σ.db, σ.procs it.jobno⟩).db,
      Function.update σ.procs it.jobno (run ts a ⟨σ.db, σ.procs it.jobno⟩).proc,
      Function.update σ.jobs it.jobno (.busy it todo)⟩ = total c n σ + hitsIn n a := by
    refine sum_add hrange.1 hrange.2 (fun j hj => ?_) ?_
    · simp only [Function.update_of_ne hj]
      cases σ.jobs j with
      | down => exact hu.lasti_other hr.installed hj
      | ready => rfl
      | busy => rfl
    · have hloop := hv.loop_pos
      simp only [Function.update_self, h, counted, List.flatten_cons, hitsIn_append]
      omega
  rw [hget, htotal, hc, look_increments hupd, Nat.mul_add]
  rfl

def Clean (ok : Sys → Act → Prop) : Prop := ∀ σ jobno, ¬ ok σ (.crash jobno)

theorem counted_step (hr : Rules c ts ok P) (hclean : Clean ok) (hi : Inv c ts P σ)
    (hn : Counter c n k) {a : Act} (hok : ok σ a) (hs : Step c ts σ a σ')
    (hc : TreeStore.get σ.db n = some (dec (k * total c n σ))) :
    TreeStore.get σ'.db n = some (dec (k * total c n σ')) := by
  cases hs with
  | start jobno h1 hj h =>
    rw [total_move]
    · exact hc
    · simp [h, counted]
  | begin jobno loop I d h ht =>
    rw [total_move]
    · exact hc
    · simp [h, counted, flatten_atoms, hn.once]
  | work jobno it a todo h => exact total_work hr hi hn h hc
  | finish jobno it h =>
    rw [total_move]
    · exact hc
    · simp [h, counted, hitsIn_nil]
  | stop jobno loop I h =>
    have hjob := hi.job jobno
    rw [h] at hjob
    rw [total_move]
    · exact hc
    · simp [h, counted, hjob.1]
  | crash jobno it todo h => exact absurd hok (hclean σ jobno)

theorem total_initial : total c n (Run.initial c) = 0 :=
  Finset.sum_eq_zero (fun jobno _ => lasti_initial jobno)

theorem counted_reaches (hr : Rules c ts ok P) (hclean : Clean ok) (hn : Counter c n k)
    (h0 : TreeStore.get (Run.initial c).db n = some (dec 0)) (h : Reaches c ts ok σ) :
    TreeStore.get σ.db n = some (dec (k * total c n σ)) := by
  induction h with
  | initial => rw [total_initial, Nat.mul_zero, h0]
  | step h hok hs ih => exact counted_step hr hclean (inv_reaches hr h) hn hok hs ih

theorem total_down (hd : σ.Down) :
    total c n σ = ∑ jobno ∈ Finset.Icc 1 c.jobcnt, lasti c σ.db jobno :=
  Finset.sum_congr rfl (fun jobno _ => by rw [hd jobno]; rfl)

theorem cntloop_eq (db : Db) :
    CheckDb.cntloop c db = ∑ jobno ∈ Finset.Icc 1 c.jobcnt, lasti c db jobno := by
  unfold CheckDb.cntloop
  induction c.jobcnt with
  | zero => rfl
  | succ m ih =>
    rw [ForLoop.forLoop_succ _ _ _ _ (by omega), ih, Finset.sum_Icc_succ_top (by omega)]

theorem counters_down (hr : Rules c ts ok P) (hclean : Clean ok) (h : Reaches c ts ok σ)
    (hd : σ.Down) : TreeStore.get σ.db (.cntloop, [fid c]) = some (dec (CheckDb.cntloop c σ.db)) ∧
      TreeStore.get σ.db (.cntseq, [fid c]) =
        some (dec ((13 + c.jobcnt) * CheckDb.cntloop c σ.db)) := by
  constructor
  · rw [counted_reaches hr hclean cntloop_counter (by simp [initial_get]) h, total_down hd, cntloop_eq, Nat.one_mul]
  · rw [counted_reaches hr hclean cntseq_counter (by simp [initial_get]) h, total_down hd, cntloop_eq]

end YdbTest.Counting
