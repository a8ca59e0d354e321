import YdbTest.Triggers
import YdbTest.CheckDb
import YdbTest.Iteration

namespace YdbTest.Run

open MString Globals Command Imptp Triggers CheckDb Iteration IndexWalk

/-- Where a job is: not running, at the head of its loop, or in an iteration
with the transactions and single commands it has still to do. -/
inductive Job
  | down
  | ready (loop I : Nat)
  | busy (it : Iter) (todo : List (List Cmd))

structure Sys where
  db : Db
  procs : Nat → Proc
  jobs : Nat → Job

inductive Act
  | start (jobno : Nat)
  | begin (jobno : Nat) (d : Draws)
  | work (jobno : Nat)
  | finish (jobno : Nat)
  | stop (jobno : Nat)
  | crash (jobno : Nat)

/-- The database as the parent leaves it for its jobs, where it was empty. -/
def initial (c : Cfg) : Sys :=
  ⟨TreeStore.set (.cntseq, [fid c]) (dec 0) (TreeStore.set (.cntloop, [fid c]) (dec 0) []),
    fun _ => ⟨[], []⟩, fun _ => .down⟩

variable (c : Cfg) (ts : List Trigger)

/-- The steps of the jobs, in any order. A job starts at the `^lasti` it finds,
works through its iterations atom by atom, stops between two of them, or is
killed anywhere. -/
inductive Step : Sys → Act → Sys → Prop
  | start (σ : Sys) (jobno : Nat) (h1 : 1 ≤ jobno) (hc : jobno ≤ c.jobcnt)
      (h : σ.jobs jobno = .down) :
      Step σ (.start jobno) { σ with
        procs := Function.update σ.procs jobno ⟨[], []⟩
        jobs := Function.update σ.jobs jobno (.ready (lasti c σ.db jobno + 1)
          (startIndex c.jobcnt jobno (lasti c σ.db jobno))) }
  | begin (σ : Sys) (jobno loop I : Nat) (d : Draws) (h : σ.jobs jobno = .ready loop I)
      (ht : loop ≤ Imptp.top c) :
      Step σ (.begin jobno d) { σ with
        jobs := Function.update σ.jobs jobno
          (.busy ⟨jobno, loop, I⟩ (atoms c ⟨jobno, loop, I⟩ d)) }
  | work (σ : Sys) (jobno : Nat) (it : Iter) (a : List Cmd) (todo : List (List Cmd))
      (h : σ.jobs jobno = .busy it (a :: todo)) :
      Step σ (.work jobno) ⟨(run ts a ⟨σ.db, σ.procs jobno⟩).db,
        Function.update σ.procs jobno (run ts a ⟨σ.db, σ.procs jobno⟩).proc,
        Function.update σ.jobs jobno (.busy it todo)⟩
  | finish (σ : Sys) (jobno : Nat) (it : Iter) (h : σ.jobs jobno = .busy it []) :
      Step σ (.finish jobno) { σ with
        jobs := Function.update σ.jobs jobno
          (.ready (it.loop + 1) (it.I * nroot c.jobcnt % prime)) }
  | stop (σ : Sys) (jobno loop I : Nat) (h : σ.jobs jobno = .ready loop I) :
      Step σ (.stop jobno) { σ with jobs := Function.update σ.jobs jobno .down }
  | crash (σ : Sys) (jobno : Nat) (it : Iter) (todo : List (List Cmd))
      (h : σ.jobs jobno = .busy it todo) :
      Step σ (.crash jobno) { σ with jobs := Function.update σ.jobs jobno .down }

/-- The states of the runs whose steps all satisfy `ok`. -/
inductive Reaches (ok : Sys → Act → Prop) : Sys → Prop
  | initial : Reaches ok (initial c)
  | step {σ σ' : Sys} {a : Act} (h : Reaches ok σ) (hok : ok σ a) (hs : Step c ts σ a σ') :
      Reaches ok σ'

def Sys.Down (σ : Sys) : Prop := ∀ jobno, σ.jobs jobno = .down

end YdbTest.Run
