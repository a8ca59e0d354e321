import YdbTest.MLocks
import YdbTest.MString
import Mathlib.Logic.Function.Basic

namespace YdbTest.ThreeEn1

open MString MLocks

/-- The strings at the label `digits`, character by character. -/
def digits : List Str :=
  [lit "zero", lit "eins", lit "deux", lit "tres", lit "quattro", lit "пять", lit "ستة", lit "सात",
    lit "捌", lit "ஒன்பது"]

def ds (m : Nat) : Str := digits.getD m []

def di (s : Str) : Nat := digits.idxOf s

def inttostr (n : Nat) : Str := [space].intercalate ((dec n).map fun c => ds (c - 48))

def strtoint (s : Str) : Nat := (s.splitOn space).foldl (fun n w => 10 * n + di w) 0

def mnum (x : Nat) : Nat :=
  let k := (Nat.digits 10 x).length - 18
  x / 10 ^ k * 10 ^ k

/-- `$Select('(n#2):n/2,1:3*n+1)` -/
def next (n : Nat) : Nat := if n % 2 = 0 then mnum (n / 2) else mnum (mnum (3 * n) + 1)

/-- The globals; `root` is the value of `^step` itself, and `claimed` holds `^limits(tmp,1)`. -/
structure Db where
  count : Int
  claimed : Nat → Nat
  step : Str → Option Str
  root : Option Nat
  result : Option Nat
  highest : Option Nat
  reads : Option Nat
  updates : Option Nat

structure Problem where
  i : Nat
  j : Nat
  k : Nat
  blk : Nat
  one_le : 1 ≤ i
  le : i ≤ j
  pos : 0 < k

namespace Problem

variable (l : Problem)

def size : Nat :=
  let tmp := (l.j - l.i + l.k) / l.k
  if l.blk ≠ 0 ∧ l.blk ≤ tmp then l.blk else tmp

/-- `^limits(count)` for the counts that follow when `tmp` has been reached. -/
def limitsFrom (tmp : Nat) : List Nat :=
  if _h : tmp < l.j ∧ 0 < l.size then
    let tmp' := if tmp + l.size > l.j then l.j else tmp + l.size
    tmp' :: limitsFrom tmp'
  else []
termination_by l.j - tmp
decreasing_by split <;> omega

def limits : List Nat := l.limitsFrom (l.i - 1)

def limit (count : Nat) : Option Nat := if count = 0 then none else l.limits[count - 1]?

/-- `$select($data(^limits(tmp-1)):^limits(tmp-1)+1,1:allfirst)` -/
def first (tmp : Nat) : Nat :=
  match l.limit (tmp - 1) with
  | some m => m + 1
  | none => l.i

def last (tmp : Nat) : Nat := (l.limit tmp).getD 0

end Problem

/-- Where a job is: before each of its accesses to something shared. -/
inductive Pc
  | absent
  | lockL2
  | decr
  | lockL1
  | scan (tmp : Nat)
  | claim (tmp : Nat)
  | walk (tmp current : Nat) (currpath : List Nat) (n : Nat)
  | known (tmp current : Nat) (currpath : List Nat) (n : Nat)
  | maximum (tmp current : Nat) (currpath : List Nat) (i : Nat)
  | store (tmp current : Nat) (todo : List (Nat × Nat))
  | finish
  | unlock
  | done
  deriving DecidableEq

/-- A job with its counts and its highest number; which blocks it has taken and which numbers it
has dealt with is kept for the statements. -/
structure Worker where
  pc : Pc
  reads : Nat
  updates : Nat
  highest : Nat
  blocks : List Nat
  processed : List Nat

inductive Proc
  | parent
  | job (w : Nat)
  deriving DecidableEq

inductive LName
  | l1 | l2
  deriving DecidableEq

abbrev Locks := Table Proc LName Nat

/-- Where the parent is; `late` says that it wrote that jobs did not start. -/
inductive Parent
  | lockL1
  | incr (s : Nat)
  | job (s : Nat)
  | wait
  | unlockL1 (late : Bool)
  | lockL2 (late : Bool)
  | report (late : Bool)
  deriving DecidableEq

structure Sys where
  parent : Parent
  locks : Locks
  db : Db
  workers : Nat → Worker

/-- The end of the round for `current`. -/
def Worker.advance (l : Problem) (tmp current : Nat) (x : Worker) : Worker :=
  { x with
    processed := x.processed ++ [current]
    pc := if current < l.last tmp then .walk tmp (current + 1) [] (current + 1) else .scan tmp }

/-- The transaction that updates the statistics. A condition is no longer evaluated after the
first one that is false. -/
def Db.statistics (x : Worker) (db : Db) : Db :=
  let reads := db.reads.getD 0 + x.reads
  let db := { db with reads := some reads }
  if reads = 0 then db
  else
    let updates := db.updates.getD 0 + x.updates
    let db := { db with updates := some updates }
    if updates = 0 then db
    else if x.highest > db.highest.getD 0 then { db with highest := some x.highest } else db

/-- `doblk` and `dostep`, but for the LOCK commands. -/
def work (l : Problem) (db : Db) (x : Worker) : Option (Db × Worker) :=
  match x.pc with
  | .decr => some ({ db with count := db.count - 1 }, { x with pc := .lockL1 })
  | .scan tmp =>
    if (l.limit (tmp + 1)).isSome then some (db, { x with pc := .claim (tmp + 1) })
    else some (db, { x with pc := .finish })
  | .claim tmp =>
    let claimed := db.claimed tmp + 1
    let db := { db with claimed := Function.update db.claimed tmp claimed }
    if claimed = 1 then
      some (db, { x with
        blocks := x.blocks ++ [tmp]
        pc := .walk tmp (l.first tmp) [] (l.first tmp) })
    else some (db, { x with pc := .scan tmp })
  | .walk tmp current currpath n =>
    let x := { x with reads := x.reads + 1 }
    if (db.step (inttostr n)).isSome ∨ n = 1 then
      if currpath = [] then some (db, x.advance l tmp current)
      else if 1 < n then some (db, { x with pc := .known tmp current currpath n })
      else some (db, { x with pc := .maximum tmp current currpath currpath.length })
    else some (db, { x with
      highest := max x.highest (next n)
      pc := .walk tmp current (currpath ++ [n]) (next n) })
  | .known tmp current currpath n =>
    let i := currpath.length + strtoint ((db.step (inttostr n)).getD [])
    some (db, { x with pc := .maximum tmp current currpath i })
  | .maximum tmp current currpath i =>
    let db := if i > db.result.getD 0 then { db with result := some i } else db
    some (db, { x with pc := .store tmp current (currpath.zipIdx.map fun e => (e.1, i - e.2)) })
  | .store tmp current todo =>
    match todo with
    | [] => some (db, x.advance l tmp current)
    | (m, i) :: todo =>
      some ({ db with step := Function.update db.step (inttostr m) (some (inttostr i)) },
        { x with updates := x.updates + 1, pc := .store tmp current todo })
  | .finish => some (db.statistics x, { x with pc := .unlock })
  | _ => none

def Sys.setWorker (σ : Sys) (w : Nat) (x : Worker) : Sys :=
  { σ with workers := Function.update σ.workers w x }

/-- A step of the job `w`. -/
def workerStep (l : Problem) (w : Nat) (σ : Sys) : Option Sys :=
  let x := σ.workers w
  match x.pc with
  | .lockL2 => (lock σ.locks (.job w) ⟨.l2, [w]⟩).map fun t =>
      { σ.setWorker w { x with pc := .decr } with locks := t }
  | .lockL1 => (lock σ.locks (.job w) ⟨.l1, [w]⟩).map fun t =>
      { σ.setWorker w { x with pc := .scan 0 } with locks := t }
  | .unlock => some { σ.setWorker w { x with pc := .done } with
      locks := unlock (unlock σ.locks (.job w) ⟨.l1, [w]⟩) (.job w) ⟨.l2, [w]⟩ }
  | _ => (work l σ.db x).map fun r => { σ.setWorker w r.2 with db := r.1 }

def Worker.new : Worker := ⟨.lockL2, 0, 0, 0, [], []⟩

def parentStep (l : Problem) (σ : Sys) : Option Sys :=
  match σ.parent with
  | .lockL1 => (lock σ.locks .parent ⟨.l1, []⟩).map fun t =>
      { σ with parent := .incr 0, locks := t }
  | .incr s =>
    if s < l.k then some { σ with parent := .job s, db := { σ.db with count := σ.db.count + 1 } }
    else some { σ with parent := .wait }
  | .job s => some { σ.setWorker s Worker.new with parent := .incr (s + 1) }
  | .wait => if σ.db.count = 0 then some { σ with parent := .unlockL1 false } else none
  | .unlockL1 late => some { σ with
      parent := .lockL2 late
      locks := unlock σ.locks .parent ⟨.l1, []⟩ }
  | .lockL2 late => (lock σ.locks .parent ⟨.l2, []⟩).map fun t =>
      { σ with parent := .report late, locks := t }
  | .report _ => none

inductive Step (l : Problem) : Sys → Sys → Prop
  | parent {σ σ' : Sys} (h : parentStep l σ = some σ') : Step l σ σ'
  /-- The parent has waited five minutes for the jobs to start. -/
  | giveUp {σ : Sys} (h : σ.parent = .wait) : Step l σ { σ with parent := .unlockL1 true }
  | worker {σ σ' : Sys} (w : Nat) (h : workerStep l w σ = some σ') : Step l σ σ'

/-- The line is begun: `^limits` is set up anew, and `^count` cleared. -/
def start (db : Db) : Sys where
  parent := .lockL1
  locks := []
  db := { db with claimed := fun _ => 0, count := 0 }
  workers := fun _ => { Worker.new with pc := .absent }

/-- The states that any interleaving of the jobs and the parent reaches. -/
inductive Reaches (l : Problem) (db : Db) : Sys → Prop
  | start : Reaches l db (start db)
  | step {σ σ' : Sys} (h : Reaches l db σ) (hs : Step l σ σ') : Reaches l db σ'

def dbinit (db : Db) : Db :=
  { db with
    count := 0
    highest := some 0
    reads := some 0
    result := some 0
    root := some 0
    updates := some 0 }

end YdbTest.ThreeEn1
