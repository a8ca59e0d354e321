import Mathlib.Algebra.Group.Nat.Hom
import Mathlib.Logic.Function.Basic

namespace YdbTest.Threeenp1

open Function

/-- The three programs. The workers of the first two are goroutines, those of the last one are
processes. -/
inductive Program
  | B1 | B2 | C2
  deriving DecidableEq

/-- An input line. -/
structure Line where
  endnum : Nat
  streams : Nat
  blk : Nat
  one_lt : 1 < endnum
  pos : 0 < streams

namespace Line

variable (l : Line)

def maxblk : Nat := (l.endnum + (l.streams - 1)) / l.streams

/-- The block size that is printed, and used from then on. -/
def size : Nat := if 0 ≠ l.blk ∧ l.blk ≤ l.maxblk then l.blk else l.maxblk

end Line

/-- The space of a subscript is 18 bytes; the error of a longer one is a panic. -/
def Fits (n : Nat) : Prop := n < 10 ^ 18

instance (n : Nat) : Decidable (Fits n) := inferInstanceAs (Decidable (n < 10 ^ 18))

/-- What the loop over the blocks works on: the nodes of `^limits`, and the subscript in their
key. -/
structure Table where
  limits : Nat → Option Nat
  subscr : Nat

/-- The turns of the loop from `i` on. There is no table after a panic, and none when the fuel does
not last to the end. -/
def blocks (prog : Program) (endnum blk : Nat) : Nat → Nat → Nat → Table → Option Table
  | 0, _, _, _ => none
  | fuel + 1, i, tmp, t =>
    if tmp = endnum then some t
    else
      let tmp := tmp + blk
      match prog with
      | .B1 | .B2 =>
        -- The node of the last turn is set again here: the subscript is still in the key.
        if tmp > endnum then some { t with limits := update t.limits t.subscr (some endnum) }
        else if ¬ Fits i then none
        else blocks prog endnum blk fuel (i + 1) tmp ⟨update t.limits i (some tmp), i⟩
      | .C2 =>
        let tmp := if tmp > endnum then endnum else tmp
        if ¬ Fits i then none
        else blocks prog endnum blk fuel (i + 1) tmp ⟨update t.limits i (some tmp), i⟩

/-- The table for a line, after the whole of `^limits` has been killed. -/
def table (prog : Program) (l : Line) (subscr : Nat) : Option Table :=
  blocks prog l.endnum l.size (l.endnum + 1) 1 0 ⟨fun _ => none, subscr⟩

def before (limits : Nat → Option Nat) (index : Nat) : Nat :=
  if 1 = index then 0 else (limits (index - 1)).getD 0

/-- The globals; `claimed` is `^limits(index,1)`. -/
structure Db where
  limits : Nat → Option Nat
  claimed : Nat → Nat
  step : Nat → Option Nat
  result : Option Nat
  highest : Option Nat
  reads : Option Nat
  updates : Option Nat

/-- The nodes of the local variables under the subscript of one worker. The second subscripts of
`currpath` count from 0. -/
structure Lcl where
  reads : Nat
  updates : Nat
  highest : Nat
  currpath : List Nat

/-- Where a worker is: before each of its accesses to the database. -/
inductive Pc
  | init
  | scan (index : Nat)
  | claim (index : Nat)
  | fetch (index : Nat)
  | walk (index blkend current n : Nat)
  | known (index blkend current n : Nat)
  | maximum (index blkend current i : Nat)
  | store (index blkend current i n : Nat)
  | finish
  | done
  | panicked
  deriving DecidableEq

/-- A worker with its two buffers; which blocks it has taken and which numbers it has dealt with
is kept for the statements. -/
structure Worker where
  pc : Pc
  value : Nat
  value2 : Nat
  blocks : List Nat
  processed : List Nat

structure View where
  db : Db
  lcl : Lcl
  worker : Worker

/-- Even numbers are halved, odd numbers get the signature treatment. -/
def next (n : Nat) : Nat := if 0 = n &&& 1 then n / 2 else 3 * n + 1

namespace View

variable (s : View)

def goto (pc : Pc) : View := { s with worker := { s.worker with pc := pc } }

/-- The head of the loop of `dostep`. -/
def turn (index blkend current : Nat) : View :=
  if current ≤ blkend then
    { s with lcl := { s.lcl with currpath := [] } }.goto (.walk index blkend current current)
  else s.goto (.scan index)

def endTurn (index blkend current : Nat) : View :=
  { s with worker := { s.worker with processed := s.worker.processed ++ [current] } }.turn
    index blkend (current + 1)

/-- The transaction of `dostep`. -/
def maximum (i : Nat) : View :=
  let resultDB := s.db.result.getD 0
  let s := { s with worker := { s.worker with value := s.db.result.getD s.worker.value } }
  if i > resultDB then
    { s with
      db := { s.db with result := some i }
      worker := { s.worker with value := i } }
  else s

/-- The transaction of `doblk`. -/
def finish : View :=
  let reads := s.db.reads.getD 0 + s.lcl.reads
  let updates := s.db.updates.getD 0 + s.lcl.updates
  let highestDB := s.db.highest.getD 0
  let s := { s with
    db := { s.db with reads := some reads, updates := some updates }
    worker := { s.worker with
      value := s.db.highest.getD s.lcl.updates
      value2 := s.lcl.highest } }
  if highestDB < s.lcl.highest then { s with db := { s.db with highest := some s.worker.value2 } }
  else s

/-- `doblk` and `dostep`, from one access to the next. -/
def work (subscr : Nat) : Option View :=
  match s.worker.pc with
  | .init =>
    if ¬ Fits subscr then some (s.goto .panicked)
    else some { s with
      lcl := { s.lcl with reads := 0, updates := 0, highest := 0 }
      worker := { s.worker with value := 0, pc := .scan subscr } }
  | .scan index =>
    let index := index + 1
    if ¬ Fits index then some (s.goto .panicked)
    else if s.db.limits index = none ∧ s.db.claimed index = 0 then some (s.goto .finish)
    else some (s.goto (.claim index))
  | .claim index =>
    let claimed := s.db.claimed index + 1
    let s := { s with
      db := { s.db with claimed := update s.db.claimed index claimed }
      worker := { s.worker with value := claimed } }
    if s.worker.value ≠ 1 then some (s.goto (.scan index))
    else some ({ s with
      worker := { s.worker with blocks := s.worker.blocks ++ [index] } }.goto (.fetch index))
  | .fetch index =>
    let blkend := (s.db.limits index).getD 0
    let value := if 1 = index then blkend else before s.db.limits index
    some ({ s with worker := { s.worker with value := value } }.turn index blkend
      (before s.db.limits index + 1))
  | .walk index blkend current n =>
    let s := { s with lcl := { s.lcl with reads := s.lcl.reads + 1 } }
    let s := { s with worker := { s.worker with value := s.lcl.reads } }
    let i := s.lcl.currpath.length
    if ¬ Fits n then some (s.goto .panicked)
    else if s.db.step n ≠ none ∨ 1 = n then
      if 0 < i then
        if 1 < n then some (s.goto (.known index blkend current n))
        else some (s.goto (.maximum index blkend current i))
      else some (s.endTurn index blkend current)
    else
      let s := { s with lcl := { s.lcl with currpath := s.lcl.currpath ++ [n] } }
      let n := next n
      let highestDB := s.lcl.highest
      let s := { s with worker := { s.worker with value := highestDB } }
      let s :=
        if n > highestDB then
          { s with
            lcl := { s.lcl with highest := n }
            worker := { s.worker with value := n } }
        else s
      some (s.goto (.walk index blkend current n))
  | .known index blkend current n =>
    let stepval := (s.db.step n).getD 0
    let s := { s with worker := { s.worker with value := stepval } }
    some (s.goto (.maximum index blkend current (s.lcl.currpath.length + stepval)))
  | .maximum index blkend current i => some ((s.maximum i).goto (.store index blkend current i 0))
  | .store index blkend current i n =>
    match s.lcl.currpath[n]? with
    | none => some (s.endTurn index blkend current)
    | some m => some ({ s with
        db := { s.db with step := update s.db.step m (some (i - n)) }
        lcl := { s.lcl with updates := s.lcl.updates + 1 }
        worker := { s.worker with value := i - n } }.goto (.store index blkend current i (n + 1)))
  | .finish => some (s.finish.goto .done)
  | .done | .panicked => none

end View

/-- The globals, the key of `^limits` in the main program, the local variables by their first
subscript, and the workers of the line. -/
structure Sys where
  db : Db
  subscr : Nat
  lcl : Nat → Lcl
  workers : Nat → Worker

namespace Sys

variable (σ : Sys)

def view (w : Nat) : View := ⟨σ.db, σ.lcl w, σ.workers w⟩

def put (w : Nat) (s : View) : Sys :=
  { σ with db := s.db, lcl := update σ.lcl w s.lcl, workers := update σ.workers w s.worker }

def restart (w value value2 : Nat) : Option Sys :=
  match (σ.workers w).pc with
  | .maximum .. | .finish => some { σ with
      workers := update σ.workers w { σ.workers w with value := value, value2 := value2 } }
  | _ => none

end Sys

/-- Whose turn it is: a worker goes on, or its transaction is restarted. -/
inductive Act
  | work (w : Nat)
  | restart (w value value2 : Nat)

def Act.worker : Act → Nat
  | .work w => w
  | .restart w _ _ => w

def act (σ : Sys) : Act → Option Sys
  | .work w => ((σ.view w).work w).map (σ.put w)
  | .restart w value value2 => σ.restart w value value2

def Worker.new : Worker := ⟨.init, 0, 0, [], []⟩

/-- The line has its table, and its workers are started. Processes begin without local
variables, goroutines with those that there are. -/
def start (prog : Program) (l : Line) (σ : Sys) : Option Sys :=
  (table prog l σ.subscr).map fun t =>
    { db := { σ.db with limits := t.limits, claimed := fun _ => 0 }
      subscr := t.subscr
      lcl := match prog with
        | .B1 | .B2 => σ.lcl
        | .C2 => fun _ => ⟨0, 0, 0, []⟩
      workers := fun _ => .new }

/-- The main program has waited for the workers. A goroutine that panics would end it, a process
that does is only reported. -/
def Waited (prog : Program) (l : Line) (σ : Sys) : Prop :=
  ∀ w < l.streams, (σ.workers w).pc = .done ∨ prog = .C2 ∧ (σ.workers w).pc = .panicked

def reinitialize (db : Db) : Db :=
  { db with
    highest := some 0
    reads := some 0
    result := some 0
    updates := some 0
    step := fun _ => none }

def afresh (db : Db) : Db :=
  { db with
    result := none
    highest := none
    updates := none
    reads := none
    step := fun _ => none }

/-- The states of a run over input lines, with the line that is being worked on. The workers take
turns in any order, which includes all that their start together leaves open. -/
inductive Reaches (prog : Program) : Line → Sys → Prop
  | first {l : Line} {σ σ' : Sys} (h : start prog l { σ with db := afresh σ.db } = some σ') :
      Reaches prog l σ'
  | step {l : Line} {σ σ' : Sys} (hr : Reaches prog l σ) (a : Act) (ha : a.worker < l.streams)
      (h : act σ a = some σ') : Reaches prog l σ'
  | line {l l' : Line} {σ σ' : Sys} (hr : Reaches prog l σ) (hw : Waited prog l σ)
      (h : start prog l' { σ with db := reinitialize σ.db } = some σ') : Reaches prog l' σ'

end YdbTest.Threeenp1
