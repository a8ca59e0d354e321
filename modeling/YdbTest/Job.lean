import YdbTest.MString
import YdbTest.MLocks

namespace YdbTest.Job

open MString MLocks

/-- A process: one that no `^job` has started, or the child `i` of the call `n`. -/
inductive Proc where
  | root (k : Nat)
  | child (n i : Nat)
  deriving DecidableEq

/-- A call of `job(routine,njobs,parms)`. -/
structure Call where
  owner : Proc
  routine : Str
  jobid : Str
  njobs : Nat
  jnolock : Bool
  deriving DecidableEq

abbrev Locks := Table Proc Str Str

def caret : Nat := 94

def Call.gate (k : Call) : Name Str Str := ⟨lit "^job" ++ piece k.routine caret 1, []⟩

def Call.below (k : Call) (i job : Nat) : Name Str Str :=
  ⟨lit "^job" ++ piece k.routine caret 1, [dec i, dec job]⟩

def Call.jobwait (k : Call) (i : Nat) : Name Str Str :=
  ⟨lit "^%jobwait", if k.jobid = [] then [dec i] else [k.jobid, dec i]⟩

/-- Where a child is: before each of its LOCK commands, and at its routine. -/
inductive ChildPc where
  | wait
  | gate
  | release
  | running
  deriving DecidableEq

/-- Where the parent is. It counts its tries and looks at the children one after the other; `all`
is false when one of them was found not to have come so far. -/
inductive ParentPc where
  | enter
  | job
  | poll (nth : Nat) (all : Bool) (i : Nat)
  | got (nth i : Nat)
  | open (all : Bool)
  | done (all : Bool)
  deriving DecidableEq

structure CallState where
  call : Call
  parent : ParentPc
  children : List ChildPc
  deriving DecidableEq

/-- A step of the parent. A child is the `i+1`-st of its call. -/
def parentStep (c : CallState) (t : Locks) : Option (CallState × Locks) :=
  let k := c.call
  match c.parent with
  | .enter =>
    if k.jnolock then some ({ c with parent := .job }, t)
    else (lock t k.owner k.gate).map fun t => ({ c with parent := .job }, t)
  | .job =>
    if c.children.length < k.njobs then
      some ({ c with children := c.children ++ [if k.jnolock then .running else .wait] }, t)
    else if k.jnolock then some ({ c with parent := .done true }, t)
    else some ({ c with parent := .poll 1 true 0 }, t)
  | .poll nth all i =>
    if i < k.njobs then
      match lock t k.owner (k.jobwait (i + 1)) with
      | some t => some ({ c with parent := .got nth i }, t)
      | none => some ({ c with parent := .poll nth all (i + 1) }, t)
    else if all then some ({ c with parent := .open true }, t)
    else if nth < 600 then some ({ c with parent := .poll (nth + 1) true 0 }, t)
    else some ({ c with parent := .open false }, t)
  | .got nth i =>
    some ({ c with parent := .poll nth false (i + 1) }, unlock t k.owner (k.jobwait (i + 1)))
  | .open all => some ({ c with parent := .done all }, unlock t k.owner k.gate)
  | .done _ => none

/-- A step of the child `i` of the call `n`; `job` is `$job`. -/
def childStep (job : Proc → Nat) (n i : Nat) (c : CallState) (t : Locks) :
    Option (ChildPc × Locks) :=
  let p := Proc.child n i
  match c.children[i]? with
  | some .wait => (lock t p (c.call.jobwait (i + 1))).map fun t => (.gate, t)
  | some .gate => (lock t p (c.call.below (i + 1) (job p))).map fun t => (.release, t)
  | some .release => some (.running, unlockAll t p)
  | _ => none

/-- All calls that were made, in their order, and the locks. -/
structure State where
  calls : List CallState
  locks : Locks
  deriving DecidableEq

def CallState.active (c : CallState) : Bool :=
  match c.parent with
  | .done _ => false
  | _ => true

def idle (s : State) (p : Proc) : Bool :=
  (match p with
    | .root _ => true
    | .child n i => s.calls[n]?.bind (·.children[i]?) = some .running) &&
  s.calls.all fun c => c.call.owner ≠ p || !c.active

inductive Act where
  | call (k : Call)
  | parent (n : Nat)
  | child (n i : Nat)

def step (job : Proc → Nat) (s : State) : Act → Option State
  | .call k =>
    if idle s k.owner then some { s with calls := s.calls ++ [⟨k, .enter, []⟩] } else none
  | .parent n =>
    s.calls[n]?.bind fun c =>
      (parentStep c s.locks).map fun r => ⟨s.calls.set n r.1, r.2⟩
  | .child n i =>
    s.calls[n]?.bind fun c =>
      (childStep job n i c s.locks).map fun r =>
        ⟨s.calls.set n { c with children := c.children.set i r.1 }, r.2⟩

/-- The states that are reached by steps with `P`. -/
inductive Reaches (job : Proc → Nat) (P : State → Act → Prop) : State → Prop
  | init : Reaches job P ⟨[], []⟩
  | step {s s' : State} {a : Act} (h : Reaches job P s) (hs : step job s a = some s') (hP : P s a) :
      Reaches job P s'

end YdbTest.Job
