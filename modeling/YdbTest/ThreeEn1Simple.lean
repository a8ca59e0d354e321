import YdbTest.CInt
import YdbTest.Globals
import YdbTest.ThreeEn1History
import Mathlib.Logic.Relation

namespace YdbTest.ThreeEn1.Simple

open MString CInt

local instance lawfulBEq_str : LawfulBEq Str := inferInstance

def llong (x : Int) : Option Int :=
  if -9223372036854775808 ≤ x ∧ x ≤ 9223372036854775807 then some x else none

/-- `sprintf(buf, "%d", x)`, and the same with `%lld`. -/
def sprintd (x : Int) : Str := if x < 0 then 45 :: dec x.natAbs else dec x.natAbs

/-- The digits up to the first character that is none, with their sign, as a `long`. -/
def atoll (s : Str) : Int :=
  let x : Int := match s with
    | 45 :: s => -((readNumber true 0 0 s).1 : Int)
    | s => (readNumber true 0 0 s).1
  max (-9223372036854775808) (min x 9223372036854775807)

def atoi (s : Str) : Int := (atoll s).bmod 4294967296

/-- The value that `ydb_incr_s` gives a string: that of M, of a whole number. -/
def num (s : Str) : Int := if (number s).1 then -((number s).2.1 : Int) else (number s).2.1

/-- `ydb_incr_s(..., increment, ...)` on a node. -/
def incr (node : Option Str) (increment : Str) : Str :=
  sprintd (num (node.getD []) + num increment)

def bytes (s : Str) : Nat := (s.map fun c => (utf8Char c).length).sum

def inttostr (n : Int) : Option Str :=
  if 0 ≤ n ∧ bytes (ThreeEn1.inttostr n.toNat) < 256 then some (ThreeEn1.inttostr n.toNat) else none

def strtoint (s : Str) : Option Int :=
  ((s.splitOn space).filter (· ≠ [])).foldlM
    (fun n w => if w ∈ digits then llong (10 * n + di w) else none) 0

structure Glb where
  limits : Int → Option Str
  claimed : Int → Nat
  step : Str → Option Str
  result : Option Str
  highest : Option Str
  reads : Option Str
  updates : Option Str

inductive Pc
  | limits (count tmp : Int)
  | scan (tmp : Int)
  | claim (tmp : Int)
  | walk (tmp last current i n : Int)
  | known (tmp last current i n : Int)
  | maximum (tmp last current i : Int)
  | store (tmp last current i : Int) (tmp1 : Option Int)
  | stats
  | done
  deriving DecidableEq

/-- The variables of the process: those of `main`, the local nodes `reads`, `updates`, `highest` and
`currpath`, and the buffer that all calls share. -/
structure Sys where
  glb : Glb
  i : Int
  j : Int
  blk : Int
  reads : Str
  updates : Str
  highest : Str
  currpath : List Int
  value : Str
  pc : Pc

/-- The head of the loop over `current`. -/
def Sys.round (s : Sys) (tmp last current : Int) : Sys :=
  if current ≤ last then { s with currpath := [], pc := .walk tmp last current 0 current }
  else { s with pc := .scan tmp }

def tp_setmaximum (s : Sys) (i : Int) : Sys :=
  let value := s.glb.result.getD s.value
  let result := match s.glb.result with
    | some r => atoi r
    | none => 0
  if i > result then
    { s with glb := { s.glb with result := some (sprintd i) }, value := sprintd i }
  else { s with value := value }

/-- `tp_gvstatsincr`. What is handed over as the increments are the names of the local nodes. -/
def tp_gvstatsincr (s : Sys) : Sys :=
  let glb := { s.glb with
    reads := some (incr s.glb.reads (lit "reads"))
    updates := some (incr s.glb.updates (lit "updates")) }
  let highest_gbl := match glb.highest with
    | some h => atoi h
    | none => 0
  let highest_lcl := atoi s.highest
  { s with
    glb := if highest_lcl > highest_gbl then { glb with highest := some s.highest } else glb
    value := s.highest }

def Sys.first (s : Sys) (tmp : Int) : Option Int :=
  match s.glb.limits (tmp - 1) with
  | some v => add (atoi v) 1
  | none => some s.i

def Sys.stop (s : Sys) (tmp last current i n : Int) : Option Sys :=
  if 0 < i then
    some { s with pc := if 1 < n then .known tmp last current i n else .maximum tmp last current i }
  else (llong (current + 1)).map (s.round tmp last)

/-- The next number, `n / 2` or `(3 * n) + 1`. -/
def next (n : Int) : Option Int :=
  if n.tmod 2 = 0 then some (n.tdiv 2) else (llong (3 * n)).bind fun m => llong (m + 1)

def Sys.forward (s : Sys) (tmp last current i n : Int) : Option Sys := do
  let s := { s with currpath := s.currpath ++ [n], value := sprintd n }
  let n ← next n
  let i ← llong (i + 1)
  -- the buffer still holds the number before the step
  some { s with
    highest := if n > atoll s.highest then s.value else s.highest
    pc := .walk tmp last current i n }

/-- A step of the program up to the end of `doblk`, in the process that does the work. -/
def step (s : Sys) : Option Sys :=
  match s.pc with
  | .limits count tmp =>
    if tmp ≠ s.j then do
      let tmp ← add tmp s.blk
      let tmp := if tmp > s.j then s.j else tmp
      let next ← add count 1
      some { s with
        glb := { s.glb with limits := Function.update s.glb.limits count (some (sprintd tmp)) }
        value := sprintd tmp
        pc := .limits next tmp }
    else some { s with
      reads := sprintd 0
      updates := sprintd 0
      highest := sprintd 0
      value := sprintd 0
      pc := .scan 0 }
  | .scan tmp => do
    let tmp ← add tmp 1
    some { s with pc := if (s.glb.limits tmp).isSome then .claim tmp else .stats }
  | .claim tmp =>
    let claimed := s.glb.claimed tmp + 1
    let s := { s with
      glb := { s.glb with claimed := Function.update s.glb.claimed tmp claimed }
      value := sprintd claimed }
    if atoi (sprintd claimed) ≠ 1 then some { s with pc := .scan tmp }
    else do
      let first ← s.first tmp
      let value ← s.glb.limits tmp
      some ({ s with value := value }.round tmp (atoi value) first)
  | .walk tmp last current i n =>
    let reads := incr (some s.reads) (sprintd 1)
    let s := { s with reads := reads, value := reads }
    if 1 = n then s.stop tmp last current i n
    else do
      let subscr ← inttostr n
      if (s.glb.step subscr).isSome then s.stop tmp last current i n
      else s.forward tmp last current i n
  | .known tmp last current i n => do
    let subscr ← inttostr n
    let value ← s.glb.step subscr
    let steps ← strtoint value
    let i ← llong (i + steps)
    some { s with value := value, pc := .maximum tmp last current i }
  | .maximum tmp last current i =>
    some { tp_setmaximum s i with pc := .store tmp last current i none }
  | .store tmp last current i tmp1 =>
    let next : Int := match tmp1 with
      | some tmp1 => tmp1 + 1
      | none => 0
    match s.currpath[next.toNat]? with
    | none => (llong (current + 1)).map (s.round tmp last)
    | some tmp2 => do
      let subscr ← inttostr tmp2
      let value ← inttostr (i - next)
      some { s with
        glb := { s.glb with step := Function.update s.glb.step subscr (some value) }
        updates := incr (some s.updates) (sprintd 1)
        value := value
        pc := .store tmp last current i (some next) }
  | .stats => some { tp_gvstatsincr s with pc := .done }
  | .done => none

def Glb.ofDb (db : Db) : Glb where
  limits := fun _ => none
  claimed := fun _ => 0
  step := db.step
  result := db.result.map dec
  highest := db.highest.map dec
  reads := db.reads.map dec
  updates := db.updates.map dec

/-- A line is read, as far as its numbers are accepted. -/
def start (l : Problem) (db : Db) : Option Sys := do
  let i ← int l.i
  let j ← int l.j
  let k ← int l.k
  let blk ← int l.blk
  if k > 32 then none
  else
    let d ← int (j - i)
    let d ← add d k
    let tmp ← div d k
    let blk := if blk ≠ 0 ∧ blk ≤ tmp then blk else tmp
    some ⟨.ofDb db, i, j, blk, [], [], [], [], [], .limits 1 (i - 1)⟩

/-- A run of the program, in which one process does all the work. -/
def Runs (l : Problem) (db : Db) (g : Glb) : Prop :=
  ∃ s t, start l db = some s ∧ Relation.ReflTransGen (fun s t => step s = some t) s t ∧
    t.pc = .done ∧ t.glb = g

/-- The same of the M program: one job works, from the scan of the blocks to its statistics. -/
def Works (l : Problem) (db db' : Db) : Prop :=
  ∃ x, Relation.ReflTransGen (fun (s t : Db × Worker) => work l s.1 s.2 = some t)
    ((ThreeEn1.start db).db, { Worker.new with pc := .scan 0 }) (db', x) ∧ x.pc = .unlock

/-- The same table and the same values. -/
structure Same (db : Db) (g : Glb) : Prop where
  step : g.step = db.step
  result : g.result = db.result.map dec
  highest : g.highest = db.highest.map dec
  reads : g.reads = db.reads.map dec
  updates : g.updates = db.updates.map dec

end YdbTest.ThreeEn1.Simple
