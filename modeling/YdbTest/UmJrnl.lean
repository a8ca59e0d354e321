import YdbTest.MString

namespace YdbTest.UmJrnl

open MString

/-- `$piece(s,d,n,99999)`. -/
def pieceFrom (s : Str) (d n : Nat) : Str := [d].intercalate ((s.splitOn d).drop (n - 1))

def backslash : Nat := 92

def equals : Nat := 61

def quote : Nat := 34

/-- What the commands of an extract do to the database and `$ztwormhole`, and what `$zqgblmod` says
of a node. -/
structure Engine (St : Type) where
  xecute : Str → St → St
  zqgblmod : Str → St → Bool

/-- `gtm_test_trigger` of the environment, and whether the caller has set `checkzqgblmod`. -/
structure Settings where
  trigtst : Bool
  checkzqgblmod : Bool

/-- The variables that go from record to record. `skipgbl` is set or not. A command in `tran` comes
with the number of its record, and `applied` has those of the commands done. -/
structure State (St : Type) where
  st : St
  tpFence : Int
  tran : List (Nat × Str)
  skipgbl : Bool
  applied : List Nat

/-- `SPLIT`: the parts before and after the first `=` that has an even number of quotes before it. -/
def SPLIT (X : Str) : Str × Str :=
  match (List.range X.length).find? fun i =>
      X[i]? = some equals ∧ (X.take i).count quote % 2 = 0 with
  | some i => (X.take i, X.drop (i + 1))
  | none => (X, [])

variable {St : Type} (e : Engine St) (m : Settings)

/-- A command goes to the transaction, if there is one, and is done at once otherwise. -/
def apply (n : Nat) (command : Str) (s : State St) : State St :=
  if s.tpFence ≠ 0 then { s with tran := s.tran ++ [(n, command)] }
  else { s with st := e.xecute command s.st, applied := s.applied ++ [n] }

def odd (nodeflags : Str) : Bool := toNat nodeflags % 2 = 1

def setRec (n : Nat) (rec : Str) (s : State St) : State St :=
  if m.trigtst && odd (piece rec backslash 10) then s
  else
    let data := pieceFrom rec backslash 11
    if m.checkzqgblmod && e.zqgblmod (SPLIT data).1 s.st then s
    else if (piece rec backslash 11).take 4 = lit "^#t(" then s
    else apply e n (lit "set " ++ data) s

/-- What `killRec` and `zkillRec` share. They do not make `skipgbl` their own. -/
def kills (word : Str) (n : Nat) (rec : Str) (s : State St) : State St :=
  let data := pieceFrom rec backslash 11
  let skipgbl := s.skipgbl || m.checkzqgblmod && e.zqgblmod data s.st
  let s := { s with skipgbl := skipgbl }
  if skipgbl then s
  else if (piece rec backslash 11).take 3 = lit "^#t" then s
  else apply e n (word ++ data) s

def killRec (n : Nat) (rec : Str) (s : State St) : State St :=
  if m.trigtst && odd (piece rec backslash 10) then s else kills e m (lit "kill ") n rec s

def zkillRec (n : Nat) (rec : Str) (s : State St) : State St := kills e m (lit "ZKILL ") n rec s

/-- What `ztwormhole`, `ztrig` and `lgtrig` share: nothing is done while `checkzqgblmod` is set, and
the routine halts outside of a transaction. -/
def within (command : Str) (n : Nat) (s : State St) : Option (State St) :=
  if m.checkzqgblmod then some s
  else if s.tpFence = 0 then none
  else some { s with tran := s.tran ++ [(n, command)] }

def ztwormhole (n : Nat) (rec : Str) (s : State St) : Option (State St) :=
  within m (lit "set $ztwormhole=" ++ pieceFrom rec backslash 10) n s

def ztrig (n : Nat) (rec : Str) (s : State St) : Option (State St) :=
  within m (lit "ztrigger " ++ pieceFrom rec backslash 11) n s

def lgtrig (n : Nat) (rec : Str) (s : State St) : Option (State St) :=
  within m (lit "if '$ztrigger(\"item\"," ++ pieceFrom rec backslash 10 ++
    lit ") use $principal write \"TEST-E-ASSERT : $ztrigger failed. See ^errmsg global\",! do umhalt")
    n s

def commit (s : State St) : Option (State St) :=
  if m.checkzqgblmod then none
  else some { s with
    st := s.tran.foldl (fun st c => e.xecute c.2 st) s.st
    applied := s.applied ++ s.tran.map Prod.fst
    tran := [] }

def clearZtwormhole (s : State St) : State St :=
  { s with st := e.xecute (lit "set $ztwormhole=\"\"") s.st }

def start (s : State St) : State St := { s with tpFence := s.tpFence + 1 }

def finish (s : State St) : Option (State St) :=
  let s := { s with tpFence := s.tpFence - 1 }
  if s.tpFence = 0 then commit e m s else some s

/-- The body of the loop, for a record read as line `n`; `none` is a halt. -/
def record (s : State St) (l : Nat × Str) : Option (State St) :=
  let n := l.1
  let line := l.2
  let recType := toNat (piece line backslash 1)
  if recType = 5 then some (setRec e m n line s)
  else if recType = 4 then some (killRec e m n line s)
  else if recType = 10 then some (zkillRec e m n line s)
  else if recType = 11 then ztwormhole m n line s
  else if recType = 12 then ztrig m n line s
  else if recType = 13 then lgtrig m n line s
  else if recType = 6 then some (clearZtwormhole e (start s))
  else if recType = 7 then (finish e m s).map (clearZtwormhole e)
  else if recType = 8 then some (start s)
  else if recType = 9 then finish e m s
  else some s

/-- The routine on an extract whose first line is its header. -/
def umjrnl (header : Str) (recs : List Str) (st : St) : Option (State St) :=
  if lit "YDBJEX08" <:+: header then
    (recs.zipIdx 1).foldlM (fun s l => record e m s l.swap) ⟨st, 0, [], false, []⟩
  else none

def dump (s : State St) : List Str :=
  if s.tpFence ≠ 0 ∧ s.tran ≠ [] then s.tran.map Prod.snd else []

end YdbTest.UmJrnl
