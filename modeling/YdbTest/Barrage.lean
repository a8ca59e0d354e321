import YdbTest.Asserts
import YdbTest.MString

namespace YdbTest.Barrage

open MString Asserts Function

abbrev Dir := Str

abbrev Rtn := Str

abbrev Pid := Nat

/-- `SRCDIRS(dir,name)` -/
structure Src where
  ver : Nat
  time : Nat

/-- `OBJDIRS(dir,name)`: whether the node itself has a value, and its descendants, which stay when
the object is deleted. -/
structure Obj where
  here : Bool
  ver : Option Nat
  time : Option Nat
  srcDir : Option Dir
  cycle : Option Nat

/-- An array with the nodes of `$zroutines`: the number of object directories, their names, whether
they are starred, and the source directories of each. -/
structure Zro where
  count : Option Nat
  dir : Nat → Option Dir
  star : Nat → Option Bool
  srcs : Nat → Option Nat
  src : Nat → Nat → Option Dir

/-- `PROCS(pid,"rtns",name)`; `cycle` holds the nodes of the directories. -/
structure Link where
  star : Bool
  dir : Dir
  ver : Option Nat
  cycle : Dir → Option Nat

/-- `PROCS(pid)` -/
structure Proc where
  zro : Zro
  rtns : Rtn → Option Link

/-- A version of a routine in an object directory, compiled from a source directory. -/
structure Variant where
  ver : Nat
  dir : Dir
  srcDir : Dir
  deriving DecidableEq

inductive Fail where
  | expected (pid : Pid) (error : Str)
  | unexpected (pid : Pid) (error : Str)
  | other (pid : Pid) (error : Str)
  | text (pid : Pid) (result : Str) (name : Rtn)
  | version (pid : Pid) (name : Rtn) (ver : Option Nat) (result : Str)

/-- The tables, the variable `zroutines` of the analysis, and what it has written. In `RCTLSHM` a
variant without a value stands for empty subscripts. -/
structure Tables where
  SRCDIRS : Dir → Rtn → Option Src
  OBJDIRS : Dir → Rtn → Obj
  PROCS : Pid → Proc
  RCTLSHM : List (Rtn × Option Variant × Pid)
  PROCSRTNREFS : Pid → Rtn → Option Variant
  zroutines : Zro
  fails : List Fail

def Zro.empty : Zro := ⟨none, fun _ => none, fun _ => none, fun _ => none, fun _ _ => none⟩

def Zro.merge (a b : Zro) : Zro where
  count := b.count.orElse fun _ => a.count
  dir i := (b.dir i).orElse fun _ => a.dir i
  star i := (b.star i).orElse fun _ => a.star i
  srcs i := (b.srcs i).orElse fun _ => a.srcs i
  src i j := (b.src i j).orElse fun _ => a.src i j

/-- The array that `setZroutines` records, from its entries. -/
def Zro.ofList (l : List (Dir × Bool × List Dir)) : Zro where
  count := some l.length
  dir i := if i = 0 then none else (l[i - 1]?).map (·.1)
  star i := if i = 0 then none else (l[i - 1]?).map (·.2.1)
  srcs i := if i = 0 then none else (l[i - 1]?).map (·.2.2.length)
  src i j := if i = 0 ∨ j = 0 then none else (l[i - 1]?).bind (·.2.2[j - 1]?)

def Tables.empty : Tables where
  SRCDIRS _ _ := none
  OBJDIRS _ _ := ⟨false, none, none, none, none⟩
  PROCS _ := ⟨Zro.empty, fun _ => none⟩
  RCTLSHM := []
  PROCSRTNREFS _ _ := none
  zroutines := Zro.empty
  fails := []

namespace Tables

variable (pid : Pid) (dir : Dir) (name : Rtn)

def setObj (o : Obj) (s : Tables) : Tables :=
  { s with OBJDIRS := update s.OBJDIRS dir (update (s.OBJDIRS dir) name o) }

def setSrc (x : Option Src) (s : Tables) : Tables :=
  { s with SRCDIRS := update s.SRCDIRS dir (update (s.SRCDIRS dir) name x) }

def setProc (p : Proc) (s : Tables) : Tables := { s with PROCS := update s.PROCS pid p }

def setLink (l : Option Link) (s : Tables) : Tables :=
  s.setProc pid { s.PROCS pid with rtns := update (s.PROCS pid).rtns name l }

def fail (f : Fail) (s : Tables) : Tables := { s with fails := s.fails ++ [f] }

def indices (s : Tables) : Except Stop (List Nat) := do
  let n ← value (s.PROCS pid).zro.count
  .ok (List.range' 1 n)

end Tables

def Obj.bump (o : Obj) : Obj := { o with cycle := some (o.cycle.getD 0 + 1) }

def simulateSetZroutines (pid : Pid) (s : Tables) : Tables :=
  s.setProc pid { s.PROCS pid with
    rtns := fun name => (s.PROCS pid).rtns name |>.filter fun l => !l.star }

def clearRoutineSharedRefs (pid : Pid) (name : Rtn) (s : Tables) : Tables :=
  { s with
    RCTLSHM := s.RCTLSHM.filter fun e => e ≠ (name, s.PROCSRTNREFS pid name, pid)
    PROCSRTNREFS := update s.PROCSRTNREFS pid (update (s.PROCSRTNREFS pid) name none) }

def Tables.bumpAll (dir : Dir) (s : Tables) : Tables :=
  { s with OBJDIRS := update s.OBJDIRS dir fun rtnName =>
      if (s.OBJDIRS dir rtnName).here then (s.OBJDIRS dir rtnName).bump
      else s.OBJDIRS dir rtnName }

def simulateZrupdate (pid : Pid) (dir : Dir) (name : Rtn) (result error : Str) (s : Tables) :
    Tables :=
  let s :=
    if name = lit "*" then s.bumpAll dir
    else s.setObj dir name (s.OBJDIRS dir name).bump
  if result = lit "error" then s.fail (.unexpected pid error) else s

def load (pid : Pid) (name : Rtn) (v : Variant) (s : Tables) : Except Stop Tables :=
  if s.RCTLSHM.any fun e => e.1 = name ∧ e.2.1 = some v then .ok s
  else do
    let s := simulateZrupdate pid v.dir name (lit "success") [] s
    let cycle ← value (s.OBJDIRS v.dir name).cycle
    let l ← value ((s.PROCS pid).rtns name)
    .ok (s.setLink pid name (some { l with cycle := update l.cycle v.dir (some cycle) }))

def Tables.addRef (pid : Pid) (name : Rtn) (v : Variant) (s : Tables) : Tables :=
  { s with
    RCTLSHM := (name, some v, pid) :: s.RCTLSHM
    PROCSRTNREFS := update s.PROCSRTNREFS pid (update (s.PROCSRTNREFS pid) name (some v)) }

def simulateObjectSharing (pid : Pid) (dir srcDir : Dir) (name : Rtn) (ver : Nat) (s : Tables) :
    Except Stop Tables := do
  let s ← load pid name ⟨ver, dir, srcDir⟩ s
  .ok ((clearRoutineSharedRefs pid name s).addRef pid name ⟨ver, dir, srcDir⟩)

/-- The search for the directory in `$zroutines`: whether the last directory seen was starred,
whether it is the one, and the starred ones on the way. -/
def linkDirs (z : Zro) (dir : Dir) : List Nat → Bool → List Dir →
    Except Stop (Bool × Bool × List Dir)
  | [], starred, ds => .ok (starred, false, ds)
  | i :: is, _, ds => do
    let dirName ← value (z.dir i)
    let starred ← value (z.star i)
    let ds := if starred then ds ++ [dirName] else ds
    if dirName = dir then .ok (starred, true, ds) else linkDirs z dir is starred ds

def linkCycle (name : Rtn) (r : Tables × (Dir → Option Nat)) (dirName : Dir) :
    Tables × (Dir → Option Nat) :=
  let cycle := (r.1.OBJDIRS dirName name).cycle.getD 0
  (r.1.setObj dirName name { r.1.OBJDIRS dirName name with cycle := some cycle },
    update r.2 dirName (some cycle))

def share (pid : Pid) (dir : Dir) (name : Rtn) (ver : Nat) (starred : Bool) (s : Tables) :
    Except Stop Tables :=
  if starred then do
    let srcDir ← value (s.OBJDIRS dir name).srcDir
    simulateObjectSharing pid dir srcDir name ver s
  else .ok (clearRoutineSharedRefs pid name s)

def simulateLink (pid : Pid) (dir : Dir) (name : Rtn) (s : Tables) : Except Stop Tables := do
  let ver ← value (s.OBJDIRS dir name).ver
  let is ← s.indices pid
  let (starred, stop, ds) ← linkDirs (s.PROCS pid).zro dir is false []
  let dirsToUpdateCycle := if stop && starred then ds else []
  let (s, cycle) := dirsToUpdateCycle.foldl (linkCycle name) (s, fun _ => none)
  -- The old node is killed, and `"ver"` is set at the end.
  let s := s.setLink pid name (some ⟨stop && starred, dir, none, cycle⟩)
  let s ← share pid dir name ver (stop && starred) s
  let l ← value ((s.PROCS pid).rtns name)
  .ok (s.setLink pid name (some { l with ver := some ver }))

/-- Whether a starred directory up to the linked one has a higher cycle than the process knows. -/
def checkCycles (s : Tables) (pid : Pid) (name : Rtn) (l : Link) : List Nat → Except Stop Bool
  | [] => .ok false
  | i :: is => do
    let starred ← value ((s.PROCS pid).zro.star i)
    if starred then do
      let objDir ← value ((s.PROCS pid).zro.dir i)
      assert (l.cycle objDir).isSome
      assert (s.OBJDIRS objDir name).cycle.isSome
      let known ← value (l.cycle objDir)
      let cycle ← value (s.OBJDIRS objDir name).cycle
      assert (known ≤ cycle)
      if known < cycle then .ok true
      else if objDir = l.dir then .ok false
      else checkCycles s pid name l is
    else checkCycles s pid name l is

/-- The variables of the search in `simulateExec`. -/
structure Found where
  objDir : Option Dir
  srcDir : Option Dir
  objVersion : Nat
  srcVersion : Nat
  objTime : Nat
  srcTime : Nat

def findSource (s : Tables) (z : Zro) (name : Rtn) (i : Nat) : List Nat → Found →
    Except Stop Found
  | [], f => .ok f
  | j :: js, f => do
    let srcDir ← value (z.src i j)
    let f := { f with srcDir := some srcDir }
    match s.SRCDIRS srcDir name with
    | none => findSource s z name i js f
    | some x =>
      let f := { f with srcVersion := x.ver, srcTime := x.time }
      if f.srcVersion ≠ 0 then .ok f else findSource s z name i js f

def findHere (s : Tables) (name : Rtn) (objDir : Dir) (f : Found) : Except Stop Found :=
  if (s.OBJDIRS objDir name).here then do
    let ver ← value (s.OBJDIRS objDir name).ver
    let time ← value (s.OBJDIRS objDir name).time
    .ok { f with objVersion := ver, objTime := time }
  else .ok f

def findObject (s : Tables) (z : Zro) (name : Rtn) : List Nat → Found → Except Stop Found
  | [], f => .ok f
  | i :: is, f => do
    let objDir ← value (z.dir i)
    let n ← value (z.srcs i)
    let f ← findSource s z name i (List.range' 1 n) { f with objDir := some objDir }
    let f ← findHere s name objDir f
    if f.objVersion ≠ 0 ∨ f.srcVersion ≠ 0 then .ok f else findObject s z name is f

def recompile (time : Nat) (name : Rtn) (objDir : Dir) (f : Found) (s : Tables) :
    Except Stop Tables :=
  if f.srcTime > f.objTime then do
    let srcDir ← value f.srcDir
    .ok (s.setObj objDir name { s.OBJDIRS objDir name with
      ver := some f.srcVersion, time := some time, srcDir := some srcDir })
  else .ok s

/-- The first available version is linked, after its source has been compiled if that is newer or
there is no object; whether there is one. -/
def relink (pid : Pid) (time : Nat) (name : Rtn) (s : Tables) : Except Stop (Tables × Bool) := do
  let is ← s.indices pid
  let f ← findObject s (s.PROCS pid).zro name is ⟨none, none, 0, 0, 0, 0⟩
  if 0 < f.objVersion then do
    let objDir ← value f.objDir
    let s ← recompile time name objDir f s
    let s ← simulateLink pid objDir name s
    .ok (s, true)
  else if 0 < f.srcVersion then do
    let objDir ← value f.objDir
    let srcDir ← value f.srcDir
    let s := s.setObj objDir name { s.OBJDIRS objDir name with
      here := true, ver := some f.srcVersion, time := some time, srcDir := some srcDir }
    let s ← simulateLink pid objDir name s
    .ok (s, true)
  else .ok (s, false)

def relinkIf (needed : Bool) (pid : Pid) (time : Nat) (name : Rtn) (s : Tables) :
    Except Stop (Tables × Bool) :=
  if needed then relink pid time name s else .ok (s, true)

def compare (pid : Pid) (name : Rtn) (result error expectedError : Str) (s : Tables) : Tables :=
  if expectedError ≠ [] ∧ result ≠ lit "error" then s.fail (.expected pid expectedError)
  else if expectedError = [] ∧ result = lit "error" then s.fail (.unexpected pid error)
  else if result = lit "error" ∧ ¬ lit "ZLINK" <:+: error then s.fail (.other pid error)
  else if expectedError ≠ [] ∨ result = lit "error" then s
  else if ¬ name <:+: result then s.fail (.text pid result name)
  else
    let ver := ((s.PROCS pid).rtns name).bind (·.ver)
    if piece result space 2 ≠ (ver.map dec).getD (lit "-1") then
      s.fail (.version pid name ver (piece result space 2))
    else s

def needsLink (pid : Pid) (name : Rtn) (s : Tables) : Except Stop Bool :=
  match (s.PROCS pid).rtns name with
  | none => .ok true
  | some l =>
    if l.star then do
      let is ← s.indices pid
      checkCycles s pid name l is
    else .ok false

def simulateExec (pid : Pid) (time : Nat) (name : Rtn) (result error : Str) (s : Tables) :
    Except Stop Tables := do
  let needed ← needsLink pid name s
  let (s, found) ← relinkIf needed pid time name s
  .ok (compare pid name result error (if found then [] else lit "ZLINKFILE") s)

/-- The entries of `^LOG`; what was not done, `NOOP`, has no value. -/
inductive Action where
  | setZroutines (zroutines : List (Dir × Bool × List Dir))
  | writeSources (sources : List (Rtn × Dir × Nat))
  | deleteSources (sources : List (Option (Rtn × Dir)))
  | deleteObjects (objects : List (Option (Rtn × Dir)))
  | compile (routines : List (Option (Rtn × Dir × Dir)))
  | link (objects : List (Option (Rtn × Dir)))
  | zrupdate (objects : List (Option (Rtn × Dir × Str)))
  | execute (name : Rtn) (result error : Str)
  | makeDirs (dirs : List Dir)

structure Entry where
  time : Nat
  pid : Pid
  action : Action

/-- A failed `zrupdate` has no `"exec"` nodes, where its error is looked for. -/
def zrupdate (pid : Pid) (s : Tables) : Option (Rtn × Dir × Str) → Except Stop Tables
  | none => .ok s
  | some (name, dir, result) => do
    let error ← value (if result = lit "error" then none else some [])
    .ok (simulateZrupdate pid dir name result error s)

def compile (time : Nat) (s : Tables) : Option (Rtn × Dir × Dir) → Except Stop Tables
  | none => .ok s
  | some (name, dir, dst) => do
    let x ← value (s.SRCDIRS dir name)
    .ok (s.setObj dst name { s.OBJDIRS dst name with
      here := true, ver := some x.ver, time := some time, srcDir := some dir })

def link (pid : Pid) (s : Tables) : Option (Rtn × Dir) → Except Stop Tables
  | none => .ok s
  | some (name, dir) => simulateLink pid dir name s

def deleteSource (s : Tables) : Option (Rtn × Dir) → Tables
  | none => s
  | some (name, dir) => s.setSrc dir name none

/-- `zkill` leaves the descendants. -/
def deleteObject (s : Tables) : Option (Rtn × Dir) → Tables
  | none => s
  | some (name, dir) => s.setObj dir name { s.OBJDIRS dir name with here := false }

def writeSource (time : Nat) (s : Tables) (x : Rtn × Dir × Nat) : Tables :=
  s.setSrc x.2.1 x.1 (some ⟨x.2.2, time⟩)

def setZroutines (pid : Pid) (l : List (Dir × Bool × List Dir)) (s : Tables) : Tables :=
  let s := { s with zroutines := s.zroutines.merge (Zro.ofList l) }
  let s := simulateSetZroutines pid s
  s.setProc pid { s.PROCS pid with zro := (s.PROCS pid).zro.merge s.zroutines }

def replayEntry (s : Tables) (e : Entry) : Except Stop Tables :=
  match e.action with
  | .setZroutines l => .ok (setZroutines e.pid l s)
  | .writeSources l => .ok (l.foldl (writeSource e.time) s)
  | .deleteSources l => .ok (l.foldl deleteSource s)
  | .deleteObjects l => .ok (l.foldl deleteObject s)
  | .compile l => l.foldlM (compile e.time) s
  | .link l => l.foldlM (link e.pid) s
  | .zrupdate l => l.foldlM (zrupdate e.pid) s
  | .execute name result error =>
    simulateExec e.pid e.time name result (if result = lit "error" then error else []) s
  | .makeDirs _ => .ok s

/-- `replayAnalyzeParent`, without the replay, over the entries in the order of their times. -/
def replayAnalyzeParent (log : List Entry) : Except Stop Tables :=
  log.foldlM replayEntry Tables.empty

/-- What the children of the test have before they record an entry: the sources that they compile,
the objects that they link, and a value of `$zroutines`. -/
def Entry.Ready (s : Tables) (e : Entry) : Prop :=
  match e.action with
  | .compile l => ∀ name dir dst, some (name, dir, dst) ∈ l → (s.SRCDIRS dir name).isSome
  | .link l => (s.PROCS e.pid).zro.count.isSome ∧
    ∀ name dir, some (name, dir) ∈ l → (s.OBJDIRS dir name).here = true
  | .zrupdate l => ∀ name dir result, some (name, dir, result) ∈ l → result ≠ lit "error"
  | .execute _ _ _ => (s.PROCS e.pid).zro.count.isSome
  | _ => True

def Recordable : List Entry → Tables → Prop
  | [], _ => True
  | e :: es, s => e.Ready s ∧ ∀ s', replayEntry s e = .ok s' → Recordable es s'

end YdbTest.Barrage
