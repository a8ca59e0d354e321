import YdbTest.Delimiter
import YdbTest.MString
import Std.Data.ExtTreeMap.Lemmas
import Std.Data.ExtHashMap.Lemmas

namespace YdbTest.TriggerLoad

open MString Delimiter

instance equivBEq_key : EquivBEq (Str × Str) := inferInstance

instance lawfulHashable_key : LawfulHashable (Str × Str) := inferInstance

/-- The nodes under `hasht(gvn,xecute,index)`. -/
structure Trig where
  cmds : Finset Str
  options : Finset Str
  delim : Option Str
  pieces : Option Str
  deriving DecidableEq

def Trig.none : Trig := ⟨∅, ∅, Option.none, Option.none⟩

/-- `hasht(gvn,xecute)`: the triggers under their indices, and under `(delim,pieces)` the index of
the trigger that has them. A file of `TrigLine`s has `-delim=` and `-xecute=` in front of these
subscripts, so no index and no name with a # is the same as one of them. -/
structure Table where
  index : Std.ExtTreeMap Nat Trig
  sets : Std.ExtHashMap (Str × Str) Nat

namespace Table

def none : Table := ⟨∅, ∅⟩

def hasData (e : Table) : Bool := !(e.index.isEmpty && e.sets.isEmpty)

/-- `+$order(hasht(gvn,xecute,""))`: numbers come before strings, and these have the value 0. -/
def first (e : Table) : Nat := e.index.minKey?.getD 0

def trig (e : Table) (i : Nat) : Trig := (e.index[i]?).getD Trig.none

def put (e : Table) (i : Nat) (t : Trig) : Table :=
  { e with index := if t = Trig.none then e.index.erase i else e.index.insert i t }

/-- `+$get(hasht(gvn,xecute,delim,pieces))` -/
def setOf (e : Table) (delim pieces : Str) : Nat := (e.sets[(delim, pieces)]?).getD 0

end Table

/-- `hasht(gvn)`, with the nodes `"#SEQNUM"` and `"#TNCOUNT"`. -/
structure Gvn where
  seqnum : Option Nat
  tncount : Option Int
  xecute : Str → Table

def Gvn.none : Gvn := ⟨Option.none, Option.none, fun _ => Table.none⟩

/-- One entry of the trigger file, taken apart. -/
structure Line where
  add : Bool
  gvn : Str
  setspecified : Bool
  cmds : Finset Str
  delim : Str
  pieces : Str
  xecute : Str
  options : Finset Str

def S : Str := lit "S"

/-- The subscripts that `set x($piece(s,",",j))=""` leaves for all `j`. -/
def commaList (s : Str) : Finset Str := (s.splitOn 44).toFinset

/-- The second piece of `s` behind `d`. -/
def behind (s d : Str) : Str := (split d s).getD 1 []

def pieceTo (s : Str) (d m n : Nat) : Str := [d].intercalate (((s.splitOn d).take n).drop (m - 1))

def parse (line : Str) : Line :=
  let gvn := piece line space 1
  let cmds := commaList (behind (piece line space 2) (lit "-commands="))
  let (pieces, delim, pnum) :=
    if piece (piece line space 3) 61 1 = lit "-pieces" then
      (piece line space 3, piece line space 4, 4)
    else ([], [], 2)
  let xecute := pieceTo line space (pnum + 1) (pnum + 2)
  let options := behind (piece line space (pnum + 3)) (lit "-options=")
  { add := gvn.take 1 = lit "+"
    gvn := (gvn.take 99).drop 2
    setspecified := S ∈ cmds
    cmds := cmds.erase S
    delim := delim
    pieces := pieces
    xecute := xecute
    options := if options = [] then ∅ else commaList options }

def Line.killspecified (l : Line) : Bool := l.cmds.Nonempty

inductive Part
  | SET | nonSET | both
  deriving DecidableEq

/-- The messages that are written for a line, with the number of the trigger. -/
inductive Msg
  | added (p : Part) (index : Nat)
  | modified (p : Part) (index : Nat)
  | deleted (p : Part) (index : Nat)
  | alreadyPresent (p : Part) (index : Nat)
  | notPresent (p : Part) (index : Nat)
  | doesNotExist (p : Part)
  deriving DecidableEq

structure Report where
  line : Nat
  gvn : Str
  msg : Msg

structure State where
  hasht : Str → Gvn
  added : Nat
  deleted : Nat
  modified : Nat
  upddb : Nat
  noupddb : Nat
  cycle : Str → Nat
  out : List Report

def initial : State := ⟨fun _ => Gvn.none, 0, 0, 0, 0, 0, fun _ => 0, []⟩

/-- `computediff(x,y,common,uniq1,uniq2)` for arrays whose nodes are all empty strings. -/
structure Diff where
  common : Finset Str
  uniq1 : Finset Str
  uniq2 : Finset Str

def computediff (x y : Finset Str) : Diff := ⟨x ∩ y, x \ y, y \ x⟩

/-- Both ends of `computediff` are asked for. -/
def differ (x y : Finset Str) : Bool :=
  (computediff x y).uniq2.Nonempty || (computediff x y).uniq1.Nonempty

def hashtdecrement (g : Gvn) : Gvn :=
  if g.tncount.getD 0 - 1 = 0 then Gvn.none else { g with tncount := some (g.tncount.getD 0 - 1) }

/-- `$select((setspecified&killspecified):"SET and/or Non-SET",setspecified:"SET",1:"Non-SET")` -/
def Line.str (l : Line) : Part :=
  if l.setspecified && l.killspecified then .both else if l.setspecified then .SET else .nonSET

namespace State

variable (σ : State)

def table (l : Line) : Table := (σ.hasht l.gvn).xecute l.xecute

def setGvn (l : Line) (g : Gvn) : State := { σ with hasht := Function.update σ.hasht l.gvn g }

def setTable (l : Line) (e : Table) : State :=
  σ.setGvn l { σ.hasht l.gvn with xecute := Function.update (σ.hasht l.gvn).xecute l.xecute e }

/-- `$incr(hasht(gvn,"#SEQNUM"))` and `$incr(hasht(gvn,"#TNCOUNT"))` -/
def incr (l : Line) : State :=
  σ.setGvn l { σ.hasht l.gvn with
    seqnum := some ((σ.hasht l.gvn).seqnum.getD 0 + 1)
    tncount := some ((σ.hasht l.gvn).tncount.getD 0 + 1) }

def decr (l : Line) : State := σ.setGvn l (hashtdecrement (σ.hasht l.gvn))

def write (i : Nat) (l : Line) (msg : Msg) : State :=
  let σ := { σ with out := σ.out ++ [⟨i, l.gvn, msg⟩] }
  match msg with
  | .added _ _ => { σ with added := σ.added + 1 }
  | .modified _ _ => { σ with modified := σ.modified + 1 }
  | .deleted _ _ => { σ with deleted := σ.deleted + 1 }
  | _ => σ

end State

/-- The state after a line with `setmod` and `killmod`. -/
structure Result where
  state : State
  setmod : Bool
  killmod : Bool

def addNew (i : Nat) (l : Line) (σ : State) : Result :=
  let σ := σ.incr l
  let killindex := (σ.hasht l.gvn).seqnum.getD 0
  let e := σ.table l
  let t := { e.trig killindex with
    options := (e.trig killindex).options ∪ l.options
    cmds := (e.trig killindex).cmds ∪ l.cmds }
  if l.setspecified then
    let e := { e with sets := e.sets.insert (l.delim, l.pieces) killindex }
    let t := { t with cmds := insert S t.cmds, delim := some l.delim, pieces := some l.pieces }
    let σ := σ.setTable l (e.put killindex t)
    if l.killspecified then ⟨σ.write i l (.added .both killindex), true, true⟩
    else ⟨σ.write i l (.added .SET killindex), true, false⟩
  else
    ⟨(σ.setTable l (e.put killindex t)).write i l (.added .nonSET killindex), false, true⟩

def addKill (i : Nat) (l : Line) (σ : State) : Result :=
  let e := σ.table l
  let killindex := e.first
  let t := e.trig killindex
  let killmod := decide (computediff t.cmds l.cmds).uniq2.Nonempty || differ t.options l.options
  let σ := σ.setTable l (e.put killindex { t with options := l.options, cmds := t.cmds ∪ l.cmds })
  if killmod then ⟨σ.write i l (.modified .nonSET killindex), false, killmod⟩
  else ⟨σ.write i l (.alreadyPresent .nonSET killindex), false, killmod⟩

def addSeparate (i : Nat) (l : Line) (killindex setindex : Nat) (setexists setmod killmod : Bool)
    (σ : State) : State :=
  let σ :=
    if killmod then σ.write i l (.modified .nonSET killindex)
    else if l.killspecified then σ.write i l (.alreadyPresent .nonSET killindex)
    else σ
  if !setexists then σ.write i l (.added .SET setindex)
  else if setmod then σ.write i l (.modified .SET setindex)
  else σ.write i l (.alreadyPresent .SET setindex)

def addSame (i : Nat) (l : Line) (setindex : Nat) (setmod killmod : Bool) (σ : State) : State :=
  if !l.killspecified then
    if setmod then σ.write i l (.modified .SET setindex)
    else σ.write i l (.alreadyPresent .SET setindex)
  else if setmod || killmod then σ.write i l (.modified l.str setindex)
  else σ.write i l (.alreadyPresent l.str setindex)

/-- `set hasht(gvn,xecute,delim,pieces)=setindex` for a SET trigger that does not exist. -/
def withSet (l : Line) (setindex : Nat) (setexists : Bool) (e : Table) : Table :=
  if setexists then e else { e with sets := e.sets.insert (l.delim, l.pieces) setindex }

/-- `merge hasht(gvn,xecute,i,"cmds")=cmds` -/
def mergeCmds (l : Line) (i : Nat) (e : Table) : Table :=
  e.put i { e.trig i with cmds := (e.trig i).cmds ∪ l.cmds }

/-- The options, the command `S`, the delim and the pieces of the SET trigger. -/
def setPart (l : Line) (i : Nat) (e : Table) : Table :=
  e.put i { e.trig i with
    options := l.options
    cmds := insert S (e.trig i).cmds
    delim := some l.delim
    pieces := some l.pieces }

/-- The trigger exists, and the SET goes under `setindex`. -/
def addSetAt (i : Nat) (l : Line) (killindex setindex : Nat) (setexists : Bool) (σ : State) :
    Result :=
  let e := withSet l setindex setexists (σ.table l)
  let t := e.trig killindex
  let killmod := decide (computediff t.cmds l.cmds).uniq2.Nonempty ||
    (decide (setindex = killindex) && differ t.options l.options)
  let setmod := (decide (killindex = setindex) && killmod) || !setexists
  let e := mergeCmds l killindex e
  let setmod := setmod || (setexists && differ (e.trig setindex).options l.options)
  let σ := σ.setTable l (setPart l setindex e)
  if killindex ≠ setindex then
    ⟨addSeparate i l killindex setindex setexists setmod killmod σ, setmod, killmod⟩
  else ⟨addSame i l setindex setmod killmod σ, setmod, killmod⟩

/-- Where a SET belongs: to the trigger with this delim and these pieces, else to the first one if
that has no SET, else to none (0). -/
def setindexOf (l : Line) (e : Table) : Nat :=
  let setexists := decide (e.setOf l.delim l.pieces ≠ 0)
  if !setexists && (e.trig e.first).delim = none then e.first else e.setOf l.delim l.pieces

def addSet (i : Nat) (l : Line) (σ : State) : Result :=
  let e := σ.table l
  let setexists := decide (e.setOf l.delim l.pieces ≠ 0)
  let setindex := setindexOf l e
  if setindex = 0 then
    let σ := σ.incr l
    addSetAt i l e.first ((σ.hasht l.gvn).seqnum.getD 0) setexists σ
  else addSetAt i l e.first setindex setexists σ

def deleteKill (i : Nat) (l : Line) (killindex : Nat) (σ : State) : State × Bool :=
  let e := σ.table l
  let t := e.trig killindex
  let common := (computediff t.cmds l.cmds).common
  if common.Nonempty then
    let t := { t with cmds := t.cmds \ common }
    if t.cmds.Nonempty then
      ((σ.setTable l (e.put killindex t)).write i l (.modified .nonSET killindex), true)
    else
      (((σ.setTable l (e.put killindex Trig.none)).decr l).write i l (.deleted .nonSET killindex),
        true)
  else if !l.setspecified || l.killspecified then
    (σ.write i l (.notPresent .nonSET killindex), false)
  else (σ, false)

/-- `kill hasht(gvn,xecute,delim,pieces)` -/
def killSet (l : Line) (σ : State) : State :=
  σ.setTable l { σ.table l with sets := (σ.table l).sets.erase (l.delim, l.pieces) }

/-- The SET trigger is deleted on its own. `none` stands for `zshow "*" halt`. -/
def deleteSet (i : Nat) (l : Line) (setindex : Nat) (σ : State) : Option State :=
  let e := σ.table l
  let t := e.trig setindex
  let common := (computediff t.cmds {S}).common
  if ¬ common.Nonempty then none
  else if (t.cmds \ common).Nonempty then none
  else
    let σ := (σ.setTable l (e.put setindex Trig.none)).decr l
    some ((killSet l σ).write i l (.deleted .SET setindex))

def deleteSame (i : Nat) (l : Line) (killindex : Nat) (setexists : Bool) (σ : State) : Result :=
  let e := σ.table l
  let t := e.trig killindex
  let common := (computediff t.cmds (insert S l.cmds)).common
  if common.Nonempty then
    let t := { t with cmds := t.cmds \ common }
    if t.cmds.Nonempty then
      let σ := σ.write i l (.modified l.str killindex)
      let σ := σ.setTable l (e.put killindex { t with pieces := none, delim := none })
      ⟨killSet l σ, false, true⟩
    else
      let σ := (σ.setTable l (e.put killindex Trig.none)).decr l
      ⟨(killSet l σ).write i l (.deleted l.str killindex), false, true⟩
  else if setexists then ⟨σ.write i l (.modified .SET killindex), true, false⟩
  else
    ⟨σ.write i l (.notPresent (if l.killspecified then .both else .SET) killindex), false, false⟩

def add (i : Nat) (l : Line) (σ : State) : Result :=
  if (σ.table l).hasData then if l.setspecified then addSet i l σ else addKill i l σ
  else addNew i l σ

def delete (i : Nat) (l : Line) (σ : State) : Option Result :=
  let e := σ.table l
  if e.hasData then
    let killindex := e.first
    if l.setspecified then
      let setexists := decide (e.setOf l.delim l.pieces ≠ 0)
      let setindex := setindexOf l e
      if killindex ≠ setindex then
        let (σ, killmod) := deleteKill i l killindex σ
        if !setexists then some ⟨σ.write i l (.doesNotExist .SET), false, killmod⟩
        else do
          let σ ← deleteSet i l setindex σ
          some ⟨σ, true, killmod⟩
      else some (deleteSame i l killindex setexists σ)
    else
      let (σ, killmod) := deleteKill i l killindex σ
      some ⟨σ, false, killmod⟩
  else some ⟨σ.write i l (.doesNotExist l.str), false, false⟩

def count (l : Line) (r : Result) : State :=
  let σ := r.state
  if r.setmod || r.killmod then
    { σ with
      upddb := σ.upddb + 1
      cycle := Function.update σ.cycle l.gvn (σ.cycle l.gvn + 1) }
  else { σ with noupddb := σ.noupddb + 1 }

/-- One round of the loop of `gentrigload`, for line `i`. -/
def step (σ : State) (i : Nat) (line : Str) : Option State :=
  let l := parse line
  if l.add then some (count l (add i l σ)) else (delete i l σ).map (count l)

/-- The loop over the lines from number `i` on. -/
def loop : Nat → List Str → State → Option State
  | _, [], σ => some σ
  | i, line :: lines, σ => do
    let σ ← step σ i line
    loop (i + 1) lines σ

def gentrigload (linein : List Str) : Option State := loop 1 linein initial

/-- A line as `randomtriggers` writes it: the global without its caret, the commands, what follows
`-pieces=` and `-delim=`, the two words of the xecute string, and the options. -/
structure TrigLine where
  add : Bool
  gbl : Str
  cmds : List Str
  piecedelim : Option (Str × Str)
  xecute : Str × Str
  options : List Str
  gbl_word : space ∉ gbl ∧ gbl.length ≤ 31
  cmds_ne : cmds ≠ []
  cmds_words : ∀ c ∈ cmds, space ∉ c ∧ 44 ∉ c ∧ 45 ∉ c ∧ c ≠ []
  piecedelim_words : ∀ q ∈ piecedelim, space ∉ q.1 ∧ space ∉ q.2
  xecute_words : space ∉ xecute.1 ∧ space ∉ xecute.2
  options_words : ∀ o ∈ options, space ∉ o ∧ 44 ∉ o ∧ 45 ∉ o ∧ o ≠ []

def TrigLine.pickpiecedelim (t : TrigLine) : Str :=
  match t.piecedelim with
  | none => []
  | some (pieces, delim) => lit " -pieces=" ++ pieces ++ (lit " -delim=" ++ delim)

def TrigLine.pickoptions (t : TrigLine) : Str :=
  if t.options = [] then [] else lit " -options=" ++ [44].intercalate t.options

def TrigLine.text (t : TrigLine) : Str :=
  (if t.add then lit "+" else lit "-") ++ (lit "^" ++ t.gbl) ++ lit " -commands=" ++
    ([44].intercalate t.cmds ++ t.pickpiecedelim) ++ lit " -xecute=" ++
    (t.xecute.1 ++ space :: t.xecute.2) ++ t.pickoptions

end YdbTest.TriggerLoad
