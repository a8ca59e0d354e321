import YdbTest.LinkSort

namespace YdbTest.MultisiteLinks

open Awk LinkSort

/-- The name of an instance, such as `INST1`. -/
structure Inst where
  name : Text
  inst : "INST".toList <+: name
  plain : ∀ c ∈ name, c.isAlphanum = true
  deriving DecidableEq

/-- The lines of `msr_active_links.txt`, of which one may be empty. -/
abbrev File := List (Option Line)

def SRCTO : Text := "ACTIVE_LINKS_SRCTO".toList

def RCVFROM : Text := "ACTIVE_LINKS_RCVFROM".toList

/-- The lines the loops over `alllinks` see: an empty one ends them. -/
def alllinks : File → List Line
  | some l :: f => l :: alllinks f
  | _ => []

/-- `arg3` of `update_links_add` and `type` of `update_links_del`. -/
inductive Side where
  | SRC
  | RCV
  | BOTH
  deriving DecidableEq

def Side.src (s : Side) : Bool := s = .SRC || s = .BOTH

def Side.rcv (s : Side) : Bool := s = .RCV || s = .BOTH

/-- A line as `update_links_add` prints it. -/
def addLine (arg1 arg2 : Text) (arg3 : Side) (l : Line) : Line :=
  if arg3.src && l.col1 = SRCTO && arg1 = l.col2 && index l.col3 arg2 = 0 then
    { l with col3 := l.col3 ++ ',' :: arg2 }
  else l

/-- `none` is an error, after which `multisite_replic.csh` does not take the new file. -/
def update_links_add (arg1 arg2 : Text) (arg3 : Side) (alllinks : List Line) : Option File :=
  let srcto := alllinks.any fun l => l.col1 = SRCTO && arg1 = l.col2
  let rcvfrom := alllinks.any fun l => l.col1 = RCVFROM && arg2 = l.col2
  if arg3.rcv && alllinks.any fun l => l.col1 = RCVFROM && arg2 = l.col2 && arg1 ≠ l.col3 then none
  else some ((alllinks.map (addLine arg1 arg2 arg3) ++
    (if arg3.src && !srcto then [Line.mk SRCTO arg1 arg2] else []) ++
    (if arg3.rcv && !rcvfrom then [Line.mk RCVFROM arg2 arg1] else [])).map some)

/-- A line as `update_links_del` prints it, and whether it sets `null_flag`. -/
def delLine (type : Side) (arg1 arg2 : Text) (l : Line) : Option (Line × Bool) :=
  if type.rcv && l.col1 = RCVFROM && l.col2 = arg2 then none
  else if type.src && l.col1 = SRCTO && l.col2 = arg1 then
    if index l.col3 [','] = 0 ∨ arg1 = arg2 ∨ arg2 = [] then none
    else if index l.col3 arg2 = 1 then
      some ({ l with col3 := sub (arg2 ++ [',']) l.col3 }, false)
    else some ({ l with col3 := sub (',' :: arg2) l.col3 }, false)
  else some (l, true)

def update_links_del (type : Side) (arg1 arg2 : Text) (alllinks : List Line) : File :=
  let printed := alllinks.filterMap (delLine type arg1 arg2)
  printed.map (fun l => some l.1) ++ if printed.any Prod.snd then [] else [none]

/-- The parts that `str` is put together of. -/
def identify (whoami : Text) (alllinks : List Line) : List Text :=
  alllinks.filterMap fun l =>
    if l.col1 = RCVFROM ∧ l.col2 = whoami then some "RCVR@".toList
    else if l.col1 = RCVFROM ∧ l.col3 = whoami then some "SRC".toList
    else if l.col1 = SRCTO ∧ l.col2 = whoami then some "SRC@".toList
    else if l.col1 = SRCTO ∧ index l.col3 whoami ≠ 0 then some "RCVR".toList
    else none

/-- No `RCVR`, `SRC` or `@` lies over two parts. -/
def tells (output : List Text) (t : Text) : Bool := output.any fun part => index part t ≠ 0

def stop_or_crash_action (rcvd_inst : Text) (alllinks : List Line) : Option File :=
  let output := identify rcvd_inst alllinks
  if !tells output ['@'] then none
  else if tells output "RCVR".toList && tells output "SRC".toList then
    some (update_links_del .BOTH rcvd_inst rcvd_inst alllinks)
  else if tells output "RCVR".toList then
    some (update_links_del .RCV rcvd_inst rcvd_inst alllinks)
  else some (update_links_del .SRC rcvd_inst rcvd_inst alllinks)

/-- The actions that are about the links. `STOP` has three forms: of a link, of an instance and of
`ALL_LINKS`. -/
inductive Action where
  | START (a b : Inst)
  | STARTSRC (a b : Inst)
  | STARTRCV (a b : Inst)
  | ACTIVATE (a b : Inst)
  | STOP (a b : Inst)
  | STOPSRC (a b : Inst)
  | STOPRCV (a b : Inst)
  | stopInst (a : Inst)
  | stopAll

def do_multisite_action (act : Action) (alllinks : List Line) : Option File :=
  match act with
  | .START a b => update_links_add a.name b.name .BOTH alllinks
  | .STARTSRC a b => update_links_add a.name b.name .SRC alllinks
  | .STARTRCV a b => update_links_add a.name b.name .RCV alllinks
  | .ACTIVATE a b => update_links_add a.name b.name .SRC alllinks
  | .STOP a b => some (update_links_del .BOTH a.name b.name alllinks)
  | .STOPSRC a b => some (update_links_del .SRC a.name b.name alllinks)
  | .STOPRCV _ b => some (update_links_del .RCV b.name b.name alllinks)
  | .stopInst a => stop_or_crash_action a.name alllinks
  | .stopAll => some [none]

/-- The actions done since the file was made, each with `P` of the lines it found, and the file.
One that fails leaves the file as it is and is not counted. -/
inductive Run (P : Action → List Line → Prop) : List Action → File → Prop
  | touch : Run P [] []
  | action {acts : List Action} {f f' : File} {act : Action} (h : Run P acts f)
      (hact : do_multisite_action act (alllinks f) = some f') (hP : P act (alllinks f)) :
      Run P (acts ++ [act]) f'

def entries (l : Line) : List Text := l.col3.splitOn ','

def HasSrcTo (t : List Line) (x y : Text) : Prop :=
  ∃ l ∈ t, l.col1 = SRCTO ∧ l.col2 = x ∧ y ∈ entries l

instance (t : List Line) (x y : Text) : Decidable (HasSrcTo t x y) :=
  inferInstanceAs (Decidable (∃ l ∈ t, l.col1 = SRCTO ∧ l.col2 = x ∧ y ∈ entries l))

def HasRcvFrom (t : List Line) (x y : Text) : Prop :=
  ∃ l ∈ t, l.col1 = RCVFROM ∧ l.col2 = y ∧ l.col3 = x

end YdbTest.MultisiteLinks
