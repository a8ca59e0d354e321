import YdbTest.Imptp

namespace YdbTest.Triggers

open MString Globals Command Imptp

inductive Event
  | set
  | kill
  | zkill
  | ztrigger
  deriving DecidableEq

/-- A change of a node that may fire triggers, with its value before and after. -/
structure Change where
  event : Event
  node : Node
  ztoldval : Str
  ztval : Str

/-- What the code of a trigger sees: the subscripts of the node, its values and
the special variables. -/
structure Context where
  subs : List Str
  ztval : Str
  ztoldval : Str
  ztworm : Str
  ztupdate : List Nat

def Context.sub (x : Context) (i : Nat) : Str := x.subs.getD i []

/-- A trigger definition; a subscript without a value is a `:`. -/
structure Trigger where
  gbl : Gbl
  subs : List (Option Str)
  commands : Event
  zdelim : Bool
  xecute : Context → List Cmd

def matchSubs : List (Option Str) → List Str → Bool
  | [], [] => true
  | p :: ps, s :: ss => (p == none || p == some s) && matchSubs ps ss
  | _, _ => false

/-- `$ZTUPDATE`, the pieces in which the two values differ. -/
def ztupdate (old new : Str) : List Nat :=
  (List.range' 1 (max (pieces old bar) (pieces new bar))).filter
    (fun i => piece old bar i != piece new bar i)

def Change.context (ch : Change) (proc : Proc) : Context :=
  ⟨ch.node.2, ch.ztval, ch.ztoldval, proc.ztwormhole, ztupdate ch.ztoldval ch.ztval⟩

def Trigger.fires (t : Trigger) (ch : Change) : Bool :=
  t.commands == ch.event && t.gbl == ch.node.1 && matchSubs t.subs ch.node.2 &&
    (!t.zdelim || ztupdate ch.ztoldval ch.ztval != [])

def change (s : St) : Cmd → Option Change
  | .set n v => some ⟨.set, n, get s.db n, v.eval s⟩
  | .incr n k => some ⟨.set, n, get s.db n, increment k (TreeStore.get s.db n)⟩
  | .setPiece n i v =>
    if i = 0 then none
    else some ⟨.set, n, get s.db n, MString.setPiece (get s.db n) bar i (v.eval s)⟩
  | .kill n => if TreeStore.hasData s.db n then some ⟨.kill, n, get s.db n, []⟩ else none
  | .zkill n =>
    if (TreeStore.get s.db n).isSome then some ⟨.zkill, n, get s.db n, []⟩ else none
  | .ztrigger n => some ⟨.ztrigger, n, [], []⟩
  | _ => none

/-- The code a command fires, one trigger after the other in their order in `ts`. -/
def fired (ts : List Trigger) (s : St) (cmd : Cmd) : List Cmd :=
  match change s cmd with
  | none => []
  | some ch => (ts.filter (·.fires ch)).flatMap (fun t => t.xecute (ch.context s.proc))

/-- One command with the triggers `ts` installed, down to `depth` levels of
triggers fired by triggers. -/
def exec (ts : List Trigger) : Nat → St → Cmd → St
  | 0, s, cmd => cmd.exec s
  | depth + 1, s, cmd => (fired ts s cmd).foldl (exec ts depth) (cmd.exec s)

def maxtrignest : Nat := 127

def run (ts : List Trigger) (cs : List Cmd) (s : St) : St := cs.foldl (exec ts maxtrignest) s

def two : List (Option Str) := [none, none]

def three : List (Option Str) := [none, none, none]

def first : List (Option Str) := [none, none, some (dec 1)]

def onSet (g : Gbl) (subs : List (Option Str)) (xecute : Context → List Cmd) : Trigger :=
  ⟨g, subs, .set, false, xecute⟩

def onKill (g : Gbl) (subs : List (Option Str)) (xecute : Context → List Cmd) : Trigger :=
  ⟨g, subs, .kill, false, xecute⟩

def onZkill (g : Gbl) (subs : List (Option Str)) (xecute : Context → List Cmd) : Trigger :=
  ⟨g, subs, .zkill, false, xecute⟩

/-- `set $piece(v,ztdelim,update)=$piece(from,ztdelim,update)` over `$ZTUPDATE` -/
def setPieces (updates : List Nat) (source v : Str) : Str :=
  updates.foldl (fun v i => MString.setPiece v bar i (piece source bar i)) v

def imptptrg : List Trigger :=
  [onSet .arandom three (fun x =>
      [set (.brandomv, x.subs) x.ztval, set (.hrandomvariableinimptpfilling, x.subs) x.ztval]),
    onKill .arandom first (fun x =>
      [.kill (.brandomv, x.subs), .kill (.irandomvariableinimptpfillprgrm, x.subs)]),
    onSet .brandomv two (fun x => [set (.crandomva, x.subs) x.ztval]),
    onSet .brandomv three (fun x =>
      [set (.crandomva, x.subs) x.ztval, set (.grandomvariableinimptpfill, x.subs) x.ztval]),
    onKill .brandomv first (fun x =>
      [.kill (.crandomva, x.subs), .kill (.frandomvariableinimptp, x.subs),
        .kill (.grandomvariableinimptpfill, x.subs)]),
    onSet .crandomva three (fun x =>
      [set (.drandomvariable, x.subs) x.ztval, set (.frandomvariableinimptp, x.subs) x.ztval]),
    onKill .crandomva first (fun x => [.kill (.drandomvariable, x.subs)]),
    onSet .drandomvariable two (fun x =>
      [set (.erandomvariableimptp, x.subs) x.ztval, set (.frandomvariableinimptp, x.subs) x.ztval]),
    onSet .drandomvariable three (fun x => [set (.erandomvariableimptp, x.subs) x.ztval]),
    onKill .drandomvariable first (fun x => [.kill (.erandomvariableimptp, x.subs)]),
    onSet .grandomvariableinimptpfill two (fun x =>
      [set (.hrandomvariableinimptpfilling, x.subs) x.ztval]),
    onKill .grandomvariableinimptpfill first (fun x =>
      [.kill (.hrandomvariableinimptpfilling, x.subs)]),
    onSet .hrandomvariableinimptpfilling two (fun x =>
      [set (.irandomvariableinimptpfillprgrm, x.subs) x.ztval]),
    onSet .hrandomvariableinimptpfilling three (fun x =>
      [set (.irandomvariableinimptpfillprgrm, x.subs) x.ztval]),
    onSet .jrandomvariableinimptpfillprogram two (fun x =>
      [set (.jrandomvariableinimptpfillprogram, [x.sub 0, x.sub 1, x.sub 1]) x.ztval]),
    onSet .jrandomvariableinimptpfillprogram three (fun x =>
      [set (.jrandomvariableinimptpfillprogram, [x.sub 0, x.sub 1, x.sub 2, x.ztworm]) x.ztval]),
    onZkill .jrandomvariableinimptpfillprogram two (fun x =>
      [.zkill (.jrandomvariableinimptpfillprogram, [x.sub 0, x.sub 1, x.sub 1])]),
    onSet .antp two (fun x => [set (.bntp, [x.sub 0, x.ztworm]) x.ztval]),
    onKill .antp two (fun x => [.kill (.bntp, x.subs)]),
    onSet .bntp two (fun x => [set (.cntp, [x.sub 0, x.ztworm]) x.ztval]),
    onKill .bntp two (fun x =>
      [.zkill (.brandomv, [x.sub 0, x.sub 1, dec 1]), .zkill (.cntp, x.subs)]),
    onSet .cntp two (fun x => [set (.dntp, [x.sub 0, x.ztworm]) (lit "somejunk")]),
    onZkill .cntp two (fun x => [.zkill (.dntp, x.subs)]),
    onSet .entp two (fun x => [set (.fntp, x.subs) (x.ztval ++ lit "suffix")]),
    onSet .gntp two (fun x => [set (.hntp, x.subs) x.ztval, set (.intp, x.subs) x.ztval]),
    onSet .gntp two (fun x => [set (.bntp, x.subs) x.ztval]),
    onSet .andxarr three (fun x =>
      if x.ztoldval = x.ztval then []
      else [set (.bndxarr, x.subs) x.ztval, set (.cndxarr, x.subs) x.ztval,
        set (.endxarr, x.subs) x.ztval, set (.indxarr, x.subs) x.ztval]),
    onSet .cndxarr three (fun x => [set (.dndxarr, x.subs) x.ztval]),
    onSet .endxarr three (fun x => [set (.fndxarr, x.subs) x.ztval, set (.hndxarr, x.subs) x.ztval]),
    onSet .fndxarr three (fun x => [set (.gndxarr, x.subs) x.ztval]),
    ⟨.aspan, two, .set, true, fun x =>
      [.set (.espan, x.subs) (.node (.espan, x.subs) (setPieces x.ztupdate x.ztval))]⟩,
    ⟨.espan, two, .set, true, fun x =>
      [.set (.bspan, x.subs)
        (.node (.bspan, x.subs) (setPieces x.ztupdate (translateOut x.ztval space)))]⟩]

def imptpztrtrg : List Trigger :=
  [⟨.lasti, three, .ztrigger, false, fun x => [set (.lasti, [x.sub 0, x.sub 1]) (x.sub 2)]⟩,
    ⟨.andxarr, three, .ztrigger, false, fun x => [set (.andxarr, x.subs) x.ztworm]⟩]

/-- What is installed when a run finds `^%imptp(fillid,"trigger")` as it is in `c`. -/
def installed (c : Cfg) : List Trigger :=
  if c.trigger = 0 then [] else imptptrg ++ if ztr c then imptpztrtrg else []

def Installed (c : Cfg) (ts : List Trigger) : Prop := ts.Perm (installed c)

end YdbTest.Triggers
