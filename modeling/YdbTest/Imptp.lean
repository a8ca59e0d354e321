import YdbTest.Command
import YdbTest.GenStr
import YdbTest.IndexWalk

namespace YdbTest.Imptp

open MString Globals Command GenStr

/-- The settings of a run: `^%imptp(fillid,...)` and the environment. -/
structure Cfg where
  env : Env
  fillid : Nat
  jobcnt : Nat
  istp : Nat
  crash : Nat
  gtcm : Nat
  span : Nat
  keysize : Nat
  recsize : Nat
  trigger : Nat
  top : Nat

/-- The locals `jobno`, `loop` and `I` of an iteration. -/
structure Iter where
  jobno : Nat
  loop : Nat
  I : Nat
  deriving DecidableEq

/-- What an iteration draws at random or reads of its surroundings: the
restarts of the transactions of Stages 1 and 5, and `$horolog`. -/
structure Draws where
  restart1 : Nat
  rndm1 : Nat
  hang1 : Nat
  rndm2 : Nat
  item2 : Nat
  restart5 : Nat
  rndm5 : Nat
  hang5 : Nat
  flag : Nat
  h : Str

variable (c : Cfg) (it : Iter) (d : Draws)

/-- `if top=0 set top=prime\jobcnt` -/
def top : Nat := if c.top = 0 then IndexWalk.top c.jobcnt else c.top

/-- `set ztr=(trigger#10)>1`, `set dztrig=(trigger>10)` under `if trigger` -/
def ztr : Bool := c.trigger ≠ 0 && 1 < c.trigger % 10

def dztrig : Bool := c.trigger ≠ 0 && 10 < c.trigger

def lfence : Nat :=
  if c.gtcm = 1 then 0 else if c.istp = 0 ∧ c.crash = 1 then 1 else c.istp

def subs : Str := if c.env.vms then genstr c.env it.I else ugenstr c.env it.I 0

def val : Str := if c.env.vms then genstr c.env it.loop else ugenstr c.env it.loop 0

/-- The padded sizes leave out the extra bytes of the characters; ZTP pads
records to 800 at most and keys not at all. -/
def recpad : Nat :=
  let p := c.recsize - (zlength (val c it) - length c.env.utf8 (val c it))
  if c.istp = 2 ∧ 800 < p then 800 else p

def valMAX : Str := justify c.env.utf8 (val c it) (recpad c it)

def valALT : Str := if 1 < c.span then valMAX c it else val c it

def keypad : Nat :=
  if c.istp = 2 then 1 else c.keysize - (zlength (subs c it) - length c.env.utf8 (subs c it))

def subsMAX : Str := justify c.env.utf8 (subs c it) (keypad c it)

/-- `valMAX` with a delimiter in place of every 7th character that is a space. -/
def valPIECE : Str :=
  (List.range' 1 (length c.env.utf8 (valMAX c it) / 7 + 1)).foldl
    (fun v i => if extract c.env.utf8 v (7 * i) (7 * i) = [space]
      then setExtract c.env.utf8 v (7 * i) [bar] else v)
    (valMAX c it)

def totalpieces : Nat := pieces (valPIECE c it) bar

def targetpiece : Nat := it.loop % totalpieces c it

def fid : Str := dec c.fillid

def I : Str := dec it.I

def set (n : Node) (v : Str) : Cmd := .set n (.str v)

/-- Commands under `if 'trigger`. -/
def plain (cs : List Cmd) : List Cmd := if c.trigger = 0 then cs else []

def fence (istp : Nat) : Fence := if istp = 1 then .tp else if istp = 2 then .ztp else .none

def dztrigCall (trigno : Nat) : List Cmd :=
  if dztrig c then [.call (.imptpdztrig trigno (c.istp < 2))] else []

/-- `xecute:ztr ztrcmd set ^lasti(fillid,jobno)=loop` -/
def setLasti : List Cmd :=
  (if ztr c then [Cmd.ztrigger (.lasti, [fid c, dec it.jobno, dec it.loop])] else []) ++
    [set (.lasti, [fid c, dec it.jobno]) (dec it.loop)]

def stage0 : Block :=
  ⟨.none, [.call .pauseifneeded] ++ if c.env.vms then [] else dztrigCall c 1⟩

def holdcrit (rndm restart seconds : Nat) : List Cmd :=
  (if rndm = 1 ∧ 2 < restart then [.call .noop] else []) ++
    (if rndm = 2 ∧ 2 < restart then [.call (.hang seconds)] else [])

def stage1 : Block :=
  ⟨fence c.istp,
    [set (.arandom, [fid c, subsMAX c it]) (val c it)] ++
    (if c.istp = 1 ∧ c.crash ≠ 0 then
      holdcrit d.rndm1 d.restart1 d.hang1 ++
        (if d.restart1 ≠ 0 then [set (.zdummy, [dec d.restart1]) (dec it.jobno)] else [])
      else []) ++
    [set (.brandomv, [fid c, subsMAX c it]) (valALT c it)] ++
    plain c [set (.crandomva, [fid c, subsMAX c it]) (valALT c it)] ++
    [set (.drandomvariable, [fid c, subs c it]) (valALT c it)] ++
    plain c [set (.erandomvariableimptp, [fid c, subs c it]) (valALT c it),
      set (.frandomvariableinimptp, [fid c, subs c it]) (valALT c it)] ++
    [set (.grandomvariableinimptpfill, [fid c, subs c it]) (val c it)] ++
    plain c [set (.hrandomvariableinimptpfilling, [fid c, subs c it]) (val c it),
      set (.irandomvariableinimptpfillprgrm, [fid c, subs c it]) (val c it)] ++
    (if c.trigger = 0 then [] else [.setZtwormhole (subs c it)]) ++
    [set (.jrandomvariableinimptpfillprogram, [fid c, I it]) (val c it)] ++
    plain c [set (.jrandomvariableinimptpfillprogram, [fid c, I it, I it]) (val c it),
      set (.jrandomvariableinimptpfillprogram, [fid c, I it, I it, subs c it]) (val c it)] ++
    (if c.istp ≠ 0 then setLasti c it else [])⟩

def stage2 : Block :=
  ⟨.none,
    (if d.rndm2 < 5 ∧ c.trigger ≠ 0 then [.call (.ztriggerItem d.item2)] else []) ++
    [set (.antp, [fid c, subs c it]) (val c it)] ++
    plain c [set (.bntp, [fid c, subs c it]) (val c it),
      set (.cntp, [fid c, subs c it]) (val c it)] ++
    [set (.dntp, [fid c, subs c it]) (valALT c it)]⟩

/-- `$extract(s,1,$length(s)-$length("suffix"))` -/
def dropSuffix (s : Str) : Str :=
  extract c.env.utf8 s 1 (length c.env.utf8 s - length c.env.utf8 (lit "suffix"))

def stage3 : Block :=
  ⟨fence c.istp,
    dztrigCall c 2 ++
    [set (.entp, [fid c, subs c it]) (val c it)] ++
    [if c.trigger = 0 then set (.fntp, [fid c, subs c it]) (val c it)
      else .set (.fntp, [fid c, subs c it]) (.node (.fntp, [fid c, subs c it]) (dropSuffix c))] ++
    [set (.gntp, [fid c, subsMAX c it]) (valMAX c it)] ++
    plain c [set (.hntp, [fid c, subsMAX c it]) (valMAX c it),
      set (.intp, [fid c, subsMAX c it]) (valMAX c it),
      set (.bntp, [fid c, subsMAX c it]) (valMAX c it)]⟩

def randoms : List Gbl :=
  [.brandomv, .crandomva, .drandomvariable, .erandomvariableimptp, .frandomvariableinimptp,
    .grandomvariableinimptpfill, .hrandomvariableinimptpfilling, .irandomvariableinimptpfillprgrm]

def valj (J : Nat) : Str := valALT c it ++ dec J

def stage4 (J : Nat) : Block :=
  ⟨fence c.istp,
    [set (.arandom, [fid c, subs c it, dec J]) (valj c it J)] ++
    plain c (randoms.map (fun g => set (g, [fid c, subs c it, dec J]) (valj c it J))) ++
    dztrigCall c 1⟩

def stage5 : Block :=
  ⟨fence c.istp,
    dztrigCall c 2 ++
    (if c.istp = 1 ∧ c.crash ≠ 0 then holdcrit d.rndm5 d.restart5 d.hang5 else []) ++
    [.kill (.arandom, [fid c, subs c it, dec 1])] ++
    plain c (randoms.map (fun g => .kill (g, [fid c, subs c it, dec 1]))) ++
    dztrigCall c 1 ++ dztrigCall c 2⟩

def stage6 : Block :=
  ⟨fence c.istp,
    [.zkill (.jrandomvariableinimptpfillprogram, [fid c, I it])] ++
    plain c [.zkill (.jrandomvariableinimptpfillprogram, [fid c, I it, I it])]⟩

def stage7 : Block :=
  ⟨fence c.istp,
    [set (.aspan, [fid c, I it]) (valPIECE c it)] ++
    plain c [.set (.espan, [fid c, I it]) (.node (.aspan, [fid c, I it]) id),
      .set (.bspan, [fid c, I it]) (.node (.aspan, [fid c, I it]) (translateOut · space))]⟩

def stage8 : Block :=
  ⟨.none,
    [.kill (.arandom, [fid c, subs c it, dec 1]), .kill (.antp, [fid c, subs c it])] ++
    plain c [.kill (.bntp, [fid c, subs c it]), .zkill (.brandomv, [fid c, subs c it, dec 1]),
      .zkill (.cntp, [fid c, subs c it]), .zkill (.dntp, [fid c, subs c it])] ++
    [.kill (.bntp, [fid c, subsMAX c it])] ++
    (if c.istp = 1 then [set (.dummy, [fid c]) d.h] else [])⟩

def stage9 : Block :=
  ⟨if d.flag = 1 then fence (lfence c) else .none,
    [.incr (.cntloop, [fid c]) 1, .incr (.cntseq, [fid c]) (13 + c.jobcnt)]⟩

def stage10 : Block :=
  ⟨fence c.istp,
    [.setSubpiece (.aspan, [fid c, I it])
        (fun s => translate (piece s bar (targetpiece c it)) space 88),
      .zkill (.espan, [fid c, I it]),
      .setPiece (.aspan, [fid c, I it]) (targetpiece c it) .subpiece] ++
    plain c [.setPiece (.espan, [fid c, I it]) (targetpiece c it) .subpiece,
      .setPiece (.bspan, [fid c, I it]) (targetpiece c it) .subpiece]⟩

def ndxarrs : List Gbl :=
  [.bndxarr, .cndxarr, .dndxarr, .endxarr, .fndxarr, .gndxarr, .hndxarr, .indxarr]

def stage11 : Block :=
  ⟨fence (lfence c),
    dztrigCall c 1 ++
    (if ztr c then [.setZtwormhole (I it),
      .ztrigger (.andxarr, [fid c, dec it.jobno, dec it.loop]), .setZtwormhole []] else []) ++
    [set (.andxarr, [fid c, dec it.jobno, dec it.loop]) (I it)] ++
    plain c (ndxarrs.map (fun g => set (g, [fid c, dec it.jobno, dec it.loop]) (I it))) ++
    (if c.istp = 0 then setLasti c it else [])⟩

/-- One round of the main loop of `impjob`, block by block. -/
def impjob : List Block :=
  [stage0 c, stage1 c it d, stage2 c it d, stage3 c it] ++
    (List.range' 1 c.jobcnt).map (stage4 c it) ++
    [stage5 c it d, stage6 c it, stage7 c it, stage8 c it d, stage9 c d, stage10 c it,
      stage11 c it]

end YdbTest.Imptp
