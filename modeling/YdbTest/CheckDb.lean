import YdbTest.Imptp

namespace YdbTest.CheckDb

open MString Globals Imptp

/-- What `checkdb` is told: `gtm_test_crash`, and `skipreg` of `^%imptp`. -/
structure Check where
  crash : Nat
  skipreg : Nat

def expect (db : Db) (n : Node) (expected : Str) : List Node :=
  if get db n = expected then [] else [n]

def expectNoData (db : Db) (n : Node) : List Node :=
  if TreeStore.hasData db n then [n] else []

variable (c : Cfg) (db : Db) (it : Iter)

/-- The nodes Stage 1 sets, with `valALT` where the source has it. -/
def firstTp : List (Node × Str) :=
  [((.arandom, [fid c, subsMAX c it]), val c it),
    ((.brandomv, [fid c, subsMAX c it]), valALT c it),
    ((.crandomva, [fid c, subsMAX c it]), valALT c it),
    ((.drandomvariable, [fid c, subs c it]), valALT c it),
    ((.erandomvariableimptp, [fid c, subs c it]), valALT c it),
    ((.frandomvariableinimptp, [fid c, subs c it]), valALT c it),
    ((.grandomvariableinimptpfill, [fid c, subs c it]), val c it),
    ((.hrandomvariableinimptpfilling, [fid c, subs c it]), val c it),
    ((.irandomvariableinimptpfillprgrm, [fid c, subs c it]), val c it)]

def ntpKept : List (Node × Str) :=
  [((.entp, [fid c, subs c it]), val c it),
    ((.fntp, [fid c, subs c it]), val c it),
    ((.gntp, [fid c, subsMAX c it]), valMAX c it),
    ((.hntp, [fid c, subsMAX c it]), valMAX c it),
    ((.intp, [fid c, subsMAX c it]), valMAX c it)]

def ntpGone : List Node :=
  [(.antp, [fid c, subs c it]), (.bntp, [fid c, subs c it]), (.cntp, [fid c, subs c it]),
    (.dntp, [fid c, subs c it])]

def families : List Gbl := .arandom :: randoms

def unskipped (skipreg : Nat) (g : Gbl) : Bool :=
  skipreg < 1 || !(g == .hrandomvariableinimptpfilling || g == .hntp)

/-- `set $piece(v,"|",targetpiece)=$tr($piece(v,"|",targetpiece)," ","X")` -/
def marked (v : Str) : Str :=
  setPiece v bar (targetpiece c it) (translate (piece v bar (targetpiece c it)) space 88)

/-- The routine `compiter`: what a completed iteration has to have left. -/
def compiter : List Node :=
  (firstTp c it).flatMap (fun e => expect db e.1 e.2) ++
  expect db (.jrandomvariableinimptpfillprogram, [fid c, I it]) [] ++
  expect db (.jrandomvariableinimptpfillprogram, [fid c, I it, I it]) [] ++
  expect db (.jrandomvariableinimptpfillprogram, [fid c, I it, I it, subs c it]) (val c it) ++
  (List.range' 1 c.jobcnt).flatMap (fun J => families.flatMap (fun g =>
    expect db (g, [fid c, subs c it, dec J]) (if J = 1 then [] else valj c it J))) ++
  (ntpGone c it).flatMap (expectNoData db) ++
  (ntpKept c it).flatMap (fun e => expect db e.1 e.2) ++
  expect db (.aspan, [fid c, I it]) (marked c it (valPIECE c it)) ++
  expect db (.bspan, [fid c, I it]) (translateOut (marked c it (valPIECE c it)) space) ++
  (if piece (get db (.espan, [fid c, I it])) bar (targetpiece c it) =
      piece (marked c it (valPIECE c it)) bar (targetpiece c it)
    then [] else [(.espan, [fid c, I it])])

/-- `stage(10,"espan")`, which stays undefined where the target piece is none. -/
def stage10espan : Option Str :=
  if targetpiece c it = 0 then none
  else some (setPiece [] bar (targetpiece c it)
    (translate (piece (valPIECE c it) bar (targetpiece c it)) space 88))

/-- The span checks of `crash`, in order. Reading the undefined
`stage(10,"espan")` ends in the error trap, which passes nothing. -/
def spansAccepted : Bool :=
  let aspan := get db (.aspan, [fid c, I it])
  let bspan := get db (.bspan, [fid c, I it])
  let espan := get db (.espan, [fid c, I it])
  let stage7 := valPIECE c it
  let stage7bspan := translateOut (valPIECE c it) space
  let stage10 := marked c it (valPIECE c it)
  let stage10bspan := translateOut stage10 space
  if aspan = [] ∧ espan = [] ∧ bspan = [] then true
  else if aspan = stage7 ∧ aspan = espan ∧ stage7bspan = bspan then true
  else if aspan = stage7 ∧ espan = [] ∧ bspan = [] then true
  else if aspan = stage7 ∧ aspan = espan ∧ bspan = [] then true
  else if aspan = stage7 ∧ espan = [] ∧ stage7bspan = bspan then true
  else if aspan = stage7 then false
  else if stage10espan c it = none then false
  else if aspan = stage10 ∧ some espan = stage10espan c it ∧ bspan = stage10bspan then true
  else if aspan = stage10 ∧ espan = [] ∧ stage7bspan = bspan then true
  else if aspan = stage10 ∧ some espan = stage10espan c it ∧ stage7bspan = bspan then true
  else false

/-- `$data(^andxarr(fid,jobno,loop))` -/
def complete : Bool :=
  TreeStore.hasData db (.andxarr, [fid c, dec it.jobno, dec it.loop])

def jmax : Str :=
  if complete c db it then dec c.jobcnt else zprevious db (.arandom, [fid c, subs c it])

/-- The routine `crash`, for one iteration: what it may have left when cut short. -/
def crashiter (skipreg : Nat) : List Node :=
  let done := complete c db it
  ((firstTp c it).filter (fun e => unskipped skipreg e.1.1)).flatMap
    (fun e => expect db e.1 e.2) ++
  expect db (.jrandomvariableinimptpfillprogram, [fid c, I it, I it, subs c it]) (val c it) ++
  (if done then
    expect db (.jrandomvariableinimptpfillprogram, [fid c, I it]) [] ++
    expect db (.jrandomvariableinimptpfillprogram, [fid c, I it, I it]) []
  else
    ((randoms.filter (unskipped skipreg)).flatMap (fun g =>
      if zprevious db (g, [fid c, subs c it]) = jmax c db it then []
      else [(g, [fid c, subs c it])]))) ++
  (List.range' 1 (toNat (jmax c db it))).flatMap (fun J =>
    (families.filter (unskipped skipreg)).flatMap (fun g =>
      expect db (g, [fid c, subs c it, dec J])
        (if J = 1 ∧ (done ∨ !TreeStore.hasData db (.arandom, [fid c, subs c it, dec 1])) then []
          else valj c it J))) ++
  (if done then (ntpGone c it).flatMap (expectNoData db) else []) ++
  (if done ∨ toNat (jmax c db it) ≠ 0 then
    ((ntpKept c it).filter (fun e => unskipped skipreg e.1.1)).flatMap
      (fun e => expect db e.1 e.2) else []) ++
  (if done ∨ spansAccepted c db it then [] else [(.aspan, [fid c, I it])])

/-- `$get(^lasti(fid,jobno))` -/
def lasti (jobno : Nat) : Nat := toNat (get db (.lasti, [fid c, dec jobno]))

/-- The loops of `nocrash`, `crash` and `crashztp` over all jobs, which give up
on a job once there are more than ten errors. -/
def walk (lasti : Nat → Nat) (body : Iter → List Node) : List Node :=
  IndexWalk.checkLoop c.jobcnt lasti (fun fl => 10 < fl.length)
    (fun jobno loop i fl => fl ++ body ⟨jobno, loop, i⟩) []

def nocrash : List Node := walk c (lasti c db) (compiter c db)

def crash (skipreg : Nat) : List Node := walk c (lasti c db) (fun it => crashiter c db it skipreg)

/-- Under ZTP the last loop of a job is left out, and what is fenced is checked
only where all of it arrived. -/
def crashztp : List Node :=
  walk c (fun jobno => lasti c db jobno - 1) (fun it =>
    if (Gbl.andxarr :: ndxarrs).all
        (fun g => TreeStore.hasData db (g, [fid c, dec it.jobno, dec it.loop]))
      then compiter c db it else [])

/-- The sum of `^lasti` over the jobs. -/
def cntloop : Nat := ForLoop.forLoop 1 c.jobcnt (fun J n => n + lasti c db J) 0

/-- All that `checkdb` finds wrong, unless it halts for settings it cannot check. -/
def checkdb (k : Check) : Option (List Node) :=
  if c.jobcnt = 0 ∨ c.gtcm = 1 ∧ k.crash = 1 ∨ k.crash = 0 ∧ k.skipreg ≠ 0 then none
  else some
    ((if k.crash = 0 ∨ c.istp = 0 then nocrash c db
      else if c.istp = 2 then crashztp c db else crash c db k.skipreg) ++
    (if k.crash = 0 then expect db (.cntloop, [fid c]) (dec (cntloop c db)) else []))

end YdbTest.CheckDb
