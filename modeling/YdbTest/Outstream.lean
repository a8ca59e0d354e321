import YdbTest.Gsub
import YdbTest.RegexpSyntax

namespace YdbTest.Outstream

open Regexp RegexpSyntax

abbrev Text := List Char

/-- `sub(re,repl)`, or `gsub(re,repl)` for all matches. -/
structure Sub where
  all : Bool
  re : Text
  repl : Text

/-- Substitutions that are made if the line matches one of the guards, or always where there are
none. A line that is changed by them may be marked. -/
structure Block where
  guards : List Text
  subs : List Sub
  mark : Bool

def FILTERED : Text := "##FILTERED##".toList

def contains (re l : Text) : Bool := ((parse re).bind (find l)).isSome

/-- An expression that cannot be read has no matches here; the program ends with an error there, and
`Setup` has none. -/
def Sub.run (s : Sub) (l : Text) : Text × Nat :=
  match parse s.re with
  | none => (l, 0)
  | some r => (replace s.all r s.repl l, matched s.all r l)

def runSubs : List Sub → Text → Text × Nat
  | [], l => (l, 0)
  | s :: ss, l => ((runSubs ss (s.run l).1).1, (s.run l).2 + (runSubs ss (s.run l).1).2)

def Block.applies (b : Block) (l : Text) : Bool :=
  b.guards.isEmpty || b.guards.any fun re => contains re l

def marked (n : Nat) (l : Text) : Text := if n = 0 then l else FILTERED ++ l

def Block.run (b : Block) (l : Text) : Text :=
  if b.applies l then
    if b.mark then marked (runSubs b.subs l).2 (runSubs b.subs l).1 else (runSubs b.subs l).1
  else l

def gsubOf (re repl : String) : Sub := ⟨true, re.toList, repl.toList⟩

def subOf (re repl : String) : Sub := ⟨false, re.toList, repl.toList⟩

def gsub (re repl : String) : Block := ⟨[], [gsubOf re repl], false⟩

def sub (re repl : String) : Block := ⟨[], [subOf re repl], false⟩

def when (guards : List String) (subs : List Sub) : Block :=
  ⟨guards.map String.toList, subs, false⟩

def markedWhen (guard : String) (subs : List Sub) : Block := ⟨[guard.toList], subs, true⟩

def ignored : Text := "CEE5213S The signal SIGPIPE was received.".toList

def rename : Block :=
  markedWhen
    (r"^.YDB-I-FILERENAME, File .*[\/a-z0-9_]*\..* is renamed to " ++
      r".*[\/a-z0-9_]*\..*_[0-9][0-9]*(_[0-9][0-9]*|[0-9])$")
    [gsubOf r"mjl_[0-9][0-9_]*(_[0-9][0-9]*|[0-9]*)" "mjl_##TIMESTAMP##",
      gsubOf r"mjf_[0-9][0-9_]*(_[0-9][0-9]*|[0-9]*)" "mjf_##TIMESTAMP##",
      gsubOf r"repl_[0-9][0-9_]*(_[0-9][0-9]*|[0-9]*)" "repl_##TIMESTAMP##",
      gsubOf r"lost_[0-9][0-9_]*(_[0-9][0-9]*|[0-9]*)" "lost_##TIMESTAMP##",
      gsubOf r"broken_[0-9][0-9_]*(_[0-9][0-9]*|[0-9]*)" "broken_##TIMESTAMP##"]

def mujnlstat (text time : String) : Block :=
  gsub ("^.YDB-I-MUJNLSTAT, " ++ text ++ " at " ++ time ++ "$")
    ("##FILTERED##%YDB-I-MUJNLSTAT, " ++ text ++ " at " ++ time)

def extracts : List Block :=
  [gsub
      r"^[0-9 ]*-[A-Z][A-Z][A-Z]-[1-9][0-9][0-9][0-9]  [0-9][0-9]:[0-9][0-9]:[0-9][0-9]"
      "##FILTERED##..-...-....  ..:..:..",
    gsub "GDS BINARY EXTRACT LEVEL [0-9][0-9]*"
      "##FILTERED##GDS BINARY EXTRACT LEVEL ...................................",
    mujnlstat "Backward processing started" "... ... .. ..:..:.. 20..",
    mujnlstat "Before image applying started" "... ... .. ..:..:.. 20..",
    mujnlstat "End processing" "... ... .. ..:..:.. 20..",
    mujnlstat "Forward processing started" "... ... .. ..:..:.. 20..",
    mujnlstat "Initial processing started" "... ... .. ..:..:.. 20..",
    mujnlstat "Lookback processing started" "... ... .. ..:..:.. ....",
    gsub
      ("^.YDB-I-MUJNLSTAT, FETCHRESYNC processing started at [A-Z][a-z][a-z] [A-Z][a-z][a-z] " ++
        "[ 0-9][0-9] [0-9][0-9]:[0-9][0-9]:[0-9][0-9] 20[0-9][0-9]$")
      "##FILTERED##%YDB-I-MUJNLSTAT, FETCHRESYNC processing started at... ... .. ..:..:.. 20..",
    gsub
      ("^.YDB-I-IPCNOTDEL, ... ... .. ..:..:.. 20.. : " ++
        "Mupip journal process did not delete IPC resources for region [A-Z]+$")
      ("##FILTERED##%YDB-I-IPCNOTDEL, ... ... .. ..:..:.. 20.. : " ++
        "Mupip journal process did not delete IPC resources for region XREG"),
    markedWhen "SHOW output for journal file"
      [gsubOf r"mjl_[0-9][0-9_]*(_[0-9][0-9]*|[0-9]*)" "mjl_##TIMESTAMP##"]]

def poolId (pool : String) : Block :=
  gsub (pool ++ r" Id                          *[0-9][0-9]* \[0x[0-9A-F][0-9A-F]*\]")
    ("##FILTERED##" ++ pool ++ " Id             .......... [0x........]")

def instances : List Block :=
  [poolId "Journal Pool Sem", poolId "Journal Pool Shm", poolId "Receive Pool Sem",
    poolId "Receive Pool Shm",
    when
      ["HDR Instance File Created Nodename", "HDR LMS Group Created Nodename",
        "HDR STRM [ 0-9][0-9]: Group Created Nodename",
        "HST #     [ 0-9][0-9] : LMS Group Created Nodename"]
      [gsubOf r"\.[a-z0-9\.]*$" "", gsubOf "name [ ]*" "name          ",
        gsubOf "$" "##FILTERED##"]]

def timed (strexpr strrepl : String) : Block :=
  gsub
    ("^[A-Z][a-z][a-z] [A-Z][a-z][a-z] [ 0-9][0-9] " ++
      "[0-9][0-9]:[0-9][0-9]:[0-9][0-9] 20[0-9][0-9] : " ++ strexpr)
    ("##FILTERED##... ... .. ..:..:.. 20.. : " ++ strrepl)

def timedText (str : String) : Block := timed str str

def operation (name : String) : Block :=
  timed ("Initiating " ++ name ++ " operation on source server pid .[0-9][0-9]*. ")
    ("Initiating " ++ name ++ " operation on source server pid [##PID##] ")

def replication : List Block :=
  [timedText "Initiating START of source server for secondary instance",
    timed "Initiating ACTIVATE operation on source server pid .[0-9][0-9]*."
      "Initiating ACTIVATE operation on source server pid [##PID##]",
    timed "Initiating DEACTIVATE operation on source server pid .[0-9][0-9]*."
      "Initiating DEACTIVATE operation on source server pid [##PID##]",
    timedText "Not deleting jnlpool ipcs.",
    operation "STATSLOG", operation "CHANGELOG", operation "SHUTDOWN",
    timedText "Initiating shut down",
    operation "NEEDRESTART",
    timed "Initiating NEEDRESTART operation for secondary instance .[A-Z0-9][A-Z0-9]*."
      "Initiating NEEDRESTART operation for secondary instance [##INSTANCE##]",
    operation "SHOWBACKLOG", operation "CHECKHEALTH", operation "STOPSOURCEFILTER",
    operation "LOSTTNCOMPLETE",
    timed "Initiating LOSTTNCOMPLETE operation on instance .[A-Z0-9][A-Z0-9]*."
      "Initiating LOSTTNCOMPLETE operation on instance [##INSTANCE##]",
    timedText "Forcing immediate shutdown",
    timedText "Source server startup failed. See source server log file",
    timedText "Journal pool shared memory removed",
    timedText "Journal pool semaphore removed",
    timedText "Receive pool shared memory removed",
    timedText "Receive pool semaphore removed",
    timed "Waiting for upto .[0-9]*. seconds for the source server to shutdown"
      "Waiting for upto XXX seconds for the source server to shutdown",
    timedText "Shutting down with a backlog due to timeout",
    timedText "Shutting down with zero backlog",
    timedText "%YDB-E-"]

def alive (process : String) : Block :=
  gsub ("PID [0-9][0-9]* " ++ process ++ " is alive")
    ("PID ##FILTERED##[##PID##] " ++ process ++ " is alive")

def stamped (front back : String) : Block :=
  gsub (front ++ "[_0-9]*" ++ back) ("##FILTERED##" ++ front ++ "##TIMESTAMP##" ++ back)

def processes : List Block :=
  [when ["SRCSRVEXISTS, Source server for secondary instance .* is already running with pid"]
      [gsubOf "pid [0-9][0-9]*" "pid ##FILTERED##"],
    alive "Source server", alive "Receiver server", alive "Update process",
    stamped "START_" ".out", stamped "SRC_" ".log", stamped "SRC_activated_" ".log",
    stamped "RCVR_" ".log", stamped "RCVR_" ".log.updproc", stamped "SHUT_" ".out",
    gsub "all logs related to timestamp [_0-9]*" "all logs related to ##FILTERED## ##TIMESTAMP##",
    stamped "passive_" ".log", stamped "ACTIVATE_" ".out", stamped "backlog_" ".out"]

def remote (front : String) : Sub :=
  subOf (front ++ ".*instance") (front ++ "##FILTERED##_REMOTE_TEST_PATH_/instance")

def paths : List Block :=
  [when ["instance[0-9]"]
      [remote "Files Created in ",
        remote "Starting Passive Source Server and Receiver Server in ",
        remote "Starting Primary Source Server in ",
        remote "Shutting down Passive Source Server and Receiver Server in ",
        remote "Shutting down Primary Source Server Server in ",
        subOf r"File .*instance[0-9]\/mumps.repl is renamed to .*instance[0-9]\/mumps.repl"
          ("File ##FILTERED##_REMOTE_TEST_PATH_INSTANCE_/mumps.repl is renamed to " ++
            "##FILTERED##_REMOTE_TEST_PATH_INSTANCE_/mumps.repl")],
    when ["Simulating crash on Instance INSTANCE[2-9]"]
      [subOf " in .*" " in ##FILTERED##_REMOTE_TEST_PATH_"],
    sub r"Lost transactions extract file .*\/instance"
      "Lost transactions extract file ##FILTERED##_REMOTE_TEST_PATH_/instance",
    when ["ORLBKSTART"] [remote "corresponding to "],
    when ["ORLBKCMPLT"] [remote "corresponding to "],
    gsub "msr_execute_[0-9][0-9]*.out" "msr_execute_##FILTERED##NO.out",
    gsub "msr_execute_[0-9][0-9]*.csh" "msr_execute_##FILTERED##NO.csh",
    gsub "written into instancefile_[0-9][0-9]*.out"
      "written into instancefile_##FILTERED##NO.out"]

def domain : List Block :=
  [when ["REPLREQRUNDOWN.*Must be rundown on cluster node"]
      [gsubOf r"\.[a-z0-9\.]*$" "", gsubOf "$" ".##FILTERED##"],
    sub "GTM_TEST_DEBUGINFO.*" "##FILTERED##GTM_TEST_DEBUGINFO.*"]

def dashes : Text := "-----------------------------------------------------------------".toList

def header : Text := "PID        NODE             USER         TERM JPV_TIME".toList

def journalTimes : List Block :=
  [gsub "Journal file label      YDBJNL45" "Journal file label      ##FILTERED##",
    gsub
      ("^ Journal Creation Time         [0-9][0-9][0-9][0-9]/[0-9][0-9]/[0-9][0-9] " ++
        "[0-9][0-9]:[0-9][0-9]:[0-9][0-9]")
      " Journal Creation Time         ..../../.. ..:..:..",
    gsub
      ("^ Time of last update           [0-9][0-9][0-9][0-9]/[0-9][0-9]/[0-9][0-9] " ++
        "[0-9][0-9]:[0-9][0-9]:[0-9][0-9]")
      " Time of last update           ..../../.. ..:..:.."]

def endOfData : Block :=
  gsub "^ End of Data[ ]*[0-9]+ .0x[0-9A-F]+."
    " End of Data                             ##FILTERED##"

def journalFields : List Block :=
  [gsub "^ Journal file checksum seed          [ ]*[0-9]+ .0x[0-9A-F]+."
      " Journal file checksum seed           ##FILTERED##",
    gsub "^ Journal file encrypted                      ( TRUE|FALSE)$"
      " Journal file encrypted               ##FILTERED##",
    gsub "^ Journal file hash         *[0-9A-F]*"
      " Journal file hash                    ##FILTERED##"]

def endiancvt : Block :=
  markedWhen
    (r"database file [a-zA-Z0-9_\.]* from [A-Z]* endian to [A-Z]* endian " ++
      "on a [A-Z]* endian system")
    [gsubOf "from [A-Z]* endian to [A-Z]* endian on a [A-Z]* endian system"
      "from ##ENDIAN## endian to ##ENDIAN## endian on a ##ENDIAN## endian system"]

def dbendian : Block :=
  markedWhen "YDB-E-DBENDIAN, Database file .* is [A-Z]* endian on a [A-Z]* endian system"
    [gsubOf "is [A-Z]* endian on a [A-Z]* endian system"
      "is ##ENDIAN## endian on a ##ENDIAN## endian system"]

def fileHeader : List Block :=
  [gsub "HDR Endian Format                                   (   BIG|LITTLE)"
      "HDR Endian Format                   ##FILTERED####ENDIAN##",
    gsub " Endian Format                              (   BIG|LITTLE)"
      " Endian Format              ##FILTERED####ENDIAN##",
    gsub
      ("^  Database file encrypted                     ( TRUE|FALSE)  " ++
        "Inst Freeze on Error                 ( TRUE|FALSE)$")
      ("  Database file encrypted              ##FILTERED##  " ++
        "Inst Freeze on Error                 ##FILTERED##"),
    gsub
      ("^  Spanning Node Absent                        ( TRUE|FALSE)  " ++
        "Maximum Key Size Assured             ( TRUE|FALSE)")
      ("  Spanning Node Absent                 ##FILTERED##  " ++
        "Maximum Key Size Assured          ##FILTERED##"),
    gsub "^  Defer allocation                            ( TRUE|FALSE)"
      "  Defer allocation                     ##FILTERED##",
    gsub "  Spin sleep time mask            0x[0-9A-F]*"
      "  Spin sleep time mask          ##FILTERED##"]

def frozen : List Text :=
  ["^.YDB-I-MUINSTFROZEN,....".toList, "^.YDB-I-MUINSTUNFROZEN,.....".toList]

def lastRules : List Block :=
  [gsub "^.YDB-I-MUINSTFROZEN, ... ... .. ..:..:.. 20.."
      "##FILTERED##YDB-I-MUINSTFROZEN, ... ... .. ..:..:.. 20..",
    gsub "^.YDB-I-MUINSTUNFROZEN, ... ... .. ..:..:.. 20.."
      "##FILTERED##YDB-I-MUINSTUNFROZEN, ... ... .. ..:..:.. 20..",
    gsub "HDR Quick database rundown is active                 ....."
      "HDR Quick database rundown is active                 .....",
    gsub r"ydbsh......\(" "ydbsh##OBJ##("]

/-- What the program is called with: the version that is passed, if any, and whether the end of the
journal data is masked, and of the environment the host, the user, whether the image is a debug or a
release one, and whether messages about a frozen instance are kept. -/
structure Env where
  priorver : Option Text
  mask_jnleod : Bool
  host : Text
  user : Text
  tst_image : Text
  keep_muinstfrozen : Bool

def toupper (s : Text) : Text := s.map Char.toUpper

/-- `0 == priorver`, as it is for a variable that is not set. -/
def Env.noVersion (e : Env) : Bool :=
  match e.priorver with
  | none => true
  | some v => !v.isEmpty && v.all (· == '0')

def Env.version (e : Env) : Text :=
  let priorver := if e.noVersion then "IMPOSSIBLEVERNAME".toList else e.priorver.getD []
  if priorver = [] then [] else priorver ++ r"\y".toList

def Env.row (e : Env) : Text :=
  "[0-9][0-9]*[ ]*(".toList ++ e.host ++ "|".toList ++ toupper e.host ++ ").*(".toList ++ e.user ++
    "|".toList ++ toupper e.user ++ ")[ ]* ..../../.. ..:..:..".toList

def Env.epochInterval (e : Env) : Text :=
  "^ Epoch Interval                                ".toList ++
    (if e.tst_image = "dbg".toList then " 30".toList
      else if e.tst_image = "pro".toList then "300".toList else [])

/-- A setting whose expressions can be read. -/
structure Setup extends Env where
  readable : ∀ re ∈ [toEnv.version, toEnv.row, toEnv.epochInterval], (parse re).isSome = true

def version (c : Setup) : List Block :=
  if c.version = [] then [] else [⟨[], [⟨true, c.version, "##FILTERED##PRIORVER##".toList⟩], false⟩]

def row (c : Setup) : Block :=
  ⟨[], [⟨true, c.row, "##FILTERED## ##PID## ##NODENAME## ##USER## ..../../.. ..:..:..".toList⟩],
    false⟩

def epochInterval (c : Setup) : Block :=
  ⟨[], [⟨true, c.epochInterval, " Epoch Interval                       ##FILTERED##".toList⟩],
    false⟩

def earlyRules (c : Setup) : List Block :=
  extracts ++ instances ++ replication ++ processes ++ paths ++ version c ++ domain

def journalRules (c : Setup) : List Block :=
  journalTimes ++ (if c.mask_jnleod then [endOfData] else []) ++ journalFields ++ [epochInterval c]

/-- The variables that are kept from line to line. -/
structure State where
  substatus : Nat
  jnl_flag1line : Nat

def start : State := ⟨0, 0⟩

def runBlocks (bs : List Block) (l : Text) : Text := bs.foldl (fun l b => b.run l) l

def renameLine (st : State) (l : Text) : Text × State :=
  if rename.applies l then
    let substatus := st.substatus + (runSubs rename.subs l).2
    (marked substatus (runSubs rename.subs l).1, { st with substatus := substatus })
  else (l, st)

def tableLine (c : Setup) (st : State) (l : Text) : Text × State :=
  let (l, st) :=
    if st.jnl_flag1line = 2 then
      let (l, substatus) := runSubs (row c).subs l
      (l, ⟨substatus, if substatus = 0 then 0 else 2⟩)
    else (l, st)
  let flag := st.jnl_flag1line
  let flag := if flag = 1 ∧ contains dashes l then flag + 1 else flag
  (l, { st with jnl_flag1line := if contains header l then flag + 1 else flag })

def endianLine (b : Block) (st : State) (l : Text) : Text × State :=
  if b.applies l then (b.run l, { st with substatus := (runSubs b.subs l).2 }) else (l, st)

def filterLine (c : Setup) (st : State) (l : Text) : Option Text × State :=
  if contains ignored l then (none, st)
  else
    let (l, st) := renameLine st l
    let l := runBlocks (earlyRules c) l
    let (l, st) := tableLine c st l
    let l := runBlocks (journalRules c) l
    let (l, st) := endianLine endiancvt st l
    let (l, st) := endianLine dbendian st l
    let l := runBlocks fileHeader l
    if frozen.any (fun re => contains re l) && !c.keep_muinstfrozen then (none, st)
    else (some (runBlocks lastRules l), st)

def after (c : Setup) (st : State) (ls : List Text) : State :=
  ls.foldl (fun st l => (filterLine c st l).2) st

def forms (c : Setup) (st : State) : List Text → List (Option Text)
  | [] => []
  | l :: ls => (filterLine c st l).1 :: forms c (filterLine c st l).2 ls

def output (c : Setup) (log : List Text) : List Text := (forms c start log).filterMap id

end YdbTest.Outstream
