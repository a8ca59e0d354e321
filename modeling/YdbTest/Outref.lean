import YdbTest.OutrefFlags

namespace YdbTest.Outref

open Awk Marks OutrefFlags

/-- What outref.awk has from its environment and from the log. The texts it puts for the flags of a line
are left open, and so is what a regular expression matches. -/
structure Setting where
  platform : Platform
  envir : List Text
  replace_flags : Text → Text
  /-- A line of a GT.CM chunk with the flags of the host of that number. -/
  chunk_line : ℕ → Text → Text
  /-- The flags of GT.CM elsewhere, by the `dat_no` that an earlier line left. -/
  region_flags : ℕ → Text → Text × ℕ
  no_gtcm_hosts : ℕ
  /-- `tst_remote_dir_gtcm_total` is not 0. -/
  gtcm : Bool
  /-- `text ~ pattern`. -/
  regexp : Text → Text → Bool
  excluded_subtests : Text
  out_file : ℕ → Text

/-- How a line of the reference file was dealt with. -/
inductive Kind where
  | directive
  | suspended
  | chunk
  | matched
  | suppressed
  | copied
  deriving DecidableEq

/-- A line, what it was dealt with under, and how many lines had been printed by then. -/
structure Event where
  line : Text
  deny : Text
  dat_no : ℕ
  kind : Kind
  nr_outref : ℕ
  printed : ℕ
  deriving DecidableEq

structure State where
  deny : Text
  dat_no : ℕ
  nr_outref : ℕ
  printed : List Text
  events : List Event
  deriving DecidableEq

def GT_CM : Text := "##GT.CM##".toList

def TEST_AWK : Text := "##TEST_AWK".toList

def TEST_AWK_NOT : Text := "##TEST_AWK_NOT".toList

/-- `t ~ /p/` for a pattern of simple signs. -/
def found (p t : Text) : Bool := t.tails.any (hit sign p)

def referenceError : List Text :=
  ["!!!!!!!!!!!!!!!!!!!!!!!!!!!!!!!!!!!!!!!!!!!!!!!!!!!!!!!!!!!!!!!!!!!!!!!!!!!!!!!!!!!",
    "OUTREF-E-REFERENCE reference file has GT.CM output, but test was not run with GT.CM",
    "Cannot go on creating cmp file. Either run test with -gtcm, or correct reference file",
    "!!!!!!!!!!!!!!!!!!!!!!!!!!!!!!!!!!!!!!!!!!!!!!!!!!!!!!!!!!!!!!!!!!!!!!!!!!!!!!!!!!!"].map String.toList

/-- A GT.CM chunk: its lines, the lines read after the first one, and `$0` behind it. -/
structure Chunk where
  lines : List Text
  read : List Text
  eof : Bool
  cur : Text
  rest : List Text

section Rules

variable (E : Setting)

/-- The `do` loop where `getline` finds no more lines and leaves `$0` as it is. -/
def chunkAtEof : ℕ → List Text → List Text → Text → Option Chunk
  | 0, _, _, _ => none
  | n + 1, lines, read, cur =>
    let text := gensub GT_CM [] cur
    if found GT_CM (E.replace_flags text) then
      chunkAtEof n (lines ++ [text]) read (E.replace_flags text)
    else some ⟨lines ++ [text], read, true, E.replace_flags text, []⟩

/-- The `do` loop over the lines of a GT.CM chunk. -/
def getChunk (lines read : List Text) (cur : Text) : List Text → Option Chunk
  | [] => chunkAtEof E (cur.length + 1) lines read cur
  | line :: rest =>
    let lines := lines ++ [gensub GT_CM [] cur]
    if found GT_CM (E.replace_flags line) then
      getChunk lines (read ++ [line]) (E.replace_flags line) rest
    else some ⟨lines, read ++ [line], false, E.replace_flags line, rest⟩

def excluded (text : Text) : Bool :=
  let field := fields text
  field.getD 0 [] = "PASS".toList ∧ field.getD 1 [] = "from".toList ∧
    E.regexp E.excluded_subtests ("\\<".toList ++ field.getD 2 [] ++ "\\>".toList)

def kind (text : Text) : Kind :=
  if found TEST_AWK text then .matched else if excluded E text then .suppressed else .copied

/-- What is printed for `$0` with line `nr_outref` of the log. -/
def output (nr_outref : ℕ) (text : Text) : List Text :=
  let out := E.out_file nr_outref
  let message := fun (s pattern : Text) => s ++ pattern ++ "## VS ##".toList ++ out ++ "##".toList
  if found TEST_AWK_NOT text then
    let pattern := '^' :: gensub TEST_AWK_NOT [] text ++ ['$']
    if E.regexp out pattern then [message "##UNEXPECTED MATCH##".toList pattern] else [out]
  else if found TEST_AWK text then
    let pattern := '^' :: gensub TEST_AWK [] text ++ ['$']
    if !E.regexp out pattern then [message "##DIFFERENT EXPRESSION##".toList pattern] else [out]
  else if excluded E text then [] else [text]

/-- The end of the rule, for `$0` behind a chunk of `n` lines; `line` is the line of the file that it
was, if it has not been printed with the chunk. -/
def finish (s : State) (line : Option Text) (cur : Text) (n : ℕ) : State :=
  let text := (E.region_flags s.dat_no cur).1
  { s with
    dat_no := (E.region_flags s.dat_no cur).2
    nr_outref := s.nr_outref + 1 + n * E.no_gtcm_hosts
    printed := s.printed ++ output E s.nr_outref text
    events := s.events ++ line.toList.map fun line =>
      ⟨line, s.deny, s.dat_no, kind E text, s.nr_outref, s.printed.length⟩ }

def printChunk (s : State) (line : Text) (c : Chunk) : State :=
  { s with
    printed := s.printed ++
      (List.range E.no_gtcm_hosts).flatMap (fun h => c.lines.map (E.chunk_line (h + 1)))
    events := s.events ++
      (line :: if c.eof then c.read else c.read.dropLast).map fun line =>
        ⟨line, s.deny, s.dat_no, .chunk, s.nr_outref, s.printed.length⟩ }

def isSuspended (deny : Text) : Bool := E.envir.any (fun v => index deny (elem v) ≠ 0)

/-- A line of the reference file, with the lines that are left after it. -/
def step (s : State) (line : Text) (rest : List Text) : Option (State × List Text) :=
  let event := fun kind => Event.mk line s.deny s.dat_no kind s.nr_outref s.printed.length
  if Marked ALLOW_OUTPUT line ∨ Marked SUSPEND_OUTPUT line then
    some ({ s with
      deny := denyAfter E.platform s.deny line
      events := s.events ++ [event .directive] }, rest)
  else if isSuspended E s.deny then some ({ s with events := s.events ++ [event .suspended] }, rest)
  else if found GT_CM (E.replace_flags line) then
    if E.gtcm then
      (getChunk E [] [] (E.replace_flags line) rest).map fun c =>
        (finish E (printChunk E s line c) (if c.eof then none else c.read.getLast?) c.cur c.lines.length,
          c.rest)
    else some ({ s with printed := s.printed ++ referenceError }, [])
  else some (finish E s (some line) (E.replace_flags line) 0, rest)

def start : State := ⟨[], 0, 0, [], []⟩

def run : ℕ → State → List Text → Option State
  | _, s, [] => some s
  | 0, _, _ :: _ => none
  | n + 1, s, line :: rest => (step E s line rest).bind fun p => run n p.1 p.2

end Rules

end YdbTest.Outref
