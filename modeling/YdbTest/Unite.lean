import Mathlib.Algebra.Ring.Nat
import Mathlib.Data.List.Dedup
import Mathlib.Logic.Function.Basic
import YdbTest.OutrefFlags
import YdbTest.Printf

namespace YdbTest.Unite

open Awk OutrefFlags Printf

local instance lawfulBEq_text : LawfulBEq Text := inferInstance

/-- The runs brought together, each with its line of submitted_tests and its log. -/
structure Runs (ι : Type*) where
  /-- The files, in the order in which awk goes through `fname`. -/
  runs : List ι
  nodup : runs.Nodup
  /-- The tests of the files, in the order in which it goes through `write_this`. -/
  tests : List ι
  perm : tests.Perm runs
  options_line : ι → List Text
  split : ∀ x, [] ∉ options_line x
  log : ι → List Text
  /-- The subscripts of the arrays on options, in the order in which awk goes through them. -/
  keys : List Text
  keys_nodup : keys.Nodup
  mem_keys : ∀ w, w ∈ keys ↔ ∃ x ∈ runs, ∃ o ∈ options_line x, w = o ∨ w = process o

structure State (ι : Type*) where
  /-- The next line of each file, counted from 0. -/
  cur : ι → ℕ
  exist_file : List ι
  /-- A chunk waits for `print_next_chunk`. -/
  result_dif : Bool
  all_fil : List Text
  number_of_times : ℕ
  /-- The lines that `print` makes of each entry; one not set yet is an empty line. -/
  the_string : ℕ → List Text
  current : Text → Bool
  printed : List Text

section Model

variable {ι ν : Type*} [DecidableEq ι] [DecidableEq ν]

-- `number` is what awk reads a text as that looks like a number
variable (number : Text → Option ν)

/-- `==` on lines and fields: of numbers where both look like one. -/
def same (a b : Text) : Bool :=
  match number a, number b with
  | some x, some y => x = y
  | _, _ => a = b

variable (R : Runs ι)

/-- The files of `fname_backup`: one without a line is never seen. -/
def Runs.files : List ι := R.runs.filter (fun x => R.log x ≠ [])

def Runs.line (x : ι) (n : ℕ) : Text := (R.log x).getD n []

/-- The files that `check_end` has not deleted. -/
def Runs.fname (s : State ι) : List ι := R.files.filter (fun x => s.cur x < (R.log x).length)

def find_line (s : State ι) (this vs : ι) : Option ℕ :=
  (((R.log vs).drop (s.cur vs)).findIdx? (same number (R.line this (s.cur this)))).map (s.cur vs + ·)

def together (s : State ι) (this : ι) : Bool :=
  let no_files := (R.fname s).length
  let others := (R.fname s).filter (· ≠ this)
  let here := others.countP (fun vs => find_line number R s this vs = some (s.cur vs))
  let unmatched := others.countP (fun vs => find_line number R s this vs = none)
  here = no_files - 1 - unmatched ∨ unmatched = no_files - 1

/-- The files whose next line is that of `this`: those marked in `write_this`. -/
def written (s : State ι) (this : ι) : List ι :=
  (R.fname s).filter (fun x => same number (R.line x (s.cur x)) (R.line this (s.cur this)))

def valid_new (new_options : List ι) (w : Text) : Bool :=
  new_options.any (fun x => (R.options_line x).any (fun o => process o = w))

/-- False is the return value `BAD`. -/
def check_if_all_files_covered (new_options : List ι) : Bool :=
  R.files.all (fun x =>
    if x ∈ new_options then (R.options_line x).any (valid_new R new_options)
    else (R.options_line x).any (fun w => !valid_new R new_options w))

def suspend_line (ws : List Text) : Text := SUSPEND_OUTPUT ++ ' ' :: ws.flatMap (' ' :: ·)

def deny_string (current valid : Text → Bool) : List Text :=
  R.keys.filter (fun w => current w && !valid w)

def allow_string (current valid : Text → Bool) : List Text :=
  R.keys.filter (fun w => valid w && !current w)

def valid_new_multi (x : ι) (w : Text) : Bool :=
  w ∈ R.options_line x && !same number w ['0']

/-- One round of `func_many_literals`. -/
def literal (s : State ι) (fx : ι) : State ι :=
  let valid := valid_new_multi number R fx
  let deny := deny_string R s.current valid
  let allow := allow_string R s.current valid
  let n := s.number_of_times + 1
  -- with nothing to suspend, what the entry was before is kept
  let string := if deny ≠ [] then [suspend_line deny] else s.the_string n
  { s with
    current := valid
    number_of_times := n
    the_string := Function.update s.the_string n
      (if allow ≠ [] then string ++ [ALLOW_OUTPUT ++ allow.flatMap (' ' :: ·)] else string) }

/-- `for (fx in write_this)` -/
def Runs.marked (new_options : List ι) : List ι := R.tests.filter (· ∈ new_options)

def func_many_literals (s : State ι) (new_options : List ι) : State ι :=
  (R.marked new_options).foldl (literal number R) { s with number_of_times := 0 }

def print_options_dif (s : State ι) (new_options : List ι) : State ι :=
  if check_if_all_files_covered R new_options then
    let valid := valid_new R new_options
    let deny := deny_string R s.current valid
    let allow := allow_string R s.current valid
    { s with
      result_dif := false
      current := valid
      printed := s.printed ++ ((if deny ≠ [] then [suspend_line deny] else []) ++
        (if allow ≠ [] then [ALLOW_OUTPUT ++ ' ' :: allow.flatMap (' ' :: ·)] else [])) }
  else { func_many_literals number R s new_options with result_dif := true, all_fil := [] }

/-- The chunk `text` once for each entry of `the_string`. -/
def chunk (s : State ι) (text : List Text) : List Text :=
  (List.range s.number_of_times).flatMap (fun x => s.the_string (x + 1) ++ text)

def print_next_chunk (s : State ι) : Option (State ι) :=
  if s.result_dif then
    (s.all_fil.mapM printf).map fun text =>
      { s with result_dif := false, printed := s.printed ++ chunk s text }
  else some s

def print_options (s : State ι) (this : ι) : Option (State ι) :=
  let cur_line := R.line this (s.cur this)
  let exist_file := written number R s this
  let next :=
    if exist_file ≠ s.exist_file then
      (print_next_chunk s).map (fun s => print_options_dif number R s exist_file)
    else some s
  next.map fun s =>
    { s with
      exist_file := exist_file
      cur := fun x => if x ∈ exist_file then s.cur x + 1 else s.cur x
      all_fil := if s.result_dif then s.all_fil ++ [cur_line] else s.all_fil
      printed := if s.result_dif then s.printed else s.printed ++ [cur_line] }

/-- The loop over `fname` inside `while (no_files)`. -/
def step (s : State ι) : Option (State ι) :=
  match (R.fname s).find? (together number R s) with
  | some this => print_options number R s this
  | none =>
    match (R.fname s).getLast? with
    | none => some s
    | some this =>
      (print_options number R s this).map fun s' =>
        { s' with
          cur := fun vs =>
            if vs ∈ R.fname s ∧ find_line number R s this vs = some (s'.cur vs) then s'.cur vs + 1
            else s'.cur vs }

def start : State ι where
  cur := fun _ => 0
  exist_file := R.files
  result_dif := false
  all_fil := []
  number_of_times := 0
  the_string := fun _ => [[]]
  current := valid_new R R.files
  printed := []

def merge : ℕ → State ι → Option (State ι)
  | 0, s => if R.fname s = [] then some s else none
  | n + 1, s => if R.fname s = [] then some s else (step number R s).bind (merge n)

end Model

end YdbTest.Unite
