import YdbTest.MString

namespace YdbTest.DbcreateMulti

open MString

/-- The keys of `value`, those of `argmnts` first. -/
inductive Opt where
  | file_name | n_regions | key_size | record_size | block_size | allocation | global_buffer_count
  | extension_count | reserved_bytes | collation_default | null_subscripts | access_method
  | acc_meth_env | journal | test_collation | test_stats | test_stdnull_collation | test_gtcm
  | qdbrundown | freeze | defer_allocate | epoch_taper | lock_space | asyncio | move
  | filename_override | template | different_gld | gld_has_db_fullpath | jnl_prefix_text
  | jnl_suffix_text
  deriving DecidableEq

def argmnts : List Opt :=
  [.file_name, .n_regions, .key_size, .record_size, .block_size, .allocation, .global_buffer_count,
   .extension_count, .reserved_bytes, .collation_default, .null_subscripts, .access_method,
   .acc_meth_env, .journal, .test_collation, .test_stats, .test_stdnull_collation, .test_gtcm,
   .qdbrundown, .freeze, .defer_allocate, .epoch_taper, .lock_space, .asyncio]

def equals : Nat := 61

/-- The patterns `/s/`, `/^s/` and `/^s$/`. -/
inductive Pat where
  | has (s : String)
  | front (s : String)
  | whole (s : String)

def Pat.fits : Pat → Str → Bool
  | .has s, w => decide (lit s <:+: w)
  | .front s, w => (lit s).isPrefixOf w
  | .whole s, w => decide (w = lit s)

/-- What one argument sets: a value, or the next of the journal options. -/
inductive Entry where
  | value (o : Opt) (v : Str)
  | journal (v : Str)
  deriving DecidableEq

def toupper (s : Str) : Str := s.map fun c => if 97 ≤ c ∧ c ≤ 122 then c - 32 else c

/-- What is left after `gsub(/.*=/,"",tmp)`. -/
def afterLast : Str → Str
  | [] => []
  | c :: s => if equals ∈ c :: s then afterLast s else c :: s

def tmp (w : Str) : Str := if equals ∈ w then afterLast w else lit "NULL"

def tests (tmp : Str) : List (Pat × Entry) :=
  [(.has "-f", .value .file_name tmp),
   (.front "-bl", .value .block_size tmp),
   (.front "-al", .value .allocation tmp),
   (.front "-glo", .value .global_buffer_count tmp),
   (.front "-e", .value .extension_count tmp),
   (.front "-c", .value .collation_default tmp),
   (.front "-rec", .value .record_size tmp),
   (.front "-res", .value .reserved_bytes tmp),
   (.front "-k", .value .key_size tmp),
   (.front "-nom", .value .move (lit "0")),
   (.front "-nu", .value .null_subscripts tmp),
   (.whole "-n", .value .null_subscripts (lit "NOVAL")),
   (.front "-n=", .value .null_subscripts tmp),
   (.front "-nu=", .value .null_subscripts tmp),
   (.front "-acc_meth", .value .access_method (toupper tmp)),
   (.front "-acc_meth_env", .value .acc_meth_env (toupper tmp)),
   (.front "-journal", .journal (toupper tmp)),
   (.front "-n_regions", .value .n_regions tmp),
   (.front "-qdbrundown", .value .qdbrundown (lit "-qdbrundown")),
   (.front "-noqdbrundown", .value .qdbrundown (lit "-noqdbrundown")),
   (.front "-inst_freeze_on_error", .value .freeze (lit "-inst_freeze_on_error")),
   (.front "-noinst_freeze_on_error", .value .freeze (lit "-noinst_freeze_on_error")),
   (.front "-test_collation", .value .test_collation tmp),
   (.front "-name_override", .value .filename_override tmp),
   (.front "-test_gtcm", .value .test_gtcm tmp),
   (.front "-t", .value .template tmp),
   (.front "-stats", .value .test_stats (lit "-stats")),
   (.front "-nostats", .value .test_stats (lit "-nostats")),
   (.front "-stdnull", .value .test_stdnull_collation (lit "-stdnull")),
   (.front "-nostdnull", .value .test_stdnull_collation (lit "-nostdnull")),
   (.front "-different_gld", .value .different_gld (lit "1")),
   (.front "-gld_has_db_fullpath", .value .gld_has_db_fullpath (lit "1")),
   (.front "-jnl_prefix=", .value .jnl_prefix_text tmp),
   (.front "-jnl_suffix=", .value .jnl_suffix_text tmp),
   (.front "-jnl_auto", .journal (lit "autoswitchlimit=" ++ tmp)),
   (.front "-defer_allocate", .value .defer_allocate (lit "-defer_allocate")),
   (.front "-nodefer_allocate", .value .defer_allocate (lit "-nodefer_allocate")),
   (.front "-epoch_taper", .value .epoch_taper (lit "-epochtaper")),
   (.front "-noepoch_taper", .value .epoch_taper (lit "-noepochtaper")),
   (.front "-asyncio", .value .asyncio (lit "-asyncio")),
   (.front "-noasyncio", .value .asyncio (lit "-noasyncio")),
   (.front "-lock_space", .value .lock_space tmp)]

/-- The first test that `w` passes. -/
def test (w : Str) : Option Entry := ((tests (tmp w)).find? fun r => r.1.fits w).map Prod.snd

/-- What the field `w` sets at place `i`; past the end of `argmnts` no option has the place. -/
def entry (i : Nat) (w : Str) : Option Entry :=
  (test w).or ((argmnts[i - 1]?).map fun o => .value o w)

structure Opts where
  value : Opt → Str
  journals : List Str

def Opts.enter (s : Opts) : Option Entry → Opts
  | none => s
  | some (.value o v) => { s with value := Function.update s.value o v }
  | some (.journal v) => { s with journals := s.journals ++ [v] }

/-- The comparisons with environment variables in `BEGIN`. -/
structure Environ where
  qdbrundown : Bool
  freeze_on_error : Bool
  defer_allocate : Bool
  epoch_taper : Bool
  asyncio : Bool

def start (e : Environ) : Opts where
  value
    | .qdbrundown => if e.qdbrundown then lit "-qdbrundown" else []
    | .freeze => if e.freeze_on_error then lit "-inst_freeze_on_error" else []
    | .defer_allocate => if e.defer_allocate then lit "-nodefer_allocate" else []
    | .epoch_taper => if e.epoch_taper then lit "-noepochtaper" else []
    | .asyncio => if e.asyncio then lit "-asyncio" else []
    | .jnl_prefix_text => lit "***unspec***"
    | .jnl_suffix_text => lit "***unspec***"
    | .move => lit "1"
    | _ => []
  journals := []

/-- The loop over the fields from `i` on. -/
def read (s : Opts) (i : Nat) : List Str → Opts
  | [] => s
  | w :: ws => read (s.enter (entry i w)) (i + 1) ws

/-- The fields of a line written as `ws` with a blank between: an empty word is none. -/
def fields (ws : List Str) : List Str := ws.filter (· ≠ [])

def parse (e : Environ) (ws : List Str) : Opts := read (start e) 1 (fields ws)

variable {w y : Str}

theorem afterLast_append (hy : equals ∉ y) (s : Str) : afterLast (s ++ equals :: y) = y := by
  induction s with
  | nil =>
    rw [List.nil_append, afterLast, if_pos List.mem_cons_self]
    cases y with
    | nil => rfl
    | cons c y => rw [afterLast, if_neg hy]
  | cons c s ih =>
    have hmem : equals ∈ c :: (s ++ equals :: y) := by simp
    rw [List.cons_append, afterLast, if_pos hmem, ih]

theorem tmp_append (hy : equals ∉ y) (s : Str) : tmp (s ++ equals :: y) = y := by
  have hmem : equals ∈ s ++ equals :: y := by simp
  rw [tmp, if_pos hmem, afterLast_append hy]

theorem test_eq (h : ¬ lit "-f" <:+: w) :
    test w = (((tests (tmp w)).tail).find? fun r => r.1.fits w).map Prod.snd := by
  rw [test, tests, List.find?_cons_of_neg (by simpa [Pat.fits] using h)]
  rfl

theorem Opts.enter_of_ne {s : Opts} {o o' : Opt} {v : Str} (h : o' ≠ o) :
    (s.enter (some (.value o v))).value o' = s.value o' :=
  Function.update_of_ne h _ _

theorem entry_of_test {e : Entry} (h : test w = some e) (i : Nat) : entry i w = some e := by
  rw [entry, h, Option.some_or]

theorem entry_place (h : test w = none) (i : Nat) :
    entry i w = (argmnts[i - 1]?).map fun o => .value o w := by
  rw [entry, h, Option.none_or]

theorem test_plain (hw : w.head? ≠ some 45) (hf : ¬ lit "-f" <:+: w) : test w = none := by
  rw [test_eq hf]
  cases w with
  | nil => rfl
  | cons c w =>
    have hc : 45 ≠ c := fun h => hw (congrArg some h.symm)
    simp [tests, Pat.fits, lit, hc, hc.symm]

end YdbTest.DbcreateMulti
