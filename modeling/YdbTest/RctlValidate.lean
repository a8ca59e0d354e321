import YdbTest.Decimal
import YdbTest.Delimiter
import YdbTest.OrderLoop
import YdbTest.TreeStore
import Mathlib.Data.List.Lex
import Mathlib.Order.Lattice
import Mathlib.Algebra.BigOperators.Group.List.Basic

namespace YdbTest.RctlValidate

open MString Delimiter TreeStore OrderWalk

inductive Var
  | results
  | expect
  | cycles
  deriving DecidableEq

abbrev Vars := Store Var Str Str

abbrev Node := TreeStore.Node Var Str

def slash : Str := lit "/"

/-- The order of subscripts that are no numbers: a directory ends in a slash, and a file in `.o`. -/
def before (a b : Str) : Bool := lower a b

/-- `$piece(line,": ",2)_"/"` -/
def directory (line : Str) : Str := (split (lit ": ") line).getD 1 [] ++ slash

/-- The name of the object file in a line on a routine. -/
def file (line : Str) : Str :=
  let name := piece line space 7 ++ lit ".o"
  if name.take 1 = lit "%" then lit "_" ++ name.drop 1 else name

/-- What `getResults` sets for the lines of `zshow "A"`; a routine in front of all directories is an
error. -/
def resultSets : Option Str → List Str → Option (List (Upd Var Str Str))
  | _, [] => some []
  | dir, line :: lines =>
    if line = [] then some []
    else if lit "Object Directory" <:+: line then
      (resultSets (some (directory line)) lines).map
        (.set (.results, [directory line]) (dec 1) :: ·)
    else if lit "rec#" <:+: line then
      dir.bind fun d => (resultSets (some d) lines).map
        ([.set (.results, [d, file line]) (dec 1),
          .set (.results, [d, file line, lit "cycle"]) (piece line space 10)] ++ ·)
    else resultSets dir lines

def getResults (dump : List Str) (v : Vars) : Option Vars :=
  (resultSets none dump).map (applyAll · v)

variable (v : Vars) (dir name : Str)

/-- `$get(cycles(dir,name),0)+$get(expect(dir,name),0)` -/
def cycle : Nat :=
  toNat ((get v (.cycles, [dir, name])).getD (dec 0)) +
    toNat ((get v (.expect, [dir, name])).getD (dec 0))

def fileUpdates : List (Upd Var Str Str) :=
  [.kill (.results, [dir, name]), .set (.cycles, [dir, name]) (dec (cycle v dir name))]

def validateFile : Option Vars :=
  if !hasData v (.expect, [dir, name]) && !hasData v (.cycles, [dir, name]) then none
  else if get v (.results, [dir, name, lit "cycle"]) ≠ some (dec (cycle v dir name)) then none
  else some (applyAll (fileUpdates v dir name) v)

def validateDir : Option Vars :=
  if !hasData v (.expect, [dir]) && !hasData v (.cycles, [dir]) then none
  else
    let v := TreeStore.set (.cycles, [dir]) (dec 1) v
    (forOrder before (fun v => subscripts v (.results, [dir]))
      (fun v name => validateFile v dir name) v.length none v).map (kill (.results, [dir]))

def fullText : Str :=
  (get v (.expect, [lit "error", lit "1"])).getD [] ++ lit ",%" ++
    (get v (.expect, [lit "error", lit "2"])).getD []

/-- The checks after the loop; `none` is for a `TEST-E-FAIL`. -/
def validateError (error : Str) : Option Vars :=
  if hasData v (.results, []) then none
  else if error ≠ [] ∧ !hasData v (.expect, [lit "error"]) then none
  else if error = [] ∧ hasData v (.expect, [lit "error"]) then none
  else if error = [] ∨ !hasData v (.expect, [lit "error"]) then some v
  else if fullText v <:+: error then some v
  else none

def validate (error : Str) : Option Vars :=
  (forOrder before (fun v => subscripts v (.results, [])) validateDir v.length none v).bind
    (validateError · error)

/-- One ZRUPDATE: what `setExpectations` finds for it (the directories that are there, the files it
updates, the two texts of an error), the relinkctl files as they are shown after it, and its own
error. -/
structure Zrupdate where
  realDirs : List Str
  updates : List (Str × Str)
  expectError : Option (Str × Str)
  dump : List Str
  error : Str

def increment (r : Option Str) : Str := dec (toNat (r.getD (dec 0)) + 1)

def expectations (z : Zrupdate) : List (Upd Var Str Str) :=
  z.realDirs.map (fun d => .set (.expect, [d ++ slash]) (dec 1)) ++
    z.updates.map (fun u => .modify (.expect, [u.1 ++ slash, u.2]) increment) ++
    z.expectError.elim [] fun e => [.set (.expect, [lit "error", lit "1"]) e.1,
      .set (.expect, [lit "error", lit "2"]) e.2]

def setExpectations (z : Zrupdate) (v : Vars) : Vars :=
  applyAll (expectations z) (kill (.expect, []) v)

def zrupdate (v : Vars) (z : Zrupdate) : Option Vars :=
  (getResults z.dump (setExpectations z v)).bind (validate · z.error)

theorem strict_before : Strict before := strict_lower

/-- The nodes under some subscripts, of all three arrays, are the same. -/
def Same (p : List Str) (v w : Vars) : Prop := ∀ n : Node, p <+: n.2 → get v n = get w n

/-- An update of nodes under some subscripts alone. -/
def Within (p : List Str) (u : Upd Var Str Str) : Prop := ∀ n : Node, u.hits n = true → p <+: n.2

variable {v dir name} {w : Vars} {p q : List Str} {n : Node} {a b : Str} {x : Var}
  {us : List (Upd Var Str Str)}

theorem Same.under (h : Same p v w) (hq : p <+: q) : Same q v w :=
  fun n hn => h n (hq.trans hn)

theorem Same.hasData (h : Same p v w) (hq : p <+: q) :
    hasData v (x, q) = hasData w (x, q) := by
  rw [Bool.eq_iff_iff, hasData_iff, hasData_iff]
  apply exists₂_congr
  intro m u
  apply and_congr_right
  intro hm
  rw [h m (hq.trans (below_iff.mp hm).2)]

theorem Same.mem_subscripts (h : Same (q ++ [a]) v w) :
    a ∈ subscripts v (x, q) ↔ a ∈ subscripts w (x, q) := by
  rw [TreeStore.mem_subscripts, TreeStore.mem_subscripts]
  apply exists₂_congr
  intro rest u
  rw [h]
  exact ⟨rest, List.append_assoc _ _ _⟩

theorem Same.cycle (h : Same [dir, name] v w) : cycle v dir name = cycle w dir name := by
  rw [RctlValidate.cycle, RctlValidate.cycle, h _ List.prefix_rfl, h _ List.prefix_rfl]

theorem within_set : Within p (.set (x, p) a) := by
  intro n hn
  rw [← of_decide_eq_true hn]

theorem within_kill : Within p (.kill (x, p)) := fun _ hn => (below_iff.mp hn).2

theorem Within.under {u : Upd Var Str Str} (h : Within q u) (hp : p <+: q) : Within p u :=
  fun n hn => hp.trans (h n hn)

theorem same_applyAll (hus : ∀ u ∈ us, Within p u) (hpq : ∀ m, q <+: m → ¬ p <+: m) :
    Same q (applyAll us v) v := by
  intro n hn
  rw [get_applyAll]
  apply look_of_not_hits
  intro u hu
  rw [← Bool.not_eq_true]
  exact fun hhit => hpq n.2 hn (hus u hu n hhit)

theorem not_prefix_of_ne (hab : a ≠ b) (hq : p ++ [a] <+: q) : ¬ p ++ [b] <+: q := by
  intro hb
  obtain ⟨s, rfl⟩ := hq
  rw [List.append_assoc, List.prefix_append_right_inj] at hb
  exact hab (List.cons_prefix_cons.mp hb).1.symm

/-- A file that is all right: it was expected now or before, and so often as its cycle says. -/
structure FileOk (v : Vars) (dir name : Str) : Prop where
  known : hasData v (.expect, [dir, name]) = true ∨ hasData v (.cycles, [dir, name]) = true
  cycle : get v (.results, [dir, name, lit "cycle"]) = some (dec (cycle v dir name))

theorem Same.fileOk (h : Same [dir, name] v w) : FileOk v dir name ↔ FileOk w dir name := by
  have hknown (x : Var) :
      TreeStore.hasData v (x, [dir, name]) = TreeStore.hasData w (x, [dir, name]) :=
    h.hasData List.prefix_rfl
  have hcycle := h (.results, [dir, name, lit "cycle"]) (List.prefix_append [dir, name] _)
  constructor
  · rintro ⟨h1, h2⟩
    rw [hknown, hknown] at h1
    rw [hcycle, h.cycle] at h2
    exact ⟨h1, h2⟩
  · rintro ⟨h1, h2⟩
    rw [← hknown, ← hknown] at h1
    rw [← hcycle, ← h.cycle] at h2
    exact ⟨h1, h2⟩

theorem validateFile_eq_some : validateFile v dir name = some w ↔
    FileOk v dir name ∧ w = applyAll (fileUpdates v dir name) v := by
  unfold validateFile
  by_cases hknown : TreeStore.hasData v (.expect, [dir, name]) = true ∨
      TreeStore.hasData v (.cycles, [dir, name]) = true
  · rw [if_neg (by simpa [or_iff_not_imp_left] using hknown)]
    by_cases hcycle : get v (.results, [dir, name, lit "cycle"]) = some (dec (cycle v dir name))
    · rw [if_neg (not_not.mpr hcycle), Option.some.injEq]
      exact ⟨fun h => ⟨⟨hknown, hcycle⟩, h.symm⟩, fun h => h.2.symm⟩
    · rw [if_pos hcycle]
      exact iff_of_false (Option.some_ne_none _).symm fun h => hcycle h.1.cycle
  · rw [if_pos (by simpa using hknown)]
    exact iff_of_false (Option.some_ne_none _).symm fun h => hknown h.1.known

theorem within_fileUpdates : ∀ u ∈ fileUpdates v dir name, Within [dir, name] u := by
  intro u hu
  obtain rfl | hu := List.mem_cons.mp hu
  · exact within_kill
  · rw [List.mem_singleton.mp hu]
    exact within_set

theorem fileUpdates_same (hab : a ≠ b) :
    Same [dir, a] (applyAll (fileUpdates v dir b) v) v :=
  same_applyAll within_fileUpdates fun _ hm => not_prefix_of_ne (p := [dir]) hab hm

def names (v : Vars) (dir : Str) : List Str :=
  walk before (subscripts v (.results, [dir])) v.length none

def dirUpdates (v : Vars) (dir : Str) : List (Upd Var Str Str) :=
  .set (.cycles, [dir]) (dec 1) ::
    ((names v dir).flatMap fun name => fileUpdates v dir name) ++ [.kill (.results, [dir])]

structure DirOk (v : Vars) (dir : Str) : Prop where
  known : hasData v (.expect, [dir]) = true ∨ hasData v (.cycles, [dir]) = true
  files : ∀ name ∈ subscripts v (.results, [dir]), FileOk v dir name

theorem subscripts_length (v : Vars) (n : Node) : (subscripts v n).length ≤ v.length :=
  List.length_filterMap_le _ _

theorem mem_names : name ∈ names v dir ↔ name ∈ subscripts v (.results, [dir]) :=
  mem_walk_all strict_before (subscripts_length v _)

theorem names_congr (h : ∀ name, Same [dir, name] v w) : names v dir = names w dir := by
  apply walk_all_congr strict_before _ (subscripts_length v _) (subscripts_length w _)
  intro name
  exact (h name).mem_subscripts (q := [dir])

theorem fileUpdates_congr (h : ∀ name, Same [dir, name] v w) :
    ((names v dir).flatMap fun name => fileUpdates v dir name) =
      (names w dir).flatMap fun name => fileUpdates w dir name := by
  rw [names_congr h]
  congr 1
  funext name
  rw [fileUpdates, fileUpdates, (h name).cycle]

theorem files_eq_some :
    forOrder before (fun v => subscripts v (.results, [dir]))
        (fun v name => validateFile v dir name) v.length none v = some w ↔
      (∀ name ∈ subscripts v (.results, [dir]), FileOk v dir name) ∧
        w = applyAll ((names v dir).flatMap fun name => fileUpdates v dir name) v := by
  rw [forOrder_eq strict_before]
  · rw [foldlM_eq_some Upd.apply (fun name v => FileOk v dir name)
      (fun name v => fileUpdates v dir name)]
    · simp only [← mem_names]
      rfl
    · intro v name w
      exact validateFile_eq_some
    · intro a b v hab
      exact (fileUpdates_same hab).fileOk
    · intro a b v hab
      have hcycle := (fileUpdates_same (v := v) hab : Same [dir, a] _ _).cycle
      change fileUpdates (applyAll (fileUpdates v dir b) v) dir a = _
      rw [fileUpdates, hcycle, fileUpdates]
    · exact walk_nodup strict_before
  · intro v name w hw a hlt
    obtain ⟨-, rfl⟩ := validateFile_eq_some.mp hw
    have hne : a ≠ name := by
      rintro rfl
      rw [strict_before.irrefl] at hlt
      cases hlt
    exact (fileUpdates_same hne).mem_subscripts (q := [dir])

theorem validateDir_eq_some :
    validateDir v dir = some w ↔ DirOk v dir ∧ w = applyAll (dirUpdates v dir) v := by
  have hsame (name : Str) : Same [dir, name] (TreeStore.set (.cycles, [dir]) (dec 1) v) v := by
    intro n hn
    rw [get_set, if_neg]
    rintro rfl
    simpa using hn.length_le
  have hfiles : (∀ name ∈ subscripts (TreeStore.set (.cycles, [dir]) (dec 1) v) (.results, [dir]),
      FileOk (TreeStore.set (.cycles, [dir]) (dec 1) v) dir name) ↔
        ∀ name ∈ subscripts v (.results, [dir]), FileOk v dir name := by
    apply forall_congr'
    intro name
    rw [(hsame name).mem_subscripts (q := [dir]), (hsame name).fileOk]
  unfold validateDir
  by_cases hknown : TreeStore.hasData v (.expect, [dir]) = true ∨
      TreeStore.hasData v (.cycles, [dir]) = true
  · rw [if_neg (by simpa [or_iff_not_imp_left] using hknown)]
    simp only [Option.map_eq_some_iff, files_eq_some]
    rw [hfiles, fileUpdates_congr hsame]
    have happly : kill (.results, [dir]) (applyAll ((names v dir).flatMap fun name =>
        fileUpdates v dir name) (TreeStore.set (.cycles, [dir]) (dec 1) v)) =
          applyAll (dirUpdates v dir) v := by
      rw [dirUpdates, applyAll_append]
      rfl
    rw [← happly]
    constructor
    · rintro ⟨_, ⟨hok, rfl⟩, rfl⟩
      exact ⟨⟨hknown, hok⟩, rfl⟩
    · rintro ⟨hok, rfl⟩
      exact ⟨_, ⟨hok.files, rfl⟩, rfl⟩
  · rw [if_pos (by simpa using hknown)]
    exact iff_of_false (Option.some_ne_none _).symm fun h => hknown h.1.known

theorem within_dirUpdates : ∀ u ∈ dirUpdates v dir, Within [dir] u := by
  intro u hu
  rw [dirUpdates, List.cons_append, List.mem_cons, List.mem_append, List.mem_flatMap,
    List.mem_singleton] at hu
  obtain rfl | ⟨name, -, hu⟩ | rfl := hu
  · exact within_set
  · exact (within_fileUpdates u hu).under (List.prefix_append [dir] [name])
  · exact within_kill

theorem dirUpdates_same (hab : a ≠ b) : Same [a] (applyAll (dirUpdates v b) v) v :=
  same_applyAll within_dirUpdates fun _ hm => not_prefix_of_ne (p := []) hab hm

theorem Same.dirOk (h : Same [dir] v w) : DirOk v dir ↔ DirOk w dir := by
  have hknown (x : Var) : TreeStore.hasData v (x, [dir]) = TreeStore.hasData w (x, [dir]) :=
    h.hasData List.prefix_rfl
  have hfile (name : Str) : Same [dir, name] v w := h.under (List.prefix_append [dir] [name])
  have hfiles : (∀ name ∈ subscripts v (.results, [dir]), FileOk v dir name) ↔
      ∀ name ∈ subscripts w (.results, [dir]), FileOk w dir name := by
    apply forall_congr'
    intro name
    rw [(hfile name).mem_subscripts (q := [dir]), (hfile name).fileOk]
  constructor
  · rintro ⟨h1, h2⟩
    rw [hknown, hknown] at h1
    exact ⟨h1, hfiles.mp h2⟩
  · rintro ⟨h1, h2⟩
    rw [← hknown, ← hknown] at h1
    exact ⟨h1, hfiles.mpr h2⟩

def dirs (v : Vars) : List Str := walk before (subscripts v (.results, [])) v.length none

def allUpdates (v : Vars) : List (Upd Var Str Str) := (dirs v).flatMap fun dir => dirUpdates v dir

theorem mem_dirs : dir ∈ dirs v ↔ dir ∈ subscripts v (.results, []) :=
  mem_walk_all strict_before (subscripts_length v _)

theorem dirs_eq_some :
    forOrder before (fun v => subscripts v (.results, [])) validateDir v.length none v = some w ↔
      (∀ dir ∈ subscripts v (.results, []), DirOk v dir) ∧ w = applyAll (allUpdates v) v := by
  rw [forOrder_eq strict_before]
  · rw [foldlM_eq_some Upd.apply (fun dir v => DirOk v dir)
      (fun dir v => dirUpdates v dir)]
    · simp only [← mem_dirs]
      rfl
    · intro v dir w
      exact validateDir_eq_some
    · intro a b v hab
      exact (dirUpdates_same hab).dirOk
    · intro a b v hab
      have hsame (name : Str) :=
        (dirUpdates_same (v := v) hab).under (List.prefix_append [a] [name])
      have hfiles := fileUpdates_congr hsame
      change dirUpdates (applyAll (dirUpdates v b) v) a = _
      rw [dirUpdates, hfiles, ← dirUpdates]
    · exact walk_nodup strict_before
  · intro v dir w hw a hlt
    obtain ⟨-, rfl⟩ := validateDir_eq_some.mp hw
    have hne : a ≠ dir := by
      rintro rfl
      rw [strict_before.irrefl] at hlt
      cases hlt
    exact (dirUpdates_same hne).mem_subscripts (q := [])

theorem mem_allUpdates {u : Upd Var Str Str} : u ∈ allUpdates v ↔
    ∃ dir ∈ subscripts v (.results, []), u = .set (.cycles, [dir]) (dec 1) ∨
      (∃ name ∈ subscripts v (.results, [dir]), u = .kill (.results, [dir, name]) ∨
        u = .set (.cycles, [dir, name]) (dec (cycle v dir name))) ∨
          u = .kill (.results, [dir]) := by
  simp only [allUpdates, dirUpdates, fileUpdates, List.mem_flatMap, List.mem_append, List.mem_cons,
    List.not_mem_nil, or_false, mem_dirs, mem_names, List.cons_append]

end YdbTest.RctlValidate
