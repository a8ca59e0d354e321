import YdbTest.Decimal
import Mathlib.Logic.Function.Basic

namespace YdbTest.Portno

open MString

/-- The reservation files `/tmp/test_<portno>.txt` by their lines. -/
abbrev Files := Nat → Option (List Str)

/-- What a caller brings: its `$$`, and what the environment and its user name say. -/
structure Call where
  pid : Nat
  gtmtest : Bool
  gtm_test_port_range : Nat
  tst_working_dir : Str
  test_subtest_name : Str

namespace Call

variable (me : Call)

def port_start : Nat :=
  if me.gtmtest then 16384 + me.gtm_test_port_range * 512 else 36000 + me.gtm_test_port_range * 128

def port_max : Nat := if me.gtmtest then me.port_start + 512 else me.port_start + 128

/-- The pattern `^$$ $tst_working_dir`, whose characters stand for themselves. -/
def pattern : Str := dec me.pid ++ space :: me.tst_working_dir

/-- The line a caller puts into the file of a port. -/
def line : Str := me.pattern ++ space :: me.test_subtest_name

end Call

def port_upperlimit : Nat := 49000

def increment : Nat := 1

/-- `head -n 1 $port_reservation_file |& $grep "^$$ $tst_working_dir"` finds the line. -/
def first (me : Call) (file : Option (List Str)) : Bool :=
  match file with
  | some (l :: _) => me.pattern.isPrefixOf l
  | _ => false

/-- Where a process is in the script. Between `loop` and the end of the loop it works on a port,
with `second_round` set or not. -/
inductive Pc where
  | idle
  | loop (portno : Nat) (second_round : Bool)
  | reserved (portno : Nat) (second_round : Bool)
  | append (portno : Nat) (second_round : Bool)
  | probe (portno : Nat) (second_round : Bool)
  | busy (portno : Nat) (second_round : Bool)
  | remove (portno : Nat) (second_round : Bool)
  | unused (portno : Nat) (second_round : Bool)
  | picked (portno : Nat)
  | failed
  | returned (portno : Nat)

/-- One step of a process, where `inUse` is what `is_port_in_use.csh` would say. -/
def next (me : Call) (inUse : Bool) (files : Files) : Pc → Files × Pc
  | .loop portno sr =>
    if portno < port_upperlimit then (files, .reserved (portno + increment) sr)
    else (files, .failed)
  | .reserved portno sr =>
    match files portno with
    | some _ =>
      if !sr && me.port_max ≤ portno then (files, .loop me.port_start true)
      else (files, .loop portno sr)
    | none => (files, .append portno sr)
  | .append portno sr =>
    (Function.update files portno (some ((files portno).getD [] ++ [me.line])), .probe portno sr)
  | .probe portno sr => if inUse then (files, .busy portno sr) else (files, .unused portno sr)
  | .busy portno sr =>
    if first me (files portno) then (files, .remove portno sr) else (files, .loop portno sr)
  | .remove portno sr => (Function.update files portno none, .loop portno sr)
  | .unused portno sr =>
    if first me (files portno) then (files, .picked portno) else (files, .loop portno sr)
  | .picked portno =>
    if port_upperlimit ≤ portno then (files, .failed) else (files, .returned portno)
  | .idle => (files, .idle)
  | .failed => (files, .failed)
  | .returned portno => (files, .returned portno)

def Owns (pid : Nat) (l : Str) : Prop := dec pid ++ [space] <+: l

/-- The owner recorded on the first line of a reservation file. -/
def FirstOwner (file : Option (List Str)) (pid : Nat) : Prop :=
  ∃ l ls, file = some (l :: ls) ∧ Owns pid l

variable {me : Call} {pid pid' : Nat} {l : Str} {file : Option (List Str)}

theorem Owns.unique (h : Owns pid l) (h' : Owns pid' l) : pid = pid' := by
  have hread : ∀ {p}, Owns p l → (readNumber false 0 0 l).1 = p := by
    rintro p ⟨s, rfl⟩
    by_cases hp : p = 0
    · subst hp
      rfl
    · rw [Decimal.dec_eq_digits hp, List.append_assoc, Decimal.readNumber_digits]
      rfl
  rw [← hread h, ← hread h']

theorem FirstOwner.unique (h : FirstOwner file pid) (h' : FirstOwner file pid') : pid = pid' := by
  obtain ⟨l, ls, rfl, ho⟩ := h
  obtain ⟨l', ls', heq, ho'⟩ := h'
  cases heq
  exact ho.unique ho'

theorem owns_line (me : Call) : Owns me.pid me.line := by
  refine ⟨me.tst_working_dir ++ space :: me.test_subtest_name, ?_⟩
  simp [Call.line, Call.pattern]

theorem pattern_prefix_line (me : Call) : me.pattern <+: me.line := List.prefix_append _ _

theorem first_owner (h : first me file = true) : FirstOwner file me.pid := by
  unfold first at h
  split at h
  · rename_i l ls
    refine ⟨l, ls, rfl, ?_⟩
    have hp : me.pattern <+: l := List.isPrefixOf_iff_prefix.mp h
    refine List.IsPrefix.trans ⟨me.tst_working_dir, ?_⟩ hp
    simp [Call.pattern]
  · cases h

theorem first_line (me : Call) (ls : List Str) : first me (some (me.line :: ls)) = true :=
  List.isPrefixOf_iff_prefix.mpr (pattern_prefix_line me)

end YdbTest.Portno
