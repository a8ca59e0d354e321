import YdbTest.Decimal
import YdbTest.Fields
import YdbTest.Grep
import YdbTest.Schedule

namespace YdbTest.TestPick

open MString Fields Schedule Function

def blank (c : Nat) : Bool := c = 32 || c = 9 || c = 10

/-- What `grep` counts to a word. -/
def isWord (c : Nat) : Bool :=
  (48 ≤ c && c ≤ 57) || (65 ≤ c && c ≤ 90) || (97 ≤ c && c ≤ 122) || c = 95

structure Word where
  text : Str
  ne : text ≠ []
  plain : ∀ c ∈ text, blank c = false

/-- The name of a test, of letters, digits, underscores and hyphens, which are nothing special
to the shell, to awk or to `grep`. -/
structure Name where
  text : Str
  ne : text ≠ []
  letters : ∀ c ∈ text, isWord c = true ∨ c = 45
  start : text.head? ≠ some 45

/-- A call of `picktest`, with what `date` says when it appends its line. -/
structure Call where
  testname : Name
  short_host : Word
  picked_time : Word
  pid : Nat

/-- `printf "%-19s : %-15s : %s : %6s\n"`. -/
def Call.line (k : Call) : Str :=
  ljust 19 space k.testname.text ++ lit " : " ++ ljust 15 space k.short_host.text ++ lit " : " ++
    k.picked_time.text ++ lit " : " ++ rjust 6 space (dec k.pid)

def field (l : Str) (n : Nat) : Str := (fields blank l).getD (n - 1) []

/-- `awk '{if ($1 == "'$testname'") {print $3 ; exit}}' $controlfile`. -/
def picked (testname : Str) (controlfile : List Str) : Str :=
  match controlfile.find? fun l => field l 1 = testname with
  | some l => field l 3
  | none => []

/-- `grep -w $testname $controlfile | head -1 | awk '{print $7;}'`. -/
def ppid (testname : Str) (controlfile : List Str) : Str :=
  match controlfile.find? fun l => Grep.hasWord isWord testname l with
  | some l => field l 7
  | none => []

/-- Where a call is: about to look for its test, to append its line, to look again, or done with
what it has printed. -/
inductive Pc
  | check
  | append
  | recheck
  | printed (out : Str)
  deriving DecidableEq

/-- The calls whose lines the control file has, in their order, and where each call is. -/
structure Sys where
  control : List Nat
  pcs : Nat → Pc

def Sys.goto (σ : Sys) (c : Nat) (pc : Pc) : Sys := { σ with pcs := update σ.pcs c pc }

def start : Sys := ⟨[], fun _ => .check⟩

variable (calls : Nat → Call)

def Sys.controlfile (σ : Sys) : List Str := σ.control.map fun c => (calls c).line

def signal (picked : Str) : Str := 95 :: (picked ++ [95])

/-- One step of the call `c`. -/
def step (c : Nat) (σ : Sys) : Sys :=
  match σ.pcs c with
  | .check =>
    let picked := picked (calls c).testname.text (σ.controlfile calls)
    if picked = [] then σ.goto c .append else σ.goto c (.printed (signal picked))
  | .append => { σ with control := σ.control ++ [c] }.goto c .recheck
  | .recheck =>
    if ppid (calls c).testname.text (σ.controlfile calls) = dec (calls c).pid then
      σ.goto c (.printed (calls c).short_host.text)
    else σ.goto c (.printed (signal []))
  | .printed _ => σ

def Sys.first (σ : Sys) (testname : Str) : Option Nat :=
  σ.control.find? fun c => (calls c).testname.text = testname

def Sys.found (σ : Sys) (testname : Str) : Option Nat :=
  σ.control.find? fun c => Grep.hasWord isWord testname (calls c).line

/-- No two calls have printed their plain host names for one test, and a call that is done has
printed its plain host name if and only if the first line for its test is its own. -/
structure OneHost (σ : Sys) : Prop where
  unique : ∀ c d, (calls c).testname.text = (calls d).testname.text →
    σ.pcs c = .printed (calls c).short_host.text →
    σ.pcs d = .printed (calls d).short_host.text → c = d
  first : ∀ c out, σ.pcs c = .printed out →
    (out = (calls c).short_host.text ↔ σ.first calls (calls c).testname.text = some c)

/-- The pid on the first line with the test's name as a word is the call's if and only if the
first line for the test is, and no host is called what is printed otherwise. -/
def Clear (σ : Sys) (c : Nat) : Prop :=
  match σ.pcs c with
  | .check => ∀ d, σ.first calls (calls c).testname.text = some d →
      (calls c).short_host.text ≠ signal (calls d).short_host.text
  | .recheck => ∀ d, σ.found calls (calls c).testname.text = some d →
      ((calls d).pid = (calls c).pid ∨ (calls c).short_host.text = signal [] ↔
        σ.first calls (calls c).testname.text = some c)
  | _ => True

/-- Calls for one test have different pids, and no host is called what is printed otherwise. Where
the line of another test has the name of the test as a word, it has the pid of the call too. -/
structure Apart (n : Nat) : Prop where
  same : ∀ c < n, ∀ d < n, c ≠ d → (calls c).testname.text = (calls d).testname.text →
    (calls d).pid ≠ (calls c).pid ∧ (calls c).short_host.text ≠ signal [] ∧
      (calls c).short_host.text ≠ signal (calls d).short_host.text
  other : ∀ c < n, ∀ d < n, (calls d).testname.text ≠ (calls c).testname.text →
    Grep.hasWord isWord (calls c).testname.text (calls d).line = true →
    (calls d).pid = (calls c).pid ∨ (calls c).short_host.text = signal []

section Line

theorem Name.plain (t : Name) : ∀ c ∈ t.text, blank c = false := by
  intro c hc
  have := t.letters c hc
  simp only [isWord, blank, Bool.or_eq_true, Bool.and_eq_true, decide_eq_true_eq,
    Bool.or_eq_false_iff, decide_eq_false_iff_not] at *
  omega

theorem plain_dec (n : Nat) : ∀ c ∈ dec n, blank c = false := by
  intro c hc
  have := Decimal.dec_digit hc
  simp only [blank, Bool.or_eq_false_iff, decide_eq_false_iff_not]
  omega

theorem blank_space : blank space = true := rfl

theorem line_eq (k : Call) : k.line =
    ljust 19 space k.testname.text ++ space :: 58 :: space :: (ljust 15 space k.short_host.text ++
      space :: 58 :: space :: (k.picked_time.text ++ space :: 58 :: space ::
        rjust 6 space (dec k.pid))) := by
  rw [Call.line]
  simp only [List.append_assoc]
  rfl

theorem fields_line (k : Call) : fields blank k.line =
    [k.testname.text, [58], k.short_host.text, [58], k.picked_time.text, [58], dec k.pid] := by
  have hcolon : ∀ l : Str, fields blank (58 :: space :: l) = [58] :: fields blank l :=
    fun l => fields_word (w := [58]) (List.cons_ne_nil _ _) (by decide) blank_space
  rw [line_eq, fields_ljust k.testname.ne k.testname.plain blank_space, hcolon,
    fields_ljust k.short_host.ne k.short_host.plain blank_space, hcolon,
    fields_word k.picked_time.ne k.picked_time.plain blank_space, hcolon,
    fields_rjust (Decimal.dec_ne_nil _) (plain_dec _) blank_space]

theorem hasWord_line (k : Call) : Grep.hasWord isWord k.testname.text k.line = true := by
  have hpad : ∀ l : Str, ∃ r, ljust 19 space k.testname.text ++ space :: l =
      k.testname.text ++ space :: r := by
    intro l
    rw [ljust, List.append_assoc]
    cases 19 - k.testname.text.length with
    | zero => exact ⟨_, rfl⟩
    | succ n => exact ⟨_, rfl⟩
  rw [line_eq]
  obtain ⟨r, hr⟩ := hpad (58 :: space :: (ljust 15 space k.short_host.text ++
    space :: 58 :: space :: (k.picked_time.text ++ space :: 58 :: space ::
      rjust 6 space (dec k.pid))))
  rw [hr]
  exact Grep.hasWord_front rfl _ _

end Line

section Looks

variable {calls} {σ : Sys} {c d : Nat} {t : Name}

theorem mem_of_first {s : Str} (h : σ.first calls s = some d) :
    d ∈ σ.control ∧ (calls d).testname.text = s :=
  ⟨List.mem_of_find?_eq_some h, by simpa using List.find?_some h⟩

theorem picked_controlfile (s : Str) : picked s (σ.controlfile calls) =
    match σ.first calls s with
    | some d => (calls d).short_host.text
    | none => [] := by
  have hfield : ((fun l => decide (field l 1 = s)) ∘ fun c => (calls c).line) =
      fun c => decide ((calls c).testname.text = s) := by
    funext c
    simp only [comp_apply, field, fields_line]
    rfl
  rw [picked, Sys.controlfile, List.find?_map, hfield, Sys.first]
  cases σ.control.find? fun c => decide ((calls c).testname.text = s) with
  | none => rfl
  | some d =>
    simp only [Option.map_some, field, fields_line]
    rfl

theorem ppid_controlfile (s : Str) : ppid s (σ.controlfile calls) =
    match σ.found calls s with
    | some d => dec (calls d).pid
    | none => [] := by
  have hline : ((fun l => Grep.hasWord isWord s l) ∘ fun c => (calls c).line) =
      fun c => Grep.hasWord isWord s (calls c).line := rfl
  rw [ppid, Sys.controlfile, List.find?_map, hline, Sys.found]
  cases σ.control.find? fun c => Grep.hasWord isWord s (calls c).line with
  | none => rfl
  | some d =>
    simp only [Option.map_some, field, fields_line]
    rfl

theorem exists_first (h : c ∈ σ.control) : ∃ d, σ.first calls (calls c).testname.text = some d := by
  refine Option.isSome_iff_exists.mp (List.find?_isSome.mpr ⟨c, h, ?_⟩)
  exact decide_eq_true rfl

theorem exists_found (h : c ∈ σ.control) : ∃ d, σ.found calls (calls c).testname.text = some d :=
  Option.isSome_iff_exists.mp (List.find?_isSome.mpr ⟨c, h, hasWord_line (calls c)⟩)

theorem step_check (hpc : σ.pcs c = .check) : step calls c σ =
    match σ.first calls (calls c).testname.text with
    | some d => σ.goto c (.printed (signal (calls d).short_host.text))
    | none => σ.goto c .append := by
  rw [step, hpc]
  simp only [picked_controlfile]
  cases σ.first calls (calls c).testname.text with
  | none => rfl
  | some d => exact if_neg (calls d).short_host.ne

theorem step_recheck (hpc : σ.pcs c = .recheck) (hd : σ.found calls (calls c).testname.text = some d) :
    step calls c σ = σ.goto c (.printed
      (if (calls d).pid = (calls c).pid then (calls c).short_host.text else signal [])) := by
  rw [step, hpc]
  simp only [ppid_controlfile, hd]
  by_cases hp : (calls d).pid = (calls c).pid
  · rw [if_pos hp, if_pos (congrArg dec hp)]
  · rw [if_neg hp, if_neg fun h => hp (Decimal.dec_injective h)]

end Looks

section Invariant

variable {σ : Sys} {c d : Nat} {pc : Pc}

/-- Where the calls are whose lines the file has, and what has been appended for those that
are done. -/
structure Inv (σ : Sys) : Prop where
  ahead : ∀ c ∈ σ.control, σ.pcs c ≠ .check ∧ σ.pcs c ≠ .append
  listed : ∀ c, σ.pcs c = .recheck → c ∈ σ.control
  known : ∀ c out, σ.pcs c = .printed out →
    ∃ d, σ.first calls (calls c).testname.text = some d

variable {calls}

theorem inv_start : Inv calls start where
  ahead _ h := absurd h List.not_mem_nil
  listed _ h := nomatch h
  known _ _ h := nomatch h

theorem goto_self : (σ.goto c pc).pcs c = pc := update_self ..

theorem goto_of_ne (h : d ≠ c) : (σ.goto c pc).pcs d = σ.pcs d := update_of_ne h ..

theorem inv_goto (h : Inv calls σ)
    (hahead : c ∈ σ.control → pc ≠ .check ∧ pc ≠ .append) (hlisted : pc ≠ .recheck)
    (hknown : ∀ out, pc = .printed out →
      ∃ d, σ.first calls (calls c).testname.text = some d) :
    Inv calls (σ.goto c pc) where
  ahead d hd := by
    obtain rfl | hne := eq_or_ne d c
    · rw [goto_self]
      exact hahead hd
    · rw [goto_of_ne hne]
      exact h.ahead d hd
  listed d hd := by
    obtain rfl | hne := eq_or_ne d c
    · rw [goto_self] at hd
      exact absurd hd hlisted
    · rw [goto_of_ne hne] at hd
      exact h.listed d hd
  known d out hd := by
    obtain rfl | hne := eq_or_ne d c
    · rw [goto_self] at hd
      exact hknown out hd
    · rw [goto_of_ne hne] at hd
      exact h.known d out hd

def appended (σ : Sys) (c : Nat) : Sys := { σ with control := σ.control ++ [c] }.goto c .recheck

theorem first_appended (s : Str) : (appended σ c).first calls s =
    (σ.first calls s).or (if (calls c).testname.text = s then some c else none) := by
  rw [Sys.first, Sys.first, appended]
  change (σ.control ++ [c]).find? _ = _
  rw [List.find?_append, List.find?_singleton]
  simp only [decide_eq_true_eq]

theorem first_appended_of_some {s : Str} (h : σ.first calls s = some d) :
    (appended σ c).first calls s = some d := by
  rw [first_appended, h]
  rfl

theorem inv_appended (h : Inv calls σ) : Inv calls (appended σ c) where
  ahead d hd := by
    obtain rfl | hne := eq_or_ne d c
    · rw [appended, goto_self]
      exact ⟨Pc.noConfusion, Pc.noConfusion⟩
    · rw [appended, goto_of_ne hne]
      refine h.ahead d ((List.mem_append.mp hd).resolve_right fun hs => hne ?_)
      exact List.mem_singleton.mp hs
  listed d hd := by
    change d ∈ σ.control ++ [c]
    obtain rfl | hne := eq_or_ne d c
    · exact List.mem_append_right _ (List.mem_singleton_self _)
    · rw [appended, goto_of_ne hne] at hd
      exact List.mem_append_left _ (h.listed d hd)
  known d out hd := by
    obtain rfl | hne := eq_or_ne d c
    · rw [appended, goto_self] at hd
      cases hd
    · rw [appended, goto_of_ne hne] at hd
      obtain ⟨e, he⟩ := h.known d out hd
      exact ⟨e, first_appended_of_some he⟩

theorem inv_step (c : Nat) (σ : Sys) (h : Inv calls σ) :
    Inv calls (step calls c σ) := by
  cases hpc : σ.pcs c with
  | check =>
    have hnot : c ∉ σ.control := fun hc => (h.ahead c hc).1 hpc
    rw [step_check hpc]
    cases hf : σ.first calls (calls c).testname.text with
    | none => exact inv_goto h (absurd · hnot) Pc.noConfusion fun _ => Pc.noConfusion
    | some d => exact inv_goto h (absurd · hnot) Pc.noConfusion fun _ _ => ⟨d, hf⟩
  | append =>
    rw [step, hpc]
    exact inv_appended h
  | recheck =>
    have hc := h.listed c hpc
    obtain ⟨d, hd⟩ := exists_found hc
    rw [step_recheck hpc hd]
    exact inv_goto h (fun _ => ⟨Pc.noConfusion, Pc.noConfusion⟩) Pc.noConfusion
      fun _ _ => exists_first hc
  | printed out =>
    rw [step, hpc]
    exact h

end Invariant

section Result

variable {calls} {σ : Sys} {c d : Nat} {pc : Pc}

theorem oneHost_iff : OneHost calls σ ↔ ∀ c out, σ.pcs c = .printed out →
    (out = (calls c).short_host.text ↔ σ.first calls (calls c).testname.text = some c) := by
  refine ⟨OneHost.first, fun h => ⟨fun c d ht hc hd => ?_, h⟩⟩
  have hfc := (h c _ hc).mp rfl
  have hfd := (h d _ hd).mp rfl
  rw [ht, hfd] at hfc
  exact (Option.some.inj hfc).symm

theorem oneHost_goto (h : OneHost calls σ) (hpc : ∀ out, σ.pcs c ≠ .printed out) :
    OneHost calls (σ.goto c pc) ↔ ∀ out, pc = .printed out →
      (out = (calls c).short_host.text ↔ σ.first calls (calls c).testname.text = some c) := by
  rw [oneHost_iff]
  constructor
  · intro h' out hout
    exact h' c out (goto_self.trans hout)
  · intro h' d out hd
    obtain rfl | hne := eq_or_ne d c
    · rw [goto_self] at hd
      exact h' out hd
    · rw [goto_of_ne hne] at hd
      exact h.first d out hd

theorem oneHost_appended (h : OneHost calls σ) (hinv : Inv calls σ) :
    OneHost calls (appended σ c) := by
  rw [oneHost_iff]
  intro d out hd
  obtain rfl | hne := eq_or_ne d c
  · rw [appended, goto_self] at hd
    cases hd
  · rw [appended, goto_of_ne hne] at hd
    obtain ⟨e, he⟩ := hinv.known d out hd
    rw [first_appended_of_some he, ← he]
    exact h.first d out hd

theorem oneHost_step (c : Nat) (hinv : Inv calls σ) (h : OneHost calls σ) :
    OneHost calls (step calls c σ) ↔ Clear calls σ c := by
  cases hpc : σ.pcs c with
  | check =>
    have hnot : σ.first calls (calls c).testname.text ≠ some c := fun hf =>
      (hinv.ahead c (mem_of_first hf).1).1 hpc
    have hne : ∀ out, σ.pcs c ≠ .printed out := fun _ ho => by rw [hpc] at ho; cases ho
    rw [step_check hpc, Clear, hpc]
    cases hf : σ.first calls (calls c).testname.text with
    | none =>
      refine iff_of_true ((oneHost_goto h hne).mpr fun _ => Pc.noConfusion) fun d hd => ?_
      cases hd
    | some d =>
      rw [hf] at hnot
      rw [oneHost_goto h hne]
      constructor
      · intro h' e he heq
        obtain rfl := Option.some.inj he
        exact hnot (hf ▸ (h' _ rfl).mp heq.symm)
      · intro h' out hout
        obtain rfl := Pc.printed.inj hout
        exact iff_of_false (fun heq => h' d rfl heq.symm) (hf ▸ hnot)
  | append =>
    rw [step, Clear, hpc]
    exact iff_of_true (oneHost_appended h hinv) trivial
  | recheck =>
    obtain ⟨d, hd⟩ := exists_found (hinv.listed c hpc)
    have hne : ∀ out, σ.pcs c ≠ .printed out := fun _ ho => by rw [hpc] at ho; cases ho
    rw [step_recheck hpc hd, Clear, hpc, oneHost_goto h hne]
    simp only [hd, Option.some.injEq, forall_eq', Pc.printed.injEq]
    by_cases hp : (calls d).pid = (calls c).pid
    · rw [if_pos hp, or_iff_left_of_imp fun _ => hp, eq_self, iff_true_intro hp]
    · rw [if_neg hp, or_iff_right hp, eq_comm]
  | printed out =>
    rw [step, Clear, hpc]
    exact iff_of_true h trivial

theorem one_host (calls : Nat → Call) (cs : List Nat) :
    Always (step calls) (OneHost calls) start cs ↔ Each (step calls) (Clear calls) start cs := by
  have hinv := run_invariant (step calls) (Inv calls) inv_start fun σ c => inv_step c σ
  refine always_iff_each ?_ hinv fun σ c h hone => oneHost_step c h hone
  exact oneHost_iff.mpr fun _ _ h => nomatch h

theorem first_of_found {s : Str} (h : σ.found calls s = some d) (hs : (calls d).testname.text = s) :
    σ.first calls s = some d := by
  obtain ⟨-, as, bs, hσ, has⟩ := List.find?_eq_some_iff_append.mp h
  refine List.find?_eq_some_iff_append.mpr ⟨decide_eq_true hs, as, bs, hσ, fun e he => ?_⟩
  have hnot := has e he
  rw [Bool.not_eq_true'] at hnot ⊢
  refine decide_eq_false fun hname => ?_
  have hword := hasWord_line (calls e)
  rw [hname, hnot] at hword
  exact Bool.noConfusion hword

theorem Apart.alone {n : Nat} (h : Apart calls n) {c d e : Nat} (hc : c < n) (hd : d < n)
    (he : e < n) (hname : (calls d).testname.text ≠ (calls c).testname.text)
    (hword : Grep.hasWord isWord (calls c).testname.text (calls d).line = true)
    (hsame : (calls e).testname.text = (calls c).testname.text) : e = c := by
  by_contra hne
  obtain ⟨hpid, hc', -⟩ := h.same c hc e he (Ne.symm hne) hsame.symm
  obtain ⟨-, he', -⟩ := h.same e he c hc hne hsame
  have hdc := (h.other c hc d hd hname hword).resolve_right hc'
  have hde := (h.other e he d hd (hsame ▸ hname) (hsame ▸ hword)).resolve_right he'
  exact hpid (hde.symm.trans hdc)

theorem clear_of_apart {n : Nat} (h : Apart calls n) (hinv : Inv calls σ)
    (hσ : ∀ d ∈ σ.control, d < n) (hc : c < n) : Clear calls σ c := by
  cases hpc : σ.pcs c with
  | check =>
    rw [Clear, hpc]
    intro d hd
    obtain ⟨hmem, hname⟩ := mem_of_first hd
    have hne : c ≠ d := fun hcd => (hinv.ahead d hmem).1 (hcd ▸ hpc)
    exact (h.same c hc d (hσ d hmem) hne hname.symm).2.2
  | recheck =>
    rw [Clear, hpc]
    intro d hd
    have hmem : d ∈ σ.control := List.mem_of_find?_eq_some hd
    by_cases hname : (calls d).testname.text = (calls c).testname.text
    · rw [first_of_found hd hname, Option.some.injEq]
      obtain rfl | hne := eq_or_ne d c
      · exact iff_of_true (Or.inl rfl) rfl
      · obtain ⟨hpid, hhost, -⟩ := h.same c hc d (hσ d hmem) hne.symm hname.symm
        exact iff_of_false (fun hor => hor.elim hpid hhost) hne
    · have hword : Grep.hasWord isWord (calls c).testname.text (calls d).line = true :=
        List.find?_some (p := fun e => Grep.hasWord isWord (calls c).testname.text (calls e).line) hd
      obtain ⟨e, he⟩ := exists_first (hinv.listed c hpc)
      obtain ⟨hemem, hename⟩ := mem_of_first he
      have hec := h.alone hc (hσ d hmem) (hσ e hemem) hname hword hename
      exact iff_of_true (h.other c hc d (hσ d hmem) hname hword) (hec ▸ he)
  | append =>
    rw [Clear, hpc]
    trivial
  | printed out =>
    rw [Clear, hpc]
    trivial

theorem mem_of_control (cs : List Nat) : ∀ d ∈ (run (step calls) start cs).control, d ∈ cs := by
  have hstep (σ : Sys) (c d : Nat) (hd : d ∈ (step calls c σ).control) : d ∈ σ.control ∨ d = c := by
    cases hpc : σ.pcs c with
    | check =>
      rw [step_check hpc] at hd
      cases hf : σ.first calls (calls c).testname.text <;> rw [hf] at hd <;> exact Or.inl hd
    | append =>
      rw [step, hpc] at hd
      exact (List.mem_append.mp hd).imp_right List.mem_singleton.mp
    | recheck =>
      simp only [step, hpc] at hd
      split at hd <;> exact Or.inl hd
    | printed out =>
      rw [step, hpc] at hd
      exact Or.inl hd
  induction cs using List.reverseRecOn with
  | nil => exact fun d hd => nomatch hd
  | append_singleton cs c ih =>
    intro d hd
    rw [run_concat] at hd
    exact List.mem_append.mpr ((hstep _ c d hd).imp (ih d) List.mem_singleton.mpr)

theorem step_look (hpc : σ.pcs c = .check) (h : σ.first calls (calls c).testname.text = none) :
    step calls c σ = σ.goto c .append := by
  rw [step_check hpc, h]

theorem step_append (hpc : σ.pcs c = .append) : step calls c σ = appended σ c := by
  rw [step, hpc]
  rfl

theorem run_append (d : Nat) :
    run (step calls) start [d, d] = appended (start.goto d .append) d := by
  have hlook : step calls d start = start.goto d .append := step_look rfl rfl
  rw [run, List.foldl_cons, List.foldl_cons, List.foldl_nil, hlook, step_append goto_self]

theorem run_behind (hne : c ≠ d) : run (step calls) start [c, d, d, c] =
    appended (appended ((start.goto c .append).goto d .append) d) c := by
  have hlook : step calls c start = start.goto c .append := step_look rfl rfl
  have hlook' : step calls d (start.goto c .append) = (start.goto c .append).goto d .append :=
    step_look (goto_of_ne hne.symm) rfl
  have hc : (appended ((start.goto c .append).goto d .append) d).pcs c = .append :=
    (goto_of_ne hne).trans ((goto_of_ne hne).trans goto_self)
  rw [run, List.foldl_cons, List.foldl_cons, List.foldl_cons, List.foldl_cons, List.foldl_nil,
    hlook, hlook', step_append goto_self, step_append hc]

/-- Each test is given to one host in every order of the steps of `n` calls exactly if the calls
are told apart. -/
theorem one_host_iff (calls : Nat → Call) (n : Nat) :
    (∀ cs, (∀ c ∈ cs, c < n) → OneHost calls (run (step calls) start cs)) ↔ Apart calls n := by
  constructor
  · intro h
    have hclear (cs : List Nat) (c : Nat) (hcs : ∀ d ∈ cs ++ [c], d < n) :
        Clear calls (run (step calls) start cs) c := by
      refine (one_host calls (cs ++ [c])).mp (fun bs hbs => h bs fun d hd => ?_) cs c List.prefix_rfl
      exact hcs d (hbs.subset hd)
    have hbehind (c d : Nat) (hc : c < n) (hd : d < n) (hne : c ≠ d) :
        Clear calls (appended (appended ((start.goto c .append).goto d .append) d) c) c := by
      rw [← run_behind hne]
      exact hclear _ c (by simp [hc, hd])
    constructor
    · intro c hc d hd hne hname
      have hlate := hbehind c d hc hd hne
      rw [Clear, appended, goto_self] at hlate
      have hfirst : (appended ((start.goto c .append).goto d .append) d).first calls
          (calls c).testname.text = some d := by
        rw [first_appended, if_pos hname.symm]
        rfl
      have hword : Grep.hasWord isWord (calls c).testname.text (calls d).line = true :=
        hname ▸ hasWord_line (calls d)
      have hiff := hlate d (List.find?_cons_of_pos hword)
      have hnot := hiff.not.mpr fun hc' => hne
        (Option.some.inj ((first_appended_of_some hfirst).symm.trans hc')).symm
      have hlook := hclear [d, d] c (by simp [hc, hd])
      rw [run_append, Clear, appended, goto_of_ne hne, goto_of_ne hne] at hlook
      refine ⟨fun hp => hnot (Or.inl hp), fun hh => hnot (Or.inr hh), hlook d ?_⟩
      exact List.find?_cons_of_pos (decide_eq_true hname.symm)
    · intro c hc d hd hname hword
      have hne : c ≠ d := fun hcd => hname (congrArg (fun e => (calls e).testname.text) hcd).symm
      have hlate := hbehind c d hc hd hne
      rw [Clear, appended, goto_self] at hlate
      refine (hlate d (List.find?_cons_of_pos hword)).mpr ?_
      refine (List.find?_cons_of_neg (by simpa using hname)).trans ?_
      exact List.find?_cons_of_pos (decide_eq_true rfl)
  · intro h cs hcs
    have hinv := run_invariant (step calls) (Inv calls) inv_start fun σ c => inv_step c σ
    refine (one_host calls cs).mpr (fun bs c hbs => ?_) cs List.prefix_rfl
    refine clear_of_apart h (hinv bs) (fun d hd => ?_) (hcs c (hbs.subset (by simp)))
    exact hcs d (hbs.subset (List.mem_append_left _ (mem_of_control bs d hd)))

def twins (c : Nat) : Call where
  testname := ⟨lit "basic_0", by decide, by decide, by decide⟩
  short_host := if c = 0 then ⟨lit "lester", by decide, by decide⟩
    else ⟨lit "pfloyd", by decide, by decide⟩
  picked_time := ⟨lit "20240101_120000", by decide, by decide⟩
  pid := 77

theorem picked_twice :
    ¬∀ (calls : Nat → Call) (cs : List Nat), OneHost calls (run (step calls) start cs) := by
  intro h
  have hone := (h twins [0, 1, 0, 1, 0, 1]).unique 0 1 rfl
  exact absurd (hone (by decide +kernel) (by decide +kernel)) Nat.zero_ne_one

end Result

end YdbTest.TestPick
