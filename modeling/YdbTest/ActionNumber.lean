import YdbTest.Decimal
import YdbTest.Grep
import YdbTest.Schedule

namespace YdbTest.ActionNumber

open MString Schedule Function

/-- Where a process of `multisite_replic.csh` is: at the head of the loop, about to append to
the file of a number, about to look into it, waiting for the number's script, out of the loop
with the number its own, with its script written, or stopped by a syntax error. -/
inductive Pc
  | count
  | append (n : Nat)
  | look (n : Nat)
  | wait (n : Nat)
  | own (n : Nat)
  | created (n : Nat)
  | error (n : Nat)
  deriving DecidableEq

/-- The working directory, with the numbers of the files `msr_execute_n.csh` and the lines of
`msr_execute_n_pid.out`, and the place of each process, by its pid. -/
structure Sys where
  csh : List Nat
  pid_out : Nat → List Str
  pcs : Nat → Pc

/-- `ls -1 msr_execute*.csh |& awk '{if ($3>a) a=$3} END {print a+1}'`. -/
def call_count (csh : List Nat) : Nat := csh.foldl (fun a n => if n > a then n else a) 0 + 1

/-- `grep -n $ppid msr_execute_${call_count}_pid.out | awk -F: '{print $1}'`. -/
def linenum (ppid : Nat) (lines : List Str) : List Nat := Grep.numbers (dec ppid) 1 lines

/-- `if (1 == $linenum)`, which is a syntax error unless there is one word. -/
def isFirst : List Nat → Option Bool
  | [n] => some (decide (1 = n))
  | _ => none

def Sys.goto (σ : Sys) (ppid : Nat) (pc : Pc) : Sys := { σ with pcs := update σ.pcs ppid pc }

/-- One step of the process `ppid`. The wait may end before the script is there, for
`waitforfilecreate` gives up after ten seconds. -/
def step (ppid : Nat) (σ : Sys) : Sys :=
  match σ.pcs ppid with
  | .count => σ.goto ppid (.append (call_count σ.csh))
  | .append n =>
    { σ with pid_out := update σ.pid_out n (σ.pid_out n ++ [dec ppid]) }.goto ppid (.look n)
  | .look n =>
    match isFirst (linenum ppid (σ.pid_out n)) with
    | some true => σ.goto ppid (.own n)
    | some false => σ.goto ppid (.wait n)
    | none => σ.goto ppid (.error n)
  | .wait _ => σ.goto ppid .count
  | .own n => { σ with csh := n :: σ.csh }.goto ppid (.created n)
  | .created _ | .error _ => σ

/-- No action has been executed in the directory. -/
def start : Sys := ⟨[], fun _ => [], fun _ => .count⟩

/-- The process runs its action with this number. -/
def owns : Pc → Nat → Prop
  | .own n, m | .created n, m => n = m
  | _, _ => False

/-- The first line of the file of `n` is this pid. -/
def First (σ : Sys) (ppid n : Nat) : Prop := (σ.pid_out n).head? = some (dec ppid)

/-- Apart from a process that has not looked yet, the owner of a number is the process whose pid
is the first line. -/
def Decided (σ : Sys) : Prop :=
  ∀ ppid n, σ.pcs ppid ≠ .look n → (owns (σ.pcs ppid) n ↔ First σ ppid n)

/-- If it is the first line's process that looks, no other line contains its pid. -/
def Alone (σ : Sys) (ppid : Nat) : Prop :=
  ∀ n, σ.pcs ppid = .look n → First σ ppid n → ∀ l ∈ (σ.pid_out n).tail, ¬ dec ppid <:+: l

/-- The places a process can be at whose pid is the first line of the file of `n`. -/
def After (n : Nat) : Pc → Prop
  | .look m | .own m | .created m | .error m => m = n
  | _ => False

structure Inv (σ : Sys) : Prop where
  appended : ∀ ppid n, σ.pcs ppid = .look n → dec ppid ∈ σ.pid_out n
  first : ∀ ppid n, owns (σ.pcs ppid) n → First σ ppid n
  after : ∀ ppid n, First σ ppid n → After n (σ.pcs ppid)

variable {σ : Sys} {ppid q n m : Nat} {pc : Pc}

@[simp] theorem goto_pid_out : (σ.goto ppid pc).pid_out = σ.pid_out := rfl

@[simp] theorem goto_self : (σ.goto ppid pc).pcs ppid = pc := update_self ..

theorem goto_of_ne (h : q ≠ ppid) : (σ.goto ppid pc).pcs q = σ.pcs q := update_of_ne h ..

theorem first_unique (hp : First σ ppid n) (hq : First σ q n) : ppid = q :=
  Decimal.dec_injective (Option.some.inj (hp.symm.trans hq))

section Look

theorem isFirst_eq_true {ns : List Nat} : isFirst ns = some true ↔ ns = [1] := by
  match ns with
  | [] => simp [isFirst]
  | [n] => simp [isFirst, eq_comm]
  | _ :: _ :: _ => simp [isFirst]

theorem linenum_eq_one (hmem : dec ppid ∈ σ.pid_out n) :
    linenum ppid (σ.pid_out n) = [1] ↔
      First σ ppid n ∧ ∀ l ∈ (σ.pid_out n).tail, ¬ dec ppid <:+: l := by
  rw [linenum, First]
  cases hf : σ.pid_out n with
  | nil => exact absurd (hf ▸ hmem) List.not_mem_nil
  | cons l ls =>
    rw [Grep.numbers_eq_first, List.head?_cons, List.tail_cons, Option.some.injEq]
    refine and_congr_left fun hls => ⟨fun _ => ?_, fun h => h ▸ List.infix_refl _⟩
    obtain h | h := List.mem_cons.mp (hf ▸ hmem)
    · exact h.symm
    · exact absurd (List.infix_refl _) (hls _ h)

theorem step_look (hinv : Inv σ) (hpc : σ.pcs ppid = .look n) :
    (step ppid σ = σ.goto ppid (.own n) ∧ First σ ppid n ∧ Alone σ ppid) ∨
      ∃ pc, (pc = .wait n ∨ pc = .error n) ∧ step ppid σ = σ.goto ppid pc ∧
        (pc = .wait n → ¬First σ ppid n) ∧ (First σ ppid n → ¬Alone σ ppid) := by
  have hmem := hinv.appended ppid n hpc
  have halone : Alone σ ppid ↔
      (First σ ppid n → ∀ l ∈ (σ.pid_out n).tail, ¬ dec ppid <:+: l) := by
    refine ⟨fun h => h n hpc, fun h m hm => ?_⟩
    obtain rfl : n = m := by
      rw [hpc] at hm
      exact Pc.look.inj hm
    exact h
  have hnot : linenum ppid (σ.pid_out n) ≠ [1] → First σ ppid n → ¬Alone σ ppid :=
    fun hne hf ha => hne ((linenum_eq_one hmem).mpr ⟨hf, halone.mp ha hf⟩)
  rw [step, hpc]
  cases hb : isFirst (linenum ppid (σ.pid_out n)) with
  | none =>
    have hne : linenum ppid (σ.pid_out n) ≠ [1] := by
      intro h
      rw [h] at hb
      cases hb
    exact Or.inr ⟨.error n, Or.inr rfl, by simp only [hb],
      fun h => Pc.noConfusion h, hnot hne⟩
  | some b =>
    cases b with
    | true =>
      obtain ⟨hf, hls⟩ := (linenum_eq_one hmem).mp (isFirst_eq_true.mp hb)
      exact Or.inl ⟨by simp only [hb], hf, halone.mpr fun _ => hls⟩
    | false =>
      have hne : linenum ppid (σ.pid_out n) ≠ [1] := by
        intro h
        rw [h] at hb
        cases hb
      refine Or.inr ⟨.wait n, Or.inl rfl, by simp only [hb], fun _ hf => ?_, hnot hne⟩
      -- a single line number that is not 1 leaves the first line out
      have hin : 1 ∈ linenum ppid (σ.pid_out n) := by
        rw [First] at hf
        rw [linenum]
        cases hl : σ.pid_out n with
        | nil => rw [hl] at hf; cases hf
        | cons l ls =>
          rw [hl, List.head?_cons] at hf
          rw [Grep.numbers, if_pos (Option.some.inj hf ▸ List.infix_refl _)]
          exact List.mem_cons_self
      revert hb hne hin
      generalize linenum ppid (σ.pid_out n) = ns
      obtain _ | ⟨k, _ | ⟨k', ns⟩⟩ := ns
      · intro hb
        cases hb
      · intro _ hne hin
        exact hne (by rw [List.mem_singleton.mp hin])
      · intro hb
        cases hb

end Look

section Invariant

theorem inv_start : Inv start where
  appended _ _ h := nomatch h
  first _ _ h := nomatch h
  after _ _ h := nomatch h

theorem inv_goto (h : Inv σ) (hlook : ∀ n, pc ≠ .look n)
    (howns : ∀ n, owns pc n → First σ ppid n) (hafter : ∀ n, First σ ppid n → After n pc) :
    Inv (σ.goto ppid pc) where
  appended q n hq := by
    obtain rfl | hne := eq_or_ne q ppid
    · rw [goto_self] at hq
      exact absurd hq (hlook n)
    · rw [goto_of_ne hne] at hq
      exact h.appended q n hq
  first q n hq := by
    obtain rfl | hne := eq_or_ne q ppid
    · rw [goto_self] at hq
      exact howns n hq
    · rw [goto_of_ne hne] at hq
      exact h.first q n hq
  after q n hq := by
    obtain rfl | hne := eq_or_ne q ppid
    · rw [goto_self]
      exact hafter n hq
    · rw [goto_of_ne hne]
      exact h.after q n hq

def appended (σ : Sys) (ppid n : Nat) : Sys :=
  { σ with pid_out := update σ.pid_out n (σ.pid_out n ++ [dec ppid]) }.goto ppid (.look n)

theorem step_append (hpc : σ.pcs ppid = .append n) : step ppid σ = appended σ ppid n := by
  rw [step, hpc]
  rfl

theorem first_appended :
    First (appended σ ppid n) q m ↔
      First σ q m ∨ σ.pid_out n = [] ∧ n = m ∧ ppid = q := by
  have hout : (appended σ ppid n).pid_out = update σ.pid_out n (σ.pid_out n ++ [dec ppid]) := rfl
  rw [First, First, hout]
  obtain rfl | hne := eq_or_ne m n
  · rw [update_self]
    cases hf : σ.pid_out m with
    | nil =>
      have hdec : dec ppid = dec q ↔ ppid = q := ⟨Decimal.dec_injective, congrArg dec⟩
      simp [hdec]
    | cons l ls => simp
  · simp [update_of_ne hne, hne.symm]

theorem inv_appended (h : Inv σ) (hpc : σ.pcs ppid = .append n) : Inv (appended σ ppid n) where
  appended q m hq := by
    have hout : (appended σ ppid n).pid_out = update σ.pid_out n (σ.pid_out n ++ [dec ppid]) := rfl
    rw [hout]
    obtain rfl | hne := eq_or_ne q ppid
    · obtain rfl : n = m := Pc.look.inj ((update_self ..).symm.trans hq)
      rw [update_self]
      exact List.mem_append_right _ (List.mem_singleton_self _)
    · have hin := h.appended q m ((update_of_ne hne ..).symm.trans hq)
      obtain rfl | hm := eq_or_ne m n
      · rw [update_self]
        exact List.mem_append_left _ hin
      · rwa [update_of_ne hm]
  first q m hq := by
    obtain rfl | hne := eq_or_ne q ppid
    · rw [appended, goto_self] at hq
      exact hq.elim
    · rw [appended, goto_of_ne hne] at hq
      exact first_appended.mpr (Or.inl (h.first q m hq))
  after q m hq := by
    obtain hf | ⟨_, rfl, rfl⟩ := first_appended.mp hq
    · obtain rfl | hne := eq_or_ne q ppid
      · have hafter := h.after q m hf
        rw [hpc] at hafter
        exact hafter.elim
      · rw [appended, goto_of_ne hne]
        exact h.after q m hf
    · rw [appended, goto_self]
      exact rfl

theorem not_first (h : Inv σ) (hpc : ∀ n, ¬After n (σ.pcs ppid)) : ¬First σ ppid n :=
  fun hf => hpc n (h.after ppid n hf)

theorem inv_step (ppid : Nat) (σ : Sys) (h : Inv σ) : Inv (step ppid σ) := by
  cases hpc : σ.pcs ppid with
  | count =>
    rw [step, hpc]
    refine inv_goto h (fun _ => Pc.noConfusion) (fun _ ho => ho.elim) fun n hf => ?_
    exact absurd hf (not_first h fun _ ha => by rwa [hpc] at ha)
  | append n =>
    rw [step_append hpc]
    exact inv_appended h hpc
  | look n =>
    obtain ⟨hs, hf, _⟩ | ⟨pc, rfl | rfl, hs, hw, _⟩ := step_look h hpc
    · rw [hs]
      refine inv_goto h (fun _ => Pc.noConfusion) (fun m ho => ?_) fun m hm => ?_
      · exact (show n = m from ho) ▸ hf
      · have := h.after ppid m hm
        rwa [hpc] at this
    · rw [hs]
      refine inv_goto h (fun _ => Pc.noConfusion) (fun _ ho => ho.elim) fun m hm => ?_
      have hafter := h.after ppid m hm
      rw [hpc] at hafter
      exact hw rfl ((show n = m from hafter) ▸ hm)
    · rw [hs]
      refine inv_goto h (fun _ => Pc.noConfusion) (fun _ ho => ho.elim) fun m hm => ?_
      have := h.after ppid m hm
      rwa [hpc] at this
  | wait n =>
    rw [step, hpc]
    refine inv_goto h (fun _ => Pc.noConfusion) (fun _ ho => ho.elim) fun m hf => ?_
    exact absurd hf (not_first h fun _ ha => by rwa [hpc] at ha)
  | own n =>
    rw [step, hpc]
    have hinv : Inv { σ with csh := n :: σ.csh } := ⟨h.appended, h.first, h.after⟩
    refine inv_goto hinv (fun _ => Pc.noConfusion) (fun m ho => ?_) fun m hm => ?_
    · exact h.first ppid m (by rw [hpc]; exact ho)
    · have := h.after ppid m hm
      rwa [hpc] at this
  | created n | error n =>
    rw [step, hpc]
    exact h

theorem inv_run (ppids : List Nat) : Inv (run step start ppids) :=
  run_invariant step Inv inv_start (fun σ ppid => inv_step ppid σ) ppids

end Invariant

section Ownership

theorem decided_start : Decided start := by
  intro ppid n _
  exact iff_of_false (fun h => h) (fun h => nomatch h)

theorem decided_goto (h : Decided σ)
    (hpc : ∀ n, pc ≠ .look n → (owns pc n ↔ First σ ppid n)) : Decided (σ.goto ppid pc) := by
  intro q n hq
  obtain rfl | hne := eq_or_ne q ppid
  · rw [goto_self] at hq ⊢
    exact hpc n hq
  · rw [goto_of_ne hne] at hq ⊢
    exact h q n hq

theorem alone_of_ne (h : ∀ n, σ.pcs ppid ≠ .look n) : Alone σ ppid :=
  fun n hn => absurd hn (h n)

/-- A step keeps the owners the first in their files if and only if it is no look at a file whose
first line is found on another line as well. -/
theorem decided_step (ppid : Nat) (h : Inv σ) (hd : Decided σ) :
    Decided (step ppid σ) ↔ Alone σ ppid := by
  cases hpc : σ.pcs ppid with
  | look n =>
    obtain ⟨hs, hf, ha⟩ | ⟨pc, hcase, hs, _, hna⟩ := step_look h hpc
    · rw [hs]
      refine iff_of_true (decided_goto hd fun m _ => ⟨?_, fun hm => ?_⟩) ha
      · rintro rfl
        exact hf
      · have := h.after ppid m hm
        rwa [hpc] at this
    · have hno : ∀ m, ¬owns pc m := by
        obtain rfl | rfl := hcase <;> exact fun _ ho => ho
      have hnl : ∀ m, pc ≠ .look m := by
        obtain rfl | rfl := hcase <;> exact fun _ => Pc.noConfusion
      have honly : ∀ m, First σ ppid m → First σ ppid n := by
        intro m hm
        have hafter := h.after ppid m hm
        rw [hpc] at hafter
        exact (show n = m from hafter) ▸ hm
      by_cases hf : First σ ppid n
      · refine iff_of_false (fun hd' => ?_) (hna hf)
        have := hd' ppid n
        rw [hs, goto_self] at this
        exact hno n ((this (hnl n)).mpr hf)
      · refine iff_of_true ?_ fun m hm hfm => absurd (honly m hfm) hf
        rw [hs]
        exact decided_goto hd fun m _ => iff_of_false (hno m) fun hm => hf (honly m hm)
  | count =>
    refine iff_of_true ?_ (alone_of_ne fun n hn => by rw [hpc] at hn; cases hn)
    rw [step, hpc]
    refine decided_goto hd fun n _ => iff_of_false (fun ho => ho) ?_
    exact not_first h fun _ ha => by rwa [hpc] at ha
  | append n =>
    refine iff_of_true ?_ (alone_of_ne fun n hn => by rw [hpc] at hn; cases hn)
    rw [step_append hpc]
    intro q m hq
    obtain rfl | hne := eq_or_ne q ppid
    · rw [appended, goto_self] at hq ⊢
      refine iff_of_false (fun ho => ho) fun hf => ?_
      obtain hf | ⟨_, rfl, _⟩ := first_appended.mp hf
      · exact not_first h (fun _ ha => by rwa [hpc] at ha) hf
      · exact hq rfl
    · have hpcs : (appended σ ppid n).pcs q = σ.pcs q := goto_of_ne hne
      rw [hpcs] at hq ⊢
      rw [hd q m hq, first_appended, or_iff_left fun ho => hne ho.2.2.symm]
  | wait n =>
    refine iff_of_true ?_ (alone_of_ne fun n hn => by rw [hpc] at hn; cases hn)
    rw [step, hpc]
    refine decided_goto hd fun n _ => iff_of_false (fun ho => ho) ?_
    exact not_first h fun _ ha => by rwa [hpc] at ha
  | own n =>
    refine iff_of_true ?_ (alone_of_ne fun n hn => by rw [hpc] at hn; cases hn)
    rw [step, hpc]
    refine decided_goto (σ := { σ with csh := n :: σ.csh }) hd fun m _ => ?_
    have := hd ppid m
    rw [hpc] at this
    exact this Pc.noConfusion
  | created n | error n =>
    refine iff_of_true ?_ (alone_of_ne fun n hn => by rw [hpc] at hn; cases hn)
    rw [step, hpc]
    exact hd

/-- No two processes have the same number, and, exactly when no look meets the first pid on
another line as well, a process that has looked has the number if and only if its pid is the
first line of the number's file. -/
theorem ownership (ppids : List Nat) :
    (∀ ppid q n, owns ((run step start ppids).pcs ppid) n → owns ((run step start ppids).pcs q) n →
      ppid = q) ∧
    (Always step Decided start ppids ↔ Each step Alone start ppids) := by
  refine ⟨fun ppid q n hp hq => ?_, ?_⟩
  · have hinv := inv_run ppids
    exact first_unique (hinv.first ppid n hp) (hinv.first q n hq)
  · exact always_iff_each decided_start inv_run fun σ ppid hinv hd => decided_step ppid hinv hd

/-- The processes 12 and 123 append in this order, and then 12 looks. -/
theorem first_pid_stopped :
    ¬∀ ppids ppid n, (run step start ppids).pcs ppid ≠ .look n →
      (owns ((run step start ppids).pcs ppid) n ↔ First (run step start ppids) ppid n) := by
  intro h
  have h12 := h [12, 123, 12, 123, 12] 12 1
  have hpc : (run step start [12, 123, 12, 123, 12]).pcs 12 = .error 1 := by decide +kernel
  have hf : First (run step start [12, 123, 12, 123, 12]) 12 1 := by
    rw [First]
    decide +kernel
  rw [hpc] at h12
  exact (h12 Pc.noConfusion).mpr hf

end Ownership

end YdbTest.ActionNumber
