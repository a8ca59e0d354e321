import YdbTest.Schedule
import YdbTest.Tally

namespace YdbTest.PauseImptp

open Schedule Tally Function

/-- Where a job is: at the head of its loop, in `pauseifneeded` (before its test of the flag,
before it counts itself in, in its waiting loop, before it counts itself out), in the rest of
the iteration, behind its loop, or stopped for `^%pauseflag` was undefined in the waiting loop. -/
inductive JobPc
  | head
  | test
  | enter
  | poll
  | leave
  | body
  | done
  | undef
  deriving DecidableEq

/-- Where the pausing process is: before `pause` (or done with `resume`), in the loop of `pause`,
done with `pause`, in the loop of `resume`, before its `kill`, or at a `halt`. -/
inductive PauserPc
  | resumed
  | pausing
  | paused
  | resuming
  | killing
  | halted
  deriving DecidableEq

/-- `^%pauseflag` and `^%pauseflag(fillid,"pausedcount")`, if they are defined, and where the
jobs and the pausing process are. -/
structure Sys (n : Nat) where
  flag : Option Nat
  pausedcount : Option Int
  jobs : Fin n → JobPc
  pauser : PauserPc

/-- `$increment(^%pauseflag(fillid,"pausedcount"),k)`. -/
def increment (count : Option Int) (k : Int) : Option Int := some (count.getD 0 + k)

inductive Act (n : Nat)
  | job (j : Fin n) (quits : Bool)
  | pauser (late : Bool)

variable {n : Nat}

def Sys.goto (σ : Sys n) (j : Fin n) (pc : JobPc) : Sys n := { σ with jobs := update σ.jobs j pc }

/-- One step of a job, whose loop ends at its head when it `quits`. -/
def stepJob (j : Fin n) (quits : Bool) (σ : Sys n) : Sys n :=
  match σ.jobs j with
  | .head => if quits then σ.goto j .done else σ.goto j .test
  | .test => if σ.flag.getD 0 ≠ 0 then σ.goto j .enter else σ.goto j .body
  | .enter => { σ with pausedcount := increment σ.pausedcount 1 }.goto j .poll
  | .poll =>
    match σ.flag with
    | none => σ.goto j .undef
    | some f => if f = 0 then σ.goto j .leave else σ
  | .leave => { σ with pausedcount := increment σ.pausedcount (-1) }.goto j .body
  | .body => σ.goto j .head
  | .done | .undef => σ

/-- One step of the pausing process, which is `late` when `elapsed>maxwait`: then it leaves its
loop, and `timeoutcheck` halts. -/
def stepPauser (late : Bool) (σ : Sys n) : Sys n :=
  match σ.pauser with
  | .resumed => { σ with flag := some 1, pauser := .pausing }
  | .pausing =>
    if late then { σ with pauser := .halted }
    else if σ.pausedcount.getD 0 = n then { σ with pauser := .paused }
    else σ
  | .paused => { σ with flag := some 0, pauser := .resuming }
  | .resuming =>
    if late then { σ with pauser := .halted }
    else if σ.pausedcount.getD 0 = 0 then { σ with pauser := .killing }
    else σ
  | .killing => { σ with flag := none, pausedcount := none, pauser := .resumed }
  | .halted => σ

def step : Act n → Sys n → Sys n
  | .job j quits => stepJob j quits
  | .pauser late => stepPauser late

def start : Sys n := ⟨none, none, fun _ => .head, .resumed⟩

def counted : JobPc → Nat
  | .poll | .leave => 1
  | _ => 0

/-- Where a job can be while the flag has a value. -/
def Allowed : Option Nat → JobPc → Prop
  | _, .undef => False
  | none, pc => pc ≠ .enter ∧ counted pc = 0
  | some 0, pc => pc ≠ .enter
  | some _, pc => pc ≠ .leave

def Flagged : PauserPc → Option Nat → Prop
  | .resumed, flag => flag = none
  | .pausing, flag | .paused, flag => flag = some 1
  | .resuming, flag | .killing, flag => flag = some 0
  | .halted, flag => flag = some 0 ∨ flag = some 1

structure Inv (σ : Sys n) : Prop where
  flagged : Flagged σ.pauser σ.flag
  allowed : ∀ j, Allowed σ.flag (σ.jobs j)
  count : σ.pausedcount.getD 0 = (tally counted σ.jobs : Nat)
  paused : σ.pauser = .paused → ∀ j, σ.jobs j = .poll
  killing : σ.pauser = .killing → ∀ j, counted (σ.jobs j) = 0

variable {σ : Sys n} {j : Fin n} {pc : JobPc} {late quits : Bool} {flag : Option Nat}

section Jobs

theorem counted_le (pc : JobPc) : counted pc ≤ 1 := by
  cases pc <;> decide

theorem Allowed.ne_undef (h : Allowed flag pc) : pc ≠ .undef := by
  rintro rfl
  cases flag <;> exact h

theorem inv_goto (h : Inv σ) (hallowed : Allowed σ.flag pc) {count : Option Int}
    (hcount : count.getD 0 + counted (σ.jobs j) = σ.pausedcount.getD 0 + counted pc)
    (hpaused : σ.pauser = .paused → pc = .poll)
    (hkilling : σ.pauser = .killing → counted pc = 0) :
    Inv ({ σ with pausedcount := count }.goto j pc) where
  flagged := h.flagged
  allowed k := by
    change Allowed σ.flag (update σ.jobs j pc k)
    obtain rfl | hne := eq_or_ne k j
    · rwa [update_self]
    · rw [update_of_ne hne]
      exact h.allowed k
  count := by
    have htally := tally_update (w := counted) (f := σ.jobs) (j := j) (p := pc)
    have hold := h.count
    change count.getD 0 = (tally counted (update σ.jobs j pc) : Nat)
    omega
  paused hp k := by
    change update σ.jobs j pc k = .poll
    obtain rfl | hne := eq_or_ne k j
    · rw [update_self]
      exact hpaused hp
    · rw [update_of_ne hne]
      exact h.paused hp k
  killing hk k := by
    change counted (update σ.jobs j pc k) = 0
    obtain rfl | hne := eq_or_ne k j
    · rw [update_self]
      exact hkilling hk
    · rw [update_of_ne hne]
      exact h.killing hk k

theorem inv_move (h : Inv σ) (hpoll : σ.jobs j ≠ .poll) (hallowed : Allowed σ.flag pc)
    (hcount : counted pc = counted (σ.jobs j)) : Inv (σ.goto j pc) :=
  inv_goto h hallowed (by rw [hcount]) (fun hp => absurd (h.paused hp j) hpoll)
    (fun hk => hcount.trans (h.killing hk j))

theorem allowed_plain (hu : pc ≠ .undef) (he : pc ≠ .enter) (hc : counted pc = 0) :
    Allowed flag pc := by
  have hl : pc ≠ .leave := by
    rintro rfl
    exact Nat.one_ne_zero hc
  match flag, pc with
  | _, .undef => exact hu rfl
  | none, .head | none, .test | none, .body | none, .done => exact ⟨he, hc⟩
  | some 0, .head | some 0, .test | some 0, .body | some 0, .done => exact he
  | some (_ + 1), .head | some (_ + 1), .test | some (_ + 1), .body | some (_ + 1), .done =>
    exact hl

theorem inv_plain (h : Inv σ) (hold : counted (σ.jobs j) = 0) (hu : pc ≠ .undef)
    (he : pc ≠ .enter) (hc : counted pc = 0) : Inv (σ.goto j pc) := by
  refine inv_move h (fun hpoll => ?_) (allowed_plain hu he hc) (hc.trans hold.symm)
  rw [hpoll] at hold
  exact Nat.one_ne_zero hold

theorem exists_flag (h : Allowed flag .enter) : ∃ f, flag = some (f + 1) := by
  match flag with
  | none => exact absurd rfl h.1
  | some 0 => exact absurd rfl h
  | some (f + 1) => exact ⟨f, rfl⟩

theorem inv_stepJob (j : Fin n) (quits : Bool) (h : Inv σ) : Inv (stepJob j quits σ) := by
  have hj := h.allowed j
  rw [stepJob]
  cases hpc : σ.jobs j with
  | head =>
    cases quits with
    | true => exact inv_plain h (by rw [hpc]; rfl) JobPc.noConfusion JobPc.noConfusion rfl
    | false => exact inv_plain h (by rw [hpc]; rfl) JobPc.noConfusion JobPc.noConfusion rfl
  | test =>
    by_cases hf : σ.flag.getD 0 = 0
    · simp only [if_neg (not_not.mpr hf)]
      exact inv_plain h (by rw [hpc]; rfl) JobPc.noConfusion JobPc.noConfusion rfl
    · simp only [if_pos hf]
      refine inv_move h (by rw [hpc]; exact JobPc.noConfusion) ?_ (by rw [hpc]; rfl)
      cases hflag : σ.flag with
      | none => exact absurd (by rw [hflag]; rfl) hf
      | some f =>
        cases f with
        | zero => exact absurd (by rw [hflag]; rfl) hf
        | succ f => exact JobPc.noConfusion
  | enter =>
    -- a job is here only while the flag is set
    rw [hpc] at hj
    obtain ⟨f, hflag⟩ := exists_flag hj
    refine inv_goto h ?_ ?_ (fun _ => rfl) fun hk => ?_
    · rw [hflag]
      exact JobPc.noConfusion
    · rw [hpc]
      simp [increment, counted]
    · have hfl := h.flagged
      rw [hk, hflag] at hfl
      cases hfl
  | poll =>
    rw [hpc] at hj
    cases hflag : σ.flag with
    | none =>
      rw [hflag] at hj
      exact absurd hj.2 Nat.one_ne_zero
    | some f =>
      by_cases hf : f = 0
      · subst hf
        simp only [if_pos]
        refine inv_goto h ?_ ?_ (fun hp => ?_) fun hk => ?_
        · rw [hflag]
          exact JobPc.noConfusion
        · rw [hpc]
          rfl
        · have hfl := h.flagged
          rw [hp, hflag] at hfl
          cases hfl
        · have hz := h.killing hk j
          rw [hpc] at hz
          exact absurd hz Nat.one_ne_zero
      · simp only [if_neg hf]
        exact h
  | leave =>
    refine inv_goto h (allowed_plain JobPc.noConfusion JobPc.noConfusion rfl) ?_ (fun hp => ?_)
      fun _ => rfl
    · rw [hpc]
      simp [increment, counted]
    · have := h.paused hp j
      rw [hpc] at this
      cases this
  | body => exact inv_plain h (by rw [hpc]; rfl) JobPc.noConfusion JobPc.noConfusion rfl
  | done | undef => exact h

end Jobs

section Pauser

theorem all_poll (h : Inv σ) (hflag : σ.flag = some 1) (hn : σ.pausedcount.getD 0 = n) (j : Fin n) :
    σ.jobs j = .poll := by
  have htally : tally counted σ.jobs = n := by
    have := h.count
    omega
  have hone := tally_full counted_le htally j
  have hj := h.allowed j
  rw [hflag] at hj
  cases hpc : σ.jobs j with
  | poll => rfl
  | leave =>
    rw [hpc] at hj
    exact absurd rfl hj
  | head | test | enter | body | done | undef =>
    rw [hpc] at hone
    exact absurd hone Nat.zero_ne_one

theorem Allowed.of_none (h : Allowed none pc) : Allowed flag pc := by
  refine allowed_plain h.ne_undef ?_ ?_
  · rintro rfl
    exact absurd rfl h.1
  · cases pc with
    | undef => exact h.elim
    | head | test | enter | poll | leave | body | done => exact h.2

theorem inv_stepPauser (late : Bool) (h : Inv σ) : Inv (stepPauser late σ) := by
  have hfl := h.flagged
  rw [stepPauser]
  cases hpc : σ.pauser with
  | resumed =>
    rw [hpc] at hfl
    refine ⟨rfl, fun j => ?_, h.count, nofun, nofun⟩
    exact Allowed.of_none (hfl ▸ h.allowed j)
  | pausing =>
    rw [hpc] at hfl
    cases late with
    | true => exact ⟨Or.inr hfl, h.allowed, h.count, nofun, nofun⟩
    | false =>
      simp only [Bool.false_eq_true, if_false]
      split
      next hn =>
        have hall := all_poll h hfl hn
        exact ⟨hfl, h.allowed, h.count, fun _ => hall, nofun⟩
      next => exact h
  | paused =>
    refine ⟨rfl, fun j => ?_, h.count, nofun, nofun⟩
    change Allowed (some 0) (σ.jobs j)
    rw [h.paused hpc j]
    exact JobPc.noConfusion
  | resuming =>
    rw [hpc] at hfl
    cases late with
    | true => exact ⟨Or.inl hfl, h.allowed, h.count, nofun, nofun⟩
    | false =>
      simp only [Bool.false_eq_true, if_false]
      split
      next hz =>
        have htally : tally counted σ.jobs = 0 := by
          have := h.count
          omega
        exact ⟨hfl, h.allowed, h.count, nofun, fun _ => tally_eq_zero.mp htally⟩
      next => exact h
  | killing =>
    rw [hpc] at hfl
    have hzero := h.killing hpc
    refine ⟨rfl, fun j => ?_, ?_, nofun, nofun⟩
    · have hj := h.allowed j
      refine allowed_plain hj.ne_undef ?_ (hzero j)
      rw [hfl] at hj
      intro he
      rw [he] at hj
      exact absurd rfl hj
    · change (0 : Int) = (tally counted σ.jobs : Nat)
      rw [tally_eq_zero.mpr hzero]
      rfl
  | halted => exact h

end Pauser

theorem inv_start : Inv (start : Sys n) where
  flagged := rfl
  allowed _ := ⟨JobPc.noConfusion, rfl⟩
  count := by
    have hzero : tally counted (fun _ : Fin n => JobPc.head) = 0 := tally_eq_zero.mpr fun _ => rfl
    change (0 : Int) = (tally counted fun _ : Fin n => JobPc.head : Nat)
    rw [hzero]
    rfl
  paused := nofun
  killing := nofun

theorem inv_step (a : Act n) (h : Inv σ) : Inv (step a σ) := by
  cases a with
  | job j quits => exact inv_stepJob j quits h
  | pauser late => exact inv_stepPauser late h

theorem Inv.fresh (h : Inv σ) (hr : σ.pauser = .resumed) : σ.pausedcount.getD 0 = 0 := by
  have hfl := h.flagged
  rw [hr] at hfl
  have hzero : tally counted σ.jobs = 0 := by
    refine tally_eq_zero.mpr fun j => ?_
    have hj := h.allowed j
    rw [show σ.flag = none from hfl] at hj
    cases hpc : σ.jobs j with
    | head | test | enter | body | done | undef => rfl
    | poll | leave =>
      rw [hpc] at hj
      exact hj.2
  rw [h.count, hzero]
  rfl

end YdbTest.PauseImptp
