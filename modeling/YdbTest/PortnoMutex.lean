import YdbTest.Portno

namespace YdbTest.PortnoMutex

open MString Portno Function

/-- The processes of a host, each at its place in the script, with the ports they have been given
and not released. -/
structure Sys where
  files : Files
  calls : Nat → Call
  pcs : Nat → Pc
  held : Nat → List Nat

inductive Act
  | begin (me : Call) (start : Nat) (second_round : Bool)
  | move (pid : Nat) (inUse : Bool)
  | release (pid portno : Nat)

def Act.actor : Act → Nat
  | .begin me _ _ => me.pid
  | .move pid _ => pid
  | .release pid _ => pid

def resting : Pc → Bool
  | .idle | .failed | .returned _ => true
  | _ => false

def given : Pc → List Nat
  | .returned portno => [portno]
  | _ => []

/-- The steps of the processes, in any order. A release is what `portno_release.csh` does. -/
inductive Step : Sys → Act → Sys → Prop
  | begin (σ : Sys) (me : Call) (start : Nat) (second_round : Bool)
      (h : resting (σ.pcs me.pid) = true) :
      Step σ (.begin me start second_round) { σ with
        calls := update σ.calls me.pid me
        pcs := update σ.pcs me.pid (.loop start second_round) }
  | move (σ : Sys) (pid : Nat) (inUse : Bool) (files : Files) (pc : Pc)
      (h : resting (σ.pcs pid) = false)
      (hn : next (σ.calls pid) inUse σ.files (σ.pcs pid) = (files, pc)) :
      Step σ (.move pid inUse) { σ with
        files := files
        pcs := update σ.pcs pid pc
        held := update σ.held pid (given pc ++ σ.held pid) }
  | release (σ : Sys) (pid portno : Nat) (h : portno ∈ σ.held pid) :
      Step σ (.release pid portno) { σ with
        files := update σ.files portno none
        held := update σ.held pid ((σ.held pid).filter (· ≠ portno)) }

/-- The runs of any processes from any reservations. -/
inductive Reaches : Sys → Prop
  | start (files : Files) (calls : Nat → Call) : Reaches ⟨files, calls, fun _ => .idle, fun _ => []⟩
  | step {σ σ' : Sys} {a : Act} (h : Reaches σ) (hs : Step σ a σ') : Reaches σ'

def port : Pc → Option Nat
  | .append portno _ | .probe portno _ | .busy portno _ | .remove portno _ | .unused portno _
  | .picked portno => some portno
  | _ => none

def claim : Pc → Option Nat
  | .remove portno _ | .picked portno => some portno
  | _ => none

/-- What holds of a process at each of its places: its ports are its own, it works on none of
them, and a file it has found to be its own still is. -/
structure Good (F : Files) (pid : Nat) (pc : Pc) (held : List Nat) : Prop where
  own : ∀ p ∈ held, FirstOwner (F p) pid
  apart : ∀ p, port pc = some p → p ∉ held
  found : ∀ p, claim pc = some p → FirstOwner (F p) pid

structure Inv (σ : Sys) : Prop where
  calls : ∀ pid, resting (σ.pcs pid) = false → (σ.calls pid).pid = pid
  good : ∀ pid, Good σ.files pid (σ.pcs pid) (σ.held pid)

variable {me : Call} {inUse : Bool} {F F' : Files} {pc pc' : Pc} {p q pid pid' : Nat} {held : List Nat}
  {σ σ' : Sys} {a : Act}

theorem firstOwner_append (h : FirstOwner (F q) pid) (l : Str) :
    FirstOwner (update F p (some ((F p).getD [] ++ [l])) q) pid := by
  by_cases hq : q = p
  · subst hq
    obtain ⟨l', ls, hF, ho⟩ := h
    rw [update_self, hF]
    exact ⟨l', ls ++ [l], rfl, ho⟩
  · rwa [update_of_ne hq]

/-- What a step of a process can be, seen from the files: nothing, the choice of a port without a
file, a line at the end of its file, a look at it, its removal, or the return of the port. -/
inductive Move (pid : Nat) (F : Files) (pc : Pc) : Files → Pc → Prop
  | nothing {pc' : Pc} (hp : port pc' = none) (hg : given pc' = []) : Move pid F pc F pc'
  | choose {pc' : Pc} {p : Nat} (hF : F p = none) (hp : port pc' = some p) (hc : claim pc' = none)
      (hg : given pc' = []) : Move pid F pc F pc'
  | append {pc' : Pc} {p : Nat} (l : Str) (hp : port pc = some p) (hp' : port pc' = some p)
      (hc : claim pc' = none) (hg : given pc' = []) :
      Move pid F pc (update F p (some ((F p).getD [] ++ [l]))) pc'
  | look {pc' : Pc} {p : Nat} (hp : port pc = some p) (hp' : port pc' = some p)
      (hc : ∀ q, claim pc' = some q → q = p ∧ FirstOwner (F p) pid) (hg : given pc' = []) :
      Move pid F pc F pc'
  | remove {pc' : Pc} {p : Nat} (hc : claim pc = some p) (hp : port pc' = none)
      (hg : given pc' = []) : Move pid F pc (update F p none) pc'
  | give {pc' : Pc} {p : Nat} (hc : claim pc = some p) (hp : port pc' = none)
      (hg : given pc' = [p]) : Move pid F pc F pc'

theorem next_move (h : next me inUse F pc = (F', pc')) (hr : resting pc = false)
    (hme : me.pid = pid) : Move pid F pc F' pc' := by
  cases pc with
  | idle | failed | returned p => cases hr
  | loop p sr =>
    rw [next] at h
    split_ifs at h <;> cases h <;> exact .nothing rfl rfl
  | reserved p sr =>
    rw [next] at h
    split at h
    · split_ifs at h <;> cases h <;> exact .nothing rfl rfl
    · cases h
      exact .choose ‹_› rfl rfl rfl
  | append p sr =>
    cases h
    exact .append me.line rfl rfl rfl rfl
  | probe p sr =>
    rw [next] at h
    split_ifs at h <;> cases h <;> exact .look rfl rfl (fun _ hq => by cases hq) rfl
  | busy p sr =>
    rw [next] at h
    split_ifs at h with hf <;> cases h
    · refine .look rfl rfl (fun q hq => ?_) rfl
      cases hq
      exact ⟨rfl, hme ▸ first_owner hf⟩
    · exact .nothing rfl rfl
  | remove p sr =>
    cases h
    exact .remove rfl rfl rfl
  | unused p sr =>
    rw [next] at h
    split_ifs at h with hf <;> cases h
    · refine .look rfl rfl (fun q hq => ?_) rfl
      cases hq
      exact ⟨rfl, hme ▸ first_owner hf⟩
    · exact .nothing rfl rfl
  | picked p =>
    rw [next] at h
    split_ifs at h <;> cases h
    · exact .nothing rfl rfl
    · exact .give rfl rfl rfl

theorem claim_port (h : claim pc = some p) : port pc = some p := by
  cases pc <;> first | exact h | cases h

theorem claim_none (h : port pc = none) : claim pc = none := by
  cases pc <;> first | rfl | cases h

theorem Good.of_files (h : Good F pid pc held)
    (hF : ∀ q, FirstOwner (F q) pid → FirstOwner (F' q) pid) : Good F' pid pc held :=
  ⟨fun p hp => hF p (h.own p hp), h.apart, fun p hp => hF p (h.found p hp)⟩

theorem firstOwner_remove (hne : q = p → ¬ FirstOwner (F p) pid) (h : FirstOwner (F q) pid) :
    FirstOwner (update F p none q) pid := by
  by_cases hq : q = p
  · subst hq
    exact absurd h (hne rfl)
  · rwa [update_of_ne hq]

theorem Move.other (h : Move pid F pc F' pc') (hg : Good F pid pc held) (hne : pid' ≠ pid)
    (ho : FirstOwner (F q) pid') : FirstOwner (F' q) pid' := by
  cases h with
  | nothing | choose | look | give => exact ho
  | append => exact firstOwner_append ho _
  | remove hc hp =>
    apply firstOwner_remove _ ho
    intro _ ho'
    exact hne (ho'.unique (hg.found _ hc))

theorem Move.good (h : Move pid F pc F' pc') (hg : Good F pid pc held) :
    Good F' pid pc' (given pc' ++ held) := by
  cases h with
  | nothing hp hgiv =>
    rw [hgiv]
    refine ⟨hg.own, ?_, ?_⟩
    · rw [hp]
      exact fun _ h => nomatch h
    · rw [claim_none hp]
      exact fun _ h => nomatch h
  | @choose _ p hF hp hc hgiv =>
    rw [hgiv]
    refine ⟨hg.own, ?_, ?_⟩
    · -- a port without a file is nobody's
      intro q hq hmem
      rw [hp] at hq
      cases hq
      obtain ⟨l, ls, hsome, -⟩ := hg.own p hmem
      rw [hF] at hsome
      cases hsome
    · rw [hc]
      exact fun _ h => nomatch h
  | @append _ p l hp hp' hc hgiv =>
    rw [hgiv]
    refine ⟨fun q hq => firstOwner_append (hg.own q hq) _, ?_, ?_⟩
    · intro q hq
      rw [hp'] at hq
      exact hg.apart q (hp.trans hq)
    · rw [hc]
      exact fun _ h => nomatch h
  | @look _ p hp hp' hc hgiv =>
    rw [hgiv]
    refine ⟨hg.own, ?_, ?_⟩
    · intro q hq
      rw [hp'] at hq
      exact hg.apart q (hp.trans hq)
    · intro q hq
      obtain ⟨rfl, ho⟩ := hc q hq
      exact ho
  | @remove _ p hc hp hgiv =>
    rw [hgiv]
    refine ⟨?_, ?_, ?_⟩
    · intro q hq
      apply firstOwner_remove _ (hg.own q hq)
      rintro rfl
      exact absurd hq (hg.apart q (claim_port hc))
    · rw [hp]
      exact fun _ h => nomatch h
    · rw [claim_none hp]
      exact fun _ h => nomatch h
  | @give _ p hc hp hgiv =>
    rw [hgiv]
    refine ⟨?_, ?_, ?_⟩
    · intro q hq
      obtain rfl | hq := List.mem_cons.mp hq
      · exact hg.found q hc
      · exact hg.own q hq
    · rw [hp]
      exact fun _ h => nomatch h
    · rw [claim_none hp]
      exact fun _ h => nomatch h

theorem Good.release (h : Good F pid pc held) (hp : p ∈ held) :
    Good (update F p none) pid pc (held.filter (· ≠ p)) := by
  refine ⟨?_, ?_, ?_⟩
  · intro q hq
    obtain ⟨hq, hne⟩ := List.mem_filter.mp hq
    rw [update_of_ne (by simpa using hne)]
    exact h.own q hq
  · intro q hq hmem
    exact h.apart q hq (List.mem_filter.mp hmem).1
  · intro q hq
    apply firstOwner_remove _ (h.found q hq)
    rintro rfl
    exact absurd hp (h.apart q (claim_port hq))

theorem Inv.step (h : Inv σ) (hs : Step σ a σ') : Inv σ' := by
  cases hs with
  | begin me start sr hr =>
    refine ⟨?_, ?_⟩
    · intro pid hpid
      dsimp only at hpid ⊢
      by_cases hp : pid = me.pid
      · subst hp
        rw [update_self]
      · rw [update_of_ne hp] at hpid ⊢
        exact h.calls pid hpid
    · intro pid
      dsimp only
      by_cases hp : pid = me.pid
      · subst hp
        rw [update_self]
        exact ⟨(h.good me.pid).own, (fun _ h => nomatch h), (fun _ h => nomatch h)⟩
      · rw [update_of_ne hp]
        exact h.good pid
  | move pid inUse F pc hr hn =>
    have hme := h.calls pid hr
    have hm := next_move hn hr hme
    refine ⟨?_, ?_⟩
    · intro pid' hpid
      dsimp only at hpid ⊢
      by_cases hp : pid' = pid
      · rw [hp, hme]
      · rw [update_of_ne hp] at hpid
        exact h.calls pid' hpid
    · intro pid'
      dsimp only
      by_cases hp : pid' = pid
      · subst hp
        rw [update_self, update_self]
        exact hm.good (h.good pid')
      · rw [update_of_ne hp, update_of_ne hp]
        exact (h.good pid').of_files fun q ho => hm.other (h.good pid) hp ho
  | release pid p hp =>
    refine ⟨h.calls, ?_⟩
    intro pid'
    dsimp only
    by_cases hpid : pid' = pid
    · subst hpid
      rw [update_self]
      exact (h.good pid').release hp
    · rw [update_of_ne hpid]
      refine (h.good pid').of_files fun q ho => firstOwner_remove ?_ ho
      intro _ ho'
      exact hpid (ho'.unique ((h.good pid).own p hp))

theorem inv_reaches (h : Reaches σ) : Inv σ := by
  induction h with
  | start files calls =>
    exact ⟨(fun _ h => nomatch h), fun _ => ⟨(fun _ h => nomatch h), (fun _ h => nomatch h),
      (fun _ h => nomatch h)⟩⟩
  | step _ hs ih => exact ih.step hs

theorem Inv.removes (h : Inv σ) (hs : Step σ a σ') (hp : σ.files p ≠ none)
    (hp' : σ'.files p = none) : FirstOwner (σ.files p) a.actor := by
  cases hs with
  | begin => exact absurd hp' hp
  | move pid inUse F pc hr hn =>
    cases next_move hn hr (h.calls pid hr) with
    | nothing | choose | look | give => exact absurd hp' hp
    | @append _ q =>
      by_cases hq : p = q
      · subst hq
        simp only [update_self] at hp'
        cases hp'
      · simp only [update_of_ne hq] at hp'
        exact absurd hp' hp
    | @remove _ q hc =>
      by_cases hq : p = q
      · subst hq
        exact (h.good pid).found p hc
      · simp only [update_of_ne hq] at hp'
        exact absurd hp' hp
  | release pid q hq =>
    by_cases hpq : p = q
    · subst hpq
      exact (h.good pid).own p hq
    · simp only [update_of_ne hpq] at hp'
      exact absurd hp' hp

/-- In any interleaving, no port is given to a second process before the first one releases it, and
only the owner on its first line takes a reservation file away. -/
theorem acquire_mutex (h : Reaches σ) :
    (∀ pid pid' p, p ∈ σ.held pid → p ∈ σ.held pid' → pid = pid') ∧
    ∀ a σ' p, Step σ a σ' → σ.files p ≠ none → σ'.files p = none →
      FirstOwner (σ.files p) a.actor := by
  have hI := inv_reaches h
  refine ⟨?_, fun a σ' p hs => hI.removes hs⟩
  intro pid pid' p hp hp'
  exact ((hI.good pid).own p hp).unique ((hI.good pid').own p hp')

/-- A first process has been given port 36001; a second one, which had also found no file for it,
has put its line after the other. -/
theorem acquire_mutex_two_processes : ∃ σ, Reaches σ ∧
    σ.files 36001 = some [lit "11 /t s", lit "22 /u s"] ∧ 36001 ∈ σ.held 11 ∧
    (∀ pid, 36001 ∈ σ.held pid → 11 = pid) := by
  have h := Reaches.start (fun _ => none) (fun _ => ⟨0, false, 0, [], []⟩)
  have h := h.step (.begin _ ⟨11, false, 0, lit "/t", lit "s"⟩ 36000 false rfl)
  have h := h.step (.begin _ ⟨22, false, 0, lit "/u", lit "s"⟩ 36000 false rfl)
  have h := h.step (.move _ 11 false _ _ rfl rfl)
  have h := h.step (.move _ 22 false _ _ rfl rfl)
  have h := h.step (.move _ 11 false _ _ rfl rfl)
  have h := h.step (.move _ 22 false _ _ rfl rfl)
  have h := h.step (.move _ 11 false _ _ rfl rfl)
  have h := h.step (.move _ 22 false _ _ rfl rfl)
  have h := h.step (.move _ 11 false _ _ rfl rfl)
  have h := h.step (.move _ 11 false _ _ rfl rfl)
  have h := h.step (.move _ 11 false _ _ rfl rfl)
  refine ⟨_, h, rfl, List.mem_cons_self, fun pid hp => ?_⟩
  exact (acquire_mutex h).1 11 pid 36001 List.mem_cons_self hp

end YdbTest.PortnoMutex
