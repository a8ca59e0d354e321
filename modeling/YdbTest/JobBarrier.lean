import YdbTest.Decimal
import YdbTest.Job

namespace YdbTest.JobBarrier

open MString MLocks Job

variable {job : Proc → Nat}

section Names

variable {k k' : Call} {i j n : Nat}

theorem gate_not_jobwait : ¬ k.gate.Conflicts (k'.jobwait i) := by
  rintro ⟨h, -⟩
  exact absurd (congrArg (List.take 2) h) (by decide : [94, 106] ≠ [94, 37])

theorem below_not_jobwait : ¬ (k.below j n).Conflicts (k'.jobwait i) := by
  rintro ⟨h, -⟩
  exact absurd (congrArg (List.take 2) h) (by decide : [94, 106] ≠ [94, 37])

theorem gate_below : k.gate.Conflicts (k.below i n) := Name.conflicts_above _ _

theorem jobwait_conflicts (h : (k.jobwait j).Conflicts (k.jobwait i)) : j = i := by
  have hlen : (k.jobwait j).subs.length = (k.jobwait i).subs.length := by
    simp only [Call.jobwait]
    split_ifs <;> rfl
  have heq := congrArg Name.subs (h.eq_of_length hlen)
  simp only [Call.jobwait] at heq
  split_ifs at heq
  · exact Decimal.dec_injective (List.cons.inj heq).1
  · exact Decimal.dec_injective (List.cons.inj (List.cons.inj heq).2).1

end Names

theorem getElem?_concat_iff {α : Type} {xs : List α} {x y : α} {j : Nat} :
    (xs ++ [x])[j]? = some y ↔ xs[j]? = some y ∨ j = xs.length ∧ y = x := by
  rw [List.getElem?_append]
  split_ifs with hj
  · simp only [hj.ne, false_and, or_false]
  · rw [List.getElem?_eq_none (not_lt.mp hj), List.getElem?_singleton]
    by_cases hj' : j = xs.length
    · simp [hj', eq_comm]
    · have : j - xs.length ≠ 0 := by omega
      simp [this, hj']

inductive HoldsAt (job : Proc → Nat) (n : Nat) (c : CallState) : Proc → Name Str Str → Prop
  | gate (hlock : c.call.jnolock = false) (hactive : c.active = true) (henter : c.parent ≠ .enter) :
      HoldsAt job n c c.call.owner c.call.gate
  | got {nth i : Nat} (h : c.parent = .got nth i) :
      HoldsAt job n c c.call.owner (c.call.jobwait (i + 1))
  | jobwait {i : Nat} {ch : ChildPc} (hi : c.children[i]? = some ch) (h : ch = .gate ∨ ch = .release) :
      HoldsAt job n c (.child n i) (c.call.jobwait (i + 1))
  | below {i : Nat} (hi : c.children[i]? = some .release) :
      HoldsAt job n c (.child n i) (c.call.below (i + 1) (job (.child n i)))

/-- The process has been started and is not at the barrier. -/
def Runs (calls : List CallState) : Proc → Prop
  | .root _ => True
  | .child n i => ∃ c, calls[n]? = some c ∧ c.children[i]? = some .running

def Pending (c : CallState) : Prop := c.active = true ∨ ∃ ch ∈ c.children, ch ≠ .running

/-- No child of the one locks what a child of the other does. -/
def Apart (k k' : Call) : Prop :=
  k.jnolock = true ∨ k'.jnolock = true ∨
    ∀ i < k.njobs, ∀ j < k'.njobs, ¬ (k.jobwait (i + 1)).Conflicts (k'.jobwait (j + 1))

def CallInv (c : CallState) : Prop :=
  if c.call.jnolock then
    (∀ ch ∈ c.children, ch = .running) ∧
      (c.parent = .enter ∨ c.parent = .job ∨ ∃ all, c.parent = .done all)
  else c.children.length ≤ c.call.njobs ∧
    (c.active = true → ∀ ch ∈ c.children, ch = .wait ∨ ch = .gate) ∧
    match c.parent with
    | .enter => c.children = []
    | .job => True
    | .poll _ all i => c.children.length = c.call.njobs ∧
        (all = true → ∀ j < i, ∀ ch, c.children[j]? = some ch → ch = .gate)
    | .got _ i => c.children.length = c.call.njobs ∧ i < c.call.njobs
    | .open all | .done all => c.children.length = c.call.njobs ∧
        (all = true → ∀ ch ∈ c.children, ch ≠ .wait)

structure Inv (job : Proc → Nat) (s : State) : Prop where
  nodup : s.locks.Nodup
  locks (p : Proc) (m : Name Str Str) :
    (p, m) ∈ s.locks ↔ ∃ n c, s.calls[n]? = some c ∧ HoldsAt job n c p m
  owner (n : Nat) (c : CallState) (hc : s.calls[n]? = some c) (hactive : c.active = true) :
    Runs s.calls c.call.owner
  one (n n' : Nat) (c c' : CallState) (hc : s.calls[n]? = some c) (hc' : s.calls[n']? = some c')
    (hactive : c.active = true) (hactive' : c'.active = true) (h : c.call.owner = c'.call.owner) :
    n = n'
  apart (n n' : Nat) (c c' : CallState) (hc : s.calls[n]? = some c) (hc' : s.calls[n']? = some c')
    (hn : n ≠ n') (hp : Pending c) (hp' : Pending c') : Apart c.call c'.call
  call (n : Nat) (c : CallState) (hc : s.calls[n]? = some c) : CallInv c

section Holders

variable {s : State} {n n' i : Nat} {c c' : CallState} {p : Proc} {m : Name Str Str} {ch : ChildPc}

theorem HoldsAt.active (h : HoldsAt job n c c'.call.owner m) (hc : s.calls[n]? = some c)
    (hrun : Runs s.calls c'.call.owner) : c.call.owner = c'.call.owner ∧ c.active = true := by
  generalize hp : c'.call.owner = p at h hrun
  cases h with
  | gate hlock hactive henter => exact ⟨rfl, hactive⟩
  | got h =>
    refine ⟨rfl, ?_⟩
    rw [CallState.active, h]
  | jobwait hi h =>
    obtain ⟨c'', hc'', hi'⟩ := hrun
    rw [hc] at hc''
    cases hc''
    rw [hi] at hi'
    cases hi'
    exact h.elim (nomatch ·) (nomatch ·)
  | below hi =>
    obtain ⟨c'', hc'', hi'⟩ := hrun
    rw [hc] at hc''
    cases hc''
    rw [hi] at hi'
    exact nomatch hi'

theorem Inv.of_owner (inv : Inv job s) (hc : s.calls[n]? = some c) (hactive : c.active = true)
    (hc' : s.calls[n']? = some c') (h : HoldsAt job n' c' c.call.owner m) : n' = n := by
  obtain ⟨howner, hactive'⟩ := h.active hc' (inv.owner n c hc hactive)
  exact inv.one n' n c' c hc' hc hactive' hactive howner

theorem Inv.of_child (inv : Inv job s) (hc : s.calls[n]? = some c) (hi : c.children[i]? = some ch)
    (hch : ch ≠ .running) (hc' : s.calls[n']? = some c') (h : HoldsAt job n' c' (.child n i) m) :
    n' = n := by
  have hnot : ¬ Runs s.calls (.child n i) := by
    rintro ⟨c'', hc'', hi'⟩
    rw [hc] at hc''
    cases hc''
    rw [hi] at hi'
    exact hch (Option.some.inj hi')
  generalize hp : Proc.child n i = p at h hnot
  cases h with
  | gate hlock hactive henter => exact absurd (inv.owner n' c' hc' hactive) hnot
  | got h =>
    have hactive : c'.active = true := by rw [CallState.active, h]
    exact absurd (inv.owner n' c' hc' hactive) hnot
  | jobwait hi h => exact (Proc.child.inj hp).1.symm
  | below hi => exact (Proc.child.inj hp).1.symm

end Holders

section Set

variable {s : State} {n : Nat} {c c' : CallState} {t' : Locks}

theorem getElem?_set_iff (hc : s.calls[n]? = some c) (k : Nat) (d : CallState) :
    (s.calls.set n c')[k]? = some d ↔ k = n ∧ d = c' ∨ k ≠ n ∧ s.calls[k]? = some d := by
  rw [List.getElem?_set]
  obtain ⟨hn, -⟩ := List.getElem?_eq_some_iff.mp hc
  by_cases hk : n = k
  · subst hk
    simp [hn, eq_comm]
  · simp [hk, Ne.symm hk]

theorem runs_set (hc : s.calls[n]? = some c)
    (hrun : ∀ i : Nat, c.children[i]? = some .running → c'.children[i]? = some .running) {p : Proc}
    (h : Runs s.calls p) : Runs (s.calls.set n c') p := by
  cases p with
  | root k => exact trivial
  | child k i =>
    obtain ⟨d, hd, hi⟩ := h
    by_cases hk : k = n
    · subst hk
      rw [hc] at hd
      cases hd
      exact ⟨c', (getElem?_set_iff hc _ _).mpr (.inl ⟨rfl, rfl⟩), hrun i hi⟩
    · exact ⟨d, (getElem?_set_iff hc _ _).mpr (.inr ⟨hk, hd⟩), hi⟩

theorem Inv.set (inv : Inv job s) (hc : s.calls[n]? = some c) (hcall : c'.call = c.call)
    (hactive : c'.active = true → c.active = true)
    (hrun : ∀ i : Nat, c.children[i]? = some .running → c'.children[i]? = some .running)
    (hpending : Pending c' → Pending c) (hinv : CallInv c') (hnodup : t'.Nodup)
    (hlocks : ∀ p m, (p, m) ∈ t' ↔ HoldsAt job n c' p m ∨
      ∃ k d, k ≠ n ∧ s.calls[k]? = some d ∧ HoldsAt job k d p m) :
    Inv job ⟨s.calls.set n c', t'⟩ := by
  have hset := @getElem?_set_iff s n c c' hc
  refine ⟨hnodup, ?_, ?_, ?_, ?_, ?_⟩
  · intro p m
    rw [hlocks]
    simp only [hset]
    refine ⟨?_, ?_⟩
    · rintro (h | ⟨k, d, hk, hd, h⟩)
      · exact ⟨n, c', .inl ⟨rfl, rfl⟩, h⟩
      · exact ⟨k, d, .inr ⟨hk, hd⟩, h⟩
    · rintro ⟨k, d, ⟨rfl, rfl⟩ | ⟨hk, hd⟩, h⟩
      · exact .inl h
      · exact .inr ⟨k, d, hk, hd, h⟩
  · intro k d hd hact
    apply runs_set hc hrun
    obtain ⟨rfl, rfl⟩ | ⟨-, hd⟩ := (hset k d).mp hd
    · rw [hcall]
      exact inv.owner k c hc (hactive hact)
    · exact inv.owner k d hd hact
  · intro k k' d d' hd hd' hact hact' howner
    obtain ⟨rfl, rfl⟩ | ⟨hk, hold⟩ := (hset k d).mp hd
    · obtain ⟨rfl, rfl⟩ | ⟨hk', hold'⟩ := (hset k' d').mp hd'
      · rfl
      · rw [hcall] at howner
        exact inv.one k k' c d' hc hold' (hactive hact) hact' howner
    · obtain ⟨rfl, rfl⟩ | ⟨hk', hold'⟩ := (hset k' d').mp hd'
      · rw [hcall] at howner
        exact inv.one k k' d c hold hc hact (hactive hact') howner
      · exact inv.one k k' d d' hold hold' hact hact' howner
  · intro k k' d d' hd hd' hkk hpend hpend'
    obtain ⟨rfl, rfl⟩ | ⟨hk, hold⟩ := (hset k d).mp hd
    · obtain ⟨rfl, rfl⟩ | ⟨hk', hold'⟩ := (hset k' d').mp hd'
      · exact absurd rfl hkk
      · rw [hcall]
        exact inv.apart k k' c d' hc hold' hkk (hpending hpend) hpend'
    · obtain ⟨rfl, rfl⟩ | ⟨hk', hold'⟩ := (hset k' d').mp hd'
      · rw [hcall]
        exact inv.apart k k' d c hold hc hkk hpend (hpending hpend')
      · exact inv.apart k k' d d' hold hold' hkk hpend hpend'
  · intro k d hd
    obtain ⟨rfl, rfl⟩ | ⟨hk, hd⟩ := (hset k d).mp hd
    · exact hinv
    · exact inv.call k d hd

theorem Inv.mem_locks (inv : Inv job s) (hc : s.calls[n]? = some c) (p : Proc) (m : Name Str Str) :
    (p, m) ∈ s.locks ↔ HoldsAt job n c p m ∨
      ∃ k d, k ≠ n ∧ s.calls[k]? = some d ∧ HoldsAt job k d p m := by
  rw [inv.locks]
  refine ⟨?_, ?_⟩
  · rintro ⟨k, d, hd, h⟩
    by_cases hk : k = n
    · subst hk
      rw [hc] at hd
      cases hd
      exact .inl h
    · exact .inr ⟨k, d, hk, hd, h⟩
  · rintro (h | ⟨k, d, -, hd, h⟩)
    · exact ⟨n, c, hc, h⟩
    · exact ⟨k, d, hd, h⟩

end Set

section Steps

variable {s : State} {n i : Nat} {c c' : CallState} {t' : Locks} {p : Proc} {m : Name Str Str}

theorem holdsAt_iff : HoldsAt job n c p m ↔
    (c.call.jnolock = false ∧ c.active = true ∧ c.parent ≠ .enter ∧ p = c.call.owner ∧
      m = c.call.gate) ∨
    (∃ nth i, c.parent = .got nth i ∧ p = c.call.owner ∧ m = c.call.jobwait (i + 1)) ∨
    ∃ i ch, c.children[i]? = some ch ∧ p = .child n i ∧
      ((ch = .gate ∨ ch = .release) ∧ m = c.call.jobwait (i + 1) ∨
        ch = .release ∧ m = c.call.below (i + 1) (job (.child n i))) := by
  refine ⟨?_, ?_⟩
  · intro h
    cases h with
    | gate hlock hactive henter => exact .inl ⟨hlock, hactive, henter, rfl, rfl⟩
    | @got nth i h => exact .inr (.inl ⟨nth, i, h, rfl, rfl⟩)
    | @jobwait i ch hi h => exact .inr (.inr ⟨i, ch, hi, rfl, .inl ⟨h, rfl⟩⟩)
    | @below i hi => exact .inr (.inr ⟨i, _, hi, rfl, .inr ⟨rfl, rfl⟩⟩)
  · rintro (⟨hlock, hactive, henter, rfl, rfl⟩ | ⟨nth, i, h, rfl, rfl⟩ |
      ⟨i, ch, hi, rfl, ⟨h, rfl⟩ | ⟨rfl, rfl⟩⟩)
    · exact .gate hlock hactive henter
    · exact .got h
    · exact .jobwait hi h
    · exact .below hi

theorem callInv_lock (h : c.call.jnolock = false) : CallInv c ↔
    c.children.length ≤ c.call.njobs ∧
    (c.active = true → ∀ ch ∈ c.children, ch = .wait ∨ ch = .gate) ∧
    match c.parent with
    | .enter => c.children = []
    | .job => True
    | .poll _ all i => c.children.length = c.call.njobs ∧
        (all = true → ∀ j < i, ∀ ch, c.children[j]? = some ch → ch = .gate)
    | .got _ i => c.children.length = c.call.njobs ∧ i < c.call.njobs
    | .open all | .done all => c.children.length = c.call.njobs ∧
        (all = true → ∀ ch ∈ c.children, ch ≠ .wait) := by
  rw [CallInv, if_neg (by rw [h]; exact Bool.false_ne_true)]

theorem CallInv.lock_of_child (h : CallInv c) {ch : ChildPc} (hch : ch ∈ c.children)
    (hne : ch ≠ .running) : c.call.jnolock = false := by
  by_contra hlock
  rw [CallInv, if_pos (Bool.eq_true_of_not_eq_false hlock)] at h
  exact hne (h.1 ch hch)

theorem CallInv.lock_of_got (h : CallInv c) {nth i : Nat} (hgot : c.parent = .got nth i) :
    c.call.jnolock = false := by
  by_contra hlock
  rw [CallInv, if_pos (Bool.eq_true_of_not_eq_false hlock), hgot] at h
  obtain h | h | ⟨all, h⟩ := h.2 <;> exact nomatch h

theorem Inv.parent_plain (inv : Inv job s) (hc : s.calls[n]? = some c) (hactive : c.active = true)
    (hcall : c'.call = c.call)
    (hrun : ∀ i : Nat, c.children[i]? = some .running → c'.children[i]? = some .running)
    (hinv : CallInv c') (hholds : ∀ p m, HoldsAt job n c' p m ↔ HoldsAt job n c p m) :
    Inv job ⟨s.calls.set n c', s.locks⟩ := by
  refine inv.set hc hcall (fun _ => hactive) hrun (fun _ => .inl hactive) hinv inv.nodup ?_
  intro p m
  rw [inv.mem_locks hc, hholds]

theorem Inv.parent_lock (inv : Inv job s) (hc : s.calls[n]? = some c) (hactive : c.active = true)
    (hcall : c'.call = c.call) (hchildren : c'.children = c.children) (hinv : CallInv c')
    (hnew : ¬ HoldsAt job n c c.call.owner m)
    (hholds : ∀ q m', HoldsAt job n c' q m' ↔ (q, m') = (c.call.owner, m) ∨ HoldsAt job n c q m') :
    Inv job ⟨s.calls.set n c', (c.call.owner, m) :: s.locks⟩ := by
  refine inv.set hc hcall (fun _ => hactive) (fun i hi => hchildren ▸ hi) (fun _ => .inl hactive)
    hinv ?_ ?_
  · rw [List.nodup_cons]
    refine ⟨?_, inv.nodup⟩
    rw [inv.mem_locks hc]
    rintro (h | ⟨k, d, hk, hd, h⟩)
    · exact hnew h
    · exact hk (inv.of_owner hc hactive hd h)
  · intro q m'
    rw [List.mem_cons, inv.mem_locks hc, hholds, or_assoc]

theorem Inv.parent_unlock (inv : Inv job s) (hc : s.calls[n]? = some c) (hactive : c.active = true)
    (hcall : c'.call = c.call) (hchildren : c'.children = c.children) (hinv : CallInv c')
    (hholds : ∀ q m', HoldsAt job n c' q m' ↔ (q, m') ≠ (c.call.owner, m) ∧ HoldsAt job n c q m') :
    Inv job ⟨s.calls.set n c', unlock s.locks c.call.owner m⟩ := by
  refine inv.set hc hcall (fun _ => hactive) (fun i hi => hchildren ▸ hi) (fun _ => .inl hactive)
    hinv (inv.nodup.erase _) ?_
  intro q m'
  rw [mem_unlock inv.nodup, inv.mem_locks hc, hholds, and_or_left]
  refine or_congr_right ⟨And.right, ?_⟩
  rintro ⟨k, d, hk, hd, h⟩
  refine ⟨?_, k, d, hk, hd, h⟩
  intro heq
  cases heq
  exact hk (inv.of_owner hc hactive hd h)

theorem holdsAt_start (hp : c.parent = .job) {x : ChildPc} (hx : x = .wait ∨ x = .running) :
    HoldsAt job n ⟨c.call, .job, c.children ++ [x]⟩ p m ↔ HoldsAt job n c p m := by
  have hnone : ¬ ((x = .gate ∨ x = .release) ∧ m = c.call.jobwait (c.children.length + 1) ∨
      x = .release ∧ m = c.call.below (c.children.length + 1) (job (.child n c.children.length))) := by
    rintro (⟨h, -⟩ | ⟨h, -⟩)
    · obtain rfl | rfl := hx <;> exact h.elim (nomatch ·) (nomatch ·)
    · obtain rfl | rfl := hx <;> exact nomatch h
  rw [holdsAt_iff, holdsAt_iff]
  simp only [CallState.active, hp, getElem?_concat_iff]
  refine or_congr_right (or_congr_right ⟨?_, ?_⟩)
  · rintro ⟨i, ch, hi | ⟨rfl, rfl⟩, hm⟩
    · exact ⟨i, ch, hi, hm⟩
    · exact absurd hm.2 hnone
  · rintro ⟨i, ch, hi, hm⟩
    exact ⟨i, ch, .inl hi, hm⟩

theorem Inv.parent_nolock (inv : Inv job s) (hc : s.calls[n]? = some c)
    (hlock : c.call.jnolock = true) (h : parentStep c s.locks = some (c', t')) :
    Inv job ⟨s.calls.set n c', t'⟩ := by
  have hinv := inv.call n c hc
  rw [CallInv, if_pos hlock] at hinv
  obtain ⟨hrunning, hpc⟩ := hinv
  obtain hp | hp | ⟨all, hp⟩ := hpc
  · have hactive : c.active = true := by rw [CallState.active, hp]
    simp only [parentStep, hp, hlock, if_true, Option.some.injEq, Prod.mk.injEq] at h
    obtain ⟨rfl, rfl⟩ := h
    refine inv.parent_plain hc hactive rfl (fun i hi => hi) ?_ ?_
    · rw [CallInv, if_pos hlock]
      exact ⟨hrunning, .inr (.inl rfl)⟩
    · intro p m
      simp [holdsAt_iff, hlock, hp]
  · have hactive : c.active = true := by rw [CallState.active, hp]
    simp only [parentStep, hp, hlock, if_true] at h
    split_ifs at h with hlen
    · cases h
      refine inv.parent_plain hc hactive rfl ?_ ?_ ?_
      · intro i hi
        exact getElem?_concat_iff.mpr (.inl hi)
      · rw [CallInv, if_pos hlock, List.forall_mem_append, List.forall_mem_singleton]
        exact ⟨⟨hrunning, rfl⟩, .inr (.inl rfl)⟩
      · intro p m
        exact holdsAt_start hp (.inr rfl)
    · cases h
      refine inv.parent_plain hc hactive rfl (fun i hi => hi) ?_ ?_
      · rw [CallInv, if_pos hlock]
        exact ⟨hrunning, .inr (.inr ⟨true, rfl⟩)⟩
      · intro p m
        simp [holdsAt_iff, hlock, hp]
  · simp [parentStep, hp] at h

theorem Inv.held (inv : Inv job s) (hc : s.calls[n]? = some c) (hlock : c.call.jnolock = false)
    (hactive : c.active = true) (hi : i < c.call.njobs)
    (h : lock s.locks c.call.owner (c.call.jobwait (i + 1)) = none) :
    ∃ ch, c.children[i]? = some ch ∧ ch ≠ .wait := by
  obtain ⟨p, m, hm, hp, hconf⟩ := lock_eq_none.mp h
  obtain ⟨k, d, hd, hholds⟩ := (inv.locks p m).mp hm
  have hapart : k ≠ n → Pending d → ∀ j < d.call.njobs, d.call.jnolock = false →
      ¬ (d.call.jobwait (j + 1)).Conflicts (c.call.jobwait (i + 1)) := by
    intro hk hpend j hj hdlock
    obtain h | h | h := inv.apart k n d c hd hc hk hpend (.inl hactive)
    · exact absurd h (by rw [hdlock]; exact Bool.false_ne_true)
    · exact absurd h (by rw [hlock]; exact Bool.false_ne_true)
    · exact h j hj i hi
  cases hholds with
  | gate _ _ _ => exact absurd hconf gate_not_jobwait
  | below _ => exact absurd hconf below_not_jobwait
  | @got nth j hgot =>
    have hdactive : d.active = true := by rw [CallState.active, hgot]
    have hdlock : d.call.jnolock = false := (inv.call k d hd).lock_of_got hgot
    have hdinv := (callInv_lock hdlock).mp (inv.call k d hd)
    rw [hgot] at hdinv
    by_cases hk : k = n
    · subst hk
      rw [hc] at hd
      cases hd
      exact absurd rfl hp
    · exact absurd hconf (hapart hk (.inl hdactive) j hdinv.2.2.2 hdlock)
  | @jobwait j ch hj hch =>
    have hrunning : ch ≠ .running := by
      rintro rfl
      exact hch.elim (nomatch ·) (nomatch ·)
    have hdlock : d.call.jnolock = false :=
      (inv.call k d hd).lock_of_child (List.mem_of_getElem? hj) hrunning
    have hdinv := (callInv_lock hdlock).mp (inv.call k d hd)
    by_cases hk : k = n
    · subst hk
      rw [hc] at hd
      cases hd
      cases jobwait_conflicts hconf
      refine ⟨ch, hj, ?_⟩
      rintro rfl
      exact hch.elim (nomatch ·) (nomatch ·)
    · obtain ⟨hjlen, -⟩ := List.getElem?_eq_some_iff.mp hj
      have hpend : Pending d := .inr ⟨ch, List.mem_of_getElem? hj, hrunning⟩
      exact absurd hconf (hapart hk hpend j (hjlen.trans_le hdinv.1) hdlock)

theorem Inv.owner_ne_child (inv : Inv job s) (hc : s.calls[n]? = some c) (hactive : c.active = true)
    {ch : ChildPc} (hi : c.children[i]? = some ch) (hch : ch ≠ .running) :
    c.call.owner ≠ .child n i := by
  intro howner
  have hrun := inv.owner n c hc hactive
  rw [howner] at hrun
  obtain ⟨d, hd, hi'⟩ := hrun
  rw [hc] at hd
  cases hd
  rw [hi] at hi'
  exact hch (Option.some.inj hi')

theorem Inv.not_owner (inv : Inv job s) (hc : s.calls[n]? = some c) (hactive : c.active = true)
    (h : ∃ i ch, c.children[i]? = some ch ∧ p = .child n i ∧
      ((ch = .gate ∨ ch = .release) ∧ m = c.call.jobwait (i + 1) ∨
        ch = .release ∧ m = c.call.below (i + 1) (job (.child n i)))) : p ≠ c.call.owner := by
  obtain ⟨i, ch, hi, rfl, hm⟩ := h
  refine (inv.owner_ne_child hc hactive hi ?_).symm
  rintro rfl
  obtain ⟨h | h, -⟩ | ⟨h, -⟩ := hm <;> exact nomatch h

theorem gate_ne_jobwait {k k' : Call} {i : Nat} : k.gate ≠ k'.jobwait i := by
  intro h
  exact gate_not_jobwait (h ▸ ⟨rfl, .inl (List.prefix_refl _)⟩ : k.gate.Conflicts (k'.jobwait i))

theorem Inv.parent_locking (inv : Inv job s) (hc : s.calls[n]? = some c)
    (hlock : c.call.jnolock = false) (h : parentStep c s.locks = some (c', t')) :
    Inv job ⟨s.calls.set n c', t'⟩ := by
  have hinv := inv.call n c hc
  rw [callInv_lock hlock] at hinv
  obtain ⟨hlen, hbefore, hpc⟩ := hinv
  cases hp : c.parent with
  | enter =>
    have hactive : c.active = true := by rw [CallState.active, hp]
    rw [hp] at hpc
    simp only [parentStep, hp, hlock, Bool.false_eq_true, if_false, Option.map_eq_some_iff,
      Prod.mk.injEq] at h
    obtain ⟨t, ht, rfl, rfl⟩ := h
    obtain ⟨rfl, -⟩ := lock_eq_some ht
    refine inv.parent_lock hc hactive rfl rfl ?_ ?_ ?_
    · rw [callInv_lock (by exact hlock)]
      exact ⟨hlen, fun _ => hbefore hactive, trivial⟩
    · simp [holdsAt_iff, hp, hpc]
    · intro q m'
      simp [holdsAt_iff, hp, hpc, hlock, CallState.active]
  | job =>
    have hactive : c.active = true := by rw [CallState.active, hp]
    simp only [parentStep, hp, hlock, Bool.false_eq_true, if_false] at h
    split_ifs at h with hmore
    · cases h
      refine inv.parent_plain hc hactive rfl ?_ ?_ ?_
      · intro i hi
        exact getElem?_concat_iff.mpr (.inl hi)
      · rw [callInv_lock (by exact hlock)]
        refine ⟨?_, ?_, trivial⟩
        · rw [List.length_append]
          exact hmore
        · intro _
          rw [List.forall_mem_append, List.forall_mem_singleton]
          exact ⟨hbefore hactive, .inl rfl⟩
      · intro p m
        exact holdsAt_start hp (.inl rfl)
    · cases h
      refine inv.parent_plain hc hactive rfl (fun i hi => hi) ?_ ?_
      · rw [callInv_lock (by exact hlock)]
        exact ⟨hlen, fun _ => hbefore hactive, le_antisymm hlen (not_lt.mp hmore),
          fun _ j hj => absurd hj (Nat.not_lt_zero j)⟩
      · intro p m
        simp [holdsAt_iff, hp, CallState.active]
  | poll nth all i =>
    have hactive : c.active = true := by rw [CallState.active, hp]
    rw [hp] at hpc
    obtain ⟨hall, hseen⟩ := hpc
    simp only [parentStep, hp] at h
    split_ifs at h with hi hall' htry
    · split at h
      · rename_i t ht
        cases h
        obtain ⟨rfl, -⟩ := lock_eq_some ht
        refine inv.parent_lock hc hactive rfl rfl ?_ ?_ ?_
        · rw [callInv_lock (by exact hlock)]
          exact ⟨hlen, fun _ => hbefore hactive, hall, hi⟩
        · rw [holdsAt_iff]
          rintro (⟨-, -, -, -, hm⟩ | ⟨nth', i', hgot, -⟩ | hchild)
          · exact gate_ne_jobwait hm.symm
          · rw [hp] at hgot
            exact nomatch hgot
          · exact inv.not_owner hc hactive hchild rfl
        · intro q m'
          simp [holdsAt_iff, hp, hlock, CallState.active, or_left_comm]
      · rename_i ht
        cases h
        refine inv.parent_plain hc hactive rfl (fun i hi => hi) ?_ ?_
        · rw [callInv_lock (by exact hlock)]
          refine ⟨hlen, fun _ => hbefore hactive, hall, ?_⟩
          intro hseen' j hj ch hch
          obtain hj | rfl := Nat.lt_succ_iff_lt_or_eq.mp hj
          · exact hseen hseen' j hj ch hch
          · obtain ⟨ch', hch', hne⟩ := inv.held hc hlock hactive hi ht
            rw [hch] at hch'
            cases hch'
            exact (hbefore hactive ch (List.mem_of_getElem? hch)).resolve_left hne
        · intro p m
          simp [holdsAt_iff, hp, CallState.active]
    · cases h
      refine inv.parent_plain hc hactive rfl (fun i hi => hi) ?_ ?_
      · rw [callInv_lock (by exact hlock)]
        refine ⟨hlen, fun _ => hbefore hactive, hall, ?_⟩
        intro _ ch hch
        obtain ⟨j, hj, hget⟩ := List.getElem_of_mem hch
        have hj' : j < c.children.length := hj
        rw [hseen hall' j (by omega) ch (hget ▸ List.getElem?_eq_getElem hj)]
        exact ChildPc.noConfusion
      · intro p m
        simp [holdsAt_iff, hp, CallState.active]
    · cases h
      refine inv.parent_plain hc hactive rfl (fun i hi => hi) ?_ ?_
      · rw [callInv_lock (by exact hlock)]
        exact ⟨hlen, fun _ => hbefore hactive, hall, fun _ j hj => absurd hj (Nat.not_lt_zero j)⟩
      · intro p m
        simp [holdsAt_iff, hp, CallState.active]
    · cases h
      refine inv.parent_plain hc hactive rfl (fun i hi => hi) ?_ ?_
      · rw [callInv_lock (by exact hlock)]
        exact ⟨hlen, fun _ => hbefore hactive, hall, fun h => nomatch h⟩
      · intro p m
        simp [holdsAt_iff, hp, CallState.active]
  | got nth i =>
    have hactive : c.active = true := by rw [CallState.active, hp]
    rw [hp] at hpc
    simp only [parentStep, hp, Option.some.injEq, Prod.mk.injEq] at h
    obtain ⟨rfl, rfl⟩ := h
    refine inv.parent_unlock hc hactive rfl rfl ?_ ?_
    · rw [callInv_lock (by exact hlock)]
      exact ⟨hlen, fun _ => hbefore hactive, hpc.1, fun h => nomatch h⟩
    · intro q m'
      have hnot := @Inv.not_owner job s n c q m' inv hc hactive
      rw [holdsAt_iff, holdsAt_iff]
      simp only [hp, hlock, CallState.active, ne_eq, reduceCtorEq, not_false_eq_true, true_and,
        ParentPc.got.injEq, false_and, exists_false, false_or, Prod.mk.injEq]
      refine ⟨?_, ?_⟩
      · rintro (⟨rfl, rfl⟩ | h)
        · exact ⟨fun h => gate_ne_jobwait h.2, .inl ⟨rfl, rfl⟩⟩
        · exact ⟨fun h' => hnot h h'.1, .inr (.inr h)⟩
      · rintro ⟨hne, h | ⟨nth', i', ⟨rfl, rfl⟩, h⟩ | h⟩
        · exact .inl h
        · exact absurd h hne
        · exact .inr h
  | «open» all =>
    have hactive : c.active = true := by rw [CallState.active, hp]
    rw [hp] at hpc
    simp only [parentStep, hp, Option.some.injEq, Prod.mk.injEq] at h
    obtain ⟨rfl, rfl⟩ := h
    refine inv.parent_unlock hc hactive rfl rfl ?_ ?_
    · rw [callInv_lock (by exact hlock)]
      exact ⟨hlen, (fun h => nomatch h), hpc⟩
    · intro q m'
      have hnot := @Inv.not_owner job s n c q m' inv hc hactive
      rw [holdsAt_iff, holdsAt_iff]
      simp only [hp, hlock, CallState.active, ne_eq, reduceCtorEq, not_false_eq_true, true_and,
        false_and, exists_false, false_or, Prod.mk.injEq, Bool.false_eq_true]
      refine ⟨fun h => ⟨fun h' => hnot h h'.1, .inr h⟩, ?_⟩
      rintro ⟨hne, h | h⟩
      · exact absurd h hne
      · exact h
  | done all => simp [parentStep, hp] at h

theorem holdsAt_child {ch : ChildPc} (hi : c.children[i]? = some ch)
    (howner : c.active = true → c.call.owner ≠ .child n i) :
    HoldsAt job n c (.child n i) m ↔
      (ch = .gate ∨ ch = .release) ∧ m = c.call.jobwait (i + 1) ∨
        ch = .release ∧ m = c.call.below (i + 1) (job (.child n i)) := by
  rw [holdsAt_iff]
  refine ⟨?_, fun h => .inr (.inr ⟨i, ch, hi, rfl, h⟩)⟩
  rintro (⟨-, hactive, -, hp, -⟩ | ⟨nth, j, hgot, hp, -⟩ | ⟨j, ch', hj, hp, h⟩)
  · exact absurd hp.symm (howner hactive)
  · exact absurd hp.symm (howner (by rw [CallState.active, hgot]))
  · cases hp
    rw [hi] at hj
    cases hj
    exact h

theorem holdsAt_other {ch : ChildPc} (hp : p ≠ .child n i) :
    HoldsAt job n { c with children := c.children.set i ch } p m ↔ HoldsAt job n c p m := by
  rw [holdsAt_iff, holdsAt_iff]
  refine or_congr_right (or_congr_right (exists_congr fun j => exists_congr fun ch' => ?_))
  rw [and_left_comm, @and_left_comm (c.children[j]? = some ch')]
  refine and_congr_right fun hj => ?_
  have hne : i ≠ j := by
    rintro rfl
    exact hp hj
  rw [List.getElem?_set_ne hne]

theorem Inv.child_set (inv : Inv job s) (hc : s.calls[n]? = some c) {ch ch' : ChildPc}
    (hi : c.children[i]? = some ch) (hch : ch ≠ .running)
    (hinv : CallInv { c with children := c.children.set i ch' }) (hnodup : t'.Nodup)
    (hother : ∀ p m, p ≠ .child n i → ((p, m) ∈ t' ↔ (p, m) ∈ s.locks))
    (hown : ∀ m, (.child n i, m) ∈ t' ↔ (ch' = .gate ∨ ch' = .release) ∧ m = c.call.jobwait (i + 1) ∨
        ch' = .release ∧ m = c.call.below (i + 1) (job (.child n i))) :
    Inv job ⟨s.calls.set n { c with children := c.children.set i ch' }, t'⟩ := by
  obtain ⟨hilen, -⟩ := List.getElem?_eq_some_iff.mp hi
  refine inv.set hc rfl id ?_ ?_ hinv hnodup ?_
  · intro j hj
    have hne : i ≠ j := by
      rintro rfl
      rw [hi] at hj
      exact hch (Option.some.inj hj)
    rw [List.getElem?_set_ne hne]
    exact hj
  · exact fun _ => .inr ⟨ch, List.mem_of_getElem? hi, hch⟩
  · intro p m
    by_cases hp : p = .child n i
    · subst hp
      have hset : (c.children.set i ch')[i]? = some ch' := List.getElem?_set_self hilen
      have howner : c.active = true → c.call.owner ≠ .child n i :=
        fun hactive => inv.owner_ne_child hc hactive hi hch
      have hchild := @holdsAt_child job n i ⟨c.call, c.parent, c.children.set i ch'⟩ m ch' hset howner
      rw [hown, hchild]
      refine (or_iff_left ?_).symm
      rintro ⟨k, d, hk, hd, h⟩
      exact hk (inv.of_child hc hi hch hd h)
    · rw [hother p m hp, inv.mem_locks hc, holdsAt_other hp]

theorem Inv.child_mem (inv : Inv job s) (hc : s.calls[n]? = some c) {ch : ChildPc}
    (hi : c.children[i]? = some ch) (hch : ch ≠ .running) :
    (.child n i, m) ∈ s.locks ↔ (ch = .gate ∨ ch = .release) ∧ m = c.call.jobwait (i + 1) ∨
        ch = .release ∧ m = c.call.below (i + 1) (job (.child n i)) := by
  rw [inv.mem_locks hc, holdsAt_child hi fun hactive => inv.owner_ne_child hc hactive hi hch]
  refine or_iff_left ?_
  rintro ⟨k, d, hk, hd, h⟩
  exact hk (inv.of_child hc hi hch hd h)

theorem Inv.gate_open (inv : Inv job s) (hc : s.calls[n]? = some c) (hi : c.children[i]? = some .gate)
    (h : lock s.locks (.child n i) (c.call.below (i + 1) (job (.child n i))) = some t') :
    c.active = false := by
  by_contra hactive
  rw [Bool.not_eq_false] at hactive
  have hlock := (inv.call n c hc).lock_of_child (List.mem_of_getElem? hi) (nomatch ·)
  have henter : c.parent ≠ .enter := by
    intro hp
    have hinv := (callInv_lock hlock).mp (inv.call n c hc)
    rw [hp] at hinv
    have hmem := List.mem_of_getElem? hi
    rw [hinv.2.2] at hmem
    exact nomatch hmem
  have hgate : (c.call.owner, c.call.gate) ∈ s.locks :=
    (inv.mem_locks hc _ _).mpr (.inl (.gate hlock hactive henter))
  have howner := (lock_eq_some h).2 _ _ hgate gate_below
  exact inv.owner_ne_child hc hactive hi (nomatch ·) howner

theorem CallInv.set_child (h : CallInv c) (hlock : c.call.jnolock = false) {ch' : ChildPc}
    (hactive : c.active = true → ch' = .gate) (hne : ch' ≠ .wait) :
    CallInv { c with children := c.children.set i ch' } := by
  rw [callInv_lock hlock] at h
  rw [callInv_lock (by exact hlock)]
  obtain ⟨hlen, hbefore, hpc⟩ := h
  have hnowait : (∀ ch ∈ c.children, ch ≠ .wait) → ∀ ch ∈ c.children.set i ch', ch ≠ .wait := by
    intro hall ch hch
    obtain hch | rfl := List.mem_or_eq_of_mem_set hch
    · exact hall ch hch
    · exact hne
  simp only [List.length_set]
  refine ⟨hlen, ?_, ?_⟩
  · intro hact ch hch
    obtain hch | rfl := List.mem_or_eq_of_mem_set hch
    · exact hbefore hact ch hch
    · exact .inr (hactive hact)
  · cases hp : c.parent with
    | enter =>
      rw [hp] at hpc
      simp only [hpc, List.set_nil]
    | job => exact trivial
    | poll nth all k =>
      rw [hp] at hpc
      refine ⟨hpc.1, ?_⟩
      intro hall j hj ch hch
      obtain rfl | hij := eq_or_ne i j
      · obtain ⟨hlt, hget⟩ := List.getElem?_eq_some_iff.mp hch
        rw [List.getElem_set_self] at hget
        rw [← hget]
        exact hactive (by rw [CallState.active, hp])
      · rw [List.getElem?_set_ne hij] at hch
        exact hpc.2 hall j hj ch hch
    | got nth k =>
      rw [hp] at hpc
      exact hpc
    | «open» all =>
      rw [hp] at hpc
      exact ⟨hpc.1, fun hall => hnowait (hpc.2 hall)⟩
    | done all =>
      rw [hp] at hpc
      exact ⟨hpc.1, fun hall => hnowait (hpc.2 hall)⟩

theorem below_ne_jobwait {k k' : Call} {i j l : Nat} : k.below j l ≠ k'.jobwait i := by
  intro h
  exact below_not_jobwait (h ▸ ⟨rfl, .inl (List.prefix_refl _)⟩ :
    (k.below j l).Conflicts (k'.jobwait i))

theorem Inv.child (inv : Inv job s) (hc : s.calls[n]? = some c) {ch' : ChildPc}
    (h : childStep job n i c s.locks = some (ch', t')) :
    Inv job ⟨s.calls.set n { c with children := c.children.set i ch' }, t'⟩ := by
  cases hi : c.children[i]? with
  | none => simp [childStep, hi] at h
  | some ch =>
    have hmem := List.mem_of_getElem? hi
    cases ch with
    | running => simp [childStep, hi] at h
    | wait =>
      have hlock := (inv.call n c hc).lock_of_child hmem (nomatch ·)
      simp only [childStep, hi, Option.map_eq_some_iff, Prod.mk.injEq] at h
      obtain ⟨t, ht, rfl, rfl⟩ := h
      obtain ⟨rfl, -⟩ := lock_eq_some ht
      refine inv.child_set hc hi (nomatch ·)
        ((inv.call n c hc).set_child hlock (fun _ => rfl) (nomatch ·)) ?_ ?_ ?_
      · rw [List.nodup_cons, inv.child_mem hc hi (nomatch ·)]
        simp [inv.nodup]
      · intro p m hp
        simp [hp]
      · intro m
        rw [List.mem_cons, inv.child_mem hc hi (nomatch ·)]
        simp
    | gate =>
      have hlock := (inv.call n c hc).lock_of_child hmem (nomatch ·)
      simp only [childStep, hi, Option.map_eq_some_iff, Prod.mk.injEq] at h
      obtain ⟨t, ht, rfl, rfl⟩ := h
      have hopen := inv.gate_open hc hi ht
      obtain ⟨rfl, -⟩ := lock_eq_some ht
      refine inv.child_set hc hi (nomatch ·)
        ((inv.call n c hc).set_child hlock (by simp [hopen]) (nomatch ·)) ?_ ?_ ?_
      · rw [List.nodup_cons, inv.child_mem hc hi (nomatch ·)]
        simp [inv.nodup, below_ne_jobwait]
      · intro p m hp
        simp [hp]
      · intro m
        rw [List.mem_cons, inv.child_mem hc hi (nomatch ·)]
        simp [or_comm]
    | release =>
      have hlock := (inv.call n c hc).lock_of_child hmem (nomatch ·)
      have hopen : c.active = false := by
        by_contra hactive
        have hinv := (callInv_lock hlock).mp (inv.call n c hc)
        obtain h | h := hinv.2.1 (by simpa using hactive) _ hmem <;> exact nomatch h
      simp only [childStep, hi, Option.some.injEq, Prod.mk.injEq] at h
      obtain ⟨rfl, rfl⟩ := h
      refine inv.child_set hc hi (nomatch ·)
        ((inv.call n c hc).set_child hlock (by simp [hopen]) (nomatch ·)) (inv.nodup.filter _) ?_ ?_
      · intro p m hp
        rw [mem_unlockAll, and_iff_left hp]
      · intro m
        rw [mem_unlockAll]
        simp

end Steps

section Runs

variable {s s' : State} {n : Nat} {c : CallState} {k k' : Call}

/-- Before a call is made, all that may lock the same names are through. -/
def Separate (s : State) : Act → Prop
  | .call k => ∀ c ∈ s.calls, Pending c → Apart k c.call
  | _ => True

theorem Apart.symm (h : Apart k k') : Apart k' k := by
  obtain h | h | h := h
  · exact .inr (.inl h)
  · exact .inl h
  · refine .inr (.inr fun i hi j hj hconf => h j hj i hi ?_)
    exact ⟨hconf.1.symm, hconf.2.symm⟩

theorem apart_of_jobid (hk : k.jobid ≠ []) (hk' : k'.jobid ≠ []) (h : k.jobid ≠ k'.jobid) :
    Apart k k' := by
  refine .inr (.inr fun i _ j _ hconf => h ?_)
  have hlen : (k.jobwait (i + 1)).subs.length = (k'.jobwait (j + 1)).subs.length := by
    simp only [Call.jobwait, if_neg hk, if_neg hk']
    rfl
  have heq := congrArg Name.subs (hconf.eq_of_length hlen)
  simp only [Call.jobwait, if_neg hk, if_neg hk', List.cons.injEq] at heq
  exact heq.1

theorem Inv.newCall (inv : Inv job s) (hidle : idle s k.owner = true)
    (hapart : ∀ c ∈ s.calls, Pending c → Apart k c.call) :
    Inv job ⟨s.calls ++ [⟨k, .enter, []⟩], s.locks⟩ := by
  have hnone : ∀ {n p m}, ¬ HoldsAt job n ⟨k, .enter, []⟩ p m := by
    intro n p m h
    rw [holdsAt_iff] at h
    simp at h
  have hruns : ∀ {p}, Runs s.calls p → Runs (s.calls ++ [⟨k, .enter, []⟩]) p := by
    rintro (r | ⟨n, i⟩)
    · exact id
    · rintro ⟨c, hc, hi⟩
      exact ⟨c, getElem?_concat_iff.mpr (.inl hc), hi⟩
  rw [idle.eq_def, Bool.and_eq_true, List.all_eq_true] at hidle
  obtain ⟨hrun, hfree⟩ := hidle
  have hother : ∀ (n : Nat) (c : CallState), s.calls[n]? = some c → c.active = true → c.call.owner ≠ k.owner := by
    intro n c hc hactive
    simpa [hactive] using hfree c (List.mem_of_getElem? hc)
  refine ⟨inv.nodup, ?_, ?_, ?_, ?_, ?_⟩
  · intro p m
    rw [inv.locks]
    simp only [getElem?_concat_iff]
    refine exists_congr fun n => exists_congr fun c => and_congr_left fun h => ?_
    refine (or_iff_left ?_).symm
    rintro ⟨-, rfl⟩
    exact hnone h
  · intro n c hc hactive
    obtain hc | ⟨-, rfl⟩ := getElem?_concat_iff.mp hc
    · exact hruns (inv.owner n c hc hactive)
    · apply hruns
      show Runs s.calls k.owner
      cases hk : k.owner with
      | root r => exact trivial
      | child n i =>
        rw [hk, decide_eq_true_eq] at hrun
        exact Option.bind_eq_some_iff.mp hrun
  · intro n n' c c' hc hc' hactive hactive' howner
    obtain hc | ⟨rfl, rfl⟩ := getElem?_concat_iff.mp hc
    · obtain hc' | ⟨-, rfl⟩ := getElem?_concat_iff.mp hc'
      · exact inv.one n n' c c' hc hc' hactive hactive' howner
      · exact absurd howner (hother n c hc hactive)
    · obtain hc' | ⟨rfl, -⟩ := getElem?_concat_iff.mp hc'
      · exact absurd howner.symm (hother n' c' hc' hactive')
      · rfl
  · intro n n' c c' hc hc' hn hp hp'
    obtain hc | ⟨rfl, rfl⟩ := getElem?_concat_iff.mp hc
    · obtain hc' | ⟨-, rfl⟩ := getElem?_concat_iff.mp hc'
      · exact inv.apart n n' c c' hc hc' hn hp hp'
      · exact (hapart c (List.mem_of_getElem? hc) hp).symm
    · obtain hc' | ⟨rfl, -⟩ := getElem?_concat_iff.mp hc'
      · exact hapart c' (List.mem_of_getElem? hc') hp'
      · exact absurd rfl hn
  · intro n c hc
    obtain hc | ⟨-, rfl⟩ := getElem?_concat_iff.mp hc
    · exact inv.call n c hc
    · rw [CallInv]
      split_ifs
      · exact ⟨fun _ h => (nomatch h), .inl rfl⟩
      · exact ⟨Nat.zero_le _, fun _ _ h => (nomatch h), rfl⟩

theorem Inv.step (inv : Inv job s) {a : Act} (hs : step job s a = some s') (ha : Separate s a) :
    Inv job s' := by
  cases a with
  | call k =>
    rw [Job.step] at hs
    split_ifs at hs with hidle
    cases hs
    exact inv.newCall hidle ha
  | parent n =>
    rw [Job.step, Option.bind_eq_some_iff] at hs
    obtain ⟨c, hc, hs⟩ := hs
    obtain ⟨⟨c', t'⟩, hstep, rfl⟩ := Option.map_eq_some_iff.mp hs
    cases hlock : c.call.jnolock
    · exact inv.parent_locking hc hlock hstep
    · exact inv.parent_nolock hc hlock hstep
  | child n i =>
    rw [Job.step, Option.bind_eq_some_iff] at hs
    obtain ⟨c, hc, hs⟩ := hs
    obtain ⟨⟨ch', t'⟩, hstep, rfl⟩ := Option.map_eq_some_iff.mp hs
    exact inv.child hc hstep

theorem inv_reaches (h : Reaches job Separate s) : Inv job s := by
  induction h with
  | init =>
    refine ⟨List.nodup_nil, ?_, ?_, ?_, ?_, ?_⟩ <;> simp
  | step h hs ha ih => exact ih.step hs ha

/-- A child runs only when all children of its call have had their `^%jobwait` locks and the parent
has opened the gate, or when the parent has said that it waited too long. -/
theorem barrier_holds (h : Reaches job Separate s) (hc : s.calls[n]? = some c)
    (hlock : c.call.jnolock = false) (hrun : .running ∈ c.children) :
    c.parent = .done false ∨ c.parent = .done true ∧ c.children.length = c.call.njobs ∧
      ∀ ch ∈ c.children, ch ≠ .wait := by
  have hinv := (callInv_lock hlock).mp ((inv_reaches h).call n c hc)
  obtain ⟨-, hbefore, hpc⟩ := hinv
  have hinactive : ¬ c.active = true := by
    intro hactive
    obtain h | h := hbefore hactive _ hrun <;> exact nomatch h
  cases hp : c.parent with
  | done all =>
    rw [hp] at hpc
    cases all
    · exact .inl rfl
    · exact .inr ⟨rfl, hpc.1, hpc.2 rfl⟩
  | _ => exact absurd (by rw [CallState.active, hp]) hinactive

theorem reaches_foldlM {P : State → Act → Prop} {acts : List Act} (h : Reaches job P s)
    (hP : ∀ a ∈ acts, ∀ s, P s a) (hs : acts.foldlM (step job) s = some s') : Reaches job P s' := by
  induction acts generalizing s with
  | nil =>
    cases hs
    exact h
  | cons a acts ih =>
    rw [List.forall_mem_cons] at hP
    rw [List.foldlM_cons, Option.bind_eq_bind, Option.bind_eq_some_iff] at hs
    obtain ⟨s₁, hs₁, hs⟩ := hs
    exact ih (h.step hs₁ (hP.1 s)) hP.2 hs

end Runs

section Sample

def pid : Proc → Nat
  | .root k => k
  | .child n i => 100 * n + i

def first : Call := ⟨.root 7, lit "child^prog", lit "1", 2, false⟩

def second : Call := ⟨.root 8, lit "child^prog", lit "2", 1, false⟩

/-- Two processes call at once, with a `jobid` each, and a child of the first runs. -/
theorem barrier_holds_two_calls : ∃ s c, Reaches pid Separate s ∧ s.calls[0]? = some c ∧
    .running ∈ c.children ∧ ∀ ch ∈ c.children, ch ≠ .wait := by
  have hone : Reaches pid Separate ⟨[⟨first, .enter, []⟩], []⟩ :=
    Reaches.init.step (a := .call first) rfl (fun _ h => nomatch h)
  have htwo : Reaches pid Separate ⟨[⟨first, .enter, []⟩, ⟨second, .enter, []⟩], []⟩ := by
    refine hone.step (a := .call second) rfl ?_
    intro c hc _
    rw [List.mem_singleton.mp hc]
    exact apart_of_jobid (by decide) (by decide) (by decide)
  have hreach : Reaches pid Separate ⟨[⟨first, .done true, [.gate, .running]⟩,
      ⟨second, .job, [.wait]⟩], [(.root 8, second.gate), (.child 0 0, first.jobwait 1)]⟩ :=
    @reaches_foldlM pid _ _ Separate
      [.parent 0, .parent 0, .parent 0, .child 0 1, .parent 0, .child 0 0, .parent 0, .parent 0,
        .parent 0, .parent 0, .child 0 1, .child 0 1, .parent 1, .parent 1] htwo (by simp [Separate])
      (by rfl)
  have hrunning : ChildPc.running ∈ [ChildPc.gate, .running] := by decide
  refine ⟨_, ⟨first, .done true, [.gate, .running]⟩, hreach, rfl, hrunning, ?_⟩
  obtain h | ⟨-, -, hwait⟩ :=
    @barrier_holds pid _ 0 ⟨first, .done true, [.gate, .running]⟩ hreach rfl rfl hrunning
  · exact nomatch h
  · exact hwait

/-- A second call without a `jobid`, made while the children of the first are still at the gate:
one of its children runs before the other has come so far. With `jnolock` there is no barrier. -/
theorem children_early :
    (∃ s c, Reaches pid (fun _ _ => True) s ∧ s.calls[1]? = some c ∧ c.call.jnolock = false ∧
      .running ∈ c.children ∧ c.parent = .done true ∧ .wait ∈ c.children) ∧
    ∃ s c, Reaches pid (fun _ _ => True) s ∧ s.calls[0]? = some c ∧ c.call.jnolock = true ∧
      .running ∈ c.children ∧ c.children.length < c.call.njobs := by
  refine ⟨?_, ?_⟩
  · have hrun := fun s' => @reaches_foldlM pid _ s' (fun _ _ => True)
      [.call ⟨.root 7, lit "child^prog", [], 2, false⟩, .parent 0, .parent 0, .parent 0, .parent 0,
        .child 0 0, .child 0 1, .parent 0, .parent 0, .parent 0, .parent 0,
        .call ⟨.root 7, lit "child^prog", [], 2, false⟩, .parent 1, .parent 1, .parent 1, .parent 1,
        .parent 1, .parent 1, .parent 1, .parent 1, .child 0 0, .child 0 0, .child 1 0, .child 1 0,
        .child 1 0] .init (fun _ _ _ => trivial)
    exact ⟨_, _, hrun _ (by rfl), rfl, rfl, by decide, rfl, by decide⟩
  · have hrun := fun s' => @reaches_foldlM pid _ s' (fun _ _ => True)
      [.call ⟨.root 7, lit "child^prog", [], 2, true⟩, .parent 0, .parent 0] .init
      (fun _ _ _ => trivial)
    exact ⟨_, _, hrun _ (by rfl), rfl, rfl, by decide, by decide⟩

end Sample

end YdbTest.JobBarrier
