import YdbTest.ThreeEn1Runs
import YdbTest.ThreeEn1Shares
import Mathlib.Algebra.BigOperators.Group.Finset.Basic
import Mathlib.Algebra.BigOperators.Intervals

namespace YdbTest.ThreeEn1

open MString MLocks

variable {l : Problem} {db0 : Db} {σ σ' : Sys} {x x' : Worker} {w u : Nat} {late : Bool}

def Pc.waiting : Pc → Nat
  | .lockL2 | .decr => 1
  | _ => 0

/-- The job holds its lock below `l2`. -/
def Pc.Held : Pc → Prop
  | .absent | .lockL2 | .done => False
  | _ => True

def Parent.pending : Parent → Int
  | .job _ => 1
  | _ => 0

def Parent.told : Parent → Option Bool
  | .unlockL1 late | .lockL2 late | .report late => some late
  | _ => none

def waiting (l : Problem) (σ : Sys) : Nat :=
  ∑ w ∈ Finset.range l.k, (σ.workers w).pc.waiting

structure Barrier (l : Problem) (σ : Sys) : Prop where
  count : σ.db.count = waiting l σ + σ.parent.pending
  fits : σ.parent.Fits l
  absent : ∀ w, (σ.workers w).pc = .absent ↔ σ.parent.started l ≤ w
  fresh : ∀ w, (σ.workers w).pc = .lockL2 → σ.workers w = Worker.new
  gone : ∀ w, (σ.workers w).pc = .absent → σ.workers w = { Worker.new with pc := .absent }
  held : ∀ w, (σ.workers w).pc.Held → (.job w, ⟨.l2, [w]⟩) ∈ σ.locks
  started : σ.parent.told = some false → waiting l σ = 0
  reported : ∀ late, σ.parent = .report late →
    (.parent, ⟨.l2, []⟩) ∈ σ.locks ∧ ∀ w, ¬ (σ.workers w).pc.Held

theorem start_barrier : Barrier l (start db0) where
  count := by simp [waiting, start, Pc.waiting, Parent.pending]
  fits := trivial
  absent := fun w => iff_of_true rfl (Nat.zero_le _)
  fresh := fun _ h => Pc.noConfusion h
  gone := fun _ _ => rfl
  held := fun _ h => absurd h id
  started := fun h => absurd h (Option.some_ne_none _).symm
  reported := fun _ h => Parent.noConfusion h

theorem waiting_congr (h : ∀ w, (σ'.workers w).pc.waiting = (σ.workers w).pc.waiting) :
    waiting l σ' = waiting l σ := Finset.sum_congr rfl fun w _ => h w

theorem waiting_update (hw : w < l.k) (h : σ'.workers = Function.update σ.workers w x) :
    waiting l σ' + (σ.workers w).pc.waiting = waiting l σ + x.pc.waiting := by
  have hmem : w ∈ Finset.range l.k := Finset.mem_range.mpr hw
  have hnew := Finset.add_sum_erase (Finset.range l.k) (fun u => (σ'.workers u).pc.waiting) hmem
  have hold := Finset.add_sum_erase (Finset.range l.k) (fun u => (σ.workers u).pc.waiting) hmem
  have hrest : ∑ u ∈ (Finset.range l.k).erase w, (σ'.workers u).pc.waiting =
      ∑ u ∈ (Finset.range l.k).erase w, (σ.workers u).pc.waiting := by
    refine Finset.sum_congr rfl fun u hu => ?_
    rw [h, Function.update_of_ne (Finset.ne_of_mem_erase hu)]
  simp only [h, Function.update_self] at hnew hrest
  unfold waiting
  simp only [h]
  omega

theorem waiting_zero (h : waiting l σ = 0) (hw : w < l.k) : (σ.workers w).pc.waiting = 0 :=
  Finset.sum_eq_zero_iff.mp h w (Finset.mem_range.mpr hw)

theorem Parent.started_le {p : Parent} (h : p.Fits l) : p.started l ≤ l.k := by
  cases p with
  | lockL1 => exact Nat.zero_le _
  | incr s => exact h
  | job s => exact Nat.le_of_lt h
  | _ => exact Nat.le_refl _

theorem Barrier.move (hb : Barrier l σ) (hpc : (σ.workers w).pc ≠ .absent)
    (hx : σ'.workers = Function.update σ.workers w x) (hp : σ'.parent = σ.parent)
    (hnew : x.pc ≠ .absent ∧ x.pc ≠ .lockL2)
    (hcount : σ'.db.count + (σ.workers w).pc.waiting = σ.db.count + x.pc.waiting)
    (hdown : x.pc.waiting ≤ (σ.workers w).pc.waiting)
    (hheld : x.pc.Held → (.job w, ⟨.l2, [w]⟩) ∈ σ'.locks)
    (hlocks : ∀ q ≠ Proc.job w, ∀ n, (q, n) ∈ σ.locks → (q, n) ∈ σ'.locks)
    (hreport : ∀ late, σ.parent = .report late → ¬ x.pc.Held) : Barrier l σ' := by
  have hlt : w < l.k := by
    have hstart := mt (hb.absent w).mpr hpc
    have := Parent.started_le hb.fits
    omega
  have hsum := waiting_update hlt hx
  have hself : σ'.workers w = x := by rw [hx, Function.update_self]
  have hother : ∀ u ≠ w, σ'.workers u = σ.workers u := by
    intro u hu
    rw [hx, Function.update_of_ne hu]
  constructor
  · have := hb.count
    rw [hp]
    omega
  · exact hp ▸ hb.fits
  · intro u
    rw [hp]
    by_cases hu : u = w
    · subst hu
      rw [hself]
      exact iff_of_false hnew.1 (mt (hb.absent u).mpr hpc)
    · rw [hother u hu]
      exact hb.absent u
  · intro u h
    by_cases hu : u = w
    · subst hu
      exact absurd (hself ▸ h) hnew.2
    · rw [hother u hu] at h ⊢
      exact hb.fresh u h
  · intro u h
    by_cases hu : u = w
    · subst hu
      exact absurd (hself ▸ h) hnew.1
    · rw [hother u hu] at h ⊢
      exact hb.gone u h
  · intro u h
    by_cases hu : u = w
    · subst hu
      exact hheld (hself ▸ h)
    · rw [hother u hu] at h
      exact hlocks _ (fun he => hu (Proc.job.inj he)) _ (hb.held u h)
  · intro h
    have := hb.started (hp ▸ h)
    omega
  · intro late h
    rw [hp] at h
    obtain ⟨hl2, hnone⟩ := hb.reported late h
    refine ⟨hlocks _ Proc.noConfusion _ hl2, fun u => ?_⟩
    by_cases hu : u = w
    · subst hu
      rw [hself]
      exact hreport late h
    · rw [hother u hu]
      exact hnone u

theorem Barrier.no_lock (hb : Barrier l σ) {t : Locks} (h : lock σ.locks (.job w) ⟨.l2, [w]⟩ = some t) :
    σ.parent ≠ .report late := by
  intro hp
  have hmem := (hb.reported late hp).1
  have := (lock_eq_some h).2 .parent _ hmem (Name.conflicts_above _ _)
  exact Proc.noConfusion this

theorem work_place {db db' : Db} (hw : work l db x = some (db', x')) : x.pc.Held ∧
    x'.pc.Held ∧ x'.pc.waiting = 0 ∧ db'.count + x.pc.waiting = db.count := by
  cases hpc : x.pc with
  | decr =>
    simp only [work, hpc] at hw
    obtain ⟨rfl, rfl⟩ := Prod.mk.inj (Option.some.inj hw)
    refine ⟨trivial, trivial, rfl, ?_⟩
    simp [Pc.waiting]
  | scan tmp =>
    simp only [work, hpc] at hw
    split at hw
    all_goals
      obtain ⟨rfl, rfl⟩ := Prod.mk.inj (Option.some.inj hw)
      exact ⟨trivial, trivial, rfl, Int.add_zero _⟩
  | claim tmp =>
    simp only [work, hpc] at hw
    split at hw
    all_goals
      obtain ⟨rfl, rfl⟩ := Prod.mk.inj (Option.some.inj hw)
      exact ⟨trivial, trivial, rfl, Int.add_zero _⟩
  | walk tmp c p n =>
    simp only [work, hpc] at hw
    split_ifs at hw
    all_goals obtain ⟨rfl, rfl⟩ := Prod.mk.inj (Option.some.inj hw)
    · simp only [Worker.advance]
      split
      all_goals exact ⟨trivial, trivial, rfl, Int.add_zero _⟩
    all_goals exact ⟨trivial, trivial, rfl, Int.add_zero _⟩
  | known tmp c p n =>
    simp only [work, hpc] at hw
    obtain ⟨rfl, rfl⟩ := Prod.mk.inj (Option.some.inj hw)
    exact ⟨trivial, trivial, rfl, Int.add_zero _⟩
  | maximum tmp c p i =>
    simp only [work, hpc] at hw
    obtain ⟨rfl, rfl⟩ := Prod.mk.inj (Option.some.inj hw)
    refine ⟨trivial, trivial, rfl, ?_⟩
    split
    all_goals exact Int.add_zero _
  | store tmp c todo =>
    simp only [work, hpc] at hw
    cases todo with
    | nil =>
      obtain ⟨rfl, rfl⟩ := Prod.mk.inj (Option.some.inj hw)
      simp only [Worker.advance]
      split
      all_goals exact ⟨trivial, trivial, rfl, Int.add_zero _⟩
    | cons e todo =>
      obtain ⟨rfl, rfl⟩ := Prod.mk.inj (Option.some.inj hw)
      exact ⟨trivial, trivial, rfl, Int.add_zero _⟩
  | finish =>
    simp only [work, hpc] at hw
    obtain ⟨rfl, rfl⟩ := Prod.mk.inj (Option.some.inj hw)
    refine ⟨trivial, trivial, rfl, ?_⟩
    simp only [Db.statistics]
    split_ifs
    all_goals exact Int.add_zero _
  | absent | lockL2 | lockL1 | unlock | done =>
    simp only [work, hpc] at hw
    exact absurd hw (Option.some_ne_none _).symm

theorem worker_barrier (hb : Barrier l σ) (hs : workerStep l w σ = some σ') : Barrier l σ' := by
  cases hpc : (σ.workers w).pc with
  | lockL2 =>
    simp only [workerStep, hpc, Option.map_eq_some_iff] at hs
    obtain ⟨t, hlock, rfl⟩ := hs
    have ht := (lock_eq_some hlock).1
    refine hb.move (w := w) (x := { σ.workers w with pc := .decr }) (by simp [hpc]) rfl rfl
      ⟨Pc.noConfusion, Pc.noConfusion⟩ (by rw [hpc]; rfl) (by rw [hpc]; exact Nat.le_refl _) ?_ ?_ ?_
    · exact fun _ => ht ▸ List.mem_cons_self
    · exact fun q _ n h => ht ▸ List.mem_cons_of_mem _ h
    · exact fun late h => absurd h (hb.no_lock hlock)
  | lockL1 =>
    simp only [workerStep, hpc, Option.map_eq_some_iff] at hs
    obtain ⟨t, hlock, rfl⟩ := hs
    have ht := (lock_eq_some hlock).1
    refine hb.move (w := w) (x := { σ.workers w with pc := .scan 0 }) (by simp [hpc]) rfl rfl
      ⟨Pc.noConfusion, Pc.noConfusion⟩ (by rw [hpc]; rfl) (by rw [hpc]; exact Nat.le_refl _) ?_ ?_ ?_
    · exact fun _ => ht ▸ List.mem_cons_of_mem _ (hb.held w (by rw [hpc]; trivial))
    · exact fun q _ n h => ht ▸ List.mem_cons_of_mem _ h
    · exact fun late h _ => (hb.reported late h).2 w (by rw [hpc]; trivial)
  | unlock =>
    simp only [workerStep, hpc] at hs
    obtain rfl := Option.some.inj hs
    refine hb.move (w := w) (x := { σ.workers w with pc := .done }) (by simp [hpc]) rfl rfl
      ⟨Pc.noConfusion, Pc.noConfusion⟩ (by rw [hpc]; rfl) (by rw [hpc]; exact Nat.le_refl _)
      (fun h => absurd h id) ?_ (fun _ _ => id)
    intro q hq n h
    refine (List.mem_erase_of_ne fun he => hq (congrArg Prod.fst he)).mpr ?_
    exact (List.mem_erase_of_ne fun he => hq (congrArg Prod.fst he)).mpr h
  | absent =>
    simp only [workerStep, hpc, work, Option.map_none] at hs
    exact absurd hs (Option.some_ne_none _).symm
  | done =>
    simp only [workerStep, hpc, work, Option.map_none] at hs
    exact absurd hs (Option.some_ne_none _).symm
  | decr | scan | claim | walk | known | maximum | store | finish =>
    have hstep : (work l σ.db (σ.workers w)).map (fun r => { σ.setWorker w r.2 with db := r.1 }) =
        some σ' := by
      rw [← hs]
      simp only [workerStep, hpc]
    obtain ⟨⟨db', x'⟩, hwork, rfl⟩ := Option.map_eq_some_iff.mp hstep
    obtain ⟨hheld, hheld', hzero, hcount⟩ := work_place hwork
    have hnew : x'.pc ≠ .absent ∧ x'.pc ≠ .lockL2 := by
      refine ⟨fun h => ?_, fun h => ?_⟩
      all_goals
        rw [h] at hheld'
        exact hheld'
    refine hb.move (w := w) (x := x') (by simp [hpc]) rfl rfl hnew (by simp only; omega) (by omega) ?_
      (fun _ _ _ h => h) ?_
    · exact fun _ => hb.held w hheld
    · exact fun late h _ => (hb.reported late h).2 w hheld

theorem parent_barrier (hb : Barrier l σ) (hs : parentStep l σ = some σ') : Barrier l σ' := by
  have hkeep : ∀ {τ : Sys}, τ.workers = σ.workers → τ.parent.Fits l →
      τ.parent.started l = σ.parent.started l →
      τ.db.count = waiting l σ + τ.parent.pending →
      (∀ w n, (Proc.job w, n) ∈ σ.locks → (Proc.job w, n) ∈ τ.locks) →
      (τ.parent.told = some false → waiting l σ = 0) →
      (∀ late, τ.parent = .report late → (.parent, ⟨.l2, []⟩) ∈ τ.locks ∧
        ∀ w, ¬ (σ.workers w).pc.Held) → Barrier l τ := by
    intro τ hw hfits hstarted hcount hlocks hlate hreport
    have hsum : waiting l τ = waiting l σ := waiting_congr fun w => by rw [hw]
    refine ⟨by rw [hsum, hcount], hfits, ?_, ?_, ?_, ?_, by rw [hsum]; exact hlate, ?_⟩
    · rw [hw, hstarted]
      exact hb.absent
    · rw [hw]
      exact hb.fresh
    · rw [hw]
      exact hb.gone
    · rw [hw]
      exact fun w h => hlocks w _ (hb.held w h)
    · rw [hw]
      exact hreport
  have hcount := hb.count
  have hfits := hb.fits
  cases hpar : σ.parent with
  | lockL1 =>
    simp only [parentStep, hpar, Option.map_eq_some_iff] at hs
    obtain ⟨t, hlock, rfl⟩ := hs
    rw [hpar] at hcount
    have ht := (lock_eq_some hlock).1
    exact hkeep rfl (Nat.zero_le _) (by rw [hpar]; rfl) hcount
      (fun w n h => ht ▸ List.mem_cons_of_mem _ h) (fun h => absurd h (Option.some_ne_none _).symm)
      fun late h => Parent.noConfusion h
  | incr s =>
    rw [hpar] at hcount hfits
    simp only [parentStep, hpar] at hs
    split at hs
    · rename_i hlt
      obtain rfl := Option.some.inj hs
      refine hkeep rfl hlt (by rw [hpar]; rfl) ?_ (fun w n h => h)
        (fun h => absurd h (Option.some_ne_none _).symm) fun late h => Parent.noConfusion h
      change σ.db.count + 1 = waiting l σ + 1
      rw [hcount]
      rfl
    · rename_i hge
      obtain rfl := Option.some.inj hs
      refine hkeep rfl trivial ?_ hcount (fun w n h => h)
        (fun h => absurd h (Option.some_ne_none _).symm) fun late h => Parent.noConfusion h
      rw [hpar]
      exact Nat.le_antisymm (Nat.not_lt.mp hge) hfits
  | job s =>
    rw [hpar] at hcount hfits
    have habsent : ∀ u, (σ.workers u).pc = .absent ↔ s ≤ u := by
      intro u
      rw [hb.absent u, hpar]
      rfl
    have hs0 : (σ.workers s).pc = .absent := (habsent s).mpr (Nat.le_refl _)
    simp only [parentStep, hpar] at hs
    obtain rfl := Option.some.inj hs
    generalize hτ : ({ σ.setWorker s Worker.new with parent := .incr (s + 1) } : Sys) = τ
    have hsum : waiting l τ + 0 = waiting l σ + 1 := by
      have := waiting_update hfits (show τ.workers = Function.update σ.workers s Worker.new by rw [← hτ]; rfl)
      rwa [hs0] at this
    have hpar' : τ.parent = .incr (s + 1) := by rw [← hτ]
    have hworkers : ∀ u, τ.workers u = if u = s then Worker.new else σ.workers u := by
      intro u
      rw [← hτ]
      exact Function.update_apply _ _ _ _
    have hdb : τ.db = σ.db := by
      rw [← hτ]
      rfl
    have hlocks : τ.locks = σ.locks := by
      rw [← hτ]
      rfl
    refine ⟨?_, by rw [hpar']; exact hfits, ?_, ?_, ?_, ?_, fun h => ?_, fun late h => ?_⟩
    · rw [hdb, hpar']
      change σ.db.count = waiting l σ + 1 at hcount
      change σ.db.count = waiting l τ + 0
      omega
    · intro u
      rw [hworkers, hpar']
      split
      · rename_i hu
        exact iff_of_false Pc.noConfusion (by rw [hu]; exact Nat.not_succ_le_self s)
      · rename_i hu
        rw [habsent u]
        change s ≤ u ↔ s + 1 ≤ u
        omega
    · intro u h
      rw [hworkers] at h ⊢
      split_ifs at h ⊢
      · rfl
      · exact hb.fresh u h
    · intro u h
      rw [hworkers] at h ⊢
      split_ifs at h ⊢
      · exact Pc.noConfusion h
      · exact hb.gone u h
    · intro u h
      rw [hworkers] at h
      rw [hlocks]
      split_ifs at h
      · exact absurd h id
      · exact hb.held u h
    · rw [hpar'] at h
      exact absurd h (Option.some_ne_none _).symm
    · rw [hpar'] at h
      exact Parent.noConfusion h
  | wait =>
    rw [hpar] at hcount
    simp only [parentStep, hpar] at hs
    split at hs
    · rename_i hzero
      obtain rfl := Option.some.inj hs
      refine hkeep rfl trivial (by rw [hpar]; rfl) hcount (fun w n h => h) (fun _ => ?_)
        fun late h => Parent.noConfusion h
      change σ.db.count = waiting l σ + 0 at hcount
      omega
    · exact absurd hs (Option.some_ne_none _).symm
  | unlockL1 late =>
    rw [hpar] at hcount
    simp only [parentStep, hpar] at hs
    obtain rfl := Option.some.inj hs
    refine hkeep rfl trivial (by rw [hpar]; rfl) hcount ?_ ?_ fun late h => Parent.noConfusion h
    · exact fun w n h => (List.mem_erase_of_ne fun he => Proc.noConfusion (congrArg Prod.fst he)).mpr h
    · exact fun h => hb.started (by rw [hpar]; exact h)
  | lockL2 late =>
    rw [hpar] at hcount
    simp only [parentStep, hpar, Option.map_eq_some_iff] at hs
    obtain ⟨t, hlock, rfl⟩ := hs
    obtain ⟨ht, hfree⟩ := lock_eq_some hlock
    refine hkeep rfl trivial (by rw [hpar]; rfl) hcount
      (fun w n h => ht ▸ List.mem_cons_of_mem _ h) ?_ ?_
    · exact fun h => hb.started (by rw [hpar]; exact h)
    · refine fun late h => ⟨ht ▸ List.mem_cons_self, fun w hheld => ?_⟩
      have := hfree (.job w) _ (hb.held w hheld) ⟨rfl, Or.inr List.nil_prefix⟩
      exact Proc.noConfusion this
  | report late =>
    simp only [parentStep, hpar] at hs
    exact absurd hs (Option.some_ne_none _).symm

theorem reaches_barrier (h : Reaches l db0 σ) : Barrier l σ := by
  induction h with
  | start => exact start_barrier
  | step _ hs ih =>
    cases hs with
    | parent hs => exact parent_barrier ih hs
    | giveUp hp =>
      refine ⟨?_, trivial, ?_, ih.fresh, ih.gone, ih.held, fun h => ?_, fun late h => Parent.noConfusion h⟩
      · rw [ih.count, hp]
        rfl
      · intro w
        rw [ih.absent w, hp]
        rfl
      · exact absurd (Option.some.inj h) Bool.noConfusion
    | worker w hs => exact worker_barrier ih hs

theorem report_places (h : Reaches l db0 σ) (hp : σ.parent = .report late) :
    (∀ w, (σ.workers w).pc = .done ∨ σ.workers w = Worker.new ∨
      σ.workers w = { Worker.new with pc := .absent }) ∧
    (late = false → ∀ w < l.k, (σ.workers w).pc = .done) := by
  have hb := reaches_barrier h
  obtain ⟨-, hnone⟩ := hb.reported late hp
  constructor
  · intro w
    have hw := hnone w
    cases hpc : (σ.workers w).pc with
    | absent => exact Or.inr (Or.inr (hb.gone w hpc))
    | lockL2 => exact Or.inr (Or.inl (hb.fresh w hpc))
    | done => exact Or.inl rfl
    | _ =>
      rw [hpc] at hw
      exact absurd trivial hw
  · rintro rfl w hw
    have hzero := waiting_zero (hb.started (by rw [hp]; rfl)) hw
    have habsent := mt (hb.absent w).mp (by rw [hp]; exact Nat.not_le.mpr hw)
    have hheld := hnone w
    cases hpc : (σ.workers w).pc with
    | absent => exact absurd hpc habsent
    | lockL2 =>
      rw [hpc] at hzero
      exact absurd hzero Nat.one_ne_zero
    | done => rfl
    | _ =>
      rw [hpc] at hheld
      exact absurd trivial hheld

end YdbTest.ThreeEn1
