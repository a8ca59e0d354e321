import YdbTest.ThreeEn1Barrier
import Mathlib.Order.Bounds.Basic

namespace YdbTest.ThreeEn1

open MString MLocks Orbits

variable {l : Problem} {db0 : Db} {σ σ' : Sys} {x x' : Worker} {w u c k v t : Nat} {late : Bool}

/-- Every block that is claimed belongs to one job. -/
structure Owned (l : Problem) (σ : Sys) : Prop where
  share : ∀ w, Share l σ.db.claimed σ.db.step (σ.workers w)
  claims : ∀ t, σ.db.claimed t ≠ 0 ↔ ∃ w, t ∈ (σ.workers w).blocks
  apart : ∀ t w u, t ∈ (σ.workers w).blocks → t ∈ (σ.workers u).blocks → w = u
  nodup : ∀ w, (σ.workers w).blocks.Nodup

theorem start_owned : Owned l (start db0) where
  share := fun _ => ⟨fun _ h => absurd h List.not_mem_nil, rfl,
    fun _ h => absurd h List.not_mem_nil, trivial, trivial⟩
  claims := fun _ => iff_of_false (fun h => h rfl) fun ⟨_, h⟩ => absurd h List.not_mem_nil
  apart := fun _ _ _ h => absurd h List.not_mem_nil
  nodup := fun _ => List.nodup_nil

theorem Owned.move (ho : Owned l σ) (hw : σ'.workers = Function.update σ.workers w x)
    (hx : Share l σ'.db.claimed σ'.db.step x)
    (ht : Takes σ.db.claimed σ'.db.claimed σ.db.step σ'.db.step (σ.workers w) x) : Owned l σ' := by
  have hself : σ'.workers w = x := by rw [hw, Function.update_self]
  have hother : ∀ u ≠ w, σ'.workers u = σ.workers u := by
    intro u hu
    rw [hw, Function.update_of_ne hu]
  have hmem : ∀ u t, t ∈ (σ'.workers u).blocks ↔ t ∈ (σ.workers u).blocks ∨
      u = w ∧ σ.db.claimed t = 0 ∧ σ'.db.claimed t ≠ 0 := by
    intro u t
    by_cases hu : u = w
    · subst hu
      rw [hself]
      have hold : t ∈ (σ.workers u).blocks → σ.db.claimed t ≠ 0 := fun h => (ho.claims t).mpr ⟨u, h⟩
      obtain ⟨hc, hb⟩ | ⟨tmp, h0, hb, hc⟩ := ht.blocks
      · rw [hb, hc t]
        refine ⟨Or.inl, fun h => h.elim id fun h => absurd h.2.1 h.2.2⟩
      · rw [hb, List.mem_append, List.mem_singleton, hc t]
        constructor
        · rintro (h | rfl)
          · exact Or.inl h
          · exact Or.inr ⟨rfl, h0, Or.inl rfl⟩
        · rintro (h | ⟨-, h, h' | h'⟩)
          · exact Or.inl h
          · exact Or.inr h'
          · exact absurd h h'
    · rw [hother u hu]
      exact ⟨Or.inl, fun h => h.resolve_right fun h => hu h.1⟩
  refine ⟨?_, ?_, ?_, ?_⟩
  · intro u
    by_cases hu : u = w
    · rw [hu, hself]
      exact hx
    · rw [hother u hu]
      exact (ho.share u).mono ht.grows ht.knows
  · intro t
    by_cases h0 : σ.db.claimed t = 0
    · constructor
      · exact fun h => ⟨w, (hmem w t).mpr (Or.inr ⟨rfl, h0, h⟩)⟩
      · rintro ⟨u, hu⟩
        obtain hu | ⟨-, -, h⟩ := (hmem u t).mp hu
        · exact absurd h0 ((ho.claims t).mpr ⟨u, hu⟩)
        · exact h
    · refine iff_of_true (ht.grows t h0) ?_
      obtain ⟨u, hu⟩ := (ho.claims t).mp h0
      exact ⟨u, (hmem u t).mpr (Or.inl hu)⟩
  · intro t u v hu hv
    obtain hu | ⟨rfl, h0, -⟩ := (hmem u t).mp hu
    · obtain hv | ⟨-, h0, -⟩ := (hmem v t).mp hv
      · exact ho.apart t u v hu hv
      · exact absurd h0 ((ho.claims t).mpr ⟨u, hu⟩)
    · obtain hv | ⟨rfl, -, -⟩ := (hmem v t).mp hv
      · exact absurd h0 ((ho.claims t).mpr ⟨v, hv⟩)
      · rfl
  · intro u
    by_cases hu : u = w
    · subst hu
      rw [hself]
      obtain ⟨-, hb⟩ | ⟨tmp, h0, hb, -⟩ := ht.blocks
      · exact hb ▸ ho.nodup u
      · rw [hb, List.nodup_append_comm]
        refine List.nodup_cons.mpr ⟨fun h => ?_, ho.nodup u⟩
        exact (ho.claims tmp).mpr ⟨u, h⟩ h0
    · rw [hother u hu]
      exact ho.nodup u

theorem worker_owned (ho : Owned l σ) (hs : workerStep l w σ = some σ') : Owned l σ' := by
  have hx := ho.share w
  have hpassed := hx.passed
  cases hpc : (σ.workers w).pc with
  | lockL2 =>
    simp only [workerStep, hpc, Option.map_eq_some_iff] at hs
    obtain ⟨t, -, rfl⟩ := hs
    refine ho.move rfl ?_ (takes_same rfl)
    exact hx.stay .decr (by rw [hpc]; rfl) trivial trivial rfl rfl rfl
  | lockL1 =>
    simp only [workerStep, hpc, Option.map_eq_some_iff] at hs
    obtain ⟨t, -, rfl⟩ := hs
    refine ho.move rfl ?_ (takes_same rfl)
    refine hx.stay (.scan 0) (by rw [hpc]; rfl) ?_ trivial rfl rfl rfl
    exact fun t ht h0 => absurd (Nat.le_zero.mp ht) h0
  | unlock =>
    rw [hpc] at hpassed
    simp only [workerStep, hpc] at hs
    obtain rfl := Option.some.inj hs
    refine ho.move rfl ?_ (takes_same rfl)
    exact hx.stay .done (by rw [hpc]; rfl) hpassed trivial rfl rfl rfl
  | absent =>
    simp only [workerStep, hpc, work, Option.map_none] at hs
    exact absurd hs (Option.some_ne_none _).symm
  | done =>
    simp only [workerStep, hpc, work, Option.map_none] at hs
    exact absurd hs (Option.some_ne_none _).symm
  | decr | scan | claim | walk | known | maximum | store | finish =>
    have hstep : (work l σ.db (σ.workers w)).map (fun r => { σ.setWorker w r.2 with db := r.1 }) =
        some σ' := by
      rw [← hs]
      simp only [workerStep, hpc]
    obtain ⟨⟨db', x'⟩, hwork, rfl⟩ := Option.map_eq_some_iff.mp hstep
    obtain ⟨hshare, htakes⟩ := work_share hx hwork
    exact ho.move (w := w) rfl hshare htakes

theorem parent_owned (hb : Barrier l σ) (ho : Owned l σ) (hs : parentStep l σ = some σ') :
    Owned l σ' := by
  have hkeep : ∀ {τ : Sys}, τ.db.claimed = σ.db.claimed → τ.db.step = σ.db.step →
      τ.workers = σ.workers → Owned l τ := by
    intro τ h1 h2 h3
    refine ⟨?_, ?_, ?_, ?_⟩
    · rw [h1, h2, h3]
      exact ho.share
    · rw [h1, h3]
      exact ho.claims
    · rw [h3]
      exact ho.apart
    · rw [h3]
      exact ho.nodup
  cases hpar : σ.parent with
  | lockL1 | lockL2 =>
    simp only [parentStep, hpar, Option.map_eq_some_iff] at hs
    obtain ⟨t, -, rfl⟩ := hs
    exact hkeep rfl rfl rfl
  | incr s =>
    simp only [parentStep, hpar] at hs
    split at hs
    all_goals
      obtain rfl := Option.some.inj hs
      exact hkeep rfl rfl rfl
  | job s =>
    have habsent := (hb.absent s).mpr (by rw [hpar]; exact Nat.le_refl _)
    have hgone := hb.gone s habsent
    simp only [parentStep, hpar] at hs
    obtain rfl := Option.some.inj hs
    have hshare := ho.share s
    refine ho.move (w := s) (x := Worker.new) rfl ?_ (takes_same (by rw [hgone]))
    exact hshare.stay .lockL2 (by rw [hgone]; rfl) trivial trivial (by rw [hgone])
      (by rw [hgone]) rfl
  | wait =>
    simp only [parentStep, hpar] at hs
    split at hs
    · obtain rfl := Option.some.inj hs
      exact hkeep rfl rfl rfl
    · exact absurd hs (Option.some_ne_none _).symm
  | unlockL1 late =>
    simp only [parentStep, hpar] at hs
    obtain rfl := Option.some.inj hs
    exact hkeep rfl rfl rfl
  | report late =>
    simp only [parentStep, hpar] at hs
    exact absurd hs (Option.some_ne_none _).symm

theorem reaches_owned (h : Reaches l db0 σ) : Owned l σ := by
  induction h with
  | start => exact start_owned
  | step h hs ih =>
    cases hs with
    | parent hs => exact parent_owned (reaches_barrier h) ih hs
    | giveUp hp => exact ⟨ih.share, ih.claims, ih.apart, ih.nodup⟩
    | worker w hs => exact worker_owned ih hs

def Attended (σ : Sys) : Prop := ∃ w, (σ.workers w).pc = .done

theorem attended_of_not_late (h : Reaches l db0 σ) (hp : σ.parent = .report false) :
    Attended σ := ⟨0, (report_places h hp).2 rfl 0 l.pos⟩

theorem processed_blocks (h : Reaches l db0 σ) (hp : σ.parent = .report late) (w : Nat) :
    (σ.workers w).processed = (σ.workers w).blocks.flatMap l.members := by
  have hshared := ((reaches_owned h).share w).shared
  obtain hdone | hnew | hgone := (report_places h hp).1 w
  · unfold Shared at hshared
    rw [hdone] at hshared
    exact hshared
  · rw [hnew]
    rfl
  · rw [hgone]
    rfl

theorem members_nodup (ho : Owned l σ) (w : Nat) :
    ((σ.workers w).blocks.flatMap l.members).Nodup := by
  refine List.nodup_flatMap.mpr ⟨fun t _ => List.nodup_range', ?_⟩
  refine (ho.nodup w).imp_of_mem fun {s t} hs ht hne => ?_
  intro c hcs hct
  obtain ⟨m, hm⟩ := Option.isSome_iff_exists.mp ((ho.share w).limits s hs)
  obtain ⟨m', hm'⟩ := Option.isSome_iff_exists.mp ((ho.share w).limits t ht)
  have h1 := mem_members.mp hcs
  have h2 := mem_members.mp hct
  rw [Problem.last_of_limit hm] at h1
  rw [Problem.last_of_limit hm'] at h2
  exact hne (Problem.block_unique hm hm' h1.1 h1.2 h2.1 h2.2)

theorem processed_once (h : Reaches l db0 σ) (hp : σ.parent = .report late) (ha : Attended σ)
    (hc : InRange l c) : ∃ w, (σ.workers w).processed.count c = 1 ∧
      ∀ u ≠ w, c ∉ (σ.workers u).processed := by
  have ho := reaches_owned h
  obtain ⟨d, hd⟩ := ha
  obtain ⟨t, m, hm, hf, hl⟩ := Problem.exists_block hc.1 hc.2
  have hclaimed : σ.db.claimed t ≠ 0 := by
    have hpassed := (ho.share d).passed
    rw [hd] at hpassed
    exact hpassed t (by rw [hm]; rfl)
  have hlast := Problem.last_of_limit hm
  obtain ⟨w, hw⟩ := (ho.claims t).mp hclaimed
  have hmem : c ∈ (σ.workers w).blocks.flatMap l.members :=
    List.mem_flatMap.mpr ⟨t, hw, mem_members.mpr ⟨hf, hlast ▸ hl⟩⟩
  refine ⟨w, ?_, ?_⟩
  · rw [processed_blocks h hp w]
    exact List.count_eq_one_of_mem (members_nodup ho w) hmem
  · intro u hu hcu
    rw [processed_blocks h hp u] at hcu
    obtain ⟨s, hs, hcs⟩ := List.mem_flatMap.mp hcu
    obtain ⟨m', hm'⟩ := Option.isSome_iff_exists.mp ((ho.share u).limits s hs)
    have hcs := mem_members.mp hcs
    rw [Problem.last_of_limit hm'] at hcs
    have heq := Problem.block_unique hm' hm hcs.1 hcs.2 hf hl
    subst heq
    exact hu (ho.apart s u w hs hw)

theorem known_of_range (h : Reaches l db0 σ) (hp : σ.parent = .report late) (ha : Attended σ)
    (hc : InRange l c) : c = 1 ∨ Known σ.db.step c := by
  obtain ⟨w, hw, -⟩ := processed_once h hp ha hc
  refine ((reaches_owned h).share w).solved c (List.count_pos_iff.mp ?_)
  omega

theorem bounded_report (hs : Sound db0.step) (h : Reaches l db0 σ) (hp : σ.parent = .report late)
    (hv : Bounded σ v) : v ≤ σ.db.highest.getD 0 := by
  obtain hv | ⟨w, hv⟩ := hv
  · exact hv
  · refine hv.trans ?_
    have hplace := ((reaches_values hs h).jobs w).place
    obtain hdone | hnew | hgone := (report_places h hp).1 w
    · rw [hdone] at hplace
      exact hplace
    · rw [hnew]
      exact Nat.zero_le _
    · rw [hgone]
      exact Nat.zero_le _

def paths (l : Problem) (step : Str → Option Str) : Set Nat :=
  {k | ∃ c, InRange l c ∧ ¬ Known step c ∧ Steps next 1 c k}

def heights (l : Problem) (db0 : Db) : Set Nat := {v | ∃ c, InRange l c ∧ Reached db0 c v}

theorem report_result (hs : Sound db0.step) (h : Reaches l db0 σ) (hp : σ.parent = .report late)
    (ha : Attended σ) :
    IsGreatest (insert (db0.result.getD 0) (paths l db0.step)) (σ.db.result.getD 0) := by
  have hd := (reaches_values hs h).globals
  constructor
  · obtain heq | ⟨c, k, hc, -, h0, hk, heq⟩ := hd.resultUp
    · rw [heq]
      exact Set.mem_insert _ _
    · rw [heq]
      exact Set.mem_insert_of_mem _ ⟨c, hc, h0, hk⟩
  · rintro k (rfl | ⟨c, hc, h0, hk⟩)
    · exact hd.resultGe
    · obtain rfl | hknown := known_of_range h hp ha hc
      · rw [hk.unique steps_self]
        exact Nat.zero_le _
      · exact hd.resultLow c k hknown h0 hk

theorem report_highest (hs : Sound db0.step) (h : Reaches l db0 σ) (hp : σ.parent = .report late)
    (ha : Attended σ) :
    IsGreatest (insert (db0.highest.getD 0) (heights l db0)) (σ.db.highest.getD 0) := by
  have hd := (reaches_values hs h).globals
  constructor
  · obtain heq | ⟨c, v, hc, hv, heq⟩ := hd.highUp
    · rw [heq]
      exact Set.mem_insert _ _
    · rw [heq]
      exact Set.mem_insert_of_mem _ ⟨c, hc, hv⟩
  · rintro v (rfl | ⟨c, hc, hv⟩)
    · exact hd.highGe
    · obtain ⟨h1, h0, -⟩ := walked_iff.mp hv
      have hknown := (known_of_range h hp ha hc).resolve_left h1
      exact bounded_report hs h hp (hd.highLow c v hknown h0 hv)

end YdbTest.ThreeEn1
