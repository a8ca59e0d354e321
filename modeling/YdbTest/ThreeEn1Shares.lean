import YdbTest.ThreeEn1Values
import Mathlib.Data.List.Nodup

namespace YdbTest.ThreeEn1

open MString Orbits

variable {l : Problem} {db db' : Db} {x x' : Worker} {claimed claimed' : Nat → Nat}
  {step step' : Str → Option Str} {tmp c n t : Nat} {pc : Pc}

def Problem.members (l : Problem) (tmp : Nat) : List Nat :=
  List.range' (l.first tmp) (l.last tmp + 1 - l.first tmp)

theorem mem_members : c ∈ l.members tmp ↔ l.first tmp ≤ c ∧ c ≤ l.last tmp := by
  rw [Problem.members, List.mem_range'_1]
  omega

def Pc.current : Pc → Option (Nat × Nat)
  | .walk tmp c _ _ | .known tmp c _ _ | .maximum tmp c _ _ | .store tmp c _ => some (tmp, c)
  | _ => none

/-- The numbers of its blocks are what a job has dealt with, up to the one it is at. -/
def Shared (l : Problem) (x : Worker) : Prop :=
  match x.pc.current with
  | some (tmp, c) => ∃ bs, x.blocks = bs ++ [tmp] ∧ l.first tmp ≤ c ∧ c ≤ l.last tmp ∧
      x.processed = bs.flatMap l.members ++ List.range' (l.first tmp) (c - l.first tmp)
  | none => x.processed = x.blocks.flatMap l.members

/-- The blocks that have been taken by any job, as far as this one knows. -/
def Passed (l : Problem) (claimed : Nat → Nat) : Pc → Prop
  | .scan tmp => ∀ t ≤ tmp, t ≠ 0 → claimed t ≠ 0
  | .claim tmp => (l.limit tmp).isSome ∧ ∀ t < tmp, t ≠ 0 → claimed t ≠ 0
  | .walk tmp _ _ _ | .known tmp _ _ _ | .maximum tmp _ _ _ | .store tmp _ _ =>
      ∀ t ≤ tmp, t ≠ 0 → claimed t ≠ 0
  | .finish | .unlock | .done => ∀ t, (l.limit t).isSome → claimed t ≠ 0
  | _ => True

def Handled (step : Str → Option Str) : Pc → Prop
  | .walk _ c p n => p = [] ∧ n = c ∨ c ∈ p
  | .known _ c p _ | .maximum _ c p _ => c ∈ p
  | .store _ c todo => Known step c ∨ ∃ i, (c, i) ∈ todo
  | _ => True

structure Share (l : Problem) (claimed : Nat → Nat) (step : Str → Option Str) (x : Worker) :
    Prop where
  limits : ∀ t ∈ x.blocks, (l.limit t).isSome
  shared : Shared l x
  solved : ∀ c ∈ x.processed, c = 1 ∨ Known step c
  passed : Passed l claimed x.pc
  handled : Handled step x.pc

theorem Share.mono (hx : Share l claimed step x) (hc : ∀ t, claimed t ≠ 0 → claimed' t ≠ 0)
    (hk : ∀ n, Known step n → Known step' n) : Share l claimed' step' x := by
  refine ⟨hx.limits, hx.shared, fun c h => (hx.solved c h).imp id (hk c), ?_, ?_⟩
  · have hpassed := hx.passed
    cases hpc : x.pc with
    | scan tmp | walk tmp | known tmp | maximum tmp | store tmp =>
      rw [hpc] at hpassed
      exact fun t ht h0 => hc t (hpassed t ht h0)
    | claim tmp =>
      rw [hpc] at hpassed
      exact ⟨hpassed.1, fun t ht h0 => hc t (hpassed.2 t ht h0)⟩
    | finish | unlock | done =>
      rw [hpc] at hpassed
      exact fun t ht => hc t (hpassed t ht)
    | absent | lockL2 | decr | lockL1 => trivial
  · have hhandled := hx.handled
    cases hpc : x.pc with
    | store tmp c todo =>
      rw [hpc] at hhandled
      exact hhandled.imp (hk c) id
    | _ =>
      rw [hpc] at hhandled
      exact hhandled

theorem Share.stay (pc : Pc) (hx : Share l claimed step x) (hcur : pc.current = x.pc.current)
    (hpassed : Passed l claimed pc) (hhandled : Handled step pc) (hb : x'.blocks = x.blocks)
    (hp : x'.processed = x.processed) (hpc : x'.pc = pc) : Share l claimed step x' := by
  refine ⟨hb ▸ hx.limits, ?_, hp ▸ hx.solved, hpc ▸ hpassed, hpc ▸ hhandled⟩
  have hshared := hx.shared
  unfold Shared at hshared ⊢
  rw [hpc, hcur, hb, hp]
  exact hshared

theorem Share.advance (hx : Share l claimed step x) (hcur : x.pc.current = some (tmp, c))
    (hpassed : ∀ t ≤ tmp, t ≠ 0 → claimed t ≠ 0) (hc : c = 1 ∨ Known step c) :
    Share l claimed step (x.advance l tmp c) := by
  have hshared := hx.shared
  unfold Shared at hshared
  rw [hcur] at hshared
  obtain ⟨bs, hb, hf, hl, hproc⟩ := hshared
  have hnext : x.processed ++ [c] =
      bs.flatMap l.members ++ List.range' (l.first tmp) (c + 1 - l.first tmp) := by
    have hlen : c + 1 - l.first tmp = c - l.first tmp + 1 := by omega
    have hlast : l.first tmp + (c - l.first tmp) = c := by omega
    rw [hproc, List.append_assoc, hlen, List.range'_1_concat, hlast]
  have hsolved : ∀ y ∈ x.processed ++ [c], y = 1 ∨ Known step y := by
    intro y hy
    obtain hy | hy := List.mem_append.mp hy
    · exact hx.solved y hy
    · rwa [List.mem_singleton.mp hy]
  unfold Worker.advance
  split
  · rename_i hlt
    refine ⟨hx.limits, ⟨bs, hb, by omega, hlt, hnext⟩, hsolved, hpassed, Or.inl ⟨rfl, rfl⟩⟩
  · rename_i hlt
    refine ⟨hx.limits, ?_, hsolved, hpassed, trivial⟩
    have hend : c = l.last tmp := by omega
    change x.processed ++ [c] = x.blocks.flatMap l.members
    rw [hnext, hb, List.flatMap_append, List.flatMap_singleton, Problem.members, hend]

theorem limit_isSome_of_le {s t : Nat} (h : (l.limit t).isSome) (hst : s ≤ t) (h0 : s ≠ 0) :
    (l.limit s).isSome := by
  have ht : t ≠ 0 := by omega
  rw [Problem.limit, if_neg ht, isSome_getElem?] at h
  rw [Problem.limit, if_neg h0, isSome_getElem?]
  omega

structure Takes (claimed claimed' : Nat → Nat) (step step' : Str → Option Str) (x x' : Worker) :
    Prop where
  knows : ∀ n, Known step n → Known step' n
  blocks : (∀ t, claimed' t ≠ 0 ↔ claimed t ≠ 0) ∧ x'.blocks = x.blocks ∨
    ∃ tmp, claimed tmp = 0 ∧ x'.blocks = x.blocks ++ [tmp] ∧
      ∀ t, claimed' t ≠ 0 ↔ t = tmp ∨ claimed t ≠ 0

theorem Takes.grows (h : Takes claimed claimed' step step' x x') :
    ∀ t, claimed t ≠ 0 → claimed' t ≠ 0 := by
  obtain ⟨h, -⟩ | ⟨tmp, -, -, h⟩ := h.blocks
  · exact fun t ht => (h t).mpr ht
  · exact fun t ht => (h t).mpr (Or.inr ht)

theorem takes_same (h : x'.blocks = x.blocks) : Takes claimed claimed step step x x' :=
  ⟨fun _ hn => hn, Or.inl ⟨fun _ => Iff.rfl, h⟩⟩

theorem claim_share (hx : Share l db.claimed db.step x) (hpc : x.pc = .claim tmp)
    (hw : work l db x = some (db', x')) :
    Share l db'.claimed db'.step x' ∧ Takes db.claimed db'.claimed db.step db'.step x x' := by
  have hshared := hx.shared
  have hpassed := hx.passed
  unfold Shared at hshared
  rw [hpc] at hshared hpassed
  obtain ⟨hsome, hbefore⟩ := hpassed
  have hclaimed : ∀ t, Function.update db.claimed tmp (db.claimed tmp + 1) t ≠ 0 ↔
      t = tmp ∨ db.claimed t ≠ 0 := by
    intro t
    by_cases ht : t = tmp
    · simp [ht]
    · simp [ht]
  have hup : ∀ t ≤ tmp, t ≠ 0 → Function.update db.claimed tmp (db.claimed tmp + 1) t ≠ 0 := by
    intro t ht h0
    obtain rfl | ht := Nat.eq_or_lt_of_le ht
    · exact (hclaimed t).mpr (Or.inl rfl)
    · exact (hclaimed t).mpr (Or.inr (hbefore t ht h0))
  obtain ⟨m, hm⟩ := Option.isSome_iff_exists.mp hsome
  obtain ⟨-, hfirst, -⟩ := Problem.block_range hm
  simp only [work, hpc] at hw
  split at hw
  · rename_i hone
    obtain ⟨rfl, rfl⟩ := Prod.mk.inj (Option.some.inj hw)
    refine ⟨⟨?_, ⟨x.blocks, rfl, Nat.le_refl _, ?_, ?_⟩, hx.solved, hup, Or.inl ⟨rfl, rfl⟩⟩,
      ⟨fun _ hn => hn, Or.inr ⟨tmp, by omega, rfl, hclaimed⟩⟩⟩
    · intro t ht
      obtain ht | ht := List.mem_append.mp ht
      · exact hx.limits t ht
      · rwa [List.mem_singleton.mp ht]
    · rwa [Problem.last_of_limit hm]
    · rw [Nat.sub_self, List.range'_zero, List.append_nil]
      exact hshared
  · rename_i hone
    obtain ⟨rfl, rfl⟩ := Prod.mk.inj (Option.some.inj hw)
    refine ⟨⟨hx.limits, hshared, hx.solved, hup, trivial⟩, ⟨fun _ hn => hn, Or.inl ⟨fun t => ?_, rfl⟩⟩⟩
    rw [hclaimed]
    refine or_iff_right_of_imp ?_
    rintro rfl
    omega

theorem store_share (hx : Share l db.claimed db.step x) {todo : List (Nat × Nat)}
    (hpc : x.pc = .store tmp c todo) (hw : work l db x = some (db', x')) :
    Share l db'.claimed db'.step x' ∧ Takes db.claimed db'.claimed db.step db'.step x x' := by
  have hpassed := hx.passed
  have hhandled := hx.handled
  rw [hpc] at hpassed hhandled
  simp only [work, hpc] at hw
  cases todo with
  | nil =>
    obtain ⟨rfl, rfl⟩ := Prod.mk.inj (Option.some.inj hw)
    refine ⟨hx.advance (by rw [hpc]; rfl) hpassed (Or.inr ?_), takes_same rfl⟩
    refine hhandled.resolve_right ?_
    rintro ⟨i, hi⟩
    exact absurd hi List.not_mem_nil
  | cons e todo =>
    obtain ⟨m, i⟩ := e
    obtain ⟨rfl, rfl⟩ := Prod.mk.inj (Option.some.inj hw)
    have hgrow : ∀ n, n = m ∨ Known db.step n →
        Known (Function.update db.step (inttostr m) (some (inttostr i))) n := by
      intro n hn
      unfold Known
      by_cases hs : inttostr n = inttostr m
      · rw [hs, Function.update_self]
        rfl
      · rw [Function.update_of_ne hs]
        exact hn.resolve_left fun h => hs (congrArg inttostr h)
    have hx := hx.mono (fun _ ht => ht) fun n hn => hgrow n (Or.inr hn)
    refine ⟨hx.stay (.store tmp c todo) (by rw [hpc]; rfl) hpassed ?_ rfl rfl rfl,
      ⟨fun n hn => hgrow n (Or.inr hn), Or.inl ⟨fun _ => Iff.rfl, rfl⟩⟩⟩
    obtain hk | ⟨j, hj⟩ := hhandled
    · exact Or.inl (hgrow c (Or.inr hk))
    · obtain heq | hj := List.mem_cons.mp hj
      · exact Or.inl (hgrow c (Or.inl (congrArg Prod.fst heq)))
      · exact Or.inr ⟨j, hj⟩

theorem work_share (hx : Share l db.claimed db.step x) (hw : work l db x = some (db', x')) :
    Share l db'.claimed db'.step x' ∧ Takes db.claimed db'.claimed db.step db'.step x x' := by
  have hpassed := hx.passed
  have hhandled := hx.handled
  cases hpc : x.pc with
  | decr =>
    simp only [work, hpc] at hw
    obtain ⟨rfl, rfl⟩ := Prod.mk.inj (Option.some.inj hw)
    exact ⟨hx.stay .lockL1 (by rw [hpc]; rfl) trivial trivial rfl rfl rfl, takes_same rfl⟩
  | scan tmp =>
    rw [hpc] at hpassed
    simp only [work, hpc] at hw
    split at hw
    · rename_i hsome
      obtain ⟨rfl, rfl⟩ := Prod.mk.inj (Option.some.inj hw)
      refine ⟨hx.stay (.claim (tmp + 1)) (by rw [hpc]; rfl) ⟨hsome, ?_⟩ trivial rfl rfl rfl,
        takes_same rfl⟩
      exact fun t ht h0 => hpassed t (Nat.le_of_lt_succ ht) h0
    · rename_i hnone
      obtain ⟨rfl, rfl⟩ := Prod.mk.inj (Option.some.inj hw)
      refine ⟨hx.stay .finish (by rw [hpc]; rfl) ?_ trivial rfl rfl rfl, takes_same rfl⟩
      intro t ht
      have h0 : t ≠ 0 := by
        rintro rfl
        exact absurd ht (by rw [Problem.limit_zero]; exact Bool.false_ne_true)
      by_cases hle : t ≤ tmp
      · exact hpassed t hle h0
      · exact absurd (limit_isSome_of_le ht (Nat.not_le.mp hle) (Nat.succ_ne_zero _)) hnone
  | claim tmp => exact claim_share hx hpc hw
  | walk tmp c p n =>
    rw [hpc] at hpassed hhandled
    simp only [work, hpc] at hw
    split at hw
    · rename_i hstop
      split at hw
      · rename_i hp
        obtain ⟨rfl, rfl⟩ := Prod.mk.inj (Option.some.inj hw)
        obtain ⟨-, rfl⟩ | hmem := hhandled
        · have hx1 : Share l db.claimed db.step
              { x with reads := x.reads + 1, pc := .walk tmp n p n } :=
            hx.stay (.walk tmp n p n) (by rw [hpc]) hpassed (Or.inl ⟨hp, rfl⟩) rfl rfl rfl
          exact ⟨hx1.advance rfl hpassed hstop.symm, takes_same rfl⟩
        · exact absurd (hp ▸ hmem) List.not_mem_nil
      · rename_i hp
        have hmem : c ∈ p := hhandled.resolve_left fun h => hp h.1
        split at hw
        · obtain ⟨rfl, rfl⟩ := Prod.mk.inj (Option.some.inj hw)
          exact ⟨hx.stay (.known tmp c p n) (by rw [hpc]; rfl) hpassed hmem rfl rfl rfl,
            takes_same rfl⟩
        · obtain ⟨rfl, rfl⟩ := Prod.mk.inj (Option.some.inj hw)
          exact ⟨hx.stay (.maximum tmp c p p.length) (by rw [hpc]; rfl) hpassed hmem rfl rfl
            rfl, takes_same rfl⟩
    · obtain ⟨rfl, rfl⟩ := Prod.mk.inj (Option.some.inj hw)
      refine ⟨hx.stay (.walk tmp c (p ++ [n]) (next n)) (by rw [hpc]; rfl) hpassed
        (Or.inr ?_) rfl rfl rfl, takes_same rfl⟩
      obtain ⟨-, rfl⟩ | hmem := hhandled
      · exact List.mem_append_right _ List.mem_cons_self
      · exact List.mem_append_left _ hmem
  | known tmp c p n =>
    rw [hpc] at hpassed hhandled
    simp only [work, hpc] at hw
    obtain ⟨rfl, rfl⟩ := Prod.mk.inj (Option.some.inj hw)
    exact ⟨hx.stay (.maximum tmp c p _) (by rw [hpc]; rfl) hpassed hhandled rfl rfl rfl,
      takes_same rfl⟩
  | maximum tmp c p i =>
    rw [hpc] at hpassed hhandled
    simp only [work, hpc] at hw
    obtain ⟨rfl, rfl⟩ := Prod.mk.inj (Option.some.inj hw)
    have hdb : ∀ d : Db, d = (if i > db.result.getD 0 then { db with result := some i } else db) →
        d.claimed = db.claimed ∧ d.step = db.step := by
      rintro d rfl
      split
      · exact ⟨rfl, rfl⟩
      · exact ⟨rfl, rfl⟩
    obtain ⟨h1, h2⟩ := hdb _ rfl
    rw [h1, h2]
    refine ⟨hx.stay (.store tmp c _) (by rw [hpc]; rfl) hpassed (Or.inr ?_) rfl rfl rfl,
      takes_same rfl⟩
    obtain ⟨e, he, heq⟩ := List.mem_map.mp ((List.zipIdx_map_fst 0 p).symm ▸ hhandled)
    exact ⟨_, List.mem_map.mpr ⟨e, he, by rw [heq]⟩⟩
  | store tmp c todo => exact store_share hx hpc hw
  | finish =>
    rw [hpc] at hpassed
    simp only [work, hpc] at hw
    obtain ⟨rfl, rfl⟩ := Prod.mk.inj (Option.some.inj hw)
    have hdb : (db.statistics x).claimed = db.claimed ∧ (db.statistics x).step = db.step := by
      unfold Db.statistics
      simp only []
      split_ifs
      all_goals exact ⟨rfl, rfl⟩
    rw [hdb.1, hdb.2]
    exact ⟨hx.stay .unlock (by rw [hpc]; rfl) hpassed trivial rfl rfl rfl, takes_same rfl⟩
  | absent | lockL2 | lockL1 | unlock | done =>
    simp only [work, hpc] at hw
    exact absurd hw (Option.some_ne_none _).symm

end YdbTest.ThreeEn1
