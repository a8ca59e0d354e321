import YdbTest.ThreeEn1Blocks
import YdbTest.ThreeEn1Digits
import YdbTest.Orbits

namespace YdbTest.ThreeEn1

open MString MLocks Orbits

variable {l : Problem} {db0 db db' : Db} {x x' : Worker} {B B' : Nat → Prop}
  {step step' : Str → Option Str} {result result' highest highest' : Option Nat}
  {tmp c n m k i h h' : Nat} {p : List Nat} {pc : Pc}

def Known (step : Str → Option Str) (n : Nat) : Prop := (step (inttostr n)).isSome

def Sound (step : Str → Option Str) : Prop :=
  ∀ n v, step (inttostr n) = some v → ∃ k, v = inttostr k ∧ Steps next 1 n k

def InRange (l : Problem) (c : Nat) : Prop := l.i ≤ c ∧ c ≤ l.j

/-- What is reached from a number before one that was known at the beginning, or 1, is left. -/
abbrev Reached (db0 : Db) : Nat → Nat → Prop := Walked next 1 (Known db0.step)

def Origin (l : Problem) (db0 : Db) (n : Nat) : Prop :=
  ∃ c, InRange l c ∧ (n = c ∨ Reached db0 c n)

/-- What holds of the globals, when the run began with `db0`; `B` are the numbers up to the highest
one that any process has seen. -/
structure DbOk (l : Problem) (db0 : Db) (B : Nat → Prop) (step : Str → Option Str)
    (result highest : Option Nat) : Prop where
  sound : Sound step
  kept : ∀ n, Known db0.step n → Known step n
  origin : ∀ n, Known step n → ¬ Known db0.step n → Origin l db0 n
  resultLow : ∀ n k, Known step n → ¬ Known db0.step n → Steps next 1 n k → k ≤ result.getD 0
  resultUp : result = db0.result ∨ ∃ c k, InRange l c ∧ c ≠ 1 ∧ ¬ Known db0.step c ∧
    Steps next 1 c k ∧ result = some k
  resultGe : db0.result.getD 0 ≤ result.getD 0
  highLow : ∀ n v, Known step n → ¬ Known db0.step n → Reached db0 n v → B v
  highUp : highest = db0.highest ∨ ∃ c v, InRange l c ∧ Reached db0 c v ∧ highest = some v
  highGe : db0.highest.getD 0 ≤ highest.getD 0

def InBlock (l : Problem) (tmp c : Nat) : Prop :=
  ∃ m, l.limit tmp = some m ∧ l.first tmp ≤ c ∧ c ≤ m

/-- The way from `c` to `n` through the members of `p`, with nothing above `h` after `c`. -/
structure Going (l : Problem) (db0 : Db) (h tmp c : Nat) (p : List Nat) (n : Nat) : Prop where
  block : InBlock l tmp c
  leads : Leads next 1 (Known db0.step) c p n
  tail : ∀ m ∈ p.tail, m ≤ h
  last : p ≠ [] → n ≤ h

/-- What holds of a job at its place, when `h` is the highest number it has seen. -/
def PlaceOk (l : Problem) (db0 : Db) (B : Nat → Prop) (step : Str → Option Str)
    (result highest : Option Nat) (h : Nat) : Pc → Prop
  | .claim tmp => (l.limit tmp).isSome
  | .walk tmp c p n => Going l db0 h tmp c p n
  | .known tmp c p n => Going l db0 h tmp c p n ∧ p ≠ [] ∧ Known step n ∧ 1 < n
  | .maximum tmp c p i => InBlock l tmp c ∧ p ≠ [] ∧ c ≠ 1 ∧ ¬ Known db0.step c ∧
      Steps next 1 c i ∧ (∀ m j, (m, j) ∈ p.zipIdx → Steps next 1 m (i - j)) ∧
      (∀ m ∈ p, Origin l db0 m) ∧ ∀ m ∈ p, ∀ v, Reached db0 m v → B v
  | .store tmp c todo => InBlock l tmp c ∧ ∀ m i, (m, i) ∈ todo →
      Steps next 1 m i ∧ i ≤ result.getD 0 ∧ Origin l db0 m ∧ ∀ v, Reached db0 m v → B v
  | .unlock | .done => h ≤ highest.getD 0
  | _ => True

def Pc.storing : Pc → Prop
  | .walk _ _ p _ => p ≠ []
  | .known _ _ _ _ | .maximum _ _ _ _ => True
  | .store _ _ todo => todo ≠ []
  | _ => False

structure WorkerOk (l : Problem) (db0 : Db) (B : Nat → Prop) (step : Str → Option Str)
    (result highest : Option Nat) (x : Worker) : Prop where
  high : x.highest = 0 ∨ ∃ c, InRange l c ∧ Reached db0 c x.highest
  counted : x.highest ≠ 0 → x.reads ≠ 0 ∧ (x.updates ≠ 0 ∨ x.pc.storing)
  place : PlaceOk l db0 B step result highest x.highest x.pc

structure Grows (B B' : Nat → Prop) (step step' : Str → Option Str)
    (result result' highest highest' : Option Nat) : Prop where
  bound : ∀ v, B v → B' v
  known : ∀ n, Known step n → Known step' n
  result : result.getD 0 ≤ result'.getD 0
  highest : highest.getD 0 ≤ highest'.getD 0

theorem DbOk.mono (hd : DbOk l db0 B step result highest) (hB : ∀ v, B v → B' v) :
    DbOk l db0 B' step result highest :=
  { hd with highLow := fun n v hn h0 hv => hB v (hd.highLow n v hn h0 hv) }

theorem PlaceOk.mono (hp : PlaceOk l db0 B step result highest h pc)
    (hg : Grows B B' step step' result result' highest highest') :
    PlaceOk l db0 B' step' result' highest' h pc := by
  cases pc with
  | known tmp c p n => exact ⟨hp.1, hp.2.1, hg.known n hp.2.2.1, hp.2.2.2⟩
  | maximum tmp c p i =>
    obtain ⟨h1, h2, h3, h4, h5, h6, h7, h8⟩ := hp
    exact ⟨h1, h2, h3, h4, h5, h6, h7, fun m hm v hv => hg.bound v (h8 m hm v hv)⟩
  | store tmp c todo =>
    refine ⟨hp.1, fun m i hmi => ?_⟩
    obtain ⟨h1, h2, h3, h4⟩ := hp.2 m i hmi
    exact ⟨h1, h2.trans hg.result, h3, fun v hv => hg.bound v (h4 v hv)⟩
  | unlock => exact Nat.le_trans hp hg.highest
  | done => exact Nat.le_trans hp hg.highest
  | _ => exact hp

theorem WorkerOk.mono (hx : WorkerOk l db0 B step result highest x)
    (hg : Grows B B' step step' result result' highest highest') :
    WorkerOk l db0 B' step' result' highest' x :=
  { hx with place := hx.place.mono hg }

theorem InBlock.inRange (hb : InBlock l tmp c) : InRange l c := by
  obtain ⟨m, hm, hf, hl⟩ := hb
  obtain ⟨h1, -, h3⟩ := Problem.block_range hm
  exact ⟨h1.trans hf, hl.trans h3⟩

theorem advance_ok (hb : InBlock l tmp c) (hx : WorkerOk l db0 B step result highest x)
    (hcount : x.highest ≠ 0 → x.reads ≠ 0 ∧ x.updates ≠ 0) :
    WorkerOk l db0 B step result highest (x.advance l tmp c) := by
  refine ⟨hx.high, fun hne => ⟨(hcount hne).1, Or.inl (hcount hne).2⟩, ?_⟩
  obtain ⟨m, hm, hf, hl⟩ := hb
  unfold Worker.advance
  simp only []
  split
  · rename_i hlt
    rw [Problem.last_of_limit hm] at hlt
    refine ⟨⟨m, hm, by omega, by omega⟩, Leads.nil, ?_, fun hne => absurd rfl hne⟩
    exact fun y hy => absurd hy List.not_mem_nil
  · trivial

structure Moved (l : Problem) (db0 : Db) (B : Nat → Prop) (db : Db) (x : Worker) (db' : Db)
    (x' : Worker) : Prop where
  globals : DbOk l db0 B db'.step db'.result db'.highest
  job : WorkerOk l db0 B db'.step db'.result db'.highest x'
  knows : ∀ n, Known db.step n → Known db'.step n
  results : db.result.getD 0 ≤ db'.result.getD 0
  highests : db.highest.getD 0 ≤ db'.highest.getD 0
  high : x.highest ≤ x'.highest

theorem Moved.mono (hm : Moved l db0 B db x db' x') (hB : ∀ v, B v → B' v) :
    Moved l db0 B' db x db' x' :=
  { hm with
    globals := hm.globals.mono hB
    job := hm.job.mono ⟨hB, fun _ hn => hn, Nat.le_refl _, Nat.le_refl _⟩ }

theorem not_known_zero (hs : Sound step) : ¬ Known step 0 := by
  intro hk
  obtain ⟨v, hv⟩ := Option.isSome_iff_exists.mp hk
  obtain ⟨k, -, hsteps⟩ := hs 0 v hv
  have hfix : next^[k] 0 = 0 := Function.iterate_fixed rfl k
  exact absurd (hfix.symm.trans hsteps.1) (by decide)

theorem steps_known (hs : Sound step) (hk : Known step n) :
    Steps next 1 n (strtoint ((step (inttostr n)).getD [])) := by
  obtain ⟨v, hv⟩ := Option.isSome_iff_exists.mp hk
  obtain ⟨k, rfl, hsteps⟩ := hs n v hv
  rw [hv, Option.getD_some, strtoint_inttostr]
  exact hsteps

section Work

variable (hd : DbOk l db0 B db.step db.result db.highest)
  (hx : WorkerOk l db0 B db.step db.result db.highest x)

include hd in
theorem moved_self (hc : db'.step = db.step ∧ db'.result = db.result ∧ db'.highest = db.highest)
    (hx : WorkerOk l db0 B db.step db.result db.highest x') (hh : x.highest ≤ x'.highest) :
    Moved l db0 B db x db' x' := by
  obtain ⟨h1, h2, h3⟩ := hc
  refine ⟨?_, ?_, ?_, ?_, ?_, hh⟩
  · rw [h1, h2, h3]
    exact hd
  · rw [h1, h2, h3]
    exact hx
  · rw [h1]
    exact fun _ hn => hn
  · rw [h2]
  · rw [h3]

/-- What holds once the steps from `n`, where the way has come to, are known. -/
theorem maximum_ok {hh : Nat} (hgo : Going l db0 hh tmp c p n) (hp : p ≠ [])
    (hk : Steps next 1 n k) (hB : ∀ v ≤ hh, B v) (hn : ∀ v, Reached db0 n v → B v) :
    PlaceOk l db0 B step result highest hh (.maximum tmp c p (p.length + k)) := by
  obtain ⟨h1, h2⟩ := hgo.leads.head hp
  obtain ⟨hsteps, hrest⟩ := hgo.leads.steps hk
  refine ⟨hgo.block, hp, h1, h2, hsteps, hrest, ?_, ?_⟩
  · exact fun m hm => ⟨c, hgo.block.inRange, hgo.leads.mem_walked m hm⟩
  · exact hgo.leads.bound (fun m hm => hB m (hgo.tail m hm)) (fun hp => hB n (hgo.last hp)) hn

theorem counted_of (hx : WorkerOk l db0 B step result highest x) (hpc : ¬ x.pc.storing)
    (hne : x.highest ≠ 0) : x.reads ≠ 0 ∧ x.updates ≠ 0 :=
  ⟨(hx.counted hne).1, (hx.counted hne).2.resolve_right hpc⟩

include hd hx

theorem claim_moved (hpc : x.pc = .claim tmp) (hw : work l db x = some (db', x')) :
    Moved l db0 B db x db' x' := by
  have hplace := hx.place
  rw [hpc] at hplace
  obtain ⟨m, hm⟩ := Option.isSome_iff_exists.mp hplace
  have hcount := counted_of hx (by rw [hpc]; exact id)
  simp only [work, hpc] at hw
  split at hw
  · obtain ⟨rfl, rfl⟩ := Prod.mk.inj (Option.some.inj hw)
    refine moved_self hd ⟨rfl, rfl, rfl⟩ ⟨hx.high, ?_, ?_⟩ (Nat.le_refl _)
    · exact fun hne => ⟨(hcount hne).1, Or.inl (hcount hne).2⟩
    · refine ⟨⟨m, hm, Nat.le_refl _, (Problem.block_range hm).2.1⟩, Leads.nil, ?_,
        fun hne => absurd rfl hne⟩
      exact fun y hy => absurd hy List.not_mem_nil
  · obtain ⟨rfl, rfl⟩ := Prod.mk.inj (Option.some.inj hw)
    exact moved_self hd ⟨rfl, rfl, rfl⟩
      ⟨hx.high, fun hne => ⟨(hcount hne).1, Or.inl (hcount hne).2⟩, trivial⟩ (Nat.le_refl _)

theorem scan_moved (hpc : x.pc = .scan tmp) (hw : work l db x = some (db', x')) :
    Moved l db0 B db x db' x' := by
  have hcount := counted_of hx (by rw [hpc]; exact id)
  simp only [work, hpc] at hw
  split at hw
  · rename_i hsome
    obtain ⟨rfl, rfl⟩ := Prod.mk.inj (Option.some.inj hw)
    exact moved_self hd ⟨rfl, rfl, rfl⟩
      ⟨hx.high, fun hne => ⟨(hcount hne).1, Or.inl (hcount hne).2⟩, hsome⟩ (Nat.le_refl _)
  · obtain ⟨rfl, rfl⟩ := Prod.mk.inj (Option.some.inj hw)
    exact moved_self hd ⟨rfl, rfl, rfl⟩
      ⟨hx.high, fun hne => ⟨(hcount hne).1, Or.inl (hcount hne).2⟩, trivial⟩ (Nat.le_refl _)

theorem walk_moved (hpc : x.pc = .walk tmp c p n) (hw : work l db x = some (db', x'))
    (hB : ∀ v ≤ x'.highest, B v) : Moved l db0 B db x db' x' := by
  have hplace := hx.place
  rw [hpc] at hplace
  have hgo : Going l db0 x.highest tmp c p n := hplace
  have hcount := hx.counted
  rw [hpc] at hcount
  simp only [work, hpc] at hw
  by_cases hstop : (db.step (inttostr n)).isSome ∨ n = 1
  · rw [if_pos hstop] at hw
    by_cases hp : p = []
    · rw [if_pos hp] at hw
      obtain ⟨rfl, rfl⟩ := Prod.mk.inj (Option.some.inj hw)
      refine moved_self hd ⟨rfl, rfl, rfl⟩ (advance_ok hgo.block ?_ ?_) (Nat.le_refl _)
      · exact ⟨hx.high, fun hne => ⟨Nat.succ_ne_zero _, (hcount hne).2⟩, hgo⟩
      · exact fun hne => ⟨Nat.succ_ne_zero _, (hcount hne).2.resolve_right fun hs => hs hp⟩
    · rw [if_neg hp] at hw
      split at hw
      · rename_i hn
        obtain ⟨rfl, rfl⟩ := Prod.mk.inj (Option.some.inj hw)
        exact moved_self hd ⟨rfl, rfl, rfl⟩ ⟨hx.high, fun _ => ⟨Nat.succ_ne_zero _, Or.inr trivial⟩,
          hgo, hp, hstop.resolve_right (by omega), hn⟩ (Nat.le_refl _)
      · rename_i hn
        obtain ⟨rfl, rfl⟩ := Prod.mk.inj (Option.some.inj hw)
        have h1 : n = 1 := by
          obtain hk | h1 := hstop
          · have h0 : n ≠ 0 := fun h0 => not_known_zero hd.sound (h0 ▸ hk)
            omega
          · exact h1
        subst h1
        refine moved_self hd ⟨rfl, rfl, rfl⟩ ⟨hx.high, fun _ => ⟨Nat.succ_ne_zero _, Or.inr trivial⟩,
          ?_⟩ (Nat.le_refl _)
        exact maximum_ok hgo hp steps_self hB fun v hv => absurd rfl (walked_iff.mp hv).1
  · rw [if_neg hstop] at hw
    obtain ⟨rfl, rfl⟩ := Prod.mk.inj (Option.some.inj hw)
    have hnot := not_or.mp hstop
    have hleads := hgo.leads.snoc hnot.2 fun h0 => hnot.1 (hd.kept n h0)
    refine moved_self hd ⟨rfl, rfl, rfl⟩ ⟨?_, fun _ => ⟨Nat.succ_ne_zero _, Or.inr (by simp [Pc.storing])⟩,
      hgo.block, hleads, ?_, fun _ => Nat.le_max_right _ _⟩ (Nat.le_max_left _ _)
    · obtain hle | hle := Nat.le_total (next n) x.highest
      · have hmax : max x.highest (next n) = x.highest := Nat.max_eq_left hle
        simp only [hmax]
        exact hx.high
      · have hmax : max x.highest (next n) = next n := Nat.max_eq_right hle
        simp only [hmax]
        exact Or.inr ⟨c, hgo.block.inRange, hleads.walked (by simp)⟩
    · intro m hm
      refine Nat.le_trans ?_ (Nat.le_max_left x.highest (next n))
      by_cases hp : p = []
      · rw [hp] at hm
        exact absurd hm List.not_mem_nil
      · rw [List.tail_append_of_ne_nil hp] at hm
        obtain hm | hm := List.mem_append.mp hm
        · exact hgo.tail m hm
        · exact List.mem_singleton.mp hm ▸ hgo.last hp

theorem known_moved (hpc : x.pc = .known tmp c p n) (hw : work l db x = some (db', x'))
    (hB : ∀ v ≤ x'.highest, B v) : Moved l db0 B db x db' x' := by
  have hplace := hx.place
  rw [hpc] at hplace
  obtain ⟨hgo, hp, hk, hn⟩ := hplace
  have hcount := hx.counted
  rw [hpc] at hcount
  simp only [work, hpc] at hw
  obtain ⟨rfl, rfl⟩ := Prod.mk.inj (Option.some.inj hw)
  refine moved_self hd ⟨rfl, rfl, rfl⟩ ⟨hx.high, hcount, ?_⟩ (Nat.le_refl _)
  apply maximum_ok hgo hp (steps_known hd.sound hk) hB
  exact fun v hv => hd.highLow n v hk (walked_iff.mp hv).2.1 hv

theorem maximum_moved (hpc : x.pc = .maximum tmp c p i) (hw : work l db x = some (db', x')) :
    Moved l db0 B db x db' x' := by
  have hplace := hx.place
  rw [hpc] at hplace
  obtain ⟨hb, hp, h1, h0, hsteps, hrest, horigin, hbound⟩ := hplace
  have hcount := hx.counted
  rw [hpc] at hcount
  simp only [work, hpc] at hw
  obtain ⟨rfl, rfl⟩ := Prod.mk.inj (Option.some.inj hw)
  have hres : ∃ r, (if i > db.result.getD 0 then { db with result := some i } else db) =
      { db with result := r } ∧ db.result.getD 0 ≤ r.getD 0 ∧ i ≤ r.getD 0 ∧
      (r = db.result ∨ r = some i) := by
    split
    · rename_i hi
      exact ⟨some i, rfl, Nat.le_of_lt hi, Nat.le_refl _, Or.inr rfl⟩
    · rename_i hi
      exact ⟨db.result, rfl, Nat.le_refl _, Nat.not_lt.mp hi, Or.inl rfl⟩
  obtain ⟨r, hr, hge, hi, hcase⟩ := hres
  rw [hr]
  refine ⟨{ hd with
      resultLow := fun n k hn h0 hk => (hd.resultLow n k hn h0 hk).trans hge
      resultUp := ?_
      resultGe := hd.resultGe.trans hge }, ⟨hx.high, ?_, hb, ?_⟩, fun _ hn => hn, hge, Nat.le_refl _,
    Nat.le_refl _⟩
  · obtain rfl | rfl := hcase
    · exact hd.resultUp
    · exact Or.inr ⟨c, i, hb.inRange, h1, h0, hsteps, rfl⟩
  · refine fun hne => ⟨(hcount hne).1, Or.inr ?_⟩
    simpa [Pc.storing] using hp
  · intro m j hm
    obtain ⟨⟨y, e⟩, he, heq⟩ := List.mem_map.mp hm
    obtain ⟨rfl, rfl⟩ := Prod.mk.inj heq
    have hy : y ∈ p := List.fst_mem_of_mem_zipIdx he
    exact ⟨hrest y e he, (Nat.sub_le i e).trans hi, horigin y hy, hbound y hy⟩

theorem store_moved {todo : List (Nat × Nat)} (hpc : x.pc = .store tmp c todo)
    (hw : work l db x = some (db', x')) : Moved l db0 B db x db' x' := by
  have hplace := hx.place
  rw [hpc] at hplace
  obtain ⟨hb, htodo⟩ := hplace
  have hcount := hx.counted
  rw [hpc] at hcount
  simp only [work, hpc] at hw
  cases todo with
  | nil =>
    obtain ⟨rfl, rfl⟩ := Prod.mk.inj (Option.some.inj hw)
    refine moved_self hd ⟨rfl, rfl, rfl⟩ (advance_ok hb hx ?_) (Nat.le_refl _)
    exact fun hne => ⟨(hcount hne).1, (hcount hne).2.resolve_right fun hs => hs rfl⟩
  | cons e todo =>
    obtain ⟨m, i⟩ := e
    obtain ⟨rfl, rfl⟩ := Prod.mk.inj (Option.some.inj hw)
    obtain ⟨hsteps, hi, horigin, hbound⟩ := htodo m i List.mem_cons_self
    have hself : ∀ n, Function.update db.step (inttostr m) (some (inttostr i)) (inttostr n) =
        if n = m then some (inttostr i) else db.step (inttostr n) := by
      intro n
      by_cases hn : n = m
      · rw [hn, Function.update_self, if_pos rfl]
      · rw [Function.update_of_ne fun hs => hn (inttostr_injective hs), if_neg hn]
    have hknown : ∀ n, Known (Function.update db.step (inttostr m) (some (inttostr i))) n ↔
        n = m ∨ Known db.step n := by
      intro n
      unfold Known
      rw [hself]
      by_cases hn : n = m
      · simp [hn]
      · simp [hn]
    refine ⟨⟨?_, ?_, ?_, ?_, hd.resultUp, hd.resultGe, ?_, hd.highUp, hd.highGe⟩, ⟨hx.high, ?_, hb, ?_⟩,
      fun n hn => (hknown n).mpr (Or.inr hn), Nat.le_refl _, Nat.le_refl _, Nat.le_refl _⟩
    · intro n v hv
      have hv := (hself n).symm.trans hv
      split at hv
      · rename_i hn
        exact ⟨i, (Option.some.inj hv).symm, hn ▸ hsteps⟩
      · exact hd.sound n v hv
    · exact fun n hn => (hknown n).mpr (Or.inr (hd.kept n hn))
    · intro n hn h0
      obtain rfl | hn := (hknown n).mp hn
      · exact horigin
      · exact hd.origin n hn h0
    · intro n k hn h0 hk
      obtain rfl | hn := (hknown n).mp hn
      · exact hk.unique hsteps ▸ hi
      · exact hd.resultLow n k hn h0 hk
    · intro n v hn h0 hv
      obtain rfl | hn := (hknown n).mp hn
      · exact hbound v hv
      · exact hd.highLow n v hn h0 hv
    · exact fun hne => ⟨(hcount hne).1, Or.inl (Nat.succ_ne_zero _)⟩
    · exact fun y j hy => htodo y j (List.mem_cons_of_mem _ hy)

theorem finish_moved (hpc : x.pc = .finish) (hw : work l db x = some (db', x')) :
    Moved l db0 B db x db' x' := by
  have hcount := counted_of hx (by rw [hpc]; exact id)
  simp only [work, hpc] at hw
  obtain ⟨rfl, rfl⟩ := Prod.mk.inj (Option.some.inj hw)
  have hstat : ∃ h, (db.statistics x).step = db.step ∧ (db.statistics x).result = db.result ∧
      (db.statistics x).highest = h ∧ db.highest.getD 0 ≤ h.getD 0 ∧ x.highest ≤ h.getD 0 ∧
      (h = db.highest ∨ x.highest ≠ 0 ∧ h = some x.highest) := by
    unfold Db.statistics
    simp only []
    split
    · have hz : x.highest = 0 := by
        by_contra hne
        have := (hcount hne).1
        omega
      exact ⟨db.highest, rfl, rfl, rfl, Nat.le_refl _, by omega, Or.inl rfl⟩
    · split
      · have hz : x.highest = 0 := by
          by_contra hne
          have := (hcount hne).2
          omega
        exact ⟨db.highest, rfl, rfl, rfl, Nat.le_refl _, by omega, Or.inl rfl⟩
      · split
        · rename_i hgt
          exact ⟨some x.highest, rfl, rfl, rfl, Nat.le_of_lt hgt, Nat.le_refl _,
            Or.inr ⟨by omega, rfl⟩⟩
        · rename_i hgt
          exact ⟨db.highest, rfl, rfl, rfl, Nat.le_refl _, Nat.not_lt.mp hgt, Or.inl rfl⟩
  obtain ⟨h, h1, h2, h3, hge, hle, hcase⟩ := hstat
  refine ⟨?_, ?_, ?_, ?_, ?_, Nat.le_refl _⟩
  · rw [h1, h2, h3]
    refine { hd with highUp := ?_, highGe := hd.highGe.trans hge }
    obtain rfl | ⟨hne, rfl⟩ := hcase
    · exact hd.highUp
    · obtain ⟨c, hc, hr⟩ := hx.high.resolve_left hne
      exact Or.inr ⟨c, x.highest, hc, hr, rfl⟩
  · rw [h1, h2, h3]
    exact ⟨hx.high, fun hne => ⟨(hcount hne).1, Or.inl (hcount hne).2⟩, hle⟩
  · rw [h1]
    exact fun _ hn => hn
  · rw [h2]
  · rw [h3]
    exact hge

theorem work_moved (hw : work l db x = some (db', x')) (hB : ∀ v ≤ x'.highest, B v) :
    Moved l db0 B db x db' x' := by
  cases hpc : x.pc with
  | decr =>
    have hcount := counted_of hx (by rw [hpc]; exact id)
    simp only [work, hpc] at hw
    obtain ⟨rfl, rfl⟩ := Prod.mk.inj (Option.some.inj hw)
    exact moved_self hd ⟨rfl, rfl, rfl⟩
      ⟨hx.high, fun hne => ⟨(hcount hne).1, Or.inl (hcount hne).2⟩, trivial⟩ (Nat.le_refl _)
  | scan tmp => exact scan_moved hd hx hpc hw
  | claim tmp => exact claim_moved hd hx hpc hw
  | walk tmp c p n => exact walk_moved hd hx hpc hw hB
  | known tmp c p n => exact known_moved hd hx hpc hw hB
  | maximum tmp c p i => exact maximum_moved hd hx hpc hw
  | store tmp c todo => exact store_moved hd hx hpc hw
  | finish => exact finish_moved hd hx hpc hw
  | absent | lockL2 | lockL1 | unlock | done =>
    simp only [work, hpc] at hw
    exact absurd hw (Option.some_ne_none _).symm

end Work

end YdbTest.ThreeEn1
