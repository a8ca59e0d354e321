import YdbTest.Threeenp1Steps
import Mathlib.Order.Bounds.Basic

namespace YdbTest.Threeenp1

open Function Orbits
open ThreeEn1 (collatz)

/-- The numbers of steps from the numbers up to `endnum`. -/
def lengths (l : Line) : Set Nat := {k | ∃ c, InRange l c ∧ Steps collatz 1 c k}

/-- The numbers that are reached on the way to 1 from the numbers up to `endnum`. -/
def reached (l : Line) : Set Nat :=
  {v | ∃ c k j, InRange l c ∧ Steps collatz 1 c k ∧ 1 ≤ j ∧ j ≤ k ∧ collatz^[j] c = v}

/-- What the workers have computed when they have ended. -/
structure Answer (l : Line) (σ : Sys) : Prop where
  once : ∀ t, σ.db.limits t ≠ none → ∃ w < l.streams, (σ.workers w).blocks.count t = 1 ∧
    ∀ u < l.streams, u ≠ w → t ∉ (σ.workers u).blocks
  processed : ∀ w < l.streams,
    (σ.workers w).processed = (σ.workers w).blocks.flatMap (members σ.db.limits)
  returns : ∀ c, InRange l c → ∃ k, Steps collatz 1 c k
  result : ∃ r, σ.db.result = some r ∧ IsGreatest (lengths l) r
  highest : ∃ h, σ.db.highest = some h ∧ IsGreatest (reached l) h

def Done (l : Line) (σ : Sys) : Prop := ∀ w < l.streams, (σ.workers w).pc = .done

/-- The line is worked on with the printed block size, and solved when the workers have ended. -/
def Right (l : Line) (σ : Sys) : Prop :=
  Cuts σ.db.limits l.endnum l.size ∧ (Done l σ → Answer l σ)

def Bounded (σ : Sys) (v : Nat) : Prop :=
  v ≤ σ.db.highest.getD 0 ∨ ∃ w, (σ.workers w).pc ≠ .init ∧ v ≤ (σ.lcl w).highest

structure Inv (l : Line) (σ : Sys) : Prop where
  globals : Globals l (Bounded σ) σ.db
  jobs : ∀ w, Job l w (Bounded σ) (σ.view w)
  owned : Claims.Owned σ.db.claimed fun w => (σ.workers w).blocks
  idle : ∀ w, l.streams ≤ w → σ.workers w = .new

variable {prog : Program} {l : Line} {σ σ' : Sys} {w c k v t value value2 : Nat} {s : View}

theorem inv_work (hi : Inv l σ) (hw : w < l.streams) (h : (σ.view w).work w = some s) :
    Inv l (σ.put w s) := by
  have hbound : ∀ v, Bounded σ v → Bounded σ v ∨ v ≤ s.lcl.highest := fun _ => Or.inl
  have hm : Moved l w (fun v => Bounded σ v ∨ v ≤ s.lcl.highest) (σ.view w) s :=
    work_moved (hi.globals.mono hbound) ((hi.jobs w).mono hbound (Grows.refl _)) h
      fun _ hv => Or.inr hv
  have hself : (σ.put w s).view w = s := by
    simp only [Sys.view, Sys.put, update_self]
  have hother : ∀ {u}, u ≠ w → (σ.put w s).view u = { σ.view u with db := s.db } := by
    intro u hu
    simp only [Sys.view, Sys.put, update_of_ne hu]
  have hnew : ∀ v, Bounded σ v ∨ v ≤ s.lcl.highest → Bounded (σ.put w s) v := by
    rintro v ((hv | ⟨u, hu, hv⟩) | hv)
    · exact Or.inl (hv.trans hm.grows.highest)
    · refine Or.inr ⟨u, ?_⟩
      change ((σ.put w s).view u).worker.pc ≠ .init ∧ v ≤ ((σ.put w s).view u).lcl.highest
      obtain rfl | hne := eq_or_ne u w
      · rw [hself]
        exact ⟨hm.started, hv.trans (hm.high hu)⟩
      · rw [hother hne]
        exact ⟨hu, hv⟩
    · refine Or.inr ⟨w, ?_⟩
      change ((σ.put w s).view w).worker.pc ≠ .init ∧ v ≤ ((σ.put w s).view w).lcl.highest
      rw [hself]
      exact ⟨hm.started, hv⟩
  refine ⟨hm.globals.mono hnew, fun u => ?_, ?_, fun u hu => ?_⟩
  · obtain rfl | hne := eq_or_ne u w
    · rw [hself]
      exact hm.job.mono hnew (Grows.refl _)
    · rw [hother hne]
      exact (hi.jobs u).mono (fun v hv => hnew v (Or.inl hv)) hm.grows
  · have hblocks : (fun u => ((σ.put w s).workers u).blocks) =
        update (fun u => (σ.workers u).blocks) w s.worker.blocks := by
      funext u
      exact apply_update (fun _ (x : Worker) => x.blocks) σ.workers w s.worker u
    rw [hblocks]
    change Claims.Owned s.db.claimed _
    have hkeep : update (fun u => (σ.workers u).blocks) w (σ.view w).worker.blocks =
        fun u => (σ.workers u).blocks := update_eq_self w _
    obtain ⟨hc, hb⟩ | ⟨t, hc, hb⟩ := hm.takes
    · rw [hc, hb, hkeep]
      exact hi.owned
    · by_cases h0 : (σ.view w).db.claimed t = 0
      · rw [hc, hb, if_pos h0]
        exact hi.owned.take h0
      · rw [hc, hb, if_neg h0, hkeep]
        exact hi.owned.leave h0
  · have hne : u ≠ w := by omega
    simp only [Sys.put, update_of_ne hne]
    exact hi.idle u hu

theorem inv_restart (hi : Inv l σ) (hw : w < l.streams)
    (h : σ.restart w value value2 = some σ') : Inv l σ' := by
  have hx : σ' = { σ with
      workers := update σ.workers w { σ.workers w with value := value, value2 := value2 } } := by
    unfold Sys.restart at h
    split at h
    · exact (Option.some.inj h).symm
    · exact (Option.some.inj h).symm
    · cases h
  subst hx
  have hidle : ∀ u, l.streams ≤ u →
      update σ.workers w { σ.workers w with value := value, value2 := value2 } u = .new := by
    intro u hu
    have hne : u ≠ w := by omega
    rw [update_of_ne hne, hi.idle u hu]
  have hsame : ∀ u, ∃ a b,
      update σ.workers w { σ.workers w with value := value, value2 := value2 } u =
        { σ.workers u with value := a, value2 := b } := by
    intro u
    obtain rfl | hne := eq_or_ne u w
    · exact ⟨value, value2, by rw [update_self]⟩
    · exact ⟨(σ.workers u).value, (σ.workers u).value2, by rw [update_of_ne hne]⟩
  choose a b hab using hsame
  have hworkers := funext hab
  rw [hworkers] at hidle ⊢
  refine ⟨hi.globals, fun u => ?_, hi.owned, hidle⟩
  have hj := hi.jobs u
  exact ⟨hj.high, hj.place, hj.taken, hj.shared, hj.solved, hj.passed⟩

theorem inv_start (hstep : ∀ n, σ.db.step n = none) (hresult : σ.db.result.getD 0 = 0)
    (hhighest : σ.db.highest.getD 0 = 0) (h : start prog l σ = some σ') : Inv l σ' := by
  obtain ⟨t, ht, rfl⟩ := Option.map_eq_some_iff.mp h
  have hno : ∀ {n k}, σ.db.step n ≠ some k := fun {n k} hk => by
    rw [hstep n] at hk
    cases hk
  refine ⟨⟨(table_cut ht).1, fun t hc => absurd rfl hc, fun n k hk => absurd hk hno,
    fun n k hk => absurd hk hno, Or.inl hresult, fun n v hn => absurd (hstep n) hn,
    Or.inl hhighest⟩, fun w => ?_, Claims.owned_nil, fun _ _ => rfl⟩
  exact ⟨Or.inl rfl, trivial, fun t ht => absurd ht List.not_mem_nil, rfl,
    fun c hc => absurd hc List.not_mem_nil, trivial⟩

theorem inv_reaches (h : Reaches prog l σ) : Inv l σ := by
  induction h with
  | first h => exact inv_start (fun _ => rfl) rfl rfl h
  | step _ a ha h ih =>
    cases a with
    | work w =>
      obtain ⟨s, hs, rfl⟩ := Option.map_eq_some_iff.mp h
      exact inv_work ih ha hs
    | restart w value value2 => exact inv_restart ih ha h
  | line _ _ h => exact inv_start (fun _ => rfl) rfl rfl h

section Ended

variable (hi : Inv l σ) (hd : Done l σ)

include hi hd

theorem block_once (ht : σ.db.limits t ≠ none) : ∃ w < l.streams,
    (σ.workers w).blocks.count t = 1 ∧
      ∀ u < l.streams, u ≠ w → t ∉ (σ.workers u).blocks := by
  obtain ⟨k, b, hcut⟩ := hi.globals.cut
  obtain ⟨e, he⟩ := Option.ne_none_iff_exists'.mp ht
  have hpassed := (hi.jobs 0).passed
  simp only [Sys.view, hd 0 l.pos] at hpassed
  obtain ⟨w, hw, hother⟩ := hi.owned.taken_once (hpassed t (hcut.of_some he).1 ht)
  refine ⟨w, Nat.not_le.mp fun hle => ?_, hw, fun u _ hu => hother u hu⟩
  rw [hi.idle w hle] at hw
  cases hw

theorem processed_eq (hw : w < l.streams) :
    (σ.workers w).processed = (σ.workers w).blocks.flatMap (members σ.db.limits) := by
  have hshared := (hi.jobs w).shared
  simp only [Sys.view, Shared, hd w hw] at hshared
  exact hshared

theorem known_of_range (hc : InRange l c) : c = 1 ∨ σ.db.step c ≠ none := by
  obtain ⟨k, b, hcut⟩ := hi.globals.cut
  obtain ⟨t, e, he, hfirst, hle⟩ := hcut.exists_block hc.1 hc.2
  have ht : σ.db.limits t ≠ none := by
    rw [he]
    exact Option.some_ne_none e
  obtain ⟨w, hw, hcount, -⟩ := block_once hi hd ht
  refine (hi.jobs w).solved c ?_
  change c ∈ (σ.workers w).processed
  rw [processed_eq hi hd hw]
  refine List.mem_flatMap.mpr ⟨t, List.count_pos_iff.mp (by omega), ?_⟩
  rw [members_of_last he, List.mem_range'_1]
  omega

theorem returns (hc : InRange l c) : ∃ k, Steps collatz 1 c k := by
  obtain rfl | hk := known_of_range hi hd hc
  · exact ⟨0, steps_self⟩
  · obtain ⟨k, hk⟩ := Option.ne_none_iff_exists'.mp hk
    exact ⟨k, hi.globals.sound c k hk⟩

theorem result_greatest : ∃ r, σ.db.result = some r ∧ IsGreatest (lengths l) r := by
  have hlow : ∀ k ∈ lengths l, k ≤ σ.db.result.getD 0 := by
    rintro k ⟨c, hc, hk⟩
    obtain rfl | hknown := known_of_range hi hd hc
    · rw [hk.unique steps_self]
      exact Nat.zero_le _
    · obtain ⟨m, hm⟩ := Option.ne_none_iff_exists'.mp hknown
      rw [hk.unique (hi.globals.sound c m hm)]
      exact hi.globals.resultLow c m hm
  have htwo : 1 ≤ σ.db.result.getD 0 :=
    hlow 1 ⟨2, ⟨by decide, l.one_lt⟩, ⟨by decide, by decide⟩⟩
  obtain h0 | ⟨c, k, hc, hk, heq⟩ := hi.globals.resultUp
  · omega
  · refine ⟨k, heq, ⟨c, hc, hk⟩, fun m hm => ?_⟩
    have hle := hlow m hm
    rwa [heq] at hle

/-- When all workers have ended the highest number of each is in `^highest`. -/
theorem bounded_le (h : Bounded σ v) : v ≤ σ.db.highest.getD 0 := by
  obtain h | ⟨w, hw, h⟩ := h
  · exact h
  · have hw : w < l.streams := Nat.not_le.mp fun hle => hw (congrArg Worker.pc (hi.idle w hle))
    have hplace := (hi.jobs w).place
    simp only [Sys.view, Place, hd w hw] at hplace
    exact h.trans hplace

theorem highest_greatest : ∃ h, σ.db.highest = some h ∧ IsGreatest (reached l) h := by
  have hlow : ∀ v ∈ reached l, v ≤ σ.db.highest.getD 0 := by
    rintro v ⟨c, k, j, hc, hk, h1, hj, rfl⟩
    have hne : c ≠ 1 := by
      rintro rfl
      have := hk.unique steps_self
      omega
    have hknown := (known_of_range hi hd hc).resolve_left hne
    exact bounded_le hi hd (hi.globals.highLow c _ hknown ((walked_all hk).mpr ⟨j, h1, hj, rfl⟩))
  have htwo : 1 ≤ σ.db.highest.getD 0 :=
    hlow 1 ⟨2, 1, 1, ⟨by decide, l.one_lt⟩, ⟨by decide, by decide⟩, Nat.le_refl 1, Nat.le_refl 1,
      rfl⟩
  obtain h0 | ⟨c, v, hc, hv, heq⟩ := hi.globals.highUp
  · omega
  · obtain ⟨k, hk⟩ := returns hi hd hc
    obtain ⟨j, h1, hj, hjv⟩ := (walked_all hk).mp hv
    refine ⟨v, heq, ⟨c, k, j, hc, hk, h1, hj, hjv⟩, fun m hm => ?_⟩
    have hle := hlow m hm
    rwa [heq] at hle

theorem answer : Answer l σ where
  once _ ht := block_once hi hd ht
  processed _ hw := processed_eq hi hd hw
  returns _ hc := returns hi hd hc
  result := result_greatest hi hd
  highest := highest_greatest hi hd

end Ended

theorem act_limits {a : Act} (hi : Inv l σ) (h : act σ a = some σ') :
    σ'.db.limits = σ.db.limits := by
  cases a with
  | work w =>
    obtain ⟨s, hs, rfl⟩ := Option.map_eq_some_iff.mp h
    have htrue : ∀ v, Bounded σ v → True := fun _ _ => trivial
    have hm := work_moved (hi.globals.mono htrue) ((hi.jobs w).mono htrue (Grows.refl _)) hs
      fun _ _ => trivial
    exact hm.grows.limits
  | restart w value value2 =>
    simp only [act, Sys.restart] at h
    split at h
    · exact Option.some.inj h ▸ rfl
    · exact Option.some.inj h ▸ rfl
    · cases h

theorem cuts_reaches (h : Reaches prog l σ) :
    Cuts σ.db.limits l.endnum l.size ↔ prog = .C2 ∨ l.size ∣ l.endnum := by
  have hstart : ∀ {l : Line} {σ σ' : Sys}, start prog l σ = some σ' →
      (Cuts σ'.db.limits l.endnum l.size ↔ prog = .C2 ∨ l.size ∣ l.endnum) := by
    intro l σ σ' h
    obtain ⟨t, ht, rfl⟩ := Option.map_eq_some_iff.mp h
    exact (table_cut ht).2
  induction h with
  | first h => exact hstart h
  | step hr a _ h ih => rwa [act_limits (inv_reaches hr) h]
  | line _ _ h => exact hstart h

/-- In every state of a run a line is worked on as announced, if the program is the one with
processes or the block size divides the last number, and in no state otherwise. -/
theorem block_size (h : Reaches prog l σ) : Right l σ ↔ prog = .C2 ∨ l.size ∣ l.endnum := by
  rw [Right, cuts_reaches h]
  exact and_iff_left fun hd => answer (inv_reaches h) hd

def three : Line := ⟨3, 1, 2, by decide, by decide⟩

def nothing : Sys where
  db := ⟨fun _ => none, fun _ => 0, fun _ => none, none, none, none, none⟩
  subscr := 0
  lcl := fun _ => ⟨0, 0, 0, []⟩
  workers := fun _ => .new

def byTwo : Line := ⟨3, 2, 2, by decide, Nat.two_pos⟩

def turns (σ : Sys) (ws : List Nat) : Option Sys := ws.foldlM (fun σ w => act σ (.work w)) σ

theorem reaches_turns {ws : List Nat} (hr : Reaches prog l σ) (hw : ∀ w ∈ ws, w < l.streams)
    (h : turns σ ws = some σ') : Reaches prog l σ' := by
  induction ws generalizing σ with
  | nil => exact Option.some.inj h ▸ hr
  | cons w ws ih =>
    obtain ⟨τ, hτ, h⟩ := Option.bind_eq_some_iff.mp h
    exact ih (hr.step (.work w) (hw w List.mem_cons_self) hτ)
      (fun v hv => hw v (List.mem_cons_of_mem w hv)) h

def ending : List Nat := (List.replicate 14 [0, 1]).flatten ++ List.replicate 8 1

theorem block_size_byTwo : ∃ σ, Reaches .C2 byTwo σ ∧ Done byTwo σ ∧
    (σ.workers 0).processed = [1, 2] ∧ (σ.workers 1).processed = [3] ∧ Right byTwo σ := by
  have hrun : ((start .C2 byTwo { nothing with db := afresh nothing.db }).bind fun τ =>
      (turns τ ending).map fun σ => ((σ.workers 0).pc, (σ.workers 1).pc,
        (σ.workers 0).processed, (σ.workers 1).processed)) =
      some (.done, .done, [1, 2], [3]) := by decide +kernel
  obtain ⟨τ, hstart, hrun⟩ := Option.bind_eq_some_iff.mp hrun
  obtain ⟨σ, hturns, heq⟩ := Option.map_eq_some_iff.mp hrun
  simp only [Prod.mk.injEq] at heq
  obtain ⟨h0, h1, hp0, hp1⟩ := heq
  have h : Reaches .C2 byTwo σ := reaches_turns (.first hstart) (by decide) hturns
  have hdone : Done byTwo σ := by
    intro w hw
    obtain rfl | rfl : w = 0 ∨ w = 1 := Nat.le_one_iff_eq_zero_or_eq_one.mp (Nat.le_of_lt_succ hw)
    · exact h0
    · exact h1
  exact ⟨σ, h, hdone, hp0, hp1, (block_size h).mpr (Or.inl rfl)⟩

/-- The second turn sets the node of the first one again. -/
theorem block_of_three : ∃ σ, Reaches .B1 three σ ∧ σ.db.limits 1 = some 3 ∧
    σ.db.limits 2 = none ∧ three.size = 2 ∧ ¬ Right three σ := by
  have ht : table .B1 three 0 =
      some ⟨update (update (fun _ => none) 1 (some 2)) 1 (some 3), 1⟩ := rfl
  have h : Reaches .B1 three _ := Reaches.first (σ := nothing) (congrArg (Option.map _) ht)
  refine ⟨_, h, rfl, rfl, rfl, fun hr => ?_⟩
  obtain hc | hd := (cuts_reaches h).mp hr.1
  · cases hc
  · exact absurd hd (by decide)

end YdbTest.Threeenp1
