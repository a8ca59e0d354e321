import YdbTest.Counting
import YdbTest.Accept
import YdbTest.PlainSpec

namespace YdbTest.CleanRun

open MString Globals Command Imptp Triggers CheckDb Iteration IndexWalk IndexUnique Owner
  Discipline Isolation Content Stages Solo PlainStages PlainSpec Accept Shared Run RunInv Counting
  Decimal

variable {c : Cfg} {ts : List Trigger} {σ : Sys} {it : Iter} {db : Db}

def NoCrash (_ : Sys) (a : Act) : Prop := ∀ jobno, a ≠ .crash jobno

def NewIndex (c : Cfg) (σ : Sys) (a : Act) : Prop :=
  ∀ jobno d loop I, a = .begin jobno d → σ.jobs jobno = .ready loop I →
    exponent c.jobcnt jobno loop < prime - 1

def CleanStep (c : Cfg) (σ : Sys) (a : Act) : Prop := NoCrash σ a ∧ NewIndex c σ a

theorem finished_nil (h : c.trigger = 0) (hf : Holds c it (finished c it) (TreeStore.get db)) :
    compiter c db it = [] :=
  compiter_nil hf rfl rfl rfl rfl (by simp [finished, spans10, h]) rfl

theorem cleanRules (h : c.trigger = 0) (hj : 1 ≤ c.jobcnt) :
    Rules c [] (CleanStep c) (fun db it => Holds c it (finished c it) (TreeStore.get db)) where
  installed := by simp [Installed, installed, h]
  congr := fun hn hf => Solo.Holds.congr hf hn
  whole := fun _ _ _ _ hs => whole_finished (plainSpec h) hj hs
  begins := fun σ jobno d loop I hok hjob => hok.2 jobno d loop I rfl hjob
  crash := fun _ it _ _ _ _ hok => absurd rfl (hok.1 it.jobno)

/-- After a clean run the checker finds nothing and the counters count the
iterations, since no step disturbs an iteration other than its job's. -/
theorem checkdb_clean_run (ht : c.trigger = 0) (hj : 1 ≤ c.jobcnt)
    (h : Reaches c [] (CleanStep c) σ) (hd : σ.Down) :
    checkdb c σ.db ⟨0, 0⟩ = some [] ∧
    (∀ jobno loop, 1 ≤ jobno → jobno ≤ c.jobcnt → 1 ≤ loop → loop ≤ lasti c σ.db jobno →
      compiter c σ.db (iterAt c jobno loop) = []) ∧
    Globals.get σ.db (.cntloop, [fid c]) = dec (cntloop c σ.db) ∧
    Globals.get σ.db (.cntseq, [fid c]) = dec ((13 + c.jobcnt) * cntloop c σ.db) ∧
    ∀ σ₁ a σ₂ it n, Reaches c [] (CleanStep c) σ₁ → Step c [] σ₁ a σ₂ → Valid c it →
      ¬ Current σ₁ it → Owned c it n → TreeStore.get σ₂.db n = TreeStore.get σ₁.db n := by
  have hr := cleanRules ht hj
  have hiter (jobno loop : Nat) (h1 : 1 ≤ jobno) (hc : jobno ≤ c.jobcnt) (hl1 : 1 ≤ loop)
      (hl : loop ≤ lasti c σ.db jobno) : compiter c σ.db (iterAt c jobno loop) = [] :=
    finished_nil ht (settled_down hr h hd h1 hc hl1 hl)
  obtain ⟨hloop, hseq⟩ := counters_down hr (fun σ jobno hok => hok.1 jobno rfl) h hd
  refine ⟨?_, hiter, by rw [Globals.get, hloop]; rfl, by rw [Globals.get, hseq]; rfl,
    fun σ₁ a σ₂ it n h₁ hs hv hc hn => step_other hr (inv_reaches hr h₁) hs hv hc hn⟩
  have hno : ¬ (c.jobcnt = 0 ∨ c.gtcm = 1 ∧ (0 : Nat) = 1 ∨ (0 : Nat) = 0 ∧ (0 : Nat) ≠ 0) := by
    omega
  rw [checkdb, if_neg hno, if_pos (Or.inl rfl), if_pos rfl, expect_some hloop, nocrash,
    walk_nil hiter, List.append_nil]

/-- Where the job count does not divide `prime` no index comes round again, so
every clean run will do. -/
theorem reaches_clean (ht : c.trigger = 0) (hj : 1 ≤ c.jobcnt) (htop : c.top = 0)
    (hdvd : ¬ c.jobcnt ∣ prime) (h : Reaches c [] NoCrash σ) : Reaches c [] (CleanStep c) σ := by
  induction h with
  | initial => exact Reaches.initial
  | step h hok hs ih =>
    refine ih.step ⟨hok, ?_⟩ hs
    rintro jobno d loop I rfl hjob
    have hi := inv_reaches (cleanRules ht hj) ih
    have hrange := hi.range jobno (by rw [hjob]; simp)
    have hready := hi.job jobno
    rw [hjob] at hready
    cases hs with
    | begin _ loop' I' _ hjob' hle =>
      rw [hjob] at hjob'
      cases hjob'
      rw [Imptp.top, if_pos htop] at hle
      exact exponent_lt_of_not_dvd hdvd hrange.1 hrange.2 (by have := hready.1; omega) hle

/-- Two jobs whose records span several blocks. -/
def twoJobs : Cfg where
  env := ⟨true, 199, false⟩
  fillid := 0
  jobcnt := 2
  istp := 1
  crash := 0
  gtcm := 0
  span := 2
  keysize := 64
  recsize := 256
  trigger := 0
  top := 0

def noDraws : Draws := ⟨0, 0, 0, 9, 0, 0, 0, 0, 0, []⟩

theorem checkdb_clean_run_two_jobs : ∃ σ, Reaches twoJobs [] (CleanStep twoJobs) σ ∧ σ.Down ∧
    lasti twoJobs σ.db 2 = 3 ∧ checkdb twoJobs σ.db ⟨0, 0⟩ = some [] := by
  have htop : 2 + 1 ≤ Imptp.top twoJobs := by decide
  have hdvd : ¬ twoJobs.jobcnt ∣ prime := by decide
  obtain ⟨σ, p, db, h, hd, hdb⟩ := @reaches_stopped twoJobs [] NoCrash 2 (fun _ _ h => h) (by decide)
    (by decide) 2 htop noDraws
  have hclean := reaches_clean rfl (by decide) rfl hdvd h
  refine ⟨σ, hclean, hd, ?_, (checkdb_clean_run rfl (by decide) hclean hd).1⟩
  rw [hdb]
  exact lasti_commands (by simp [Installed, installed, twoJobs]) _

theorem one_loop (d : Draws) : ∃ σ : Sys, Reaches twoJobs [] (CleanStep twoJobs) σ ∧ σ.Down ∧
    TreeStore.get σ.db (lastiNode twoJobs 1) = none ∧
    TreeStore.get σ.db (lastiNode twoJobs 2) = some (dec 1) := by
  have hinst : Installed twoJobs [] := by simp [Installed, installed, twoJobs]
  have htop : 0 + 1 ≤ Imptp.top twoJobs := by decide
  obtain ⟨τ, hstart, hready, hdb₀, hothers⟩ : ∃ τ, Reaches twoJobs [] NoCrash τ ∧
      τ.jobs 2 = .ready (0 + 1) (startIndex twoJobs.jobcnt 2 0) ∧ τ.db = (Run.initial twoJobs).db ∧
      ∀ jobno, jobno ≠ 2 → τ.jobs jobno = .down := by
    refine ⟨_, Reaches.step Reaches.initial (fun j hj => by cases hj)
      (Step.start (Run.initial twoJobs) 2 (by decide) le_rfl rfl), ?_, rfl, fun jobno hne => ?_⟩
    · simp [lasti_initial]
    · simp [hne, Run.initial]
  obtain ⟨σ, h, hjobs, hdb⟩ := reaches_iteration (fun _ _ h => h) hstart hready htop d
  have hstop := Reaches.step h (fun j hj => by cases hj)
    (Step.stop σ 2 _ _ (by rw [hjobs, Function.update_self]))
  have hget (jobno : Nat) := @get_lasti_run twoJobs [] ⟨2, 0 + 1, startIndex twoJobs.jobcnt 2 0⟩
    ⟨τ.db, τ.procs 2⟩ _ hinst (@commands_orderly twoJobs _ d _) commands_setsLasti jobno
  refine ⟨_, reaches_clean rfl (by decide) rfl (by decide) hstop, fun jobno => ?_, ?_, ?_⟩
  · by_cases he : jobno = 2
    · simp [he]
    · simp [he, hjobs, hothers jobno he]
  · change TreeStore.get σ.db (lastiNode twoJobs 1) = none
    rw [hdb, hget 1, if_pos (hitsIn_lasti_other commands_setsLasti (by decide)), hdb₀]
    exact get_initial (by simp [lastiNode])
  · change TreeStore.get σ.db (lastiNode twoJobs 2) = some (dec 1)
    have hits := @hitsIn_lasti twoJobs ⟨2, 0 + 1, startIndex twoJobs.jobcnt 2 0⟩ d
    rw [hdb, hget 2]
    exact if_neg hits

section OneJob

/-- With one job the last loop that `top` allows has the index of the first. -/
def oneJob : Cfg := { twoJobs with env := ⟨false, 199, false⟩, jobcnt := 1 }

theorem subsMAX_congr {it' : Iter} (h : it.I = it'.I) : subsMAX c it = subsMAX c it' := by
  simp only [subsMAX, keypad, subs, h]

theorem run_plain_keeps {cs : List Cmd} {n : Node} (h : Targets (fun t => TreeStore.below t n = false) cs)
    (s : St) : TreeStore.get (run [] cs s).db n = TreeStore.get s.db n := by
  induction cs generalizing s with
  | nil => rfl
  | cons cmd cs ih =>
    have h := (each_cons cmd cs).mp h
    have hone := @look_upd_of_targets [cmd] s n (by simpa using h.1) (TreeStore.get s.db n)
    rw [run_cons, ih h.2, get_exec]
    simpa using hone

theorem arandom_last (h : c.trigger = 0) (d : Draws) (s : St) :
    TreeStore.get (run [] (commands c it d) s).db (.arandom, [fid c, subsMAX c it]) =
      some (val c it) := by
  have hafter : Targets (fun t => t.1 = .arandom → 2 < t.2.length)
      ((stage2 c it d).cmds ++ (stage3 c it).cmds ++ stage4s c it ++ (stage5 c it d).cmds ++
        (stage6 c it).cmds ++ (stage7 c it).cmds ++ (stage8 c it d).cmds ++ (stage9 c d).cmds ++
        (stage10 c it).cmds ++ (stage11 c it).cmds) := by
    simp [stage2, stage3, stage4s, stage4, stage5, stage6, stage7, stage8, stage9, stage10, stage11,
      dztrigCall, holdcrit, randoms, ndxarrs, setLasti, h]
  have hafter : Targets (fun t => TreeStore.below t (.arandom, [fid c, subsMAX c it]) = false) _ :=
    hafter.mono (fun t ht => by
      rw [← Bool.not_eq_true, TreeStore.below_iff]
      rintro ⟨hg, hp⟩
      have := ht hg
      have := hp.length_le
      simp only [List.length_cons, List.length_nil] at this
      omega)
  have hfirst := @plain_stage1 c it d h (run [] (stage0 c).cmds s)
    (.arandom, [fid c, subsMAX c it]) (by simp [key])
  rw [commands_eq]
  simp only [List.append_assoc] at hafter ⊢
  rw [run_append, run_append, run_plain_keeps hafter, hfirst]
  exact (@stage1_first c it _).1 ((.arandom, [fid c, subsMAX c it]), val c it) (by simp [firstTp])

/-- A clean run of one job alone that the checker does not accept. -/
theorem clean_run_fails_one_job : ∃ σ, Reaches oneJob [] NoCrash σ ∧ σ.Down ∧
    1 ≤ lasti oneJob σ.db 1 ∧ compiter oneJob σ.db (iterAt oneJob 1 1) ≠ [] := by
  have hpos : 1 < IndexWalk.top 1 := by decide
  obtain ⟨n, hn⟩ : ∃ n, IndexWalk.top 1 = n + 1 := ⟨IndexWalk.top 1 - 1, by omega⟩
  have htop : n + 1 ≤ Imptp.top oneJob := Nat.le_of_eq hn.symm
  obtain ⟨σ, p, db, h, hd, hdb⟩ := @reaches_stopped oneJob [] NoCrash 1 (fun _ _ h => h) (by decide)
    (by decide) n htop noDraws
  have hI : (iterAt oneJob 1 (n + 1)).I = (iterAt oneJob 1 1).I := by
    have hlast := @startIndex_last 1 (one_dvd prime)
    rw [hn] at hlast
    exact hlast
  refine ⟨σ, h, hd, ?_, ?_⟩
  · have hl := @lasti_commands oneJob [] (iterAt oneJob 1 (n + 1)) noDraws
      (by simp [Installed, installed, oneJob, twoJobs]) ⟨db, p⟩
    rw [← hdb] at hl
    rw [show lasti oneJob σ.db 1 = n + 1 from hl]
    omega
  · have hval := @arandom_last oneJob (iterAt oneJob 1 (n + 1)) rfl noDraws ⟨db, p⟩
    rw [subsMAX_congr hI, ← hdb] at hval
    have hne : val oneJob (iterAt oneJob 1 (n + 1)) ≠ val oneJob (iterAt oneJob 1 1) := by
      intro he
      have := GenStrUnique.genstr_injective (by omega) (by omega) (show
        GenStr.genstr oneJob.env (n + 1) = GenStr.genstr oneJob.env 1 from he)
      omega
    rw [← List.length_pos_iff]
    simp [compiter, firstTp, expect, Globals.get, hval, hne]

end OneJob

end YdbTest.CleanRun
