import YdbTest.ThreeEn1Values

namespace YdbTest.ThreeEn1

open MString MLocks Orbits

variable {l : Problem} {db0 : Db} {σ σ' : Sys} {x x' : Worker} {w n c v k : Nat}

def Bounded (σ : Sys) (v : Nat) : Prop :=
  v ≤ σ.db.highest.getD 0 ∨ ∃ w, v ≤ (σ.workers w).highest

def Parent.started (l : Problem) : Parent → Nat
  | .lockL1 => 0
  | .incr s | .job s => s
  | _ => l.k

def Parent.Fits (l : Problem) : Parent → Prop
  | .incr s => s ≤ l.k
  | .job s => s < l.k
  | _ => True

/-- The invariant of a run that began with `db0`. -/
structure Values (l : Problem) (db0 : Db) (σ : Sys) : Prop where
  globals : DbOk l db0 (Bounded σ) σ.db.step σ.db.result σ.db.highest
  jobs : ∀ w, WorkerOk l db0 (Bounded σ) σ.db.step σ.db.result σ.db.highest (σ.workers w)
  fits : σ.parent.Fits l
  absent : ∀ w, σ.parent.started l ≤ w → σ.workers w = { Worker.new with pc := .absent }

theorem start_values (hs : Sound db0.step) : Values l db0 (start db0) := by
  refine ⟨⟨hs, fun _ hn => hn, fun n hn h0 => absurd hn h0, fun n k hn h0 => absurd hn h0, Or.inl rfl, Nat.le_refl _,
    fun n v hn h0 => absurd hn h0, Or.inl rfl, Nat.le_refl _⟩, ?_, trivial, fun _ _ => rfl⟩
  exact fun w => ⟨Or.inl rfl, fun hne => absurd rfl hne, trivial⟩

theorem moved_values (hi : Values l db0 σ) (hw : w < σ.parent.started l)
    (hdb : σ'.workers = Function.update σ.workers w x') (hp : σ'.parent = σ.parent)
    (hm : Moved l db0 (Bounded σ') σ.db (σ.workers w) σ'.db x') : Values l db0 σ' := by
  have hbound : ∀ v, Bounded σ v → Bounded σ' v := by
    rintro v (hv | ⟨u, hv⟩)
    · exact Or.inl (hv.trans hm.highests)
    · by_cases hu : u = w
      · subst hu
        refine Or.inr ⟨u, ?_⟩
        rw [hdb, Function.update_self]
        exact hv.trans hm.high
      · refine Or.inr ⟨u, ?_⟩
        rwa [hdb, Function.update_of_ne hu]
  refine ⟨hm.globals, ?_, hp ▸ hi.fits, ?_⟩
  · intro u
    by_cases hu : u = w
    · rw [hdb, hu, Function.update_self]
      exact hm.job
    · rw [hdb, Function.update_of_ne hu]
      exact (hi.jobs u).mono ⟨hbound, hm.knows, hm.results, hm.highests⟩
  · intro u hu
    rw [hp] at hu
    have hne : u ≠ w := by omega
    rw [hdb, Function.update_of_ne hne]
    exact hi.absent u hu

theorem bounded_mono (h : ∀ u, (σ.workers u).highest ≤ (σ'.workers u).highest)
    (hd : σ.db.highest.getD 0 ≤ σ'.db.highest.getD 0) : ∀ v, Bounded σ v → Bounded σ' v := by
  rintro v (hv | ⟨u, hv⟩)
  · exact Or.inl (hv.trans hd)
  · exact Or.inr ⟨u, hv.trans (h u)⟩

theorem place_values (hi : Values l db0 σ) (hw : w < σ.parent.started l) {pc : Pc}
    (hdb : σ'.db = σ.db) (hp : σ'.parent = σ.parent)
    (hx : σ'.workers = Function.update σ.workers w { σ.workers w with pc := pc })
    (hcount : ¬ (σ.workers w).pc.storing)
    (hplace : PlaceOk l db0 (Bounded σ') σ.db.step σ.db.result σ.db.highest (σ.workers w).highest pc) :
    Values l db0 σ' := by
  have hbound : ∀ v, Bounded σ v → Bounded σ' v := by
    apply bounded_mono
    · intro u
      rw [hx]
      by_cases hu : u = w
      · rw [hu, Function.update_self]
      · rw [Function.update_of_ne hu]
    · rw [hdb]
  have hjob := hi.jobs w
  apply moved_values hi hw hx hp
  rw [hdb]
  have hc := counted_of hjob hcount
  refine moved_self (hi.globals.mono hbound) ⟨rfl, rfl, rfl⟩ ⟨hjob.high, ?_, hplace⟩ (Nat.le_refl _)
  exact fun hne => ⟨(hc hne).1, Or.inl (hc hne).2⟩

theorem started_of (hi : Values l db0 σ) (hpc : (σ.workers w).pc ≠ .absent) :
    w < σ.parent.started l := by
  by_contra hle
  exact hpc (congrArg Worker.pc (hi.absent w (Nat.not_lt.mp hle)))

theorem work_values (hi : Values l db0 σ) (hw : w < σ.parent.started l) {db' : Db}
    (hwork : work l σ.db (σ.workers w) = some (db', x')) :
    Values l db0 { σ.setWorker w x' with db := db' } := by
  have hgrow : Grows (Bounded σ) (fun v => Bounded σ v ∨ v ≤ x'.highest) σ.db.step σ.db.step
      σ.db.result σ.db.result σ.db.highest σ.db.highest :=
    ⟨fun _ hv => Or.inl hv, fun _ hn => hn, Nat.le_refl _, Nat.le_refl _⟩
  have hm := work_moved (hi.globals.mono hgrow.bound) ((hi.jobs w).mono hgrow) hwork
    fun _ hv => Or.inr hv
  change Values l db0 { σ.setWorker w x' with db := db' }
  refine moved_values hi hw rfl rfl (hm.mono ?_)
  rintro v ((hv | ⟨u, hv⟩) | hv)
  · exact Or.inl (hv.trans hm.highests)
  · refine Or.inr ⟨u, ?_⟩
    simp only [Sys.setWorker]
    by_cases hu : u = w
    · subst hu
      rw [Function.update_self]
      exact hv.trans hm.high
    · rwa [Function.update_of_ne hu]
  · refine Or.inr ⟨w, ?_⟩
    simp only [Sys.setWorker]
    rwa [Function.update_self]

theorem worker_values (hi : Values l db0 σ) (hs : workerStep l w σ = some σ') :
    Values l db0 σ' := by
  have hjob := hi.jobs w
  cases hpc : (σ.workers w).pc with
  | lockL2 =>
    have hw := started_of hi (w := w) (by simp [hpc])
    simp only [workerStep, hpc, Option.map_eq_some_iff] at hs
    obtain ⟨t, -, rfl⟩ := hs
    exact place_values hi hw rfl rfl rfl (by rw [hpc]; exact id) trivial
  | lockL1 =>
    have hw := started_of hi (w := w) (by simp [hpc])
    simp only [workerStep, hpc, Option.map_eq_some_iff] at hs
    obtain ⟨t, -, rfl⟩ := hs
    exact place_values hi hw rfl rfl rfl (by rw [hpc]; exact id) trivial
  | unlock =>
    have hw := started_of hi (w := w) (by simp [hpc])
    have hplace := hjob.place
    rw [hpc] at hplace
    simp only [workerStep, hpc] at hs
    obtain rfl := Option.some.inj hs
    exact place_values hi hw rfl rfl rfl (by rw [hpc]; exact id) hplace
  | absent =>
    simp only [workerStep, hpc, work, Option.map_none] at hs
    exact absurd hs (Option.some_ne_none _).symm
  | done =>
    simp only [workerStep, hpc, work, Option.map_none] at hs
    exact absurd hs (Option.some_ne_none _).symm
  | decr | scan | claim | walk | known | maximum | store | finish =>
    have hw := started_of hi (w := w) (by simp [hpc])
    have hstep : (work l σ.db (σ.workers w)).map (fun r => { σ.setWorker w r.2 with db := r.1 }) =
        some σ' := by
      rw [← hs]
      simp only [workerStep, hpc]
    obtain ⟨⟨db', x'⟩, hwork, rfl⟩ := Option.map_eq_some_iff.mp hstep
    exact work_values hi hw hwork

theorem parent_values (hi : Values l db0 σ) (hs : parentStep l σ = some σ') :
    Values l db0 σ' := by
  have hsame : ∀ {τ : Sys}, τ.db.step = σ.db.step → τ.db.result = σ.db.result →
      τ.db.highest = σ.db.highest → τ.workers = σ.workers → τ.parent.Fits l →
      σ.parent.started l ≤ τ.parent.started l → Values l db0 τ := by
    intro τ h1 h2 h3 h4 hfits hle
    have hbound : Bounded τ = Bounded σ := by
      funext v
      unfold Bounded
      rw [h3, h4]
    refine ⟨?_, ?_, hfits, fun w hw => h4 ▸ hi.absent w (hle.trans hw)⟩
    · rw [hbound, h1, h2, h3]
      exact hi.globals
    · rw [hbound, h1, h2, h3, h4]
      exact hi.jobs
  cases hpar : σ.parent with
  | lockL1 =>
    simp only [parentStep, hpar, Option.map_eq_some_iff] at hs
    obtain ⟨t, -, rfl⟩ := hs
    exact hsame rfl rfl rfl rfl (Nat.zero_le _) (by rw [hpar]; exact Nat.le_refl _)
  | incr s =>
    have hfits := hi.fits
    rw [hpar] at hfits
    simp only [parentStep, hpar] at hs
    split at hs
    · rename_i hlt
      obtain rfl := Option.some.inj hs
      exact hsame rfl rfl rfl rfl hlt (by rw [hpar]; exact Nat.le_refl _)
    · obtain rfl := Option.some.inj hs
      exact hsame rfl rfl rfl rfl trivial (by rw [hpar]; exact hfits)
  | job s =>
    have hfits := hi.fits
    rw [hpar] at hfits
    have hnew := hi.absent s (by rw [hpar]; exact Nat.le_refl _)
    simp only [parentStep, hpar] at hs
    obtain rfl := Option.some.inj hs
    have hhigh : ∀ u, (Function.update σ.workers s Worker.new u).highest =
        (σ.workers u).highest := by
      intro u
      by_cases hu : u = s
      · rw [hu, Function.update_self, hnew]
      · rw [Function.update_of_ne hu]
    have hbound : Bounded { σ.setWorker s Worker.new with parent := .incr (s + 1) } = Bounded σ := by
      funext v
      unfold Bounded
      simp only [Sys.setWorker, hhigh]
    refine ⟨?_, ?_, hfits, ?_⟩
    · rw [hbound]
      exact hi.globals
    · intro u
      rw [hbound]
      simp only [Sys.setWorker]
      by_cases hu : u = s
      · rw [hu, Function.update_self]
        exact ⟨Or.inl rfl, fun hne => absurd rfl hne, trivial⟩
      · rw [Function.update_of_ne hu]
        exact hi.jobs u
    · intro u hu
      have hlt : s < u := hu
      have hne : u ≠ s := by omega
      simp only [Sys.setWorker]
      rw [Function.update_of_ne hne]
      exact hi.absent u (by rw [hpar]; exact Nat.le_of_lt hlt)
  | wait =>
    simp only [parentStep, hpar] at hs
    split at hs
    · obtain rfl := Option.some.inj hs
      exact hsame rfl rfl rfl rfl trivial (by rw [hpar]; exact Nat.le_refl _)
    · exact absurd hs (Option.some_ne_none _).symm
  | unlockL1 late =>
    simp only [parentStep, hpar] at hs
    obtain rfl := Option.some.inj hs
    exact hsame rfl rfl rfl rfl trivial (by rw [hpar]; exact Nat.le_refl _)
  | lockL2 late =>
    simp only [parentStep, hpar, Option.map_eq_some_iff] at hs
    obtain ⟨t, -, rfl⟩ := hs
    exact hsame rfl rfl rfl rfl trivial (by rw [hpar]; exact Nat.le_refl _)
  | report late =>
    simp only [parentStep, hpar] at hs
    exact absurd hs (Option.some_ne_none _).symm

theorem reaches_values (hs : Sound db0.step) (h : Reaches l db0 σ) : Values l db0 σ := by
  induction h with
  | start => exact start_values hs
  | step _ hs ih =>
    cases hs with
    | parent hs => exact parent_values ih hs
    | giveUp hp => exact ⟨ih.globals, ih.jobs, trivial, fun w hw => ih.absent w (by rw [hp]; exact hw)⟩
    | worker w hs => exact worker_values ih hs

end YdbTest.ThreeEn1
