import YdbTest.CleanRun

namespace YdbTest.CheckDb

open MString Globals Imptp TreeStore IndexWalk ForLoop Shared Counting Decimal

variable {c : Cfg} {db db' : Db} {it : Iter} {k : Check} {n : Node} {v : Str}

section Walk

variable {jobno : Nat} {body : Iter → List Node} {last : Nat → Nat} {fl : List Node}

end Walk

/-- `^lasti` of each job is a natural number, or undefined for 0. -/
def Recorded (c : Cfg) (db : Db) (last : Nat → Nat) : Prop :=
  ∀ jobno, 1 ≤ jobno → jobno ≤ c.jobcnt →
    TreeStore.get db (lastiNode c jobno) = some (dec (last jobno)) ∨
      TreeStore.get db (lastiNode c jobno) = none ∧ last jobno = 0

theorem lasti_recorded {last : Nat → Nat} (h : Recorded c db last) {jobno : Nat}
    (h1 : 1 ≤ jobno) (hc : jobno ≤ c.jobcnt) : lasti c db jobno = last jobno := by
  have hnode : ((Gbl.lasti, [fid c, dec jobno]) : Node) = lastiNode c jobno := rfl
  obtain hget | ⟨hget, hzero⟩ := h jobno h1 hc
  · rw [lasti, Globals.get, hnode, hget]
    exact toNat_dec _
  · rw [lasti, Globals.get, hnode, hget, hzero]
    rfl

def errors (c : Cfg) (db : Db) (k : Check) (it : Iter) : List Node :=
  if k.crash = 0 ∨ c.istp = 0 then compiter c db it
  else if c.istp = 2 then
    if (Gbl.andxarr :: ndxarrs).all
        (fun g => TreeStore.hasData db (g, [fid c, dec it.jobno, dec it.loop]))
      then compiter c db it else []
  else crashiter c db it k.skipreg

theorem recorded_one
    (h : TreeStore.get db (lastiNode CleanRun.twoJobs 1) = none ∧
      TreeStore.get db (lastiNode CleanRun.twoJobs 2) = some (dec 1)) :
    Recorded CleanRun.twoJobs db fun jobno => jobno - 1 := by
  intro jobno h1 hc
  have hjobcnt : CleanRun.twoJobs.jobcnt = 2 := rfl
  obtain rfl | rfl : jobno = 1 ∨ jobno = 2 := by omega
  · exact Or.inr ⟨h.1, rfl⟩
  · exact Or.inl h.2

/-- The nodes whose values `compiter` looks up. -/
def looked (c : Cfg) (it : Iter) : List Node :=
  (firstTp c it).map Prod.fst ++
    [(.jrandomvariableinimptpfillprogram, [fid c, I it]),
      (.jrandomvariableinimptpfillprogram, [fid c, I it, I it]),
      (.jrandomvariableinimptpfillprogram, [fid c, I it, I it, subs c it]),
      (.aspan, [fid c, I it]), (.bspan, [fid c, I it]), (.espan, [fid c, I it])] ++
    (ntpKept c it).map Prod.fst ++
    (List.range' 1 c.jobcnt).flatMap fun J => families.map fun g => (g, [fid c, subs c it, dec J])

/-- These, and those that `$data` of ^antp to ^dntp looks for. -/
def Looked (c : Cfg) (it : Iter) (n : Node) : Prop :=
  n ∈ looked c it ∨ ∃ m ∈ ntpGone c it, below m n = true

end YdbTest.CheckDb

namespace YdbTest.CleanRun

open MString Globals Command Imptp Triggers CheckDb Iteration IndexWalk Effects Content Solo
  Discipline Shared Run RunInv Counting Decimal

variable {c : Cfg} {σ σ' : Sys} {it : Iter} {jobno loop : Nat} {n : Node}

theorem finished_agree {G H : View} (ht : c.trigger = 0) (h : Holds c it (finished c it) G)
    (h' : Holds c it (finished c it) H) (hn : Looked c it n) : G n = H n := by
  have hspans : (finished c it).spans = .stage10 := if_pos ht
  obtain ⟨ha, he, hb⟩ := hspans ▸ h.spans
  obtain ⟨ha', he', hb'⟩ := hspans ▸ h'.spans
  have hfirst {K : View} (hk : Kids c it c.jobcnt true K) {g : Gbl} (hg : g ∈ families) :
      K (g, [fid c, subs c it, dec 1]) = none := by
    refine Option.eq_none_iff_forall_ne_some.mpr fun v hv => ?_
    obtain ⟨-, J, -, -, hJ, heq⟩ := hk.only g hg _ _ v hv
    exact hJ rfl (dec_injective heq).symm
  obtain hn | ⟨m, hm, hn⟩ := hn
  · simp only [looked, List.mem_append, List.mem_map, List.mem_flatMap, List.mem_cons,
      List.not_mem_nil, or_false, List.mem_range'_1] at hn
    obtain ((⟨e, hmem, rfl⟩ | rfl | rfl | rfl | rfl | rfl | rfl) | ⟨e, hmem, rfl⟩) |
      ⟨J, hJ, g, hg, rfl⟩ := hn
    · rw [h.first.1 e hmem, h'.first.1 e hmem]
    · rw [(h.jgone rfl).1, (h'.jgone rfl).1]
    · rw [(h.jgone rfl).2, (h'.jgone rfl).2]
    · rw [h.first.2, h'.first.2]
    · rw [ha, ha']
    · rw [hb, hb']
    · rw [he, he']
    · rw [h.kept rfl e hmem, h'.kept rfl e hmem]
    · by_cases h1 : J = 1
      · rw [h1, hfirst h.kids hg, hfirst h'.kids hg]
      · have hle : J ≤ c.jobcnt := by omega
        rw [h.kids.value g hg J hJ.1 hle fun _ => h1, h'.kids.value g hg J hJ.1 hle fun _ => h1]
  · rw [h.gone rfl m hm n hn, h'.gone rfl m hm n hn]

/-- Whatever the order of the jobs' steps and whatever they draw, two clean runs that have recorded
the same iterations have left the same data. -/
theorem clean_runs_agree (ht : c.trigger = 0) (hj : 1 ≤ c.jobcnt)
    (h : Reaches c [] (CleanStep c) σ) (hd : σ.Down)
    (h' : Reaches c [] (CleanStep c) σ') (hd' : σ'.Down)
    (hsame : ∀ jobno, 1 ≤ jobno → jobno ≤ c.jobcnt → lasti c σ.db jobno = lasti c σ'.db jobno) :
    (∀ jobno loop, 1 ≤ jobno → jobno ≤ c.jobcnt → 1 ≤ loop → loop ≤ lasti c σ.db jobno →
      ∀ n, Looked c (iterAt c jobno loop) n → TreeStore.get σ.db n = TreeStore.get σ'.db n) ∧
    TreeStore.get σ.db (.cntloop, [fid c]) = TreeStore.get σ'.db (.cntloop, [fid c]) ∧
    TreeStore.get σ.db (.cntseq, [fid c]) = TreeStore.get σ'.db (.cntseq, [fid c]) := by
  have hr := cleanRules ht hj
  have hcount : cntloop c σ.db = cntloop c σ'.db := by
    rw [cntloop_eq, cntloop_eq]
    refine Finset.sum_congr rfl fun jobno hmem => ?_
    obtain ⟨h1, hc⟩ := Finset.mem_Icc.mp hmem
    exact hsame jobno h1 hc
  obtain ⟨hloop, hseq⟩ := counters_down hr (fun σ jobno hok => hok.1 jobno rfl) h hd
  obtain ⟨hloop', hseq'⟩ := counters_down hr (fun σ jobno hok => hok.1 jobno rfl) h' hd'
  refine ⟨fun jobno loop h1 hc hl1 hl n hn => ?_, ?_, ?_⟩
  · exact finished_agree ht (settled_down hr h hd h1 hc hl1 hl)
      (settled_down hr h' hd' h1 hc hl1 (hsame jobno h1 hc ▸ hl)) hn
  · rw [hloop, hloop', hcount]
  · rw [hseq, hseq', hcount]

/-- Two such runs, in the second of which the transactions are restarted. -/
theorem clean_runs_agree_two_jobs : ∃ σ σ' : Sys,
    lasti twoJobs σ.db 2 = 1 ∧ lasti twoJobs σ'.db 2 = 1 ∧
      ∀ n, Looked twoJobs (iterAt twoJobs 2 1) n →
        TreeStore.get σ.db n = TreeStore.get σ'.db n := by
  obtain ⟨σ, h, hd, hget⟩ := one_loop noDraws
  obtain ⟨σ', h', hd', hget'⟩ := one_loop { noDraws with restart1 := 1, restart5 := 1 }
  have hlast := recorded_one hget
  have hlast' := recorded_one hget'
  have hsecond : lasti twoJobs σ.db 2 = 1 := lasti_recorded hlast (by decide) le_rfl
  have hsame : ∀ jobno, 1 ≤ jobno → jobno ≤ twoJobs.jobcnt →
      lasti twoJobs σ.db jobno = lasti twoJobs σ'.db jobno := by
    intro jobno h1 h2
    rw [lasti_recorded hlast h1 h2, lasti_recorded hlast' h1 h2]
  exact ⟨σ, σ', hsecond, lasti_recorded hlast' (by decide) le_rfl,
    (clean_runs_agree rfl (by decide) h hd h' hd' hsame).1 2 1 (by decide) le_rfl le_rfl
      hsecond.ge⟩

end YdbTest.CleanRun
