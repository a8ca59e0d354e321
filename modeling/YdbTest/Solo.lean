import YdbTest.Stages
import YdbTest.Isolation

namespace YdbTest.Solo

open MString Globals Command Imptp Triggers Iteration TreeStore CheckDb Effects Content Owner
  Stages Isolation

variable {c : Cfg} {it : Iter} {d : Draws} {ts : List Trigger} {f : Form} {G H : View}

theorem Holds.congr (h : Holds c it f G) (hH : ∀ n, Owned c it n → H n = G n) : Holds c it f H where
  first := by
    refine ⟨fun e he => ?_, ?_⟩
    · have ho : Owned c it e.1 := by
        revert e
        simp [firstTp, Owned, key]
      rw [hH _ ho, h.first.1 e he]
    · rw [hH _ (by simp [Owned, key]), h.first.2]
  ntp := by
    intro hn n hmem
    rw [hH n (ntpGone_key n hmem)]
    exact h.ntp hn n hmem
  kept := by
    intro hk e he
    have ho : Owned c it e.1 := by
      revert e
      simp [ntpKept, Owned, key]
    rw [hH _ ho, h.kept hk e he]
  kids := h.kids.keep (fun g hg k rest => hH _ (by simp [Owned, families_key g hg]))
  jhere := by
    intro hj
    rw [JHere, hH _ (by simp [Owned, key])]
    exact h.jhere hj
  jgone := by
    intro hj
    rw [JGone, hH _ (by simp [Owned, key]), hH _ (by simp [Owned, key])]
    exact h.jgone hj
  spans := by
    have hs := h.spans
    have ha := hH (.aspan, [fid c, I it]) (by simp [Owned, key])
    have he := hH (.espan, [fid c, I it]) (by simp [Owned, key])
    have hb := hH (.bspan, [fid c, I it]) (by simp [Owned, key])
    cases hsp : f.spans <;> simp only [hsp, SpansAre, ha, he, hb] at hs ⊢ <;> exact hs
  flat := by
    intro n hn m hm hne
    rw [hH m ((ntpGone_key n hn).below hm)]
    exact h.flat n hn m hm hne
  gone := by
    intro hg n hn m hm
    rw [hH m ((ntpGone_key n hn).below hm)]
    exact h.gone hg n hn m hm
  unmarked := by
    intro hm n hn
    rw [hH n (Owned.below (by simp [Owned, key]) hn)]
    exact h.unmarked hm n hn
  marked := by
    intro hm
    rw [Marked, hH _ (by simp [Owned, key])]
    exact h.marked hm

/-- How far the iteration has come in a state, and `$ztwormhole` where triggers use it. -/
structure Solid (c : Cfg) (it : Iter) (f : Form) (s : St) : Prop where
  holds : Holds c it f (TreeStore.get s.db)
  worm : c.trigger = 0 ∨ s.proc.ztwormhole = subs c it

/-- What Stages 7 and 10 leave in the span globals. With triggers on ^espan gets
no more of `valPIECE` than its last piece that is not empty, and Stage 10
changes nothing in it unless the target piece changes. -/
def spans7 (c : Cfg) (it : Iter) : Spans :=
  if c.trigger = 0 ∨ piece (valPIECE c it) bar (totalpieces c it) ≠ [] then .stage7 else .unknown

def spans10 (c : Cfg) (it : Iter) : Spans :=
  if c.trigger = 0 then .stage10
  else if piece (valPIECE c it) bar (totalpieces c it) = [] then .unknown
  else if subpiece c it = piece (valPIECE c it) bar (targetpiece c it) then .zkilled
  else .stage10

structure StageSpec (c : Cfg) (it : Iter) (d : Draws) (ts : List Trigger) : Prop where
  stage0 : ∀ cmd ∈ (stage0 c).cmds, ∀ s, Blank c it (TreeStore.get s.db) →
    Blank c it (TreeStore.get (exec ts maxtrignest s cmd).db)
  stage1 : ∀ s, Blank c it (TreeStore.get s.db) → Solid c it started (run ts (stage1 c it d).cmds s)
  stage2 : ∀ f s, f.gone = false → Solid c it f s →
    Solid c it { f with ntp := true } (run ts (stage2 c it d).cmds s)
  stage3 : ∀ f s, f.gone = false → Solid c it f s →
    Solid c it { f with kept := true } (run ts (stage3 c it).cmds s)
  stage4 : ∀ f s, f.killed = false → Solid c it f s →
    Solid c it { f with kids := f.kids + 1 } (run ts (stage4 c it (f.kids + 1)).cmds s)
  stage5 : ∀ f s, f.killed = false → 1 ≤ f.kids → Solid c it f s →
    Solid c it { f with killed := true } (run ts (stage5 c it d).cmds s)
  stage6 : ∀ f s, f.jgone = false → Solid c it f s →
    Solid c it { f with jgone := true } (run ts (stage6 c it).cmds s)
  stage7 : ∀ f s, f.spans = .empty → Solid c it f s →
    Solid c it { f with spans := spans7 c it } (run ts (stage7 c it).cmds s)
  stage8 : ∀ f s, f.killed = true → f.ntp = true → Solid c it f s →
    Solid c it { f with ntp := false, gone := true } (run ts (stage8 c it d).cmds s)
  stage9_step : ∀ cmd ∈ (stage9 c d).cmds, ∀ f s, Solid c it f s →
    Solid c it f (exec ts maxtrignest s cmd)
  stage10 : ∀ f s, f.spans = spans7 c it → Solid c it f s →
    Solid c it { f with spans := spans10 c it } (run ts (stage10 c it).cmds s)
  stage11 : ∀ f s, Holds c it f (TreeStore.get s.db) →
    Holds c it { f with marked := true } (TreeStore.get (run ts (stage11 c it).cmds s).db)

def filled (m : Nat) : Form := ⟨true, true, m, false, false, .empty, false, false⟩

def finished (c : Cfg) (it : Iter) : Form :=
  ⟨false, true, c.jobcnt, true, true, spans10 c it, true, true⟩

def Fresh (c : Cfg) (it : Iter) (s : St) : Prop := Blank c it (TreeStore.get s.db)

def Finished (c : Cfg) (it : Iter) (s : St) : Prop :=
  Holds c it (finished c it) (TreeStore.get s.db)

def perform (ts : List Trigger) (s : St) (a : List Cmd) : St := run ts a s

theorem run_keep {A : St → Prop} {cs : List Cmd} (h : ∀ cmd ∈ cs, ∀ s, A s → A (exec ts maxtrignest s cmd)) (s : St)
    (hs : A s) : A (run ts cs s) := by
  induction cs generalizing s with
  | nil => exact hs
  | cons cmd cs ih => exact ih (fun x hx => h x (by simp [hx])) _ (h cmd (by simp) s hs)

theorem whole_finished (spec : StageSpec c it d ts) (hj : 1 ≤ c.jobcnt) {s : St}
    (hs : Fresh c it s) :
    Finished c it (run ts (commands c it d) s) := by
  have h0 : Fresh c it (run ts (stage0 c).cmds s) := run_keep spec.stage0 s hs
  have h1 := spec.stage1 _ h0
  have h2 := spec.stage2 started _ rfl h1
  have h3 := spec.stage3 _ _ rfl h2
  have h4 : ∀ m, Solid c it (filled m) (run ts
      ((List.range' 1 m).flatMap (fun J => (stage4 c it J).cmds)) (run ts (stage3 c it).cmds
        (run ts (stage2 c it d).cmds (run ts (stage1 c it d).cmds (run ts (stage0 c).cmds s))))) := by
    intro m
    induction m with
    | zero => exact h3
    | succ m ih =>
      have := spec.stage4 (filled m) _ rfl ih
      rw [List.range'_concat, List.flatMap_append, run_append]
      simpa [filled, Nat.add_comm 1 m] using this
  have h5 := spec.stage5 (filled c.jobcnt) _ rfl hj (h4 c.jobcnt)
  have h6 := spec.stage6 _ _ rfl h5
  have h7 := spec.stage7 _ _ rfl h6
  have h8 := spec.stage8 _ _ rfl rfl h7
  have h9 := run_keep (fun cmd hcmd s => spec.stage9_step cmd hcmd _ s) _ h8
  have h10 := spec.stage10 _ _ rfl h9
  have h11 := spec.stage11 _ _ h10.holds
  rw [commands_eq]
  simp only [run_append]
  exact h11

end YdbTest.Solo
