import YdbTest.Discipline

namespace YdbTest.Isolation

open MString Globals Command Imptp Triggers Iteration Closure Owner Footprint Discipline TreeStore

variable {c : Cfg} {it it' : Iter} {w : Str} {ts us : List Trigger} {s s' : St} {cmd : Cmd}
  {cs : List Cmd}

theorem run_nil : run ts [] s = s := rfl

theorem run_cons : run ts (cmd :: cs) s = run ts cs (exec ts maxtrignest s cmd) := rfl

theorem run_append (cs ds : List Cmd) : run ts (cs ++ ds) s = run ts ds (run ts cs s) :=
  List.foldl_append

theorem fired_perm (h : ts.Perm us) : (fired ts s cmd).Perm (fired us s cmd) := by
  unfold fired
  split
  · exact List.Perm.refl _
  · exact (h.filter _).flatMap_right _

def commonUpd : Cmd → List Upd
  | .set n (.str v) => [.set n v]
  | .incr n k => [.modify n (increment k)]
  | .ztrigger (.lasti, [fid, jobno, loop]) => [.set (.lasti, [fid, jobno]) loop]
  | _ => []

theorem commonUpd_target {u : Upd} {n : Node} (hu : u ∈ commonUpd cmd) (hn : u.hits n = true) :
    ∃ t, target cmd = some t ∧ t.1 = n.1 := by
  unfold commonUpd at hu
  split at hu
  · obtain rfl := List.mem_singleton.mp hu
    obtain rfl := of_decide_eq_true hn
    exact ⟨_, rfl, rfl⟩
  · obtain rfl := List.mem_singleton.mp hu
    obtain rfl := of_decide_eq_true hn
    exact ⟨_, rfl, rfl⟩
  · obtain rfl := List.mem_singleton.mp hu
    obtain rfl := of_decide_eq_true hn
    exact ⟨_, rfl, rfl⟩
  · simp at hu

theorem common_fired (h : Installed c ts) {n : Node} (hn : key n.1 = .shared) (old new : Str) :
    ts.filter (·.fires ⟨.set, n, old, new⟩) = [] := by
  rw [List.filter_eq_nil_iff]
  intro t ht hf
  have hg := fires_gbl hf
  have he : t.commands = .set := by
    simp only [Trigger.fires, Bool.and_eq_true, beq_iff_eq] at hf
    exact hf.1.1.1
  obtain ⟨-, ht | ht⟩ := mem_installed h ht
  · have hnone : ∀ t ∈ imptptrg, key t.gbl ≠ .shared := by
      simp [imptptrg, onSet, onKill, onZkill, key]
    exact hnone t ht (hg ▸ hn)
  · have hnone : ∀ t ∈ imptpztrtrg, t.commands ≠ .set := by
      simp [imptpztrtrg]
    exact hnone t ht he

theorem lasti_fired (h : Installed c ts) (hz : ztr c = true) (f j l : Str) :
    fired ts s (.ztrigger (.lasti, [f, j, l])) = [Imptp.set (.lasti, [f, j]) l] := by
  have ht : c.trigger ≠ 0 := fun h0 => by simp [ztr, h0] at hz
  have hfired : fired (installed c) s (.ztrigger (.lasti, [f, j, l])) =
      [Imptp.set (.lasti, [f, j]) l] := by
    have htrg : imptptrg.filter (·.fires ⟨.ztrigger, (.lasti, [f, j, l]), [], []⟩) = [] := by
      rw [List.filter_eq_nil_iff]
      simp [imptptrg, onSet, onKill, onZkill, Trigger.fires]
    simp only [fired, change, installed, if_neg ht, hz, if_true, List.filter_append, htrg]
    rfl
  have hp := @fired_perm _ _ s (.ztrigger (.lasti, [f, j, l])) h
  rw [hfired] at hp
  exact List.perm_singleton.mp hp

theorem exec_of_fired (h : fired ts s cmd = []) (depth : Nat) : exec ts depth s cmd = cmd.exec s := by
  cases depth with
  | zero => rfl
  | succ depth => rw [exec, h, List.foldl_nil]

theorem fired_set {n : Node} (h : Installed c ts) (hn : key n.1 = .shared) (v : Val) :
    fired ts s (.set n v) = [] := by
  change (ts.filter _).flatMap _ = []
  rw [common_fired h hn, List.flatMap_nil]

theorem fired_incr {n : Node} (h : Installed c ts) (hn : key n.1 = .shared) (k : Nat) :
    fired ts s (.incr n k) = [] := by
  change (ts.filter _).flatMap _ = []
  rw [common_fired h hn, List.flatMap_nil]

theorem common_exec (h : Installed c ts) (hc : Common c cmd) :
    exec ts maxtrignest s cmd = ⟨applyAll (commonUpd cmd) s.db, s.proc⟩ := by
  cases hc with
  | set n v hn => exact exec_of_fired (fired_set h hn _) _
  | incr n k hn => exact exec_of_fired (fired_incr h hn k) _
  | ztrigger f j l hz =>
    rw [maxtrignest, exec, lasti_fired h hz, List.foldl_cons, List.foldl_nil]
    exact exec_of_fired (fired_set h rfl _) _

theorem exec_proc (h : Installed c ts) (hw : s.proc.ztwormhole = w) (hcmd : Allowed c it w cmd) :
    (exec ts maxtrignest s cmd).proc.ztwormhole = worm w cmd := by
  obtain hin | hc := hcmd
  · rw [(exec_frame (safe_closed h) maxtrignest s cmd hw hin).2]
    cases cmd <;> simp [Cmd.local, worm, hw]
  · rw [common_exec h hc]
    cases hc <;> exact hw

theorem hits_commonUpd {n : Node} (hc : Common c cmd) (hn : key n.1 ≠ .shared) :
    ∀ u ∈ commonUpd cmd, u.hits n = false := by
  cases hc with
  | set m v hm =>
    intro u hu
    obtain rfl := List.mem_singleton.mp hu
    simp only [Upd.hits, decide_eq_false_iff_not]
    rintro rfl
    exact hn hm
  | incr m k hm =>
    intro u hu
    obtain rfl := List.mem_singleton.mp hu
    simp only [Upd.hits, decide_eq_false_iff_not]
    rintro rfl
    exact hn hm
  | ztrigger f j l hz =>
    intro u hu
    obtain rfl := List.mem_singleton.mp hu
    simp only [Upd.hits, decide_eq_false_iff_not]
    rintro rfl
    exact hn rfl

theorem owned_not_shared {n : Node} (ho : Owned c it n) : key n.1 ≠ .shared := by
  intro hk
  simp [Owned, hk] at ho

theorem exec_other (h : Installed c ts) (hw : s.proc.ztwormhole = w) (hcmd : Allowed c it w cmd)
    {n : Node} (hn : ¬ Owned c it n) (hk : key n.1 ≠ .shared) :
    TreeStore.get (exec ts maxtrignest s cmd).db n = TreeStore.get s.db n := by
  obtain hin | hc := hcmd
  · exact (exec_frame (safe_closed h) maxtrignest s cmd hw hin).1 n (fun hs => hn hs.1)
  · rw [common_exec h hc, get_applyAll, look_of_not_hits (hits_commonUpd hc hk)]

theorem exec_own (h : Installed c ts) (hw : s.proc.ztwormhole = w) (hcmd : Allowed c it w cmd)
    (hag : Agree (Owned c it) s s') :
    Agree (Owned c it) (exec ts maxtrignest s cmd) (exec ts maxtrignest s' cmd) := by
  have hw' : s'.proc.ztwormhole = w := by rw [← hag.proc, hw]
  obtain hin | hc := hcmd
  · have hag' : Agree (Safe c it w) s s' := ⟨fun n hn => hag.db n hn.1, hag.proc⟩
    have hex := exec_agree (safe_closed h) maxtrignest cmd hw hag' hin
    refine ⟨fun n hn => ?_, hex.proc⟩
    by_cases hs : Safe c it w n
    · exact hex.db n hs
    · rw [(exec_frame (safe_closed h) maxtrignest s cmd hw hin).1 n hs,
        (exec_frame (safe_closed h) maxtrignest s' cmd hw' hin).1 n hs, hag.db n hn]
  · rw [common_exec h hc, common_exec h hc]
    refine ⟨fun n hn => ?_, hag.proc⟩
    have hhits := hits_commonUpd hc (owned_not_shared hn)
    rw [get_applyAll, get_applyAll, look_of_not_hits hhits, look_of_not_hits hhits, hag.db n hn]

theorem exec_common (h : Installed c ts) (hw : s.proc.ztwormhole = w) (hcmd : Allowed c it w cmd)
    {n : Node} (hk : key n.1 = .shared) :
    TreeStore.get (exec ts maxtrignest s cmd).db n = look (commonUpd cmd) n (TreeStore.get s.db n) := by
  obtain hin | hc := hcmd
  · have hns : ¬ Safe c it w n := fun hs => owned_not_shared hs.1 hk
    rw [(exec_frame (safe_closed h) maxtrignest s cmd hw hin).1 n hns, look_of_not_hits]
    intro u hu
    by_contra hh
    obtain ⟨t, ht, hg⟩ := commonUpd_target hu (by simpa using hh)
    have hs := hin.1 t ht
    exact owned_not_shared hs.1 (hg ▸ hk)
  · rw [common_exec h hc, get_applyAll]

section Run

theorem run_worm (h : Installed c ts) (hcs : Orderly c it s.proc.ztwormhole cs) :
    (run ts cs s).proc.ztwormhole = cs.foldl worm s.proc.ztwormhole := by
  induction cs generalizing s with
  | nil => rfl
  | cons cmd cs ih =>
    have hw := exec_proc h rfl hcs.1
    rw [run_cons, ih (by rw [hw]; exact hcs.2), hw, List.foldl_cons]

theorem run_other (h : Installed c ts) (hcs : Orderly c it s.proc.ztwormhole cs) {n : Node}
    (hn : ¬ Owned c it n) (hk : key n.1 ≠ .shared) :
    TreeStore.get (run ts cs s).db n = TreeStore.get s.db n := by
  induction cs generalizing s with
  | nil => rfl
  | cons cmd cs ih =>
    have hw := exec_proc h rfl hcs.1
    rw [run_cons, ih (by rw [hw]; exact hcs.2), exec_other h rfl hcs.1 hn hk]

theorem run_own (h : Installed c ts) (hcs : Orderly c it s.proc.ztwormhole cs)
    (hag : Agree (Owned c it) s s') : Agree (Owned c it) (run ts cs s) (run ts cs s') := by
  induction cs generalizing s s' with
  | nil => exact hag
  | cons cmd cs ih =>
    have hw := exec_proc h rfl hcs.1
    exact ih (by rw [hw]; exact hcs.2) (exec_own h rfl hcs.1 hag)

theorem run_common (h : Installed c ts) (hcs : Orderly c it s.proc.ztwormhole cs) {n : Node}
    (hk : key n.1 = .shared) :
    TreeStore.get (run ts cs s).db n = look (cs.flatMap commonUpd) n (TreeStore.get s.db n) := by
  induction cs generalizing s with
  | nil => rfl
  | cons cmd cs ih =>
    have hw := exec_proc h rfl hcs.1
    rw [run_cons, ih (by rw [hw]; exact hcs.2), exec_common h rfl hcs.1 hk, List.flatMap_cons,
      look_append]

end Run

end YdbTest.Isolation
