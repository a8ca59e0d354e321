import YdbTest.Isolation
import YdbTest.Stages

namespace YdbTest.PlainStages

open MString Globals Command Imptp Triggers Iteration TreeStore CheckDb Effects Content Owner
  Isolation

variable {c : Cfg} {it : Iter} {d : Draws} {n : Node} {r : Option Str} {s : St}

/-- The state the commands of an iteration find wherever they read: `^aspan` as
Stage 7 left it, and the local `subpiece`. -/
def expected (c : Cfg) (it : Iter) : St :=
  ⟨[((.aspan, [fid c, I it]), valPIECE c it)], ⟨subpiece c it, []⟩⟩

/-- The updates of commands whose reads give what is expected. -/
def updates (c : Cfg) (it : Iter) (cs : List Cmd) : List Upd :=
  cs.flatMap (Cmd.upd (expected c it))

def Follows (c : Cfg) (it : Iter) : List Cmd → St → Prop
  | [], _ => True
  | cmd :: cs, s => cmd.upd s = cmd.upd (expected c it) ∧ Follows c it cs (cmd.exec s)

theorem run_plain (cs : List Cmd) (s : St) : run [] cs s = cs.foldl Cmd.exec s := by
  have hexec : exec [] maxtrignest = Cmd.exec := by
    funext s cmd
    apply exec_of_fired
    unfold fired
    split <;> rfl
  rw [run, hexec]

theorem get_run {cs : List Cmd} (h : Follows c it cs s) (n : Node) :
    TreeStore.get (run [] cs s).db n = look (updates c it cs) n (TreeStore.get s.db n) := by
  rw [run_plain]
  induction cs generalizing s with
  | nil => rfl
  | cons cmd cs ih =>
    rw [List.foldl_cons, ih h.2, Cmd.exec, get_applyAll, h.1, updates, updates, List.flatMap_cons,
      look_append]

def Static (cmd : Cmd) : Prop := ∀ s s', cmd.upd s = cmd.upd s'

theorem follows_of_static {cs : List Cmd} (h : Each Static cs) (s : St) : Follows c it cs s := by
  induction cs generalizing s with
  | nil => trivial
  | cons cmd cs ih =>
    obtain ⟨hcmd, hcs⟩ := (each_cons cmd cs).mp h
    exact ⟨hcmd _ _, ih hcs _⟩

@[simp] theorem static_set (n : Node) (v : Str) : Static (Imptp.set n v) := fun _ _ => rfl

@[simp] theorem static_kill (n : Node) : Static (.kill n) := fun _ _ => rfl

@[simp] theorem static_zkill (n : Node) : Static (.zkill n) := fun _ _ => rfl

@[simp] theorem static_incr (n : Node) (k : Nat) : Static (.incr n k) := fun _ _ => rfl

@[simp] theorem static_setZtwormhole (v : Str) : Static (.setZtwormhole v) := fun _ _ => rfl

@[simp] theorem static_ztrigger (n : Node) : Static (.ztrigger n) := fun _ _ => rfl

@[simp] theorem static_call (x : Call) : Static (.call x) := fun _ _ => rfl

section Updates

theorem updates_append (cs ds : List Cmd) :
    updates c it (cs ++ ds) = updates c it cs ++ updates c it ds := List.flatMap_append

theorem updates_plain (h : c.trigger = 0) (cs : List Cmd) :
    updates c it (plain c cs) = updates c it cs := by rw [plain, if_pos h]

theorem updates_map_set (gs : List Gbl) (k : List Str) (v : Str) :
    updates c it (gs.map (fun g => Imptp.set (g, k) v)) = gs.map (fun g => .set (g, k) v) := by
  rw [updates, List.flatMap_map]
  exact List.map_eq_flatMap.symm

theorem updates_map_kill (gs : List Gbl) (k : List Str) :
    updates c it (gs.map (fun g => .kill (g, k))) = gs.map (fun g => .kill (g, k)) := by
  rw [updates, List.flatMap_map]
  exact List.map_eq_flatMap.symm

theorem look_shared (cs : List Cmd) (h : Targets (fun t => key t.1 = .shared) cs)
    (hn : key n.1 ≠ .shared) (r : Option Str) : look (updates c it cs) n r = r := by
  refine look_upd_of_targets (h.mono (fun t ht => ?_)) r
  simp only [below, Bool.and_eq_false_imp, beq_iff_eq]
  intro hg
  exact absurd (hg ▸ ht) hn

theorem look_stage1 (h : c.trigger = 0) (hn : key n.1 ≠ .shared) :
    look (updates c it (stage1 c it d).cmds) n r = look (effect1 c it) n r := by
  simp only [stage1, updates_append, look_append, updates_plain h, if_pos h]
  rw [look_shared (if c.istp ≠ 0 then setLasti c it else []) (by simp [setLasti, key]) hn,
    look_shared (if c.istp = 1 ∧ c.crash ≠ 0 then _ else []) (by simp [holdcrit, key]) hn]
  rfl

theorem look_stage2 (h : c.trigger = 0) :
    look (updates c it (stage2 c it d).cmds) n r = look (effect2 c it) n r := by
  simp only [stage2, updates_append, updates_plain h]
  rw [if_neg (by simp [h])]
  rfl

theorem look_dztrigCall (hn : key n.1 ≠ .shared) (trigno : Nat) :
    look (updates c it (dztrigCall c trigno)) n r = r :=
  look_shared _ (by simp [dztrigCall]) hn r

theorem look_stage3 (h : c.trigger = 0) (hn : key n.1 ≠ .shared) :
    look (updates c it (stage3 c it).cmds) n r = look (effect3 c it) n r := by
  simp only [stage3, updates_append, look_append, updates_plain h, look_dztrigCall hn, if_pos h]
  rfl

theorem look_stage4 (h : c.trigger = 0) (hn : key n.1 ≠ .shared) (J : Nat) :
    look (updates c it (stage4 c it J).cmds) n r = look (effect4 c it J) n r := by
  simp only [stage4, updates_append, look_append, updates_plain h, look_dztrigCall hn,
    updates_map_set]
  rfl

theorem look_stage5 (h : c.trigger = 0) (hn : key n.1 ≠ .shared) :
    look (updates c it (stage5 c it d).cmds) n r = look (effect5 c it) n r := by
  simp only [stage5, updates_append, look_append, updates_plain h, look_dztrigCall hn,
    updates_map_kill]
  rw [look_shared (if c.istp = 1 ∧ c.crash ≠ 0 then _ else []) (by simp [holdcrit]) hn]
  rfl

theorem look_stage6 (h : c.trigger = 0) :
    look (updates c it (stage6 c it).cmds) n r = look (effect6 c it) n r := by
  simp only [stage6, updates_append, updates_plain h]
  rfl

theorem get_expected :
    Globals.get (expected c it).db (.aspan, [fid c, I it]) = valPIECE c it := by
  simp [Globals.get, TreeStore.get, expected]

theorem look_stage7 (h : c.trigger = 0) :
    look (updates c it (stage7 c it).cmds) n r = look (effect7 c it) n r := by
  simp only [stage7, updates_append, updates_plain h]
  simp [updates, Imptp.set, Cmd.upd, Val.eval, get_expected, effect7]

theorem look_stage8 (h : c.trigger = 0) (hn : key n.1 ≠ .shared) :
    look (updates c it (stage8 c it d).cmds) n r = look (effect8 c it) n r := by
  simp only [stage8, updates_append, look_append, updates_plain h]
  rw [look_shared (if c.istp = 1 then _ else []) (by simp [key]) hn]
  rfl

theorem look_stage10 (h : c.trigger = 0) :
    look (updates c it (stage10 c it).cmds) n r = look (effect10 c it) n r := by
  simp only [stage10, updates_append, updates_plain h]
  simp [updates, Cmd.upd, Val.eval, pieceUpd, expected, effect10]

theorem look_stage11 (h : c.trigger = 0) (hn : key n.1 ≠ .shared) :
    look (updates c it (stage11 c it).cmds) n r = look (effect11 c it) n r := by
  have hz : ztr c = false := by simp [ztr, h]
  simp only [stage11, updates_append, look_append, updates_plain h, look_dztrigCall hn,
    updates_map_set, hz]
  rw [look_shared (if c.istp = 0 then setLasti c it else []) (by simp [setLasti, key]) hn]
  rfl

end Updates

section Run

def Matches (G H : View) : Prop := ∀ n, key n.1 ≠ .shared → H n = G n

theorem plain_stage1 (h : c.trigger = 0) (s : St) : Matches (after (effect1 c it) (TreeStore.get s.db))
    (TreeStore.get (run [] (stage1 c it d).cmds s).db) := by
  intro n hn
  rw [get_run (follows_of_static (by simp [stage1, holdcrit, setLasti]) s)]
  exact look_stage1 h hn

theorem plain_stage2 (h : c.trigger = 0) (s : St) : Matches (after (effect2 c it) (TreeStore.get s.db))
    (TreeStore.get (run [] (stage2 c it d).cmds s).db) := by
  intro n hn
  rw [get_run (follows_of_static (by simp [stage2]) s)]
  exact look_stage2 h

theorem plain_stage3 (h : c.trigger = 0) (s : St) : Matches (after (effect3 c it) (TreeStore.get s.db))
    (TreeStore.get (run [] (stage3 c it).cmds s).db) := by
  intro n hn
  rw [get_run (follows_of_static (by simp [stage3, dztrigCall, h]) s)]
  exact look_stage3 h hn

theorem plain_stage4 (h : c.trigger = 0) (J : Nat) (s : St) : Matches (after (effect4 c it J) (TreeStore.get s.db))
    (TreeStore.get (run [] (stage4 c it J).cmds s).db) := by
  intro n hn
  rw [get_run (follows_of_static (by simp [stage4, dztrigCall]) s)]
  exact look_stage4 h hn J

theorem plain_stage5 (h : c.trigger = 0) (s : St) : Matches (after (effect5 c it) (TreeStore.get s.db))
    (TreeStore.get (run [] (stage5 c it d).cmds s).db) := by
  intro n hn
  rw [get_run (follows_of_static (by simp [stage5, dztrigCall, holdcrit]) s)]
  exact look_stage5 h hn

theorem plain_stage6 (h : c.trigger = 0) (s : St) : Matches (after (effect6 c it) (TreeStore.get s.db))
    (TreeStore.get (run [] (stage6 c it).cmds s).db) := by
  intro n hn
  rw [get_run (follows_of_static (by simp [stage6]) s)]
  exact look_stage6 h

theorem plain_stage7 (h : c.trigger = 0) (s : St) : Matches (after (effect7 c it) (TreeStore.get s.db))
    (TreeStore.get (run [] (stage7 c it).cmds s).db) := by
  intro n hn
  rw [get_run ?_]
  · exact look_stage7 h
  · simp only [stage7, plain, if_pos h, List.cons_append, List.nil_append, Follows]
    simp [Imptp.set, Cmd.upd, Val.eval, Cmd.exec, applyAll, Upd.apply, Globals.get_set, get_expected]

theorem plain_stage8 (h : c.trigger = 0) (s : St) : Matches (after (effect8 c it) (TreeStore.get s.db))
    (TreeStore.get (run [] (stage8 c it d).cmds s).db) := by
  intro n hn
  rw [get_run (follows_of_static (by simp [stage8]) s)]
  exact look_stage8 h hn

theorem plain_stage10 (h : c.trigger = 0) (s : St)
    (hs : TreeStore.get s.db (.aspan, [fid c, I it]) = some (valPIECE c it)) :
    Matches (after (effect10 c it) (TreeStore.get s.db))
      (TreeStore.get (run [] (stage10 c it).cmds s).db) := by
  intro n hn
  rw [get_run ?_]
  · exact look_stage10 h
  · simp only [stage10, plain, if_pos h, List.cons_append, List.nil_append, Follows]
    simp [Cmd.upd, Val.eval, Cmd.exec, applyAll, expected, Cmd.local, Globals.get, hs, subpiece]

theorem plain_stage11 (h : c.trigger = 0) (s : St) : Matches (after (effect11 c it) (TreeStore.get s.db))
    (TreeStore.get (run [] (stage11 c it).cmds s).db) := by
  intro n hn
  rw [get_run (follows_of_static (by simp [stage11, dztrigCall, setLasti]) s)]
  exact look_stage11 h hn

end Run

end YdbTest.PlainStages
