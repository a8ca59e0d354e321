import YdbTest.PlainStages
import YdbTest.Solo

namespace YdbTest.PlainSpec

open MString Globals Command Imptp Triggers Iteration TreeStore CheckDb Effects Content Owner
  Stages Isolation PlainStages Solo

variable {c : Cfg} {it : Iter} {d : Draws} {f : Form} {G H : View} {s : St}

theorem holds_matches (h : Holds c it f G) (hm : Matches G H) : Holds c it f H :=
  Solo.Holds.congr h (fun n hn => hm n (owned_not_shared hn))

theorem get_exec (cmd : Cmd) (s : St) (n : Node) :
    TreeStore.get (exec [] maxtrignest s cmd).db n = look (cmd.upd s) n (TreeStore.get s.db n) := by
  have hexec : exec [] maxtrignest s cmd = cmd.exec s := run_plain [cmd] s
  rw [hexec, Cmd.exec, get_applyAll]

theorem exec_quiet {cmd : Cmd} (h : ∀ s, cmd.upd s = []) (s : St) (n : Node) :
    TreeStore.get (exec [] maxtrignest s cmd).db n = TreeStore.get s.db n := by
  rw [get_exec, h]
  rfl

theorem plainSpec (h : c.trigger = 0) : StageSpec c it d [] where
  stage0 := by
    intro cmd hcmd s hs n hn
    have hq : Each (fun cmd => ∀ s, cmd.upd s = []) (stage0 c).cmds := by
      simp [stage0, dztrigCall, Cmd.upd]
    rw [exec_quiet (hq cmd hcmd) s n, hs n hn]
  stage1 s hs := ⟨holds_matches (holds_stage1 hs) (plain_stage1 h s), Or.inl h⟩
  stage2 f s hg hs := ⟨holds_matches (holds_stage2 hs.holds hg) (plain_stage2 h s), Or.inl h⟩
  stage3 f s hg hs := ⟨holds_matches (holds_stage3 hs.holds hg) (plain_stage3 h s), Or.inl h⟩
  stage4 f s hk hs := ⟨holds_matches (holds_stage4 hs.holds hk) (plain_stage4 h _ s), Or.inl h⟩
  stage5 f s hk _ hs := ⟨holds_matches (holds_stage5 hs.holds hk) (plain_stage5 h s), Or.inl h⟩
  stage6 f s _ hs := ⟨holds_matches (holds_stage6 hs.holds) (plain_stage6 h s), Or.inl h⟩
  stage7 f s _ hs := by
    simp only [spans7, h, true_or, if_true]
    exact ⟨holds_matches (holds_stage7 hs.holds) (plain_stage7 h s), Or.inl h⟩
  stage8 f s hk _ hs := ⟨holds_matches (holds_stage8 hs.holds hk) (plain_stage8 h s), Or.inl h⟩
  stage9_step := by
    intro cmd hcmd f s hs
    refine ⟨Solo.Holds.congr hs.holds (fun n hn => ?_), Or.inl h⟩
    have hon : Targets (fun t => key t.1 = .shared) (stage9 c d).cmds := by simp [stage9, key]
    rw [get_exec]
    apply look_of_not_hits
    intro u hu
    by_contra hh
    obtain ⟨t, ht, hb⟩ := hits_target hu (by simpa using hh)
    exact owned_not_shared hn ((below_iff.mp hb).1 ▸ hon cmd hcmd t ht)
  stage10 f s hf hs := by
    have h7 : f.spans = .stage7 := by simpa [spans7, h] using hf
    have ha : TreeStore.get s.db (.aspan, [fid c, I it]) = some (valPIECE c it) := by
      have := hs.holds.spans
      rw [h7] at this
      exact this.1
    simp only [spans10, h, if_true]
    exact ⟨holds_matches (holds_stage10 hs.holds h7) (plain_stage10 h s ha), Or.inl h⟩
  stage11 f s hs := holds_matches (holds_stage11 hs) (plain_stage11 h s)

end YdbTest.PlainSpec
