import YdbTest.Isolation
import YdbTest.Effects

namespace YdbTest.Shared

open MString Globals Command Imptp Triggers Iteration Owner Isolation TreeStore Effects Decimal

variable {c : Cfg} {it : Iter} {d : Draws} {n : Node} {cs ds : List Cmd} {r : Option Str}

def lastiNode (c : Cfg) (jobno : Nat) : Node := (.lasti, [fid c, dec jobno])

def hitsIn (n : Node) (cs : List Cmd) : Nat := (cs.flatMap commonUpd).countP (Upd.hits n)

theorem hitsIn_nil : hitsIn n [] = 0 := rfl

theorem hitsIn_append : hitsIn n (cs ++ ds) = hitsIn n cs + hitsIn n ds := by
  rw [hitsIn, List.flatMap_append, List.countP_append]
  rfl

theorem hitsIn_eq_zero (h : Targets (fun t => t.1 ≠ n.1) cs) : hitsIn n cs = 0 := by
  rw [hitsIn, List.countP_eq_zero]
  intro u hu hh
  obtain ⟨cmd, hcmd, hu⟩ := List.mem_flatMap.mp hu
  obtain ⟨t, ht, hg⟩ := commonUpd_target hu hh
  exact h cmd hcmd t ht hg

theorem not_counted : Targets (fun t => t.1 ≠ .cntloop ∧ t.1 ≠ .cntseq)
    ((stage0 c).cmds ++ (stage1 c it d).cmds ++ (stage2 c it d).cmds ++ (stage3 c it).cmds ++
      stage4s c it ++ (stage5 c it d).cmds ++ (stage6 c it).cmds ++ (stage7 c it).cmds ++
      (stage8 c it d).cmds) ∧
    Targets (fun t => t.1 ≠ .cntloop ∧ t.1 ≠ .cntseq) ((stage10 c it).cmds ++ (stage11 c it).cmds) := by
  constructor
  · simp only [each_append]
    refine ⟨⟨⟨⟨⟨⟨⟨⟨?_, ?_⟩, ?_⟩, ?_⟩, ?_⟩, ?_⟩, ?_⟩, ?_⟩, ?_⟩
    · simp [stage0, dztrigCall]
    · simp [stage1, holdcrit, setLasti]
    · simp [stage2]
    · simp [stage3, dztrigCall]
      split <;> simp
    · simp [stage4s, stage4, dztrigCall, randoms]
    · simp [stage5, dztrigCall, holdcrit, randoms]
    · simp [stage6]
    · simp [stage7]
    · simp [stage8]
  · simp [stage10, stage11, dztrigCall, setLasti, ndxarrs]

theorem hitsIn_commands (hn : n.1 = .cntloop ∨ n.1 = .cntseq) :
    hitsIn n (commands c it d) = hitsIn n (stage9 c d).cmds := by
  obtain ⟨hbefore, hafter⟩ := @not_counted c it d
  have h1 := hitsIn_eq_zero (n := n) (hbefore.mono (fun t ht => by
    obtain hn | hn := hn <;> rw [hn]
    · exact ht.1
    · exact ht.2))
  have h2 := hitsIn_eq_zero (n := n) (hafter.mono (fun t ht => by
    obtain hn | hn := hn <;> rw [hn]
    · exact ht.1
    · exact ht.2))
  rw [commands_eq, List.append_assoc, hitsIn_append, hitsIn_append, h1, h2]
  omega

theorem hitsIn_cntloop : hitsIn (.cntloop, [fid c]) (commands c it d) = 1 := by
  rw [hitsIn_commands (Or.inl rfl)]
  simp [hitsIn, stage9, commonUpd, Upd.hits]

theorem hitsIn_cntseq : hitsIn (.cntseq, [fid c]) (commands c it d) = 1 := by
  rw [hitsIn_commands (Or.inr rfl)]
  simp [hitsIn, stage9, commonUpd, Upd.hits]

def Counts (c : Cfg) (cmd : Cmd) : Prop :=
  ∀ u ∈ commonUpd cmd, (u.hits (.cntloop, [fid c]) = true →
      u = .modify (.cntloop, [fid c]) (increment 1)) ∧
    (u.hits (.cntseq, [fid c]) = true → u = .modify (.cntseq, [fid c]) (increment (13 + c.jobcnt)))

theorem commands_count : Each (Counts c) (commands c it d) := by
  have hskip {cs : List Cmd} (h : Targets (fun t => t.1 ≠ .cntloop ∧ t.1 ≠ .cntseq) cs) :
      Each (Counts c) cs := by
    intro cmd hcmd u hu
    constructor <;> intro hh <;> obtain ⟨t, ht, hg⟩ := commonUpd_target hu hh
    · exact absurd hg (h cmd hcmd t ht).1
    · exact absurd hg (h cmd hcmd t ht).2
  obtain ⟨hbefore, hafter⟩ := @not_counted c it d
  rw [commands_eq, List.append_assoc, each_append, each_append]
  refine ⟨⟨hskip hbefore, ?_⟩, hskip hafter⟩
  simp [stage9, Counts, commonUpd, Upd.hits]

theorem look_increments {us : List Upd} {k m : Nat}
    (h : ∀ u ∈ us, u.hits n = true → u = .modify n (increment k)) :
    look us n (some (dec m)) = some (dec (m + k * us.countP (Upd.hits n))) := by
  induction us generalizing m with
  | nil => simp
  | cons u us ih =>
    rw [look_cons, List.countP_cons]
    by_cases hu : u.hits n = true
    · have hat : u.at n (some (dec m)) = some (dec (m + k)) := by
        rw [h u (by simp) hu]
        simp [Upd.at, increment, toNat_dec]
      rw [hat, ih (fun v hv => h v (by simp [hv])), if_pos hu, Nat.mul_add, Nat.mul_one]
      congr 2
      omega
    · rw [Upd.at_of_not_hits (by simpa using hu), ih (fun v hv => h v (by simp [hv])), if_neg hu,
        Nat.add_zero]

/-- A command that changes `^lasti` sets it to the loop, for its own job. -/
def SetsLasti (c : Cfg) (it : Iter) (cmd : Cmd) : Prop :=
  ∀ u ∈ commonUpd cmd, ∀ jobno, u.hits (lastiNode c jobno) = true →
    jobno = it.jobno ∧ u = .set (lastiNode c it.jobno) (dec it.loop)

theorem setsLasti_of {cs : List Cmd} (h : Targets (fun t => t.1 ≠ .lasti) cs) :
    Each (SetsLasti c it) cs := by
  intro cmd hcmd u hu jobno hh
  obtain ⟨t, ht, hg⟩ := commonUpd_target hu hh
  exact absurd hg (h cmd hcmd t ht)

theorem setLasti_sets : Each (SetsLasti c it) (Imptp.setLasti c it) := by
  have hnode (jobno : Nat) (h : (Gbl.lasti, [fid c, dec it.jobno]) = lastiNode c jobno) :
      jobno = it.jobno := by
    simp only [lastiNode, Prod.mk.injEq, List.cons.injEq, true_and, and_true] at h
    exact (dec_injective h).symm
  simp only [Imptp.setLasti, each_append, each_ite, each_cons, each_nil, and_true]
  refine ⟨⟨fun _ => ?_, fun _ => trivial⟩, ?_⟩ <;> intro u hu jobno hh <;>
    obtain rfl := List.mem_singleton.mp hu <;>
    exact ⟨hnode jobno (of_decide_eq_true hh), rfl⟩

theorem stage1_setsLasti : Each (SetsLasti c it) (stage1 c it d).cmds := by
  simp only [stage1, each_append]
  refine ⟨⟨⟨⟨⟨⟨⟨⟨⟨⟨⟨?_, ?_⟩, ?_⟩, ?_⟩, ?_⟩, ?_⟩, ?_⟩, ?_⟩, ?_⟩, ?_⟩, ?_⟩, ?_⟩
  case refine_12 =>
    rw [each_ite]
    exact ⟨fun _ => setLasti_sets, fun _ => each_nil⟩
  all_goals exact setsLasti_of (by simp [holdcrit])

theorem stage11_setsLasti : Each (SetsLasti c it) (stage11 c it).cmds := by
  simp only [stage11, each_append]
  refine ⟨⟨⟨⟨?_, ?_⟩, ?_⟩, ?_⟩, ?_⟩
  case refine_5 =>
    rw [each_ite]
    exact ⟨fun _ => setLasti_sets, fun _ => each_nil⟩
  all_goals exact setsLasti_of (by simp [dztrigCall, ndxarrs])

theorem commands_setsLasti : Each (SetsLasti c it) (commands c it d) := by
  rw [commands_eq]
  simp only [each_append]
  refine ⟨⟨⟨⟨⟨⟨⟨⟨⟨⟨⟨?_, stage1_setsLasti⟩, ?_⟩, ?_⟩, ?_⟩, ?_⟩, ?_⟩, ?_⟩, ?_⟩, ?_⟩, ?_⟩,
    stage11_setsLasti⟩ <;> apply setsLasti_of
  · simp [stage0, dztrigCall]
  · simp [stage2]
  · simp [stage3, dztrigCall]
    split <;> simp
  · simp [stage4s, stage4, dztrigCall, randoms]
  · simp [stage5, dztrigCall, holdcrit, randoms]
  · simp [stage6]
  · simp [stage7]
  · simp [stage8]
  · simp [stage9]
  · simp [stage10]

theorem look_lasti {jobno : Nat} (h : Each (SetsLasti c it) cs) :
    look (cs.flatMap commonUpd) (lastiNode c jobno) r =
      if hitsIn (lastiNode c jobno) cs = 0 then r else some (dec it.loop) := by
  have hupd : ∀ u ∈ cs.flatMap commonUpd, u.hits (lastiNode c jobno) = true →
      u = .set (lastiNode c jobno) (dec it.loop) := by
    intro u hu hh
    obtain ⟨cmd, hcmd, hu⟩ := List.mem_flatMap.mp hu
    obtain ⟨rfl, hset⟩ := h cmd hcmd u hu jobno hh
    exact hset
  unfold hitsIn
  generalize cs.flatMap commonUpd = us at hupd
  induction us generalizing r with
  | nil => simp
  | cons u us ih =>
    rw [look_cons, ih (fun v hv => hupd v (by simp [hv])), List.countP_cons]
    by_cases hu : u.hits (lastiNode c jobno) = true
    · have hset := hupd u (by simp) hu
      simp [hset, Upd.at, Upd.hits]
    · rw [Upd.at_of_not_hits (by simpa using hu)]
      simp [hu]

theorem hitsIn_lasti_other {jobno : Nat} (h : Each (SetsLasti c it) cs) (hj : jobno ≠ it.jobno) :
    hitsIn (lastiNode c jobno) cs = 0 := by
  rw [hitsIn, List.countP_eq_zero]
  intro u hu hh
  obtain ⟨cmd, hcmd, hu⟩ := List.mem_flatMap.mp hu
  exact hj (h cmd hcmd u hu jobno hh).1

theorem hitsIn_setLasti : hitsIn (lastiNode c it.jobno) (Imptp.setLasti c it) ≠ 0 := by
  rw [Imptp.setLasti, hitsIn_append]
  simp [hitsIn, Imptp.set, commonUpd, Upd.hits, lastiNode]

theorem hitsIn_stage1 (h : c.istp ≠ 0) : hitsIn (lastiNode c it.jobno) (stage1 c it d).cmds ≠ 0 := by
  simp only [stage1, hitsIn_append, if_pos h]
  have := @hitsIn_setLasti c it
  omega

theorem hitsIn_stage11 (h : c.istp = 0) : hitsIn (lastiNode c it.jobno) (stage11 c it).cmds ≠ 0 := by
  simp only [stage11, hitsIn_append, if_pos h]
  have := @hitsIn_setLasti c it
  omega

theorem hitsIn_lasti : hitsIn (lastiNode c it.jobno) (commands c it d) ≠ 0 := by
  rw [commands_eq]
  simp only [hitsIn_append]
  by_cases h : c.istp = 0
  · have := @hitsIn_stage11 c it h
    omega
  · have := @hitsIn_stage1 c it d h
    omega

end YdbTest.Shared
