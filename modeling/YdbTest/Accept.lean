import YdbTest.Solo

namespace YdbTest.Accept

open MString Globals Imptp TreeStore CheckDb Effects Content Owner Stages Solo Decimal Pieces

variable {c : Cfg} {it : Iter} {f : Form} {db : Db}

theorem expect_some {n : Node} {v : Str} (h : TreeStore.get db n = some v) : expect db n v = [] := by
  simp [expect, Globals.get, h]

theorem expect_none {n : Node} (h : TreeStore.get db n = none) : expect db n [] = [] := by
  simp [expect, Globals.get, h]

theorem expectNoData_nil {n : Node} (h : ∀ m, below n m = true → TreeStore.get db m = none) :
    expectNoData db n = [] := by
  simp [expectNoData, hasData_eq_false h]

theorem flatMap_nil {α : Type} {as : List α} {g : α → List Node} (h : ∀ a ∈ as, g a = []) :
    as.flatMap g = [] := List.flatMap_eq_nil_iff.mpr h

theorem kids_finished (h : Kids c it c.jobcnt true (TreeStore.get db)) {g : Gbl} (hg : g ∈ families)
    {J : Nat} (hJ : J ∈ List.range' 1 c.jobcnt) :
    expect db (g, [fid c, subs c it, dec J]) (if J = 1 then [] else valj c it J) = [] := by
  rw [List.mem_range'_1] at hJ
  split
  · rename_i h1
    rw [h1]
    exact expect_none (h.none_of_killed hg List.prefix_rfl)
  · rename_i h1
    exact expect_some (h.value g hg J hJ.1 (by omega) (fun _ => h1))

theorem subpiece_bar : bar ∉ subpiece c it := Stages.subpiece_bar

theorem piece_marked (ht : targetpiece c it ≠ 0) :
    piece (marked c it (valPIECE c it)) bar (targetpiece c it) = subpiece c it :=
  piece_setPiece ht subpiece_bar

theorem piece_espan : piece ((stage10espan c it).getD []) bar (targetpiece c it) =
    piece (marked c it (valPIECE c it)) bar (targetpiece c it) := by
  by_cases ht : targetpiece c it = 0
  · simp [ht, piece]
  · rw [piece_marked ht, stage10espan, if_neg ht]
    exact piece_setPiece ht subpiece_bar

theorem compiter_nil (h : Holds c it f (TreeStore.get db)) (hk : f.kept = true)
    (hm : f.kids = c.jobcnt) (hkill : f.killed = true) (hj : f.jgone = true)
    (hs : f.spans = .stage10) (hg : f.gone = true) : compiter c db it = [] := by
  have hkids := h.kids
  rw [hm, hkill] at hkids
  have hspans := h.spans
  rw [hs] at hspans
  obtain ⟨ha, he, hb⟩ := hspans
  have hfirst : (firstTp c it).flatMap (fun e => expect db e.1 e.2) = [] :=
    flatMap_nil (fun e hmem => expect_some (h.first.1 e hmem))
  have hseconds : (List.range' 1 c.jobcnt).flatMap (fun J => families.flatMap (fun g =>
      expect db (g, [fid c, subs c it, dec J]) (if J = 1 then [] else valj c it J))) = [] :=
    flatMap_nil (fun J hJ => flatMap_nil (fun g hgm => kids_finished hkids hgm hJ))
  have hgone : (ntpGone c it).flatMap (expectNoData db) = [] :=
    flatMap_nil (fun n hn => expectNoData_nil (h.gone hg n hn))
  have hkept : (ntpKept c it).flatMap (fun e => expect db e.1 e.2) = [] :=
    flatMap_nil (fun e hmem => expect_some (h.kept hk e hmem))
  have hespan : piece (Globals.get db (.espan, [fid c, I it])) bar (targetpiece c it) =
      piece (marked c it (valPIECE c it)) bar (targetpiece c it) := by
    rw [Globals.get, he, piece_espan]
  simp only [compiter, hfirst, hseconds, hgone, hkept, expect_none (h.jgone hj).1,
    expect_none (h.jgone hj).2, expect_some h.first.2, expect_some ha, expect_some hb, if_pos hespan,
    List.append_nil]

section Walk

open IndexWalk ForLoop

theorem forUntil_nil {jobno : Nat} {body : Iter → List Node} (n k : Nat)
    (h : ∀ loop, k < loop → loop ≤ k + n →
      body ⟨jobno, loop, startIndex c.jobcnt jobno (loop - 1)⟩ = []) :
    (forUntil (fun u => (fun fl : List Node => decide (10 < fl.length)) u.2)
      (fun loop (u : Nat × List Node) =>
        (u.1 * nroot c.jobcnt % prime, u.2 ++ body ⟨jobno, loop, u.1⟩))
      (List.range' (k + 1) n) (startIndex c.jobcnt jobno k, [])).2 = [] := by
  induction n generalizing k with
  | zero => rfl
  | succ n ih =>
    have hone := h (k + 1) (by omega) (by omega)
    rw [Nat.add_sub_cancel] at hone
    simp only [List.range'_succ, forUntil, hone, List.append_nil, List.length_nil, Nat.not_lt_zero,
      decide_false, Bool.false_eq_true, if_false]
    rw [← startIndex_succ]
    exact ih (k + 1) (fun loop h1 h2 => h loop (by omega) (by omega))

theorem walk_nil {last : Nat → Nat} {body : Iter → List Node}
    (h : ∀ jobno loop, 1 ≤ jobno → jobno ≤ c.jobcnt → 1 ≤ loop → loop ≤ last jobno →
      body ⟨jobno, loop, startIndex c.jobcnt jobno (loop - 1)⟩ = []) : walk c last body = [] := by
  unfold walk checkLoop
  refine congrArg Prod.snd (forLoop_induct 1 c.jobcnt _ _
    (fun jobno (t : Nat × List Node) => t = (startIndex c.jobcnt jobno 0, [])) (by omega) rfl ?_)
  rintro jobno t h1 hj rfl
  have hnil := @forUntil_nil c jobno body (last jobno) 0
    (fun loop hl hle => h jobno loop h1 hj hl (by omega))
  refine Prod.ext ?_ hnil
  exact (startIndex_zero_succ c.jobcnt jobno h1).symm

end Walk

end YdbTest.Accept
