import YdbTest.Content
import YdbTest.Owner
import YdbTest.Pieces

namespace YdbTest.Stages

open MString Globals Imptp TreeStore CheckDb Effects Content Owner Decimal Pieces

variable {c : Cfg} {it : Iter} {f : Form} {G H : View}

def Blank (c : Cfg) (it : Iter) (G : View) : Prop := ∀ n, Owned c it n → G n = none

def started : Form := ⟨false, false, 0, false, false, .empty, false, false⟩

theorem families_key : ∀ g ∈ families, key g = .subs := by decide

theorem ntpGone_key : ∀ n ∈ ntpGone c it, Owned c it n := by
  simp [ntpGone, Owned, key]

theorem blank_spans (h : Blank c it G) : SpansAre c it G .empty := by
  refine ⟨h _ ?_, h _ ?_, h _ ?_⟩ <;> simp [Owned, key]

theorem stage1_first : First c it (after (effect1 c it) G) := by
  constructor
  · simp only [firstTp, List.forall_mem_cons]
    refine ⟨?_, ?_, ?_, ?_, ?_, ?_, ?_, ?_, ?_, by simp⟩ <;> simp [after, effect1, firstTp]
  · simp [after, effect1, firstTp]

theorem stage1_kids (h : Blank c it G) : Kids c it 0 false (after (effect1 c it) G) := by
  refine ⟨fun g _ J h1 h0 => by omega, fun g hg k rest v hv => ?_⟩
  have hblank : G (g, fid c :: subs c it :: k :: rest) = none := by
    apply h
    simp [Owned, families_key g hg]
  have hj : g ≠ .jrandomvariableinimptpfillprogram := by
    rintro rfl
    simp [families, randoms] at hg
  rw [after, hblank] at hv
  simp [effect1, firstTp, hj.symm] at hv

theorem holds_stage1 (h : Blank c it G) : Holds c it started (after (effect1 c it) G) where
  first := stage1_first
  ntp := by simp [started]
  kept := by simp [started]
  kids := stage1_kids h
  jhere := fun _ => by simp [JHere, after, effect1, firstTp]
  jgone := by simp [started]
  spans := (blank_spans h).keep (fun n hn => effect1_away G (disjoint_of (by decide) hn))
  flat := by
    intro n hn m hm _
    rw [effect1_away G (disjoint_of (by decide) (below_ntpGone hn hm))]
    exact h m ((ntpGone_key n hn).below hm)
  gone := by simp [started]
  unmarked := by
    intro _ n hn
    rw [effect1_away G (by rw [below_andxarr hn]; decide)]
    apply h
    exact Owned.below (by simp [Owned, key]) hn
  marked := by simp [started]

theorem stage2_flat (h : Flat c it G) : Flat c it (after (effect2 c it) G) := by
  refine h.sets (fun m _ => ?_)
  simp only [after, effect2, look_set_cons, look_none]
  split_ifs with hd hc hb ha
  · simp [ntpGone, ← hd]
  · simp [ntpGone, ← hc]
  · simp [ntpGone, ← hb]
  · simp [ntpGone, ← ha]
  · exact Or.inl rfl

theorem stage2_ntp : NtpHere c it (after (effect2 c it) G) := by
  simp only [NtpHere, ntpGone, List.forall_mem_cons]
  refine ⟨?_, ?_, ?_, ?_, by simp⟩ <;> simp [after, effect2]

theorem holds_stage2 (h : Holds c it f G) (hg : f.gone = false) :
    Holds c it { f with ntp := true } (after (effect2 c it) G) :=
  h.setNtp hg (fun _ hn => effect2_away G hn) (stage2_flat h.flat) (fun _ => stage2_ntp)

theorem stage3_kept : Kept c it (after (effect3 c it) G) := by
  unfold Kept
  simp only [ntpKept, List.forall_mem_cons]
  refine ⟨?_, ?_, ?_, ?_, ?_, by simp⟩ <;> simp [after, effect3, ntpKept]

theorem stage3_flat (h : Flat c it G) : Flat c it (after (effect3 c it) G) := by
  refine h.sets (fun m hm => ?_)
  by_cases hb : (.bntp, [fid c, subsMAX c it]) = m
  · exact Or.inr (Or.inr (Or.inr hb.symm))
  · have hdisj : ∀ g ∈ [Gbl.antp, .bntp, .cntp, .dntp],
        g ∉ [Gbl.entp, .fntp, .gntp, .hntp, .intp] := by decide
    have hkept : look ((ntpKept c it).map (fun e => .set e.1 e.2)) m (G m) = G m :=
      look_away (hdisj _ hm)
    left
    simp [after, effect3, hkept, look_append, hb]

theorem stage3_ntp (h : NtpHere c it G) : NtpHere c it (after (effect3 c it) G) := by
  intro n hn
  have hG := h n hn
  have hdisj : ∀ g ∈ [Gbl.antp, .bntp, .cntp, .dntp],
      g ∉ [Gbl.entp, .fntp, .gntp, .hntp, .intp] := by decide
  have hkept : look ((ntpKept c it).map (fun e => .set e.1 e.2)) n (G n) = G n :=
    look_away (hdisj _ (below_ntpGone hn (below_iff.mpr ⟨rfl, List.prefix_rfl⟩)))
  simp only [after, effect3, look_append, hkept, look_set_cons, look_none]
  split
  · rfl
  · exact hG

theorem holds_stage3 (h : Holds c it f G) (hg : f.gone = false) :
    Holds c it { f with kept := true } (after (effect3 c it) G) where
  first := h.first.away (fun n hn => effect3_away G (disjoint_of (by decide) hn))
  ntp := fun hn => stage3_ntp (h.ntp hn)
  jhere := fun hj => (h.jhere hj).keep (fun n hn => effect3_away G (by rw [hn]; decide))
  kids := h.kids.away (fun n hn => effect3_away G (disjoint_of (by decide) hn))
  kept := fun _ => stage3_kept
  jgone := fun hj => (h.jgone hj).keep (fun n hn => effect3_away G (by rw [hn]; decide))
  spans := h.spans.keep (fun n hn => effect3_away G (disjoint_of (by decide) hn))
  flat := stage3_flat h.flat
  gone := by simp [hg]
  unmarked := fun hm => (h.unmarked hm).keep (fun n hn => effect3_away G (by rw [hn]; decide))
  marked := fun hm => (h.marked hm).keep (fun n hn => effect3_away G (by rw [hn]; decide))

theorem stage4_first {J : Nat} (h : First c it G) : First c it (after (effect4 c it J) G) := by
  apply h.keep
  · intro g _ k
    rw [after, effect4, look_map_set, if_neg (by simp)]
  · exact effect4_away G (by simp [families, randoms])

theorem stage4_kids {m : Nat} (h : Kids c it m false G) :
    Kids c it (m + 1) false (after (effect4 c it (m + 1)) G) := by
  constructor
  · intro g hg J h1 hJ _
    rw [after, effect4, look_map_set]
    obtain hJ | rfl := Nat.lt_or_eq_of_le hJ
    · have hne : dec (m + 1) ≠ dec J := fun he => by
        have := dec_injective he
        omega
      rw [if_neg (by simp [hne])]
      exact h.value g hg J h1 (by omega) (by simp)
    · rw [if_pos ⟨hg, rfl⟩]
  · intro g hg k rest v hv
    rw [after, effect4, look_map_set] at hv
    split_ifs at hv with hk
    · simp only [List.cons.injEq, true_and] at hk
      exact ⟨hk.2.2.symm, m + 1, by omega, le_rfl, by simp, hk.2.1.symm⟩
    · obtain ⟨hr, J, h1, hJ, hkill, hkJ⟩ := h.only g hg k rest v hv
      exact ⟨hr, J, h1, by omega, hkill, hkJ⟩

theorem holds_stage4 (h : Holds c it f G) (hk : f.killed = false) :
    Holds c it { f with kids := f.kids + 1 } (after (effect4 c it (f.kids + 1)) G) where
  first := stage4_first h.first
  ntp := fun hn => (h.ntp hn).keep (fun n hn => effect4_away G (disjoint_of (by decide) hn))
  jhere := fun hj => (h.jhere hj).keep (fun n hn => effect4_away G (by rw [hn]; decide))
  kids := by
    simp only [hk]
    exact stage4_kids (hk ▸ h.kids)
  kept := fun hk => (h.kept hk).keep (fun n hn => effect4_away G (disjoint_of (by decide) hn))
  jgone := fun hj => (h.jgone hj).keep (fun n hn => effect4_away G (by rw [hn]; decide))
  spans := h.spans.keep (fun n hn => effect4_away G (disjoint_of (by decide) hn))
  flat := h.flat.keep (fun n hn => effect4_away G (disjoint_of (by decide) hn))
  gone := fun hg => (h.gone hg).keep (fun n hn => effect4_away G (disjoint_of (by decide) hn))
  unmarked := fun hm => (h.unmarked hm).keep (fun n hn => effect4_away G (by rw [hn]; decide))
  marked := fun hm => (h.marked hm).keep (fun n hn => effect4_away G (by rw [hn]; decide))

theorem stage5_first (h : First c it G) : First c it (after (effect5 c it) G) := by
  apply h.keep
  · intro g _ k
    rw [after, effect5, look_map_kill, if_neg]
    rintro ⟨_, hp⟩
    simpa using hp.length_le
  · exact effect5_away G (by simp [families, randoms])

theorem prefix_three {a b x k : Str} {rest : List Str} :
    [a, b, x] <+: a :: b :: k :: rest ↔ x = k := by
  constructor
  · rintro ⟨t, ht⟩
    simp only [List.cons_append, List.nil_append, List.cons.injEq, true_and] at ht
    exact ht.1
  · rintro rfl
    exact ⟨rest, rfl⟩

theorem stage5_kids {m : Nat} (h : Kids c it m false G) :
    Kids c it m true (after (effect5 c it) G) := by
  constructor
  · intro g hg J h1 hJ hkill
    have hne : dec 1 ≠ dec J := fun he => hkill rfl (dec_injective he).symm
    rw [after, effect5, look_map_kill, if_neg (by simp [hne])]
    exact h.value g hg J h1 hJ (by simp)
  · intro g hg k rest v hv
    rw [after, effect5, look_map_kill] at hv
    split_ifs at hv with hk
    rw [prefix_three] at hk
    obtain ⟨hr, J, h1, hJ, -, rfl⟩ := h.only g hg k rest v hv
    refine ⟨hr, J, h1, hJ, fun _ hJ1 => hk ⟨hg, by rw [hJ1]⟩, rfl⟩

theorem holds_stage5 (h : Holds c it f G) (hk : f.killed = false) :
    Holds c it { f with killed := true } (after (effect5 c it) G) where
  first := stage5_first h.first
  ntp := fun hn => (h.ntp hn).keep (fun n hn => effect5_away G (disjoint_of (by decide) hn))
  jhere := fun hj => (h.jhere hj).keep (fun n hn => effect5_away G (by rw [hn]; decide))
  kids := stage5_kids (hk ▸ h.kids)
  kept := fun hk => (h.kept hk).keep (fun n hn => effect5_away G (disjoint_of (by decide) hn))
  jgone := fun hj => (h.jgone hj).keep (fun n hn => effect5_away G (by rw [hn]; decide))
  spans := h.spans.keep (fun n hn => effect5_away G (disjoint_of (by decide) hn))
  flat := h.flat.keep (fun n hn => effect5_away G (disjoint_of (by decide) hn))
  gone := fun hg => (h.gone hg).keep (fun n hn => effect5_away G (disjoint_of (by decide) hn))
  unmarked := fun hm => (h.unmarked hm).keep (fun n hn => effect5_away G (by rw [hn]; decide))
  marked := fun hm => (h.marked hm).keep (fun n hn => effect5_away G (by rw [hn]; decide))

theorem stage6_first (h : First c it G) : First c it (after (effect6 c it) G) := by
  apply h.keep
  · intro g hg k
    have hdisj : ∀ g ∈ families, g ∉ [Gbl.jrandomvariableinimptpfillprogram] := by decide
    exact effect6_away G (hdisj g hg)
  · simp [after, effect6]

theorem stage6_jgone : JGone c it (after (effect6 c it) G) := by
  simp [JGone, after, effect6]

theorem holds_stage6 (h : Holds c it f G) :
    Holds c it { f with jgone := true } (after (effect6 c it) G) where
  first := stage6_first h.first
  ntp := fun hn => (h.ntp hn).keep (fun n hn => effect6_away G (disjoint_of (by decide) hn))
  jhere := by simp
  kids := h.kids.away (fun n hn => effect6_away G (disjoint_of (by decide) hn))
  kept := fun hk => (h.kept hk).keep
    (fun n hn => effect6_away G (disjoint_of (by decide) hn))
  jgone := fun _ => stage6_jgone
  spans := h.spans.keep (fun n hn => effect6_away G (disjoint_of (by decide) hn))
  flat := h.flat.keep (fun n hn => effect6_away G (disjoint_of (by decide) hn))
  gone := fun hg => (h.gone hg).keep
    (fun n hn => effect6_away G (disjoint_of (by decide) hn))
  unmarked := fun hm => (h.unmarked hm).keep (fun n hn => effect6_away G (by rw [hn]; decide))
  marked := fun hm => (h.marked hm).keep (fun n hn => effect6_away G (by rw [hn]; decide))

theorem stage7_spans : SpansAre c it (after (effect7 c it) G) .stage7 := by
  simp [SpansAre, after, effect7]

theorem holds_stage7 (h : Holds c it f G) :
    Holds c it { f with spans := .stage7 } (after (effect7 c it) G) where
  first := h.first.away (fun n hn => effect7_away G (disjoint_of (by decide) hn))
  ntp := fun hn => (h.ntp hn).keep (fun n hn => effect7_away G (disjoint_of (by decide) hn))
  jhere := fun hj => (h.jhere hj).keep (fun n hn => effect7_away G (by rw [hn]; decide))
  kids := h.kids.away (fun n hn => effect7_away G (disjoint_of (by decide) hn))
  kept := fun hk => (h.kept hk).keep (fun n hn => effect7_away G (disjoint_of (by decide) hn))
  jgone := fun hj => (h.jgone hj).keep (fun n hn => effect7_away G (by rw [hn]; decide))
  spans := stage7_spans
  flat := h.flat.keep (fun n hn => effect7_away G (disjoint_of (by decide) hn))
  gone := fun hg => (h.gone hg).keep (fun n hn => effect7_away G (disjoint_of (by decide) hn))
  unmarked := fun hm => (h.unmarked hm).keep (fun n hn => effect7_away G (by rw [hn]; decide))
  marked := fun hm => (h.marked hm).keep (fun n hn => effect7_away G (by rw [hn]; decide))

theorem effect8_kills (G : View) (n : Node) : after (effect8 c it) G n = G n ∨
    after (effect8 c it) G n = none ∧ (n.1 ∈ [Gbl.antp, .bntp, .cntp, .dntp] ∨
      n.1 ∈ families ∧ [fid c, subs c it, dec 1] <+: n.2) := by
  simp only [after, effect8, look_kill_cons, look_zkill_cons, look_none]
  split_ifs with h1 h2 h3 h4 h5 h6 h7
  · simp [← (below_iff.mp h1).1]
  · simp [← h2]
  · simp [← h3]
  · simp [← h4, families, randoms]
  · simp [← (below_iff.mp h5).1]
  · simp [← (below_iff.mp h6).1]
  · refine Or.inr ⟨rfl, Or.inr ⟨?_, (below_iff.mp h7).2⟩⟩
    simp [← (below_iff.mp h7).1, families]
  · exact Or.inl rfl

theorem stage8_gone (h : Flat c it G) : Gone c it (after (effect8 c it) G) := by
  intro n hn m hm
  by_cases hne : m = n
  · subst hne
    simp only [ntpGone, List.mem_cons, List.not_mem_nil, or_false] at hn
    obtain rfl | rfl | rfl | rfl := hn <;> simp [after, effect8, below]
  · have hG := h n hn m hm hne
    obtain h8 | h8 := effect8_kills G m
    · rw [h8, hG]
    · exact h8.1

theorem holds_stage8 (h : Holds c it f G) (hk : f.killed = true) :
    Holds c it { f with ntp := false, gone := true } (after (effect8 c it) G) :=
  { h.dropNtp.kills hk rfl (effect8_kills G) with gone := fun _ => stage8_gone h.flat }

theorem subpiece_bar : bar ∉ subpiece c it :=
  not_mem_translate_of_ne (not_mem_piece _ _ _) (by decide)

theorem look_pieceUpd (n m : Node) (i : Nat) (v : Str) (r : Option Str) :
    look (pieceUpd n i v) m r =
      if n = m ∧ i ≠ 0 then some (MString.setPiece (r.getD []) bar i v) else r := by
  unfold pieceUpd
  by_cases hi : i = 0
  · simp [hi]
  · by_cases hn : n = m <;> simp [hi, hn]

theorem stage10_spans (h : SpansAre c it G .stage7) :
    SpansAre c it (after (effect10 c it) G) .stage10 := by
  obtain ⟨ha, -, hb⟩ := h
  simp only [SpansAre, after, effect10, look_zkill_cons, look_append, look_pieceUpd]
  by_cases ht : targetpiece c it = 0
  · simp [ht, ha, hb, marked, stage10espan, setPiece]
  · have hfilter : translateOut (subpiece c it) space = subpiece c it :=
      translateOut_eq_self (not_mem_translate (by decide))
    refine ⟨?_, ?_, ?_⟩
    · simp [ht, ha, marked, subpiece]
    · simp [ht, stage10espan, subpiece]
    · have hset := setPiece_filter (· != space) (d := bar) (by decide) (valPIECE c it)
        (targetpiece c it) (subpiece c it)
      change translateOut (MString.setPiece _ bar _ _) space = _ at hset
      rw [show (subpiece c it).filter (· != space) = subpiece c it from hfilter] at hset
      have hm : marked c it (valPIECE c it) =
          MString.setPiece (valPIECE c it) bar (targetpiece c it) (subpiece c it) := rfl
      rw [hm, hset]
      simp [ht, hb, translateOut]

theorem holds_stage10 (h : Holds c it f G) (hs : f.spans = .stage7) :
    Holds c it { f with spans := .stage10 } (after (effect10 c it) G) where
  first := h.first.away (fun n hn => effect10_away G (disjoint_of (by decide) hn))
  ntp := fun hn => (h.ntp hn).keep (fun n hn => effect10_away G (disjoint_of (by decide) hn))
  jhere := fun hj => (h.jhere hj).keep (fun n hn => effect10_away G (by rw [hn]; decide))
  kids := h.kids.away (fun n hn => effect10_away G (disjoint_of (by decide) hn))
  kept := fun hk => (h.kept hk).keep (fun n hn => effect10_away G (disjoint_of (by decide) hn))
  jgone := fun hj => (h.jgone hj).keep (fun n hn => effect10_away G (by rw [hn]; decide))
  spans := stage10_spans (hs ▸ h.spans)
  flat := h.flat.keep (fun n hn => effect10_away G (disjoint_of (by decide) hn))
  gone := fun hg => (h.gone hg).keep (fun n hn => effect10_away G (disjoint_of (by decide) hn))
  unmarked := fun hm => (h.unmarked hm).keep (fun n hn => effect10_away G (by rw [hn]; decide))
  marked := fun hm => (h.marked hm).keep (fun n hn => effect10_away G (by rw [hn]; decide))

theorem stage11_marked : Marked c it (after (effect11 c it) G) := by
  simp [Marked, after, effect11, look_map_set]

theorem holds_stage11 (h : Holds c it f G) :
    Holds c it { f with marked := true } (after (effect11 c it) G) :=
  h.mark (fun _ hn => effect11_away G hn) stage11_marked

end YdbTest.Stages
