import YdbTest.Effects
import YdbTest.Decimal

namespace YdbTest.Content

open MString Globals Imptp TreeStore CheckDb Effects Decimal

variable (c : Cfg) (it : Iter)

/-- Stage 1's nodes hold what the checker expects of them. -/
def First (G : View) : Prop :=
  (∀ e ∈ firstTp c it, G e.1 = some e.2) ∧
    G (.jrandomvariableinimptpfillprogram, [fid c, I it, I it, subs c it]) = some (val c it)

/-- Under `subs` the nine globals hold the nodes of the jobs up to `m`, without
the first where it is `killed`. -/
structure Kids (m : Nat) (killed : Bool) (G : View) : Prop where
  value : ∀ g ∈ families, ∀ J, 1 ≤ J → J ≤ m → (killed = true → J ≠ 1) →
    G (g, [fid c, subs c it, dec J]) = some (valj c it J)
  only : ∀ g ∈ families, ∀ k rest v, G (g, fid c :: subs c it :: k :: rest) = some v →
    rest = [] ∧ ∃ J, 1 ≤ J ∧ J ≤ m ∧ (killed = true → J ≠ 1) ∧ k = dec J

def Kept (G : View) : Prop := ∀ e ∈ ntpKept c it, G e.1 = some e.2

/-- What the three span globals hold: before Stage 7, after it, after Stage 10,
and after a Stage 10 that found nothing to change but ^espan. -/
inductive Spans
  | empty
  | stage7
  | stage10
  | zkilled
  | unknown

def SpansAre (G : View) : Spans → Prop
  | .empty => G (.aspan, [fid c, I it]) = none ∧ G (.espan, [fid c, I it]) = none ∧
      G (.bspan, [fid c, I it]) = none
  | .stage7 => G (.aspan, [fid c, I it]) = some (valPIECE c it) ∧
      G (.espan, [fid c, I it]) = some (valPIECE c it) ∧
      G (.bspan, [fid c, I it]) = some (translateOut (valPIECE c it) space)
  | .stage10 => G (.aspan, [fid c, I it]) = some (marked c it (valPIECE c it)) ∧
      G (.espan, [fid c, I it]) = stage10espan c it ∧
      G (.bspan, [fid c, I it]) = some (translateOut (marked c it (valPIECE c it)) space)
  | .zkilled => G (.aspan, [fid c, I it]) = some (valPIECE c it) ∧
      G (.espan, [fid c, I it]) = none ∧
      G (.bspan, [fid c, I it]) = some (translateOut (valPIECE c it) space)
  | .unknown => True

def Unmarked (G : View) : Prop :=
  ∀ n, below (.andxarr, [fid c, dec it.jobno, dec it.loop]) n = true → G n = none

def Marked (G : View) : Prop := G (.andxarr, [fid c, dec it.jobno, dec it.loop]) = some (I it)

def JGone (G : View) : Prop :=
  G (.jrandomvariableinimptpfillprogram, [fid c, I it]) = none ∧
    G (.jrandomvariableinimptpfillprogram, [fid c, I it, I it]) = none

def JHere (G : View) : Prop :=
  G (.jrandomvariableinimptpfillprogram, [fid c, I it]) = some (val c it)

def NtpHere (G : View) : Prop := ∀ n ∈ ntpGone c it, (G n).isSome

/-- The globals of Stage 2 have no nodes under `subs`. -/
def Flat (G : View) : Prop :=
  ∀ n ∈ ntpGone c it, ∀ m, below n m = true → m ≠ n → G m = none

def Gone (G : View) : Prop := ∀ n ∈ ntpGone c it, ∀ m, below n m = true → G m = none

/-- How far an iteration has come, as far as the checker can tell. -/
structure Form where
  ntp : Bool
  kept : Bool
  kids : Nat
  killed : Bool
  jgone : Bool
  spans : Spans
  gone : Bool
  marked : Bool

structure Holds (f : Form) (G : View) : Prop where
  first : First c it G
  ntp : f.ntp = true → NtpHere c it G
  kept : f.kept = true → Kept c it G
  kids : Kids c it f.kids f.killed G
  jhere : f.jgone = false → JHere c it G
  jgone : f.jgone = true → JGone c it G
  spans : SpansAre c it G f.spans
  flat : Flat c it G
  gone : f.gone = true → Gone c it G
  unmarked : f.marked = false → Unmarked c it G
  marked : f.marked = true → Marked c it G

variable {c it} {f : Form} {G H : View}

theorem First.keep (h : First c it G) (hH : ∀ g ∈ families, ∀ k, H (g, [fid c, k]) = G (g, [fid c, k]))
    (hJ : H (.jrandomvariableinimptpfillprogram, [fid c, I it, I it, subs c it]) =
      G (.jrandomvariableinimptpfillprogram, [fid c, I it, I it, subs c it])) : First c it H := by
  refine ⟨fun e he => ?_, hJ.trans h.2⟩
  have hn : e.1.1 ∈ families ∧ ∃ k, e.1.2 = [fid c, k] := by
    revert e
    simp [firstTp, families, randoms]
  obtain ⟨hg, k, hk⟩ := hn
  have he' := h.1 e he
  rw [show e.1 = (e.1.1, [fid c, k]) from Prod.ext rfl hk] at he' ⊢
  rw [hH _ hg k, he']

theorem First.away (h : First c it G)
    (hH : ∀ n, n.1 ∈ .jrandomvariableinimptpfillprogram :: families → H n = G n) : First c it H :=
  h.keep (fun _ hg _ => hH _ (List.mem_cons_of_mem _ hg)) (hH _ List.mem_cons_self)

theorem Kids.keep {m : Nat} {killed : Bool} (h : Kids c it m killed G)
    (hH : ∀ g ∈ families, ∀ k rest, H (g, fid c :: subs c it :: k :: rest) =
      G (g, fid c :: subs c it :: k :: rest)) : Kids c it m killed H := by
  refine ⟨fun g hg J h1 hm hk => ?_, fun g hg k rest v hv => ?_⟩
  · rw [hH g hg (dec J) []]
    exact h.value g hg J h1 hm hk
  · rw [hH g hg k rest] at hv
    exact h.only g hg k rest v hv

theorem Kids.away {m : Nat} {killed : Bool} (h : Kids c it m killed G)
    (hH : ∀ n, n.1 ∈ families → H n = G n) : Kids c it m killed H :=
  h.keep (fun _ hg _ _ => hH _ hg)

theorem Kept.keep (h : Kept c it G)
    (hH : ∀ n, n.1 ∈ [Gbl.entp, .fntp, .gntp, .hntp, .intp] → H n = G n) : Kept c it H := by
  intro e he
  have hn : e.1.1 ∈ [Gbl.entp, .fntp, .gntp, .hntp, .intp] := by
    revert e
    simp [ntpKept]
  rw [hH e.1 hn]
  exact h e he

theorem SpansAre.keep {s : Spans} (h : SpansAre c it G s)
    (hH : ∀ n, n.1 ∈ [Gbl.aspan, .espan, .bspan] → H n = G n) : SpansAre c it H s := by
  cases s <;> simp only [SpansAre] at h ⊢ <;>
    rw [hH _ (by simp), hH _ (by simp), hH _ (by simp)] <;> exact h

theorem JGone.keep (h : JGone c it G)
    (hH : ∀ n, n.1 = .jrandomvariableinimptpfillprogram → H n = G n) : JGone c it H := by
  rw [JGone, hH _ rfl, hH _ rfl]
  exact h

theorem JHere.keep (h : JHere c it G)
    (hH : ∀ n, n.1 = .jrandomvariableinimptpfillprogram → H n = G n) : JHere c it H := by
  rw [JHere, hH _ rfl]
  exact h

theorem below_ntpGone {n m : Node} (hn : n ∈ ntpGone c it) (hm : below n m = true) :
    m.1 ∈ [Gbl.antp, .bntp, .cntp, .dntp] := by
  have hg : n.1 ∈ [Gbl.antp, .bntp, .cntp, .dntp] := by
    revert n
    simp [ntpGone]
  have heq : n.1 = m.1 := by
    simp only [below, Bool.and_eq_true, beq_iff_eq] at hm
    exact hm.1
  exact heq ▸ hg

theorem NtpHere.keep (h : NtpHere c it G)
    (hH : ∀ n, n.1 ∈ [Gbl.antp, .bntp, .cntp, .dntp] → H n = G n) : NtpHere c it H := by
  intro n hn
  rw [hH n (below_ntpGone hn (below_iff.mpr ⟨rfl, List.prefix_rfl⟩))]
  exact h n hn

theorem Flat.keep (h : Flat c it G)
    (hH : ∀ n, n.1 ∈ [Gbl.antp, .bntp, .cntp, .dntp] → H n = G n) : Flat c it H := by
  intro n hn m hm hne
  rw [hH m (below_ntpGone hn hm)]
  exact h n hn m hm hne

theorem Gone.keep (h : Gone c it G)
    (hH : ∀ n, n.1 ∈ [Gbl.antp, .bntp, .cntp, .dntp] → H n = G n) : Gone c it H := by
  intro n hn m hm
  rw [hH m (below_ntpGone hn hm)]
  exact h n hn m hm

theorem below_andxarr {n : Node} (h : below (.andxarr, [fid c, dec it.jobno, dec it.loop]) n = true) :
    n.1 = .andxarr := by
  simp only [below, Bool.and_eq_true, beq_iff_eq] at h
  exact h.1.symm

theorem Unmarked.keep (h : Unmarked c it G) (hH : ∀ n, n.1 = .andxarr → H n = G n) :
    Unmarked c it H := by
  intro n hn
  rw [hH n (below_andxarr hn)]
  exact h n hn

theorem Marked.keep (h : Marked c it G) (hH : ∀ n, n.1 = .andxarr → H n = G n) : Marked c it H := by
  rw [Marked, hH _ rfl]
  exact h

theorem disjoint_of {gs hs : List Gbl} (h : ∀ g ∈ gs, g ∉ hs) {n : Node} (hn : n.1 ∈ gs) :
    n.1 ∉ hs := h _ hn

theorem Holds.setNtp (h : Holds c it f G) (hg : f.gone = false) {ntp : Bool}
    (hH : ∀ n, n.1 ∉ [Gbl.antp, .bntp, .cntp, .dntp] → H n = G n) (hflat : Flat c it H)
    (hntp : ntp = true → NtpHere c it H) : Holds c it { f with ntp := ntp } H where
  first := h.first.away (fun n hn => hH n (disjoint_of (by decide) hn))
  ntp := hntp
  kept := fun hk => (h.kept hk).keep (fun n hn => hH n (disjoint_of (by decide) hn))
  kids := h.kids.away (fun n hn => hH n (disjoint_of (by decide) hn))
  jhere := fun hj => (h.jhere hj).keep (fun n hn => hH n (by rw [hn]; decide))
  jgone := fun hj => (h.jgone hj).keep (fun n hn => hH n (by rw [hn]; decide))
  spans := h.spans.keep (fun n hn => hH n (disjoint_of (by decide) hn))
  flat := hflat
  gone := by simp [hg]
  unmarked := fun hm => (h.unmarked hm).keep (fun n hn => hH n (by rw [hn]; decide))
  marked := fun hm => (h.marked hm).keep (fun n hn => hH n (by rw [hn]; decide))

theorem ntpGone_not_below {n m : Node} (hn : n ∈ ntpGone c it) (hm : m ∈ ntpGone c it)
    (hb : below n m = true) : m = n := by
  simp only [ntpGone, List.mem_cons, List.not_mem_nil, or_false] at hn hm
  obtain rfl | rfl | rfl | rfl := hn <;> obtain rfl | rfl | rfl | rfl := hm <;>
    simp_all [below]

theorem Flat.sets (h : Flat c it G)
    (hH : ∀ m, m.1 ∈ [Gbl.antp, .bntp, .cntp, .dntp] → H m = G m ∨ H m = none ∨
      m ∈ ntpGone c it ∨ m = (.bntp, [fid c, subsMAX c it])) : Flat c it H := by
  intro n hn m hm hne
  obtain hm' | hm' | hm' | rfl := hH m (below_ntpGone hn hm)
  · rw [hm']
    exact h n hn m hm hne
  · exact hm'
  · exact absurd (ntpGone_not_below hn hm' hm) hne
  · exfalso
    apply hne
    simp only [ntpGone, List.mem_cons, List.not_mem_nil, or_false] at hn
    obtain rfl | rfl | rfl | rfl := hn <;> simp_all [below, List.isPrefixOf]

theorem Kids.none_of_killed {m : Nat} (h : Kids c it m true G) {n : Node} (hn : n.1 ∈ families)
    (hp : [fid c, subs c it, dec 1] <+: n.2) : G n = none := by
  obtain ⟨rest, hrest⟩ := hp
  cases hG : G n with
  | none => rfl
  | some v =>
    have hn' : n = (n.1, fid c :: subs c it :: dec 1 :: rest) := Prod.ext rfl hrest.symm
    rw [hn'] at hG
    obtain ⟨-, J, -, -, hJ, hdec⟩ := h.only n.1 hn (dec 1) rest v hG
    exact absurd (dec_injective hdec).symm (hJ rfl)

theorem Holds.kills (h : Holds c it f G) (hk : f.killed = true) (hn : f.ntp = false)
    (hH : ∀ n, H n = G n ∨ H n = none ∧ (n.1 ∈ [Gbl.antp, .bntp, .cntp, .dntp] ∨
      n.1 ∈ families ∧ [fid c, subs c it, dec 1] <+: n.2)) : Holds c it f H := by
  have hntp : ∀ n, n.1 ∉ [Gbl.antp, .bntp, .cntp, .dntp] → H n = G n := by
    intro n hn
    obtain hG | ⟨hnone, hn' | ⟨hg, hp⟩⟩ := hH n
    · exact hG
    · exact absurd hn' hn
    · have hkids := h.kids
      rw [hk] at hkids
      rw [hnone, hkids.none_of_killed hg hp]
  have hnone : ∀ n, n.1 ∈ [Gbl.antp, .bntp, .cntp, .dntp] → H n = G n ∨ H n = none :=
    fun n _ => (hH n).imp id And.left
  have hflat : Flat c it H := h.flat.sets (fun m hm => (hnone m hm).imp id Or.inl)
  exact
    { first := h.first.away (fun n hn => hntp n (disjoint_of (by decide) hn))
      ntp := by simp [hn]
      kept := fun hk => (h.kept hk).keep (fun n hn => hntp n (disjoint_of (by decide) hn))
      kids := h.kids.away (fun n hn => hntp n (disjoint_of (by decide) hn))
      jhere := fun hj => (h.jhere hj).keep (fun n hn => hntp n (by rw [hn]; decide))
      jgone := fun hj => (h.jgone hj).keep (fun n hn => hntp n (by rw [hn]; decide))
      spans := h.spans.keep (fun n hn => hntp n (disjoint_of (by decide) hn))
      flat := hflat
      gone := by
        intro hg n hn m hm
        obtain hm' | hm' := hnone m (below_ntpGone hn hm)
        · rw [hm']
          exact h.gone hg n hn m hm
        · exact hm'
      unmarked := fun hm => (h.unmarked hm).keep (fun n hn => hntp n (by rw [hn]; decide))
      marked := fun hm => (h.marked hm).keep (fun n hn => hntp n (by rw [hn]; decide)) }

theorem Holds.dropNtp (h : Holds c it f G) : Holds c it { f with ntp := false } G :=
  { h with ntp := by simp }

theorem Holds.ndx (h : Holds c it f G) (hH : ∀ n, n.1 ∉ ndxarrs → H n = G n) : Holds c it f H where
  first := h.first.away (fun n hn => hH n (disjoint_of (by decide) hn))
  ntp := fun hn => (h.ntp hn).keep (fun n hn => hH n (disjoint_of (by decide) hn))
  kept := fun hk => (h.kept hk).keep (fun n hn => hH n (disjoint_of (by decide) hn))
  kids := h.kids.away (fun n hn => hH n (disjoint_of (by decide) hn))
  jhere := fun hj => (h.jhere hj).keep (fun n hn => hH n (by rw [hn]; decide))
  jgone := fun hj => (h.jgone hj).keep (fun n hn => hH n (by rw [hn]; decide))
  spans := h.spans.keep (fun n hn => hH n (disjoint_of (by decide) hn))
  flat := h.flat.keep (fun n hn => hH n (disjoint_of (by decide) hn))
  gone := fun hg => (h.gone hg).keep (fun n hn => hH n (disjoint_of (by decide) hn))
  unmarked := fun hm => (h.unmarked hm).keep (fun n hn => hH n (by rw [hn]; decide))
  marked := fun hm => (h.marked hm).keep (fun n hn => hH n (by rw [hn]; decide))

theorem Holds.mark (h : Holds c it f G) (hH : ∀ n, n.1 ∉ Gbl.andxarr :: ndxarrs → H n = G n)
    (hmark : Marked c it H) : Holds c it { f with marked := true } H where
  first := h.first.away (fun n hn => hH n (disjoint_of (by decide) hn))
  ntp := fun hn => (h.ntp hn).keep (fun n hn => hH n (disjoint_of (by decide) hn))
  kept := fun hk => (h.kept hk).keep (fun n hn => hH n (disjoint_of (by decide) hn))
  kids := h.kids.away (fun n hn => hH n (disjoint_of (by decide) hn))
  jhere := fun hj => (h.jhere hj).keep (fun n hn => hH n (by rw [hn]; decide))
  jgone := fun hj => (h.jgone hj).keep (fun n hn => hH n (by rw [hn]; decide))
  spans := h.spans.keep (fun n hn => hH n (disjoint_of (by decide) hn))
  flat := h.flat.keep (fun n hn => hH n (disjoint_of (by decide) hn))
  gone := fun hg => (h.gone hg).keep (fun n hn => hH n (disjoint_of (by decide) hn))
  unmarked := by simp
  marked := fun _ => hmark

end YdbTest.Content
