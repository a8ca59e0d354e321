import YdbTest.Awk
import YdbTest.Cycles
import YdbTest.Inversions

namespace YdbTest.LinkSort

open Relation Awk Cycles Inversions

/-- A line of `msr_active_links.txt` by its columns. -/
structure Line where
  col1 : Text
  col2 : Text
  col3 : Text
  deriving DecidableEq

/-- The lines `rcvfromlink` is made of: `col2` receives from `col3`. -/
def rcvfromlinks (all_srcs : Text) (alllinks : List Line) : List Line :=
  alllinks.filter fun l => l.col1 = "ACTIVE_LINKS_RCVFROM".toList ∧ index all_srcs l.col2 ≠ 0

/-- The loop over `j`: the first line from there on whose receiver is the source of `linki`. -/
def inner (linki : Line) : Nat → List Line → Option (Nat × Line)
  | _, [] => none
  | j, linkj :: rest => if linki.col3 = linkj.col2 then some (j, linkj) else inner linki (j + 1) rest

structure State where
  rcvfromlink : List Line
  i : Nat
  numswaps : Nat

inductive Outcome where
  | sorted (rcvfromlink : List Line) (numswaps : Nat)
  | cycle

/-- One round of the loop over `i`, which here begins at 0. -/
def round (rcvcnt : Nat) (s : State) : State ⊕ Outcome :=
  match s.rcvfromlink[s.i]? with
  | none => .inr (.sorted s.rcvfromlink s.numswaps)
  | some linki =>
    match inner linki (s.i + 1) (s.rcvfromlink.drop (s.i + 1)) with
    | none => .inl { s with i := s.i + 1 }
    | some (j, linkj) =>
      if s.numswaps + 1 > rcvcnt * (rcvcnt - 1) then .inr .cycle
      else .inl ⟨(s.rcvfromlink.set s.i linkj).set j linki, 0, s.numswaps + 1⟩

def rounds (rcvcnt : Nat) : Nat → State → Option Outcome
  | 0, _ => none
  | n + 1, s =>
    match round rcvcnt s with
    | .inl s => rounds rcvcnt n s
    | .inr o => some o

/-- The loops come to an end with this outcome. -/
def Ends (rcvfromlink : List Line) (o : Outcome) : Prop :=
  ∃ n, rounds rcvfromlink.length n ⟨rcvfromlink, 0, 0⟩ = some o

/-- The edges of the links: replication goes from the source to the receiver. -/
def Feeds (links : List Line) (a b : Text) : Prop :=
  ∃ l ∈ links, l.col3 = a ∧ l.col2 = b

def Ordered (links : List Line) : Prop :=
  links.Pairwise fun l l' => l.col3 ≠ l'.col2

/-- The first `i` lines do not have their sources further down. -/
def Clear (links : List Line) (i : Nat) : Prop :=
  ∀ a < i, ∀ b, a < b → ∀ l l', links[a]? = some l → links[b]? = some l' → l.col3 ≠ l'.col2

variable {links : List Line} {rcvcnt j k n m : Nat} {linki linkj : Line} {rest : List Line}
  {s s' : State} {o o' : Outcome}

theorem inner_none : inner linki j rest = none ↔ ∀ l ∈ rest, linki.col3 ≠ l.col2 := by
  induction rest generalizing j with
  | nil => simp [inner]
  | cons l rest ih =>
    rw [inner, List.forall_mem_cons]
    split_ifs with h
    · simp [h]
    · simp [h, ih]

theorem inner_some (h : inner linki j rest = some (k, linkj)) :
    ∃ bs cs, rest = bs ++ linkj :: cs ∧ k = j + bs.length ∧ linki.col3 = linkj.col2 := by
  induction rest generalizing j with
  | nil => cases h
  | cons l rest ih =>
    rw [inner] at h
    split_ifs at h with hl
    · cases h
      exact ⟨[], rest, rfl, rfl, hl⟩
    · obtain ⟨bs, cs, rfl, rfl, hc⟩ := ih h
      refine ⟨l :: bs, cs, rfl, ?_, hc⟩
      rw [List.length_cons]
      omega

theorem set_exchange (as bs cs : List Line) (a b : Line) :
    ((as ++ a :: (bs ++ b :: cs)).set as.length b).set (as.length + 1 + bs.length) a =
      as ++ b :: (bs ++ a :: cs) := by
  have hlen : as.length + 1 + bs.length = as.length + (bs.length + 1) := by omega
  rw [List.set_append_right _ _ le_rfl, Nat.sub_self, List.set_cons_zero, hlen,
    List.set_append_right _ _ (Nat.le_add_right _ _), Nat.add_sub_cancel_left, List.set_cons_succ,
    List.set_append_right _ _ le_rfl, Nat.sub_self, List.set_cons_zero]

theorem round_cases (rcvcnt : Nat) (s : State) :
    (s.rcvfromlink.length ≤ s.i ∧
      round rcvcnt s = .inr (.sorted s.rcvfromlink s.numswaps)) ∨
    ∃ as linki rest, s.rcvfromlink = as ++ linki :: rest ∧ s.i = as.length ∧
      ((∀ l ∈ rest, linki.col3 ≠ l.col2) ∧ round rcvcnt s = .inl { s with i := s.i + 1 } ∨
      ∃ bs linkj cs, rest = bs ++ linkj :: cs ∧ linki.col3 = linkj.col2 ∧ round rcvcnt s =
        if s.numswaps + 1 > rcvcnt * (rcvcnt - 1) then .inr .cycle
        else .inl ⟨as ++ linkj :: (bs ++ linki :: cs), 0, s.numswaps + 1⟩) := by
  obtain ⟨links, i, m⟩ := s
  obtain hi | hi := Nat.lt_or_ge i links.length
  case inr =>
    refine .inl ⟨hi, ?_⟩
    rw [round, List.getElem?_eq_none hi]
  have hsplit : links = links.take i ++ links[i] :: links.drop (i + 1) := by
    rw [← List.drop_eq_getElem_cons hi, List.take_append_drop]
  have hlen : i = (links.take i).length := (List.length_take_of_le hi.le).symm
  refine .inr ⟨links.take i, links[i], links.drop (i + 1), hsplit, hlen, ?_⟩
  have hget := List.getElem?_eq_getElem hi
  cases hin : inner links[i] (i + 1) (links.drop (i + 1)) with
  | none =>
    refine .inl ⟨inner_none.mp hin, ?_⟩
    simp only [round, hget, hin]
  | some found =>
    obtain ⟨j, linkj⟩ := found
    obtain ⟨bs, cs, hrest, rfl, hc⟩ := inner_some hin
    refine .inr ⟨bs, linkj, cs, hrest, hc, ?_⟩
    have hset := set_exchange (links.take i) bs cs links[i] linkj
    rw [← hrest, ← hsplit, ← hlen] at hset
    simp only [round, hget, hin, hset]

theorem rounds_add (h : rounds rcvcnt n s = some o) : rounds rcvcnt (n + k) s = some o := by
  induction n generalizing s with
  | zero => cases h
  | succ n ih =>
    rw [Nat.succ_add]
    rw [rounds] at h ⊢
    split at h
    · exact ih h
    · exact h

theorem Ends.unique (h : Ends links o) (h' : Ends links o') : o = o' := by
  obtain ⟨n, hn⟩ := h
  obtain ⟨m, hm⟩ := h'
  have hnm := rounds_add (k := m) hn
  have hmn := rounds_add (k := n) hm
  rw [Nat.add_comm, hmn] at hnm
  exact (Option.some.inj hnm).symm

/-- The rule of the two loops: what every round keeps still holds in the round that ends them, and
there is such a round, as `i` only starts again after a counted exchange. -/
theorem rounds_ends {I : State → Prop}
    (hstep : ∀ s s', I s → round rcvcnt s = .inl s' → I s')
    (hbound : ∀ s, I s → s.i ≤ rcvcnt ∧ s.rcvfromlink.length = rcvcnt ∧
      s.numswaps ≤ rcvcnt * (rcvcnt - 1)) (hs : I s) :
    ∃ n s' o, I s' ∧ round rcvcnt s' = .inr o ∧ rounds rcvcnt n s = some o := by
  induction hm : (rcvcnt * (rcvcnt - 1) - s.numswaps) * (rcvcnt + 1) + (rcvcnt - s.i)
    using Nat.strong_induction_on generalizing s with
  | _ m ih =>
  subst hm
  cases hr : round rcvcnt s with
  | inr o =>
    refine ⟨1, s, o, hs, hr, ?_⟩
    rw [rounds, hr]
  | inl s' =>
    have hs' := hstep s s' hs hr
    have hless : (rcvcnt * (rcvcnt - 1) - s'.numswaps) * (rcvcnt + 1) + (rcvcnt - s'.i) <
        (rcvcnt * (rcvcnt - 1) - s.numswaps) * (rcvcnt + 1) + (rcvcnt - s.i) := by
      obtain ⟨hi, hl, -⟩ := hbound s hs
      obtain ⟨-, -, hn⟩ := hbound s' hs'
      obtain ⟨-, hd⟩ | ⟨as, linki, rest, hsplit, hlen, ⟨-, hd⟩ | ⟨bs, linkj, cs, -, -, hd⟩⟩ :=
        round_cases rcvcnt s
      · rw [hd] at hr
        cases hr
      · rw [hd] at hr
        cases hr
        have hlt : as.length < rcvcnt := by
          rw [← hl, hsplit, List.length_append, List.length_cons]
          omega
        dsimp only
        omega
      · rw [hd] at hr
        split_ifs at hr with hc
        cases hr
        dsimp only at hn ⊢
        have hsub : rcvcnt * (rcvcnt - 1) - s.numswaps =
            rcvcnt * (rcvcnt - 1) - (s.numswaps + 1) + 1 := by omega
        rw [hsub, Nat.add_mul, Nat.one_mul]
        omega
    obtain ⟨n, s'', o, hI, hend, hrun⟩ := ih _ hless hs' rfl
    refine ⟨n + 1, s'', o, hI, hend, ?_⟩
    rw [rounds, hr]
    exact hrun

section Order

variable {as bs cs out : List Line}

theorem Clear.next (h : Clear (as ++ linki :: rest) as.length)
    (hrest : ∀ l ∈ rest, linki.col3 ≠ l.col2) : Clear (as ++ linki :: rest) (as.length + 1) := by
  intro a ha b hab l l' hl hl'
  obtain rfl | hlt := Nat.eq_or_lt_of_le (Nat.le_of_lt_succ ha)
  · rw [List.getElem?_append_right le_rfl, Nat.sub_self, List.getElem?_cons_zero] at hl
    cases hl
    rw [List.getElem?_append_right hab.le, List.getElem?_cons] at hl'
    rw [if_neg (by omega)] at hl'
    exact hrest l' (List.mem_of_getElem? hl')
  · exact h a hlt b hab l l' hl hl'

theorem Clear.ordered (h : Clear links links.length) : Ordered links := by
  rw [Ordered, List.pairwise_iff_getElem]
  intro a b ha hb hab
  exact h a ha b hab _ _ (List.getElem?_eq_getElem ha) (List.getElem?_eq_getElem hb)

theorem Feeds.of_perm (hp : out.Perm links) {a b : Text} : Feeds out a b ↔ Feeds links a b := by
  simp only [Feeds, hp.mem_iff]

theorem Ordered.no_cycle (h : Ordered out) (hn : (out.map Line.col2).Nodup) :
    ¬ HasCycle (Feeds out) := by
  have hmem : ∀ {a b}, Feeds out a b → b ∈ out.map Line.col2 := by
    rintro a b ⟨l, hl, -, rfl⟩
    exact List.mem_map_of_mem hl
  apply not_hasCycle_of_rank (p := fun x =>
    if x ∈ out.map Line.col2 then (out.map Line.col2).idxOf x + 1 else 0)
  · intro a b hab
    rw [if_pos (hmem hab)]
    split_ifs with ha
    · obtain ⟨l, hl, rfl, rfl⟩ := hab
      obtain ⟨as, bs, rfl⟩ := List.append_of_mem hl
      have hlow := (List.pairwise_append.mp h).2.1
      rw [List.map_append, List.map_cons] at ha hn ⊢
      have hl2 : l.col2 ∉ as.map Line.col2 := fun hm =>
        (List.nodup_append.mp hn).2.2 _ hm _ List.mem_cons_self rfl
      rw [List.idxOf_append_of_notMem hl2, List.idxOf_cons_self, Nat.add_zero, List.length_map]
      obtain ha | ha := List.mem_append.mp ha
      · rw [List.idxOf_append_of_mem ha]
        have hlt := List.idxOf_lt_length_of_mem ha
        rw [List.length_map] at hlt
        omega
      obtain heq | ha := List.mem_cons.mp ha
      · rw [heq, List.idxOf_append_of_notMem hl2, List.idxOf_cons_self, List.length_map]
      · obtain ⟨l', hl', heq⟩ := List.mem_map.mp ha
        exact absurd heq.symm ((List.pairwise_cons.mp hlow).1 l' hl')
    · exact Nat.zero_le _
  · rintro a b ⟨_, ha⟩ ⟨_, hb⟩ heq
    rw [if_pos (hmem ha), if_pos (hmem hb), Nat.add_right_cancel_iff] at heq
    exact (List.idxOf_inj (hmem ha)).mp heq

def Above (links : List Line) (l l' : Line) : Prop :=
  ReflTransGen (Feeds links) l.col2 l'.col3

theorem Above.of_source {a b l : Line} (hab : a.col3 = b.col2) (h : Above links l b)
    (hb : b ∈ links) : Above links l a := by
  rw [Above, hab]
  exact ReflTransGen.tail h ⟨b, hb, rfl, rfl⟩

theorem Above.asymm {a b : Line} (hc : ¬ HasCycle (Feeds links)) (hne : a.col2 ≠ b.col2)
    (ha : a ∈ links) (hb : b ∈ links) (hab : a.col3 = b.col2) : ¬ Above links a b := by
  intro h
  apply hc
  apply hasCycle_of_reach (a := a.col2) (b := b.col2)
  · exact ReflTransGen.tail h ⟨b, hb, rfl, rfl⟩
  · exact ReflTransGen.single ⟨a, ha, hab, rfl⟩
  · exact hne

end Order

section Invariant

open Classical

/-- What every round keeps. The last field is the reason why no acyclic list meets the bound: an
exchange leaves fewer lines that come before a line above them. -/
structure Inv (links : List Line) (s : State) : Prop where
  perm : s.rcvfromlink.Perm links
  index : s.i ≤ links.length
  clear : Clear s.rcvfromlink s.i
  swaps : s.numswaps ≤ links.length * (links.length - 1)
  acyclic : (links.map Line.col2).Nodup → ¬ HasCycle (Feeds links) →
    s.numswaps + inversions (Above links) s.rcvfromlink ≤ links.length.choose 2

theorem Inv.start (links : List Line) : Inv links ⟨links, 0, 0⟩ where
  perm := List.Perm.refl links
  index := Nat.zero_le _
  clear := fun a ha => absurd ha (Nat.not_lt_zero a)
  swaps := Nat.zero_le _
  acyclic _ _ := by
    rw [Nat.zero_add]
    exact inversions_le _ links

theorem exchange_lt {as bs cs : List Line}
    (hp : (as ++ linki :: (bs ++ linkj :: cs)).Perm links) (hc : linki.col3 = linkj.col2)
    (hn : (links.map Line.col2).Nodup) (hac : ¬ HasCycle (Feeds links)) :
    inversions (Above links) (as ++ linkj :: (bs ++ linki :: cs)) <
      inversions (Above links) (as ++ linki :: (bs ++ linkj :: cs)) := by
  have hi : linki ∈ links := hp.mem_iff.mp (by simp)
  have hj : linkj ∈ links := hp.mem_iff.mp (by simp)
  have hne : linki.col2 ≠ linkj.col2 := by
    have hnd := (hp.map Line.col2).nodup_iff.mpr hn
    rw [List.map_append, List.map_cons] at hnd
    have hlow := (List.nodup_cons.mp (List.nodup_append.mp hnd).2.1).1
    intro heq
    apply hlow
    rw [heq]
    simp
  apply inversions_exchange as bs cs
  · rw [Above, hc]
  · exact Above.asymm hac hne hi hj hc
  · intro x _ h
    exact h.of_source hc hj
  · intro x _ h
    rw [Above, ← hc]
    exact ReflTransGen.head ⟨linki, hi, rfl, rfl⟩ h

theorem Inv.round (h : Inv links s) (hr : round links.length s = .inl s') : Inv links s' := by
  have hlen := h.perm.length_eq
  obtain ⟨-, hd⟩ | ⟨as, linki, rest, hsplit, hi, ⟨hrest, hd⟩ | ⟨bs, linkj, cs, rfl, hc, hd⟩⟩ :=
    round_cases links.length s
  · rw [hd] at hr
    cases hr
  · rw [hd] at hr
    cases hr
    refine ⟨h.perm, ?_, ?_, h.swaps, h.acyclic⟩
    · rw [hsplit, List.length_append, List.length_cons] at hlen
      dsimp only
      omega
    · have hclear := h.clear
      rw [hsplit, hi] at hclear
      dsimp only
      rw [hsplit, hi]
      exact hclear.next hrest
  · rw [hd] at hr
    split_ifs at hr with hb
    cases hr
    have hp := h.perm
    rw [hsplit] at hp
    refine ⟨((perm_exchange bs cs linki linkj).append_left as).trans hp, Nat.zero_le _, ?_, ?_, ?_⟩
    · intro a ha
      exact absurd ha (Nat.not_lt_zero a)
    · exact Nat.le_of_not_lt hb
    · intro hn hac
      have hlt := exchange_lt hp hc hn hac
      have hle := h.acyclic hn hac
      rw [hsplit] at hle
      dsimp only
      omega

theorem Inv.ends (h : Inv links s) (hr : YdbTest.LinkSort.round links.length s = .inr o) :
    (∃ out n, o = .sorted out n ∧ out.Perm links ∧ Ordered out ∧
      ((links.map Line.col2).Nodup → ¬ HasCycle (Feeds links) →
        2 * n ≤ links.length * (links.length - 1))) ∨
    o = .cycle ∧ ((links.map Line.col2).Nodup → HasCycle (Feeds links)) := by
  have hbound : links.length.choose 2 = links.length * (links.length - 1) / 2 :=
    Nat.choose_two_right _
  obtain ⟨hi, hd⟩ | ⟨as, linki, rest, hsplit, hi, ⟨hrest, hd⟩ | ⟨bs, linkj, cs, rfl, hc, hd⟩⟩ :=
    round_cases links.length s
  · rw [hd] at hr
    cases hr
    refine .inl ⟨_, _, rfl, h.perm, ?_, ?_⟩
    · apply Clear.ordered
      intro a ha
      exact h.clear a (Nat.lt_of_lt_of_le ha hi)
    · intro hn hac
      have hle := h.acyclic hn hac
      omega
  · rw [hd] at hr
    cases hr
  · rw [hd] at hr
    split_ifs at hr with hb
    cases hr
    refine .inr ⟨rfl, ?_⟩
    intro hn
    by_contra hac
    have hp := h.perm
    rw [hsplit] at hp
    have hlt := exchange_lt hp hc hn hac
    have hle := h.acyclic hn hac
    rw [hsplit] at hle
    omega

end Invariant

/-- The loops end for every list of links. If each receiver occurs once, they report a cycle just
when there is one, and put the links in order otherwise, with at most half the exchanges that are
allowed. -/
theorem sortrcvfromlink_spec (links : List Line) :
    (∃! o, Ends links o) ∧ ((links.map Line.col2).Nodup →
      (Ends links .cycle ↔ HasCycle (Feeds links)) ∧
      (¬ HasCycle (Feeds links) → ∃ out numswaps, Ends links (.sorted out numswaps) ∧
        out.Perm links ∧ Ordered out ∧ 2 * numswaps ≤ links.length * (links.length - 1))) := by
  obtain ⟨n, s, o, hI, hend, hrun⟩ := rounds_ends (I := Inv links)
    (fun _ _ h hr => h.round hr) (fun _ h => ⟨h.index, h.perm.length_eq, h.swaps⟩)
    (Inv.start links)
  have ho : Ends links o := ⟨n, hrun⟩
  refine ⟨⟨o, ho, fun _ h => h.unique ho⟩, ?_⟩
  intro hn
  obtain ⟨out, m, rfl, hp, hord, hm⟩ | ⟨rfl, hcyc⟩ := hI.ends hend
  · have hac : ¬ HasCycle (Feeds links) := by
      have hno := hord.no_cycle ((hp.map Line.col2).nodup_iff.mpr hn)
      have hf : Feeds out = Feeds links := by
        funext a b
        exact propext (Feeds.of_perm hp)
      rwa [hf] at hno
    refine ⟨⟨fun h => ?_, fun h => absurd h hac⟩, fun _ => ⟨out, m, ho, hp, hord, hm hn hac⟩⟩
    cases h.unique ho
  · exact ⟨⟨fun _ => hcyc hn, fun _ => ho⟩, fun h => absurd (hcyc hn) h⟩

end YdbTest.LinkSort
