import YdbTest.Iteration
import YdbTest.IndexUnique
import YdbTest.UgenStrUnique

namespace YdbTest.Owner

open MString Globals Command Imptp TreeStore Iteration IndexWalk IndexUnique Decimal

/-- By what an iteration finds its nodes of a global: the string of its index,
the index, or the job and loop. The rest it shares with the others. -/
inductive Key
  | subs
  | index
  | loop
  | shared
  deriving DecidableEq

def key : Gbl → Key
  | .arandom | .brandomv | .crandomva | .drandomvariable | .erandomvariableimptp
  | .frandomvariableinimptp | .grandomvariableinimptpfill | .hrandomvariableinimptpfilling
  | .irandomvariableinimptpfillprgrm => .subs
  | .antp | .bntp | .cntp | .dntp | .entp | .fntp | .gntp | .hntp | .intp => .subs
  | .jrandomvariableinimptpfillprogram | .aspan | .bspan | .espan => .index
  | .andxarr | .bndxarr | .cndxarr | .dndxarr | .endxarr | .fndxarr | .gndxarr | .hndxarr
  | .indxarr => .loop
  | .lasti | .cntloop | .cntseq | .dummy | .zdummy => .shared

/-- The nodes only iteration `it` works on. -/
def Owned (c : Cfg) (it : Iter) (n : Node) : Prop :=
  match key n.1 with
  | .subs => [fid c, subs c it] <+: n.2 ∨ [fid c, subsMAX c it] <+: n.2
  | .index => [fid c, I it] <+: n.2
  | .loop => [fid c, dec it.jobno, dec it.loop] <+: n.2
  | .shared => False

/-- The iterations of a run, short of the one whose index comes round again. -/
structure Valid (c : Cfg) (it : Iter) : Prop where
  jobno_pos : 1 ≤ it.jobno
  jobno_le : it.jobno ≤ c.jobcnt
  loop_pos : 1 ≤ it.loop
  exponent_lt : exponent c.jobcnt it.jobno it.loop < prime - 1
  index : it.I = startIndex c.jobcnt it.jobno (it.loop - 1)

variable {c : Cfg} {it it' : Iter} {d : Draws}

theorem dropWhile_justify {utf8 : Bool} {s : Str} (n : Nat) (h : s.head? ≠ some space) :
    (justify utf8 s n).dropWhile (· == space) = s := by
  unfold justify
  generalize n - length utf8 s = k
  induction k with
  | zero =>
    cases s with
    | nil => rfl
    | cons a s =>
      rw [List.replicate_zero, List.nil_append, List.dropWhile_cons_of_neg]
      simpa using h
  | succ k ih =>
    rw [List.replicate_succ, List.cons_append, List.dropWhile_cons_of_pos (by simp), ih]

theorem Valid.I_range (h : Valid c it) : 1 ≤ it.I ∧ it.I ≤ 50000016 := by
  rw [h.index]
  exact startIndex_pos _ _ _

theorem Valid.eq_of_index (h : Valid c it) (h' : Valid c it') (hI : it.I = it'.I) : it = it' := by
  rw [h.index, h'.index] at hI
  obtain ⟨hj, hl⟩ := startIndex_injective h.jobno_pos h'.jobno_pos h.jobno_le h'.jobno_le
    h.loop_pos h'.loop_pos h.exponent_lt h'.exponent_lt hI
  have hi := h.index
  rw [hj, hl, ← h'.index] at hi
  cases it
  cases it'
  simp_all

theorem Valid.subs_head (h : Valid c it) : (subs c it).head? ≠ some space := by
  unfold subs
  split
  · exact UgenStrUnique.genstr_head_ne_space
  · exact UgenStrUnique.ugenstr_head_ne_space h.I_range.1

theorem Valid.eq_of_subs (h : Valid c it) (h' : Valid c it') (hs : subs c it = subs c it') :
    it = it' := by
  apply h.eq_of_index h'
  unfold subs at hs
  split at hs
  · exact GenStrUnique.genstr_injective h.I_range.1 h'.I_range.1 hs
  · exact UgenStrUnique.ugenstr_injective_any h.I_range.1 h'.I_range.1 h.I_range.2 h'.I_range.2 hs

theorem subs_of_padded {k : Str} (h : Valid c it) (hk : k = subs c it ∨ k = subsMAX c it) :
    k.dropWhile (· == space) = subs c it := by
  obtain rfl | rfl := hk
  · have := @dropWhile_justify c.env.utf8 (subs c it) 0 h.subs_head
    simpa [justify] using this
  · exact dropWhile_justify _ h.subs_head

theorem prefix_pair {f k k' : Str} {l : List Str} (h : [f, k] <+: l) (h' : [f, k'] <+: l) :
    k = k' := by
  obtain ⟨t, rfl⟩ := h
  obtain ⟨t', ht'⟩ := h'
  simp only [List.cons_append, List.nil_append, List.cons.injEq] at ht'
  exact ht'.2.1.symm

theorem owned_disjoint (h : Valid c it) (h' : Valid c it') {n : Node} (ho : Owned c it n)
    (ho' : Owned c it' n) : it = it' := by
  unfold Owned at ho ho'
  cases hk : key n.1 with
  | subs =>
    rw [hk] at ho ho'
    have hpad : ∃ k, (k = subs c it ∨ k = subsMAX c it) ∧ [fid c, k] <+: n.2 :=
      ho.elim (fun hp => ⟨_, Or.inl rfl, hp⟩) (fun hp => ⟨_, Or.inr rfl, hp⟩)
    have hpad' : ∃ k, (k = subs c it' ∨ k = subsMAX c it') ∧ [fid c, k] <+: n.2 :=
      ho'.elim (fun hp => ⟨_, Or.inl rfl, hp⟩) (fun hp => ⟨_, Or.inr rfl, hp⟩)
    obtain ⟨k, hk, hp⟩ := hpad
    obtain ⟨k', hk', hp'⟩ := hpad'
    obtain rfl := prefix_pair hp hp'
    exact h.eq_of_subs h' ((subs_of_padded h hk).symm.trans (subs_of_padded h' hk'))
  | index =>
    rw [hk] at ho ho'
    exact h.eq_of_index h' (dec_injective (prefix_pair ho ho'))
  | loop =>
    rw [hk] at ho ho'
    obtain ⟨t, ht⟩ := ho
    obtain ⟨t', ht'⟩ := ho'
    rw [← ht] at ht'
    simp only [List.cons_append, List.nil_append, List.cons.injEq, true_and] at ht'
    have hj := dec_injective ht'.1
    have hl := dec_injective ht'.2.1
    apply h.eq_of_index h'
    rw [h.index, h'.index, hj, hl]
  | shared =>
    rw [hk] at ho
    exact ho.elim

theorem Owned.below {t n : Node} (ho : Owned c it t) (hb : TreeStore.below t n = true) :
    Owned c it n := by
  simp only [TreeStore.below, Bool.and_eq_true, beq_iff_eq, List.isPrefixOf_iff_prefix] at hb
  obtain ⟨hg, hp⟩ := hb
  unfold Owned at ho ⊢
  rw [← hg]
  cases hk : key t.1 <;> rw [hk] at ho <;> simp only at ho ⊢
  · exact ho.imp (fun h => h.trans hp) (fun h => h.trans hp)
  · exact ho.trans hp
  · exact ho.trans hp

end YdbTest.Owner
