import YdbTest.TriggerEvents

namespace YdbTest.TriggerLoad

open MString

variable {e e' : Table} {i j k : Nat} {t u : Trig} {a : Event} {l : Line} {g : Gvn}
  {σ σ' σ'' : State} {d p : Str}

def Changes (l : Line) (e : Table) (σ σ' : State) : Prop :=
  ∀ y x, (σ'.hasht y).xecute x = if y = l.gvn ∧ x = l.xecute then e else (σ.hasht y).xecute x

theorem Changes.refl (σ : State) : Changes l (σ.table l) σ σ := by
  intro y x
  split_ifs with h
  · rw [h.1, h.2]
    rfl
  · rfl

theorem Changes.trans (h : Changes l e σ σ') (h' : Changes l e' σ' σ'') : Changes l e' σ σ'' := by
  intro y x
  rw [h' y x, h y x]
  split <;> rfl

theorem Changes.table (h : Changes l e σ σ') : σ'.table l = e := by
  rw [State.table, h, if_pos ⟨rfl, rfl⟩]

theorem Changes.write (h : Changes l e σ σ') (i : Nat) (msg : Msg) :
    Changes l e σ (σ'.write i l msg) := by
  intro y x
  rw [write_hasht]
  exact h y x

theorem changes_setGvn (hg : g.xecute = ((σ.hasht l.gvn).update l.xecute e).xecute) :
    Changes l e σ (σ.setGvn l g) := by
  intro y x
  by_cases hy : y = l.gvn
  · subst hy
    rw [setGvn_self, hg]
    by_cases hx : x = l.xecute
    · rw [hx, xecute_self, if_pos ⟨rfl, rfl⟩]
    · rw [xecute_other hx, if_neg fun h => hx h.2]
  · rw [setGvn_others hy, if_neg fun h => hy h.1]

theorem changes_setTable (e : Table) : Changes l e σ (σ.setTable l e) := changes_setGvn rfl

theorem changes_decr (hg : GvnOk (σ.hasht l.gvn)) (he : TableOk e) (hk : k ∈ (σ.table l).index)
    (h : ∀ i, i ∈ e.index ↔ i ≠ k ∧ i ∈ (σ.table l).index) :
    Changes l e σ ((σ.setTable l e).decr l) := by
  rw [decr_setTable]
  exact changes_setGvn (hg.erase he hk h).2.1

/-- The triggers are those of another table, with fewer events perhaps. -/
def Trig.Within (u t : Trig) : Prop :=
  u.cmds ⊆ t.cmds ∧ u.options = t.options ∧
    (u.delim = t.delim ∧ u.pieces = t.pieces ∨ u.delim = Option.none ∧ u.pieces = Option.none)

def Table.Within (e' e : Table) : Prop := ∀ (j : Nat) (u : Trig), e'.index[j]? = some u →
  ∃ t : Trig, e.index[j]? = some t ∧ u.Within t

theorem Trig.Within.refl (t : Trig) : t.Within t := ⟨Finset.Subset.refl _, rfl, Or.inl ⟨rfl, rfl⟩⟩

theorem Table.Within.refl (e : Table) : e.Within e := fun _ u hu => ⟨u, hu, .refl u⟩

theorem Trig.Within.on (h : u.Within t) (ha : u.On a) : t.On a := by
  obtain ⟨hcmds, -, hset⟩ := h
  cases a with
  | command c => exact ⟨hcmds ha.1, ha.2⟩
  | set d p =>
    obtain ⟨hS, hd, hp⟩ := ha
    obtain ⟨hd', hp'⟩ | ⟨hd', -⟩ := hset
    · exact ⟨hcmds hS, hd' ▸ hd, hp' ▸ hp⟩
    · exact absurd (hd'.symm.trans hd) (Option.some_ne_none d).symm

theorem Trig.Within.trans {v : Trig} (h : v.Within u) (h' : u.Within t) : v.Within t := by
  obtain ⟨hcmds, hoptions, hset⟩ := h
  obtain ⟨hcmds', hoptions', hset'⟩ := h'
  refine ⟨hcmds.trans hcmds', hoptions.trans hoptions', ?_⟩
  obtain ⟨hd, hp⟩ | hnone := hset
  · rwa [hd, hp]
  · exact Or.inr hnone

theorem Table.Within.trans {e'' : Table} (h : e''.Within e') (h' : e'.Within e) :
    e''.Within e := by
  intro j v hv
  obtain ⟨u, hu, hvu⟩ := h j v hv
  obtain ⟨t, ht, hut⟩ := h' j u hu
  exact ⟨t, ht, hvu.trans hut⟩

theorem within_put (hi : i ∈ e.index) (h : t = Trig.none ∨ t.Within (e.trig i)) :
    (e.put i t).Within e := by
  intro j u hu
  by_cases hn : t = Trig.none
  · rw [hn, index_erase] at hu
    split_ifs at hu
    exact ⟨u, hu, .refl u⟩
  · rw [index_put hn] at hu
    split_ifs at hu with hj
    · obtain rfl := Option.some.inj hu
      subst hj
      exact ⟨e.trig j, get_trig hi, h.resolve_left hn⟩
    · exact ⟨u, hu, .refl u⟩

/-- What is left of a trigger without the commands of a line. -/
def Line.kill (l : Line) (t : Trig) : Trig :=
  if (t.cmds \ l.cmds).Nonempty then { t with cmds := t.cmds \ l.cmds } else Trig.none

def Line.killAll (l : Line) (t : Trig) : Trig :=
  if (t.cmds ∩ insert S l.cmds).Nonempty then
    if (t.cmds \ insert S l.cmds).Nonempty then
      { t with cmds := t.cmds \ insert S l.cmds, pieces := none, delim := none }
    else Trig.none
  else t

theorem within_kill : l.kill t = Trig.none ∨ (l.kill t).Within t := by
  unfold Line.kill
  split_ifs
  · exact Or.inr ⟨Finset.sdiff_subset, rfl, Or.inl ⟨rfl, rfl⟩⟩
  · exact Or.inl rfl

theorem within_killAll : l.killAll t = Trig.none ∨ (l.killAll t).Within t := by
  unfold Line.killAll
  split_ifs
  · exact Or.inr ⟨Finset.sdiff_subset, rfl, Or.inr ⟨rfl, rfl⟩⟩
  · exact Or.inl rfl
  · exact Or.inr (.refl t)

theorem on_kill (hl : LineOk l) : (l.kill t).On a ↔ t.On a ∧ a ∉ l.others.events := by
  rw [events_others]
  unfold Line.kill
  split_ifs with hrest
  · cases a with
    | command c =>
      simp only [Trig.On, Finset.mem_sdiff, Set.mem_ofPred_eq, Event.command.injEq,
        exists_eq_right']
      exact and_right_comm
    | set d p =>
      have hS : S ∈ t.cmds \ l.cmds ↔ S ∈ t.cmds := by
        rw [Finset.mem_sdiff, and_iff_left hl.apart]
      simp [Trig.On, SetOn, hS]
  · have hsub : t.cmds ⊆ l.cmds := by
      rwa [Finset.not_nonempty_iff_eq_empty, Finset.sdiff_eq_empty_iff_subset] at hrest
    refine iff_of_false not_on_none fun h => ?_
    cases a with
    | command c => exact h.2 ⟨c, hsub h.1.1, rfl⟩
    | set d p => exact hl.apart (hsub h.1.1)

theorem on_killAll (hs : l.setspecified = true)
    (hown : ∀ d p, SetOn t d p → (d, p) = (l.delim, l.pieces)) :
    (l.killAll t).On a ↔ t.On a ∧ a ∉ l.events := by
  unfold Line.killAll
  split_ifs with hcommon hrest
  · cases a with
    | command c =>
      have hne : c ≠ S → (c ∉ insert S l.cmds ↔ c ∉ l.cmds) := fun hc => by
        rw [Finset.mem_insert, or_iff_right hc]
      simp only [Trig.On, Finset.mem_sdiff, Line.events, Line.On, Set.mem_ofPred_eq]
      tauto
    | set d p =>
      refine iff_of_false (fun h => ?_) fun h => ?_
      · exact absurd h.2.1 (Option.some_ne_none d).symm
      · obtain ⟨rfl, rfl⟩ := Prod.mk.inj (hown d p h.1)
        exact h.2 ⟨hs, rfl, rfl⟩
  · have hsub : t.cmds ⊆ insert S l.cmds := by
      rwa [Finset.not_nonempty_iff_eq_empty, Finset.sdiff_eq_empty_iff_subset] at hrest
    refine iff_of_false not_on_none fun h => ?_
    cases a with
    | command c => exact h.2 ((Finset.mem_insert.mp (hsub h.1.1)).resolve_left h.1.2)
    | set d p =>
      obtain ⟨rfl, rfl⟩ := Prod.mk.inj (hown d p h.1)
      exact h.2 ⟨hs, rfl, rfl⟩
  · rw [Finset.not_nonempty_iff_eq_empty, Finset.eq_empty_iff_forall_notMem] at hcommon
    refine (and_iff_left_of_imp fun ha hmem => ?_).symm
    cases a with
    | command c => exact hcommon c (Finset.mem_inter.mpr ⟨ha.1, Finset.mem_insert_of_mem hmem⟩)
    | set d p => exact hcommon S (Finset.mem_inter.mpr ⟨ha.1, Finset.mem_insert_self _ _⟩)

theorem put_trig (h : TableOk e) (hi : i ∈ e.index) : e.put i (e.trig i) = e := by
  have hget := get_trig hi
  have hindex : (e.put i (e.trig i)).index = e.index := by
    apply Std.ExtTreeMap.ext_getElem?
    intro j
    rw [index_put (h.trigs i _ hget).ne_none]
    split_ifs with hj
    · rw [hj, hget]
    · rfl
  exact congrArg (Table.mk · e.sets) hindex

theorem kill_of_disjoint (ht : TrigOk t) (h : ¬ (t.cmds ∩ l.cmds).Nonempty) : l.kill t = t := by
  rw [Finset.not_nonempty_iff_eq_empty, ← Finset.disjoint_iff_inter_eq_empty] at h
  unfold Line.kill
  rw [Finset.sdiff_eq_self_of_disjoint h, if_pos ht.commands]

theorem lowest_first (hok : TableOk e) (hf : e.index ≠ ∅) (hj : j ≠ e.first)
    (hu : e.index[j]? = some u) : u.cmds = {S} := by
  obtain ⟨hmem, hle⟩ := first_mem hf
  exact hok.lowest j u hu _ hmem
    (Nat.lt_of_le_of_ne (hle j (mem_index.mpr ⟨u, hu⟩)) (Ne.symm hj))

section Delete

variable (hg : GvnOk (σ.hasht l.gvn)) (hd : (σ.table l).hasData = true)

include hg hd

theorem deleteKill_changes (i : Nat) (hl : LineOk l) : Changes l
    ((σ.table l).put (σ.table l).first (l.kill ((σ.table l).trig (σ.table l).first))) σ
    (deleteKill i l (σ.table l).first σ).1 := by
  have hok : TableOk (σ.table l) := hg.tables l.xecute
  have hmem := (first_mem (index_ne_empty hok hd)).1
  have hfirst := get_trig hmem
  have hsdiff : ((σ.table l).trig (σ.table l).first).cmds \
      (((σ.table l).trig (σ.table l).first).cmds ∩ l.cmds) =
        ((σ.table l).trig (σ.table l).first).cmds \ l.cmds := Finset.sdiff_inter_self_left _ _
  unfold deleteKill computediff
  simp only [hsdiff]
  by_cases hcommon : (((σ.table l).trig (σ.table l).first).cmds ∩ l.cmds).Nonempty
  · rw [if_pos hcommon]
    by_cases hrest : (((σ.table l).trig (σ.table l).first).cmds \ l.cmds).Nonempty
    · rw [if_pos hrest, Line.kill, if_pos hrest]
      exact (changes_setTable _).write i (.modified .nonSET _)
    · have hnot : S ∉ ((σ.table l).trig (σ.table l).first).cmds := fun h =>
        hrest ⟨S, Finset.mem_sdiff.mpr ⟨h, hl.apart⟩⟩
      rw [if_neg hrest, Line.kill, if_neg hrest]
      exact (changes_decr hg (hok.eraseKill hfirst hnot) hmem fun j => mem_erase).write i
        (.deleted .nonSET _)
  · rw [if_neg hcommon, kill_of_disjoint (hok.trigs _ _ hfirst) hcommon, put_trig hok hmem]
    split
    · exact (Changes.refl σ).write i (.notPresent .nonSET _)
    · exact Changes.refl σ

theorem events_kill (hl : LineOk l) :
    ((σ.table l).put (σ.table l).first (l.kill ((σ.table l).trig (σ.table l).first))).events =
      (σ.table l).events \ l.others.events := by
  have hok : TableOk (σ.table l) := hg.tables l.xecute
  apply events_drop fun a => on_kill hl
  intro j u hj hu a ha hon
  rw [events_others] at ha
  obtain ⟨c, -, rfl⟩ := ha
  have hcmds := lowest_first hok (index_ne_empty hok hd) hj hu
  obtain ⟨hc, hne⟩ := hon
  rw [hcmds, Finset.mem_singleton] at hc
  exact hne hc

theorem deleteSame_changes (setexists : Bool) (i : Nat)
    (hs : ∀ d p, SetOn ((σ.table l).trig (σ.table l).first) d p → (d, p) = (l.delim, l.pieces))
    (honly : ∀ j, (σ.table l).sets[(l.delim, l.pieces)]? = some j → j = (σ.table l).first) :
    ∃ e, Changes l e σ (deleteSame i l (σ.table l).first setexists σ).state ∧ e.index =
      ((σ.table l).put (σ.table l).first
        (l.killAll ((σ.table l).trig (σ.table l).first))).index := by
  have hok : TableOk (σ.table l) := hg.tables l.xecute
  have hmem := (first_mem (index_ne_empty hok hd)).1
  have hfirst := get_trig hmem
  have hsdiff : ((σ.table l).trig (σ.table l).first).cmds \
      (((σ.table l).trig (σ.table l).first).cmds ∩ insert S l.cmds) =
        ((σ.table l).trig (σ.table l).first).cmds \ insert S l.cmds :=
    Finset.sdiff_inter_self_left _ _
  unfold deleteSame computediff
  simp only [hsdiff]
  by_cases hcommon : (((σ.table l).trig (σ.table l).first).cmds ∩ insert S l.cmds).Nonempty
  · rw [if_pos hcommon, Line.killAll, if_pos hcommon]
    by_cases hrest : (((σ.table l).trig (σ.table l).first).cmds \ insert S l.cmds).Nonempty
    · rw [if_pos hrest, if_pos hrest, killSet_setTable]
      exact ⟨_, ((Changes.refl σ).write i _).trans (changes_setTable _), rfl⟩
    · rw [if_neg hrest, if_neg hrest, killSet_decr]
      have hchanges := changes_decr hg (hok.eraseSet hfirst hs honly) hmem fun j => mem_erase
      exact ⟨_, hchanges.write i (.deleted l.str _), rfl⟩
  · rw [if_neg hcommon, Line.killAll, if_neg hcommon, put_trig hok hmem]
    split
    · exact ⟨_, (Changes.refl σ).write i (.modified .SET _), rfl⟩
    · exact ⟨_, (Changes.refl σ).write i (.notPresent _ _), rfl⟩

omit hd in
theorem deleteSet_changes {setindex : Nat} (i : Nat) (ht : (σ.table l).index[setindex]? = some t)
    (hc : t.cmds = {S}) (hon : SetOn t l.delim l.pieces) :
    ∃ σ' e, deleteSet i l setindex σ = some σ' ∧ Changes l e σ σ' ∧
      e.index = ((σ.table l).put setindex Trig.none).index := by
  have hok : TableOk (σ.table l) := hg.tables l.xecute
  have hmem : setindex ∈ (σ.table l).index := mem_index.mpr ⟨t, ht⟩
  have hcommon : (computediff {S} {S}).common = {S} := Finset.inter_self _
  have hs : ∀ d p, SetOn t d p → (d, p) = (l.delim, l.pieces) := fun d p h =>
    Prod.ext (Option.some.inj (h.2.1.symm.trans hon.2.1))
      (Option.some.inj (h.2.2.symm.trans hon.2.2))
  have hchanges := changes_decr hg (hok.eraseSet ht hs fun j => setOn_unique hok ht hon) hmem
    fun j => mem_erase
  refine ⟨_, _, ?_, hchanges.write i (.deleted .SET setindex), rfl⟩
  unfold deleteSet
  simp only [trig_of_get ht, hc, hcommon, Finset.singleton_nonempty, not_true_eq_false, if_false,
    Finset.sdiff_self, Finset.not_nonempty_empty, killSet_decr]
  rfl

theorem events_killAll (hs : l.setspecified = true)
    (hown : ∀ d p, SetOn ((σ.table l).trig (σ.table l).first) d p → (d, p) = (l.delim, l.pieces))
    (honly : ∀ j, (σ.table l).sets[(l.delim, l.pieces)]? = some j → j = (σ.table l).first) :
    ((σ.table l).put (σ.table l).first (l.killAll ((σ.table l).trig (σ.table l).first))).events =
      (σ.table l).events \ l.events := by
  have hok : TableOk (σ.table l) := hg.tables l.xecute
  apply events_drop fun a => on_killAll hs hown
  intro j u hj hu a ha hon
  cases a with
  | command c =>
    have hcmds := lowest_first hok (index_ne_empty hok hd) hj hu
    obtain ⟨hc, hne⟩ := hon
    rw [hcmds, Finset.mem_singleton] at hc
    exact hne hc
  | set d p =>
    obtain ⟨-, rfl, rfl⟩ := ha
    exact hj (honly j ((hok.corresponds _ _ j).mpr ⟨u, hu, hon⟩))

end Delete

/-- What a deletion leaves: the triggers that were there, without the events of the line. -/
structure Leaves (l : Line) (e' e : Table) : Prop where
  events : e'.events = e.events \ l.events
  within : e'.Within e

theorem Leaves.of_index (h : Leaves l e' e) {f : Table} (hf : f.index = e'.index) :
    Leaves l f e := by
  refine ⟨?_, fun j u hu => h.within j u (hf ▸ hu)⟩
  rw [← h.events, Table.events, hf, Table.events]

section Leaves

variable (hl : LineOk l) (hg : GvnOk (σ.hasht l.gvn)) (hd : (σ.table l).hasData = true)

include hl hg hd

theorem leaves_kill (h : ∀ a ∈ (σ.table l).events, a ∉ l.setOnly.events) : Leaves l
    ((σ.table l).put (σ.table l).first (l.kill ((σ.table l).trig (σ.table l).first)))
    (σ.table l) := by
  refine ⟨?_, within_put (first_mem (index_ne_empty (hg.tables l.xecute) hd)).1 within_kill⟩
  rw [events_kill hg hd hl, events_line (l := l)]
  ext a
  rw [Set.mem_sdiff, Set.mem_sdiff, Set.mem_union, not_or]
  exact and_congr_right fun ha => (and_iff_left (h a ha)).symm

omit hl in
theorem leaves_same (hs : l.setspecified = true) (setexists : Bool) (i : Nat)
    (hown : ∀ d p, SetOn ((σ.table l).trig (σ.table l).first) d p → (d, p) = (l.delim, l.pieces))
    (honly : ∀ j, (σ.table l).sets[(l.delim, l.pieces)]? = some j → j = (σ.table l).first) :
    ∃ e, Changes l e σ (deleteSame i l (σ.table l).first setexists σ).state ∧
      Leaves l e (σ.table l) := by
  have hmem := (first_mem (index_ne_empty (hg.tables l.xecute) hd)).1
  obtain ⟨e, hchanges, hindex⟩ := deleteSame_changes hg hd setexists i hown honly
  have hleaves : Leaves l ((σ.table l).put (σ.table l).first
      (l.killAll ((σ.table l).trig (σ.table l).first))) (σ.table l) :=
    ⟨events_killAll hg hd hs hown honly, within_put hmem within_killAll⟩
  exact ⟨e, hchanges, hleaves.of_index hindex⟩

theorem leaves_both (hs : l.setspecified = true) {k : Nat} (hk : k ≠ (σ.table l).first)
    (ht : (σ.table l).index[k]? = some t) (hon : SetOn t l.delim l.pieces) (i : Nat) :
    ∃ σ' e, deleteSet i l k (deleteKill i l (σ.table l).first σ).1 = some σ' ∧ Changes l e σ σ' ∧
      Leaves l e (σ.table l) := by
  have hok : TableOk (σ.table l) := hg.tables l.xecute
  have hc := lowest_first hok (index_ne_empty hok hd) hk ht
  have hkill := deleteKill_changes hg hd i hl
  obtain ⟨hmoves, -, hindex⟩ := deleteKill_spec hl hg hd i
  have ht' := (hindex k hk).trans ht
  obtain ⟨σ', e, hσ', hchanges, he⟩ := deleteSet_changes hmoves.gvn i ht' hc hon
  have htable := hkill.table
  have hwithin := within_put (first_mem (index_ne_empty hok hd)).1
    (within_kill (l := l) (t := (σ.table l).trig (σ.table l).first))
  rw [htable] at ht' he
  refine ⟨σ', e, hσ', hkill.trans hchanges, Leaves.of_index ⟨?_, ?_⟩ he⟩
  · rw [events_drop (A := l.setOnly.events), events_kill hg hd hl, events_line (l := l),
      Set.sdiff_sdiff]
    · intro a
      rw [trig_of_get ht', events_setOnly]
      refine iff_of_false not_on_none fun h => ?_
      cases a with
      | command c => exact h.1.2 (Finset.mem_singleton.mp (hc ▸ h.1.1))
      | set d p =>
        obtain rfl := Option.some.inj (h.1.2.1.symm.trans hon.2.1)
        obtain rfl := Option.some.inj (h.1.2.2.symm.trans hon.2.2)
        exact h.2 ⟨hs, rfl⟩
    · intro j u hj hu a ha hona
      rw [events_setOnly] at ha
      obtain ⟨-, rfl⟩ := ha
      obtain ⟨v, hv, huv⟩ := hwithin j u hu
      exact hj (setOn_unique hok ht hon ((hok.corresponds _ _ j).mpr ⟨v, hv, huv.on hona⟩))
  · exact (within_put (mem_index.mpr ⟨t, ht'⟩) (Or.inl rfl)).trans hwithin

theorem leaves_set (hs : l.setspecified = true) (i : Nat) : ∃ r e, delete i l σ = some r ∧
    Changes l e σ r.state ∧ Leaves l e (σ.table l) := by
  have hok : TableOk (σ.table l) := hg.tables l.xecute
  obtain ⟨hmem, -⟩ := first_mem (index_ne_empty hok hd)
  have hpos : ∀ j ∈ (σ.table l).index, j ≠ 0 := fun j hj =>
    Nat.ne_of_gt (hg.numbered l.xecute j hj).1
  unfold delete
  simp only [hd, if_true, hs]
  cases hq : (σ.table l).sets[(l.delim, l.pieces)]? with
  | some k =>
    obtain ⟨t, ht, hon⟩ := (hok.corresponds _ _ _).mp hq
    have hk : k ∈ (σ.table l).index := mem_index.mpr ⟨t, ht⟩
    have hof : (σ.table l).setOf l.delim l.pieces = k := by
      rw [Table.setOf, hq, Option.getD_some]
    have hat : setindexOf l (σ.table l) = k := by simp [setindexOf, hof, hpos k hk]
    simp only [hat, hof, ne_eq, hpos k hk, not_false_iff, decide_true]
    by_cases hne : (σ.table l).first = k
    · rw [if_neg (not_not.mpr hne)]
      obtain ⟨e, hchanges, hleaves⟩ := leaves_same hg hd hs true i
        (fun d p h => by
          rw [hne, trig_of_get ht] at h
          exact Prod.ext (Option.some.inj (h.2.1.symm.trans hon.2.1))
            (Option.some.inj (h.2.2.symm.trans hon.2.2)))
        fun j hj => (Option.some.inj (hj.symm.trans hq)).trans hne.symm
      exact ⟨_, e, rfl, hchanges, hleaves⟩
    · rw [if_pos hne]
      obtain ⟨σ', e, hσ', hchanges, hleaves⟩ := leaves_both hl hg hd hs (Ne.symm hne) ht hon i
      refine ⟨⟨σ', true, (deleteKill i l (σ.table l).first σ).2⟩, e, ?_, hchanges, hleaves⟩
      simp only [Bool.not_true, Bool.false_eq_true, if_false, hσ']
      rfl
  | none =>
    have hof : (σ.table l).setOf l.delim l.pieces = 0 := by
      rw [Table.setOf, hq, Option.getD_none]
    by_cases hdelim : ((σ.table l).trig (σ.table l).first).delim = none
    · have hat : setindexOf l (σ.table l) = (σ.table l).first := by
        simp [setindexOf, hof, hdelim]
      simp only [hat, ne_eq, not_true, if_false]
      obtain ⟨e, hchanges, hleaves⟩ := leaves_same hg hd hs
        (decide (¬(σ.table l).setOf l.delim l.pieces = 0)) i
        (fun d p h => absurd (hdelim.symm.trans h.2.1) (Option.some_ne_none d).symm)
        fun j hj => absurd (hq.symm.trans hj) (Option.some_ne_none j).symm
      exact ⟨_, e, rfl, hchanges, hleaves⟩
    · have hat : setindexOf l (σ.table l) = 0 := by
        simp [setindexOf, hof, hdelim]
      have hdisjoint : ∀ a ∈ (σ.table l).events, a ∉ l.setOnly.events := by
        rw [events_setOnly]
        rintro a ⟨j, u, hu, hon⟩ ⟨-, rfl⟩
        have hj := (hok.corresponds _ _ j).mpr ⟨u, hu, hon⟩
        exact absurd (hq.symm.trans hj) (Option.some_ne_none j).symm
      simp only [hat, hof, ne_eq, not_true, decide_false, Bool.not_false, if_true]
      rw [if_pos (hpos _ hmem)]
      exact ⟨_, _, rfl, (deleteKill_changes hg hd i hl).write i (.doesNotExist .SET),
        leaves_kill hl hg hd hdisjoint⟩

end Leaves

theorem delete_leaves (hl : LineOk l) (hg : GvnOk (σ.hasht l.gvn)) (i : Nat) :
    ∃ r e, delete i l σ = some r ∧ Changes l e σ r.state ∧ Leaves l e (σ.table l) := by
  cases hd : (σ.table l).hasData with
  | false =>
    refine ⟨⟨σ.write i l (.doesNotExist l.str), false, false⟩, σ.table l, ?_,
      (Changes.refl σ).write i (.doesNotExist l.str), ?_, .refl _⟩
    · rw [delete, hd]
      rfl
    · rw [hasData_false hd, events_none, Set.empty_sdiff]
  | true =>
    cases hs : l.setspecified with
    | true => exact leaves_set hl hg hd hs i
    | false =>
      have hdisjoint : ∀ a ∈ (σ.table l).events, a ∉ l.setOnly.events := by
        rw [events_noSet hs]
        exact fun a _ => Set.notMem_empty a
      refine ⟨⟨(deleteKill i l (σ.table l).first σ).1, false,
        (deleteKill i l (σ.table l).first σ).2⟩, _, ?_, deleteKill_changes hg hd i hl,
        leaves_kill hl hg hd hdisjoint⟩
      rw [delete, hd, hs]
      rfl

theorem events_changes (h : Changes l e σ σ') (he : e.events = (σ.table l).events \ l.events) :
    events σ'.hasht = events σ.hasht \ l.targets := by
  ext ⟨y, x, a⟩
  change a ∈ ((σ'.hasht y).xecute x).events ↔
    a ∈ ((σ.hasht y).xecute x).events ∧ ¬ ((y = l.gvn ∧ x = l.xecute) ∧ a ∈ l.events)
  rw [h y x]
  split_ifs with hq
  · rw [he, hq.1, hq.2]
    simp [State.table]
  · simp [hq]

theorem count_hasht {r : Result} : (count l r).hasht = r.state.hasht := by
  unfold count
  dsimp only
  split <;> rfl

theorem step_events (h : Consistent σ) (i : Nat) (line : Str) : ∃ σ', step σ i line = some σ' ∧
    Consistent σ' ∧ events σ'.hasht = (parse line).apply (events σ.hasht) := by
  obtain ⟨σ', hstep, hconsistent⟩ := step_consistent h i line
  refine ⟨σ', hstep, hconsistent, ?_⟩
  have hl := parse_ok line
  unfold step at hstep
  dsimp only at hstep
  cases hadd : (parse line).add with
  | true =>
    rw [hadd, if_pos rfl] at hstep
    obtain rfl := Option.some.inj hstep
    rw [count_hasht, add_hasht, Line.apply, hadd, if_pos rfl]
    exact events_addTo hl (h.gvns _)
  | false =>
    rw [hadd, if_neg Bool.false_ne_true] at hstep
    obtain ⟨r, e, hr, hchanges, hleaves⟩ := delete_leaves hl (h.gvns _) i
    rw [hr] at hstep
    obtain rfl := Option.some.inj hstep
    rw [count_hasht, Line.apply, hadd, if_neg Bool.false_ne_true]
    exact events_changes hchanges hleaves.events

theorem events_initial : events initial.hasht = ∅ := by
  ext ⟨y, x, a⟩
  change a ∈ Table.none.events ↔ _
  rw [events_none]
  exact iff_of_false (Set.notMem_empty a) (Set.notMem_empty _)

theorem loop_events (h : Consistent σ) (i : Nat) (lines : List Str) : ∃ σ',
    loop i lines σ = some σ' ∧ Consistent σ' ∧
      events σ'.hasht = (lines.map parse).foldl Line.apply (events σ.hasht) := by
  induction lines generalizing i σ with
  | nil => exact ⟨σ, rfl, h, rfl⟩
  | cons line lines ih =>
    obtain ⟨σ', hstep, h', hevents⟩ := step_events h i line
    obtain ⟨σ'', hloop, h'', hrest⟩ := ih h' (i + 1)
    refine ⟨σ'', ?_, h'', ?_⟩
    · rw [loop, hstep]
      exact hloop
    · rw [hrest, hevents]
      rfl

/-- However SETs and other commands are put together into triggers, the database reacts to what
the lines add and no later line deletes. -/
theorem gentrigload_events (ts : List TrigLine) : ∃ σ,
    gentrigload (ts.map TrigLine.text) = some σ ∧
      events σ.hasht = (ts.map fun t => parse t.text).foldl Line.apply ∅ := by
  obtain ⟨σ, hσ, -, hevents⟩ := loop_events initial_consistent 1 (ts.map TrigLine.text)
  rw [events_initial, List.map_map] at hevents
  exact ⟨σ, hσ, hevents⟩

end YdbTest.TriggerLoad
