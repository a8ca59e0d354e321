import YdbTest.TriggerMoves

namespace YdbTest.TriggerLoad

open MString

variable {e : Table} {i j k : Nat} {t u : Trig} {d p : Str} {l : Line} {σ σ' : State}

/-- What the parts of a line are: `S` is taken out of the commands, and there was a command. -/
structure LineOk (l : Line) : Prop where
  apart : S ∉ l.cmds
  some : l.setspecified = false → l.cmds.Nonempty

section Changes

variable (h : TableOk e)
include h

theorem setOn_unique (ht : e.index[i]? = some t) (hs : SetOn t d p) {j : Nat}
    (hj : e.sets[(d, p)]? = some j) : j = i := by
  have hi := (h.corresponds d p i).mpr ⟨t, ht, hs⟩
  exact (Option.some.inj (hi.symm.trans hj)).symm

theorem sets_kept (hi : e.index[i]? = some t) (hs : ∀ d p, SetOn u d p ↔ SetOn t d p) (d p : Str)
    (j : Nat) : e.sets[(d, p)]? = some j ↔
      if j = i then SetOn u d p else e.sets[(d, p)]? = some j := by
  by_cases hj : j = i
  · subst hj
    rw [if_pos rfl, h.corresponds, hs]
    constructor
    · rintro ⟨v, hv, hset⟩
      exact Option.some.inj (hi.symm.trans hv) ▸ hset
    · exact fun hset => ⟨t, hi, hset⟩
  · rw [if_neg hj]

theorem TableOk.kill (hf : e.index ≠ ∅) {cmds : Finset Str} (options : Finset Str) (hne : cmds.Nonempty)
    (hs : S ∈ cmds ↔ S ∈ (e.trig e.first).cmds) :
    TableOk (e.put e.first { e.trig e.first with cmds := cmds, options := options }) := by
  obtain ⟨hmem, hle⟩ := first_mem hf
  have hget := get_trig hmem
  have hold := h.trigs _ _ hget
  refine h.put (t := { e.trig e.first with cmds := cmds, options := options }) ?_ (Or.inl hmem) ?_ ?_
  · exact ⟨hne, fun hset => hold.carries (hs.mp hset), fun hset => hold.plain (fun h => hset (hs.mpr h))⟩
  · exact fun j hj hlt => absurd (hle j hj) (Nat.not_le.mpr hlt)
  · exact sets_kept h hget fun d p => and_congr_left fun _ => hs

theorem TableOk.set (hi : i ∈ e.index ∨ ∀ j ∈ e.index, j < i) (options : Finset Str)
    (hlow : ∀ j ∈ e.index, j < i → (e.trig i).cmds ⊆ {S})
    (hown : ∀ d' p', e.sets[(d', p')]? = some i → (d', p') = (d, p))
    (honly : ∀ j, e.sets[(d, p)]? = some j → j = i)
    {sets : Std.ExtHashMap (Str × Str) Nat}
    (hsets : ∀ q, sets[q]? = if q = (d, p) then some i else e.sets[q]?) :
    TableOk ⟨(e.put i { e.trig i with
      options := options
      cmds := insert S (e.trig i).cmds
      delim := some d
      pieces := some p }).index, sets⟩ := by
  apply h.put
  · exact ⟨Finset.insert_nonempty _ _, fun _ => ⟨rfl, rfl⟩,
      fun hs => absurd (Finset.mem_insert_self _ _) hs⟩
  · exact hi
  · intro j hj hlt
    apply Finset.Subset.antisymm
    · exact Finset.insert_subset (Finset.mem_singleton_self S) (hlow j hj hlt)
    · exact Finset.singleton_subset_iff.mpr (Finset.mem_insert_self _ _)
  · intro d' p' j
    have hon : SetOn { e.trig i with
        options := options
        cmds := insert S (e.trig i).cmds
        delim := some d
        pieces := some p } d' p' ↔ (d', p') = (d, p) := by
      simp [SetOn, eq_comm]
    rw [hsets, hon]
    by_cases hq : (d', p') = (d, p)
    · rw [if_pos hq]
      obtain ⟨rfl, rfl⟩ := Prod.mk.inj hq
      by_cases hj : j = i
      · simp [hj]
      · rw [if_neg hj]
        exact iff_of_false (fun he => hj (Option.some.inj he).symm) fun he => hj (honly j he)
    · rw [if_neg hq]
      by_cases hj : j = i
      · subst hj
        rw [if_pos rfl]
        exact iff_of_false (fun he => hq (hown d' p' he)) hq
      · rw [if_neg hj]

theorem TableOk.eraseKill (hi : e.index[i]? = some t) (hs : S ∉ t.cmds) :
    TableOk (e.put i Trig.none) := by
  refine h.erase fun d p j => ⟨fun hj => ⟨?_, hj⟩, fun hj => hj.2⟩
  rintro rfl
  obtain ⟨u, hu, hset⟩ := (h.corresponds d p j).mp hj
  exact hs (Option.some.inj (hi.symm.trans hu) ▸ hset.1)

theorem sets_erase (hi : e.index[i]? = some t) (hs : ∀ d' p', SetOn t d' p' → (d', p') = (d, p))
    (honly : ∀ j, e.sets[(d, p)]? = some j → j = i) (d' p' : Str) (j : Nat) :
    (e.sets.erase (d, p))[(d', p')]? = some j ↔ j ≠ i ∧ e.sets[(d', p')]? = some j := by
  rw [Std.ExtHashMap.getElem?_erase]
  by_cases hq : (d, p) = (d', p')
  · obtain ⟨rfl, rfl⟩ := Prod.mk.inj hq
    rw [if_pos (beq_self_eq_true _)]
    exact iff_of_false (Option.some_ne_none j).symm fun hj => hj.1 (honly j hj.2)
  · rw [if_neg (fun hb => hq (beq_iff_eq.mp hb))]
    refine ⟨fun hj => ⟨?_, hj⟩, fun hj => hj.2⟩
    rintro rfl
    obtain ⟨u, hu, hset⟩ := (h.corresponds d' p' j).mp hj
    exact hq (hs d' p' (Option.some.inj (hi.symm.trans hu) ▸ hset)).symm

theorem TableOk.eraseSet (hi : e.index[i]? = some t)
    (hs : ∀ d' p', SetOn t d' p' → (d', p') = (d, p))
    (honly : ∀ j, e.sets[(d, p)]? = some j → j = i) :
    TableOk ⟨(e.put i Trig.none).index, e.sets.erase (d, p)⟩ :=
  h.erase (sets_erase h hi hs honly)

theorem TableOk.dropSet (hf : e.index ≠ ∅) {cmds : Finset Str} (hne : cmds.Nonempty) (hS : S ∉ cmds)
    (hs : ∀ d' p', SetOn (e.trig e.first) d' p' → (d', p') = (d, p))
    (honly : ∀ j, e.sets[(d, p)]? = some j → j = e.first) :
    TableOk ⟨(e.put e.first { e.trig e.first with
      cmds := cmds, pieces := none, delim := none }).index, e.sets.erase (d, p)⟩ := by
  obtain ⟨hmem, hle⟩ := first_mem hf
  apply h.put
  · exact ⟨hne, fun h => absurd h hS, fun _ => ⟨rfl, rfl⟩⟩
  · exact Or.inl hmem
  · exact fun j hj hlt => absurd (hle j hj) (Nat.not_le.mpr hlt)
  · intro d' p' j
    rw [sets_erase h (get_trig hmem) hs honly]
    by_cases hj : j = e.first
    · simp [hj, SetOn]
    · simp [hj]

end Changes

theorem ne_none_of_cmds (h : t.cmds.Nonempty) : t ≠ Trig.none := by
  rintro rfl
  exact Finset.not_nonempty_empty h

theorem mem_put_self (hi : i ∈ e.index) (ht : t ≠ Trig.none) (j : Nat) :
    j ∈ (e.put i t).index ↔ j ∈ e.index := by
  rw [mem_put ht]
  constructor
  · rintro (rfl | hj)
    · exact hi
    · exact hj
  · exact Or.inr

theorem table_incr : (σ.incr l).table l = σ.table l := by
  rw [State.table, State.incr, setGvn_self, State.table]

theorem seqnum_incr : ((σ.incr l).hasht l.gvn).seqnum.getD 0 =
    (σ.hasht l.gvn).seqnum.getD 0 + 1 := by
  rw [State.incr, setGvn_self, Option.getD_some]

theorem hasData_false (hd : e.hasData = false) : e = Table.none := by
  obtain ⟨index, sets⟩ := e
  rw [Table.hasData, Bool.not_eq_false', Bool.and_eq_true] at hd
  rw [Table.none]
  exact congrArg₂ Table.mk (Std.ExtTreeMap.isEmpty_iff.mp hd.1) (Std.ExtHashMap.isEmpty_iff.mp hd.2)

section Add

variable {n : Int} {setindex killindex : Nat} {setmod killmod : Bool} (setexists : Bool)

theorem addSame_moves (h : Moves l n σ σ') (i : Nat) :
    Moves l n σ (addSame i l setindex setmod killmod σ') := by
  unfold addSame
  repeat' split
  all_goals exact h.say i _ rfl

theorem addSeparate_moves (h : Moves l n σ σ') (i : Nat) :
    Moves l (n - if setexists then 0 else 1) σ
      (addSeparate i l killindex setindex setexists setmod killmod σ') := by
  have hkill : Moves l n σ (if killmod then σ'.write i l (.modified .nonSET killindex)
      else if l.killspecified then σ'.write i l (.alreadyPresent .nonSET killindex) else σ') := by
    repeat' split
    · exact h.say i _ rfl
    · exact h.say i _ rfl
    · exact h
  unfold addSeparate
  cases setexists with
  | false => exact hkill.write i (.added .SET setindex)
  | true =>
    rw [if_pos rfl, sub_zero]
    cases setmod with
    | false => exact hkill.say i (.alreadyPresent .SET setindex) rfl
    | true => exact hkill.say i (.modified .SET setindex) rfl

variable (hl : LineOk l) (hg : GvnOk (σ.hasht l.gvn))
include hl hg

theorem addNew_moves (hd : (σ.table l).hasData = false) (i : Nat) :
    Moves l 0 σ (addNew i l σ).state := by
  have he := hasData_false hd
  have hempty : ∀ j, j ∉ Table.none.index := by simp [Table.none]
  have hput {t : Trig} (sets : Std.ExtHashMap (Str × Str) Nat) (ht : TrigOk t)
      (hsets : ∀ (d p : Str) (j : Nat), sets[(d, p)]? = some j ↔
        j = (σ.hasht l.gvn).seqnum.getD 0 + 1 ∧ SetOn t d p) :
      Moves l 1 σ ((σ.incr l).setTable l
        ⟨(Table.none.put ((σ.hasht l.gvn).seqnum.getD 0 + 1) t).index, sets⟩) := by
    apply incr_moves hg
    · apply tableOk_none.put ht (Or.inr fun j hj => absurd hj (hempty j))
        (fun j hj => absurd hj (hempty j))
      intro d p j
      rw [hsets]
      by_cases hj : j = (σ.hasht l.gvn).seqnum.getD 0 + 1
      · simp [hj]
      · simp [hj, Table.none]
    · intro j
      rw [mem_put ht.ne_none, he]
  have htrig : Table.none.trig ((σ.hasht l.gvn).seqnum.getD 0 + 1) = Trig.none := by
    simp [Table.trig, Table.none]
  unfold addNew
  simp only [table_incr, seqnum_incr, he, htrig]
  by_cases hs : l.setspecified
  · have ht : TrigOk { Trig.none with
        options := Trig.none.options ∪ l.options
        cmds := insert S (Trig.none.cmds ∪ l.cmds)
        delim := some l.delim
        pieces := some l.pieces } :=
      ⟨Finset.insert_nonempty _ _, fun _ => ⟨rfl, rfl⟩,
        fun h => absurd (Finset.mem_insert_self _ _) h⟩
    have hm := hput (Table.none.sets.insert (l.delim, l.pieces)
        ((σ.hasht l.gvn).seqnum.getD 0 + 1)) ht (by
      intro d p j
      rw [Std.ExtHashMap.getElem?_insert]
      by_cases hq : (l.delim, l.pieces) = (d, p)
      · obtain ⟨rfl, rfl⟩ := Prod.mk.inj hq
        simp [SetOn, eq_comm]
      · rw [if_neg (fun hb => hq (beq_iff_eq.mp hb))]
        refine iff_of_false (by simp [Table.none]) fun hj => hq ?_
        simpa [SetOn] using hj.2.2)
    rw [if_pos hs]
    split
    · exact hm.write i (.added .both _)
    · exact hm.write i (.added .SET _)
  · have hne := hl.some (Bool.eq_false_of_not_eq_true hs)
    have ht : TrigOk { Trig.none with
        options := Trig.none.options ∪ l.options
        cmds := Trig.none.cmds ∪ l.cmds } := by
      refine ⟨?_, fun hS => ?_, fun _ => ⟨rfl, rfl⟩⟩
      · exact hne.mono Finset.subset_union_right
      · simp [Trig.none, hl.apart] at hS
    have hm := hput Table.none.sets ht (by
      intro d p j
      refine iff_of_false (by simp [Table.none]) fun hj => ?_
      have := hj.2.2.1
      simp [Trig.none] at this)
    rw [if_neg hs]
    exact hm.write i (.added .nonSET _)

theorem addKill_moves (hd : (σ.table l).hasData = true) (i : Nat) :
    Moves l 0 σ (addKill i l σ).state := by
  have hok : TableOk (σ.table l) := hg.tables l.xecute
  have hf := index_ne_empty hok hd
  have hmem := (first_mem hf).1
  have hold := hok.trigs _ _ (get_trig hmem)
  have hcmds : (((σ.table l).trig (σ.table l).first).cmds ∪ l.cmds).Nonempty :=
    hold.commands.mono Finset.subset_union_left
  have hput := hok.kill hf l.options hcmds (by rw [Finset.mem_union, or_iff_left hl.apart])
  have hm := setTable_moves hg hput (mem_put_self hmem (ne_none_of_cmds hcmds))
  unfold addKill
  simp only []
  split
  · exact hm.say i (.modified .nonSET _) rfl
  · exact hm.say i (.alreadyPresent .nonSET _) rfl

omit hl hg in
theorem addSetAt_state (killindex setindex i : Nat) (σ : State) : ∃ setmod killmod,
    (addSetAt i l killindex setindex setexists σ).state =
      if killindex ≠ setindex then
        addSeparate i l killindex setindex setexists setmod killmod (σ.setTable l
          (setPart l setindex (mergeCmds l killindex (withSet l setindex setexists (σ.table l)))))
      else addSame i l setindex setmod killmod (σ.setTable l
        (setPart l setindex (mergeCmds l killindex (withSet l setindex setexists (σ.table l))))) := by
  unfold addSetAt
  by_cases hne : killindex ≠ setindex
  · simp only [if_pos hne]
    exact ⟨_, _, rfl⟩
  · simp only [if_neg hne]
    exact ⟨_, _, rfl⟩

theorem mergeCmds_kept (hd : (σ.table l).hasData = true) :
    TableOk (mergeCmds l (σ.table l).first (σ.table l)) ∧
      ∀ j, j ∈ (mergeCmds l (σ.table l).first (σ.table l)).index ↔ j ∈ (σ.table l).index := by
  have hok : TableOk (σ.table l) := hg.tables l.xecute
  have hf := index_ne_empty hok hd
  have hmem := (first_mem hf).1
  have hold := hok.trigs _ _ (get_trig hmem)
  have hcmds : (((σ.table l).trig (σ.table l).first).cmds ∪ l.cmds).Nonempty :=
    hold.commands.mono Finset.subset_union_left
  constructor
  · exact hok.kill hf _ hcmds (by rw [Finset.mem_union, or_iff_left hl.apart])
  · exact mem_put_self hmem (ne_none_of_cmds hcmds)

/-- The table after a SET has been added under `setindex`, which is the index it has, the one of
the first trigger, or the next number. -/
theorem setPart_ok (hd : (σ.table l).hasData = true)
    (hi : setindex ∈ (σ.table l).index ∨ ∀ j ∈ (σ.table l).index, j < setindex)
    (hown : ∀ d p, (σ.table l).sets[(d, p)]? = some setindex → (d, p) = (l.delim, l.pieces))
    (hset : (σ.table l).sets[(l.delim, l.pieces)]? = if setexists then some setindex else none) :
    TableOk (setPart l setindex (mergeCmds l (σ.table l).first
      (withSet l setindex setexists (σ.table l)))) := by
  obtain ⟨hkill, hkeys⟩ := mergeCmds_kept hl hg hd
  have hi' : setindex ∈ (mergeCmds l (σ.table l).first (σ.table l)).index ∨
      ∀ j ∈ (mergeCmds l (σ.table l).first (σ.table l)).index, j < setindex := by
    simp only [hkeys]
    exact hi
  have hsets : ∀ q, (withSet l setindex setexists (σ.table l)).sets[q]? =
      if q = (l.delim, l.pieces) then some setindex else (σ.table l).sets[q]? := by
    intro q
    cases setexists with
    | true =>
      by_cases hq : q = (l.delim, l.pieces)
      · rw [if_pos hq, hq]
        exact hset
      · rw [if_neg hq]
        rfl
    | false =>
      change ((σ.table l).sets.insert _ _)[q]? = _
      rw [Std.ExtHashMap.getElem?_insert]
      by_cases hq : q = (l.delim, l.pieces)
      · rw [if_pos hq, if_pos (beq_iff_eq.mpr hq.symm)]
      · rw [if_neg hq, if_neg fun hb => hq (beq_iff_eq.mp hb).symm]
  have h := hkill.set hi' l.options ?_ hown ?_ hsets
  · cases setexists with
    | true => exact h
    | false => exact h
  · intro j hj hlt
    by_cases hs : setindex ∈ (mergeCmds l (σ.table l).first (σ.table l)).index
    · exact (hkill.lowest _ _ (get_trig hs) j hj hlt).subset
    · have hnone : (mergeCmds l (σ.table l).first (σ.table l)).trig setindex = Trig.none := by
        rw [Table.trig, Std.ExtTreeMap.getElem?_eq_none hs, Option.getD_none]
      rw [hnone]
      exact Finset.empty_subset _
  · intro j hj
    have hj := hset.symm.trans hj
    cases setexists with
    | true => exact (Option.some.inj hj).symm
    | false => exact absurd hj (Option.some_ne_none j).symm

theorem mem_setPart (hd : (σ.table l).hasData = true) (j : Nat) :
    j ∈ (setPart l setindex (mergeCmds l (σ.table l).first
      (withSet l setindex setexists (σ.table l)))).index ↔ j = setindex ∨ j ∈ (σ.table l).index := by
  have hkeys := (mergeCmds_kept hl hg hd).2 j
  rw [← hkeys]
  cases setexists with
  | true => exact mem_put (ne_none_of_cmds (Finset.insert_nonempty _ _))
  | false => exact mem_put (ne_none_of_cmds (Finset.insert_nonempty _ _))

theorem addSetAt_moves (hd : (σ.table l).hasData = true)
    (hi : setindex ∈ (σ.table l).index)
    (hown : ∀ d p, (σ.table l).sets[(d, p)]? = some setindex → (d, p) = (l.delim, l.pieces))
    (hset : (σ.table l).sets[(l.delim, l.pieces)]? = if setexists then some setindex else none)
    (hex : setexists = true ∨ (σ.table l).first = setindex) (i : Nat) :
    Moves l 0 σ (addSetAt i l (σ.table l).first setindex setexists σ).state := by
  have hm := setTable_moves hg (setPart_ok setexists hl hg hd (Or.inl hi) hown hset) (by
    intro j
    rw [mem_setPart setexists hl hg hd]
    exact or_iff_right_of_imp fun hj => hj ▸ hi)
  obtain ⟨setmod, killmod, hstate⟩ := addSetAt_state (l := l) setexists (σ.table l).first setindex i σ
  rw [hstate]
  split
  · rename_i hne
    obtain rfl := hex.resolve_right hne
    exact addSeparate_moves true hm i
  · exact addSame_moves hm i

theorem addSetAt_incr (hd : (σ.table l).hasData = true)
    (hset : (σ.table l).sets[(l.delim, l.pieces)]? = none) (i : Nat) :
    Moves l 0 σ (addSetAt i l (σ.table l).first (((σ.incr l).hasht l.gvn).seqnum.getD 0) false
      (σ.incr l)).state := by
  have hlt : ∀ j ∈ (σ.table l).index, j < (σ.hasht l.gvn).seqnum.getD 0 + 1 := fun j hj =>
    Nat.lt_succ_of_le (hg.numbered l.xecute j hj).2
  have hok : TableOk (σ.table l) := hg.tables l.xecute
  have hfirst := hlt _ (first_mem (index_ne_empty hok hd)).1
  have hown : ∀ d p, (σ.table l).sets[(d, p)]? = some ((σ.hasht l.gvn).seqnum.getD 0 + 1) →
      (d, p) = (l.delim, l.pieces) := by
    intro d p hs
    obtain ⟨t, ht, -⟩ := (hok.corresponds d p _).mp hs
    exact absurd (hlt _ (mem_index.mpr ⟨t, ht⟩)) (Nat.lt_irrefl _)
  have hm := incr_moves hg (setPart_ok false hl hg hd (Or.inr hlt) hown hset)
    (mem_setPart false hl hg hd)
  obtain ⟨setmod, killmod, hstate⟩ := addSetAt_state (l := l) false (σ.table l).first
    ((σ.hasht l.gvn).seqnum.getD 0 + 1) i (σ.incr l)
  rw [seqnum_incr, hstate, table_incr, if_pos (Nat.ne_of_lt hfirst)]
  exact addSeparate_moves false hm i

theorem addSet_moves (hd : (σ.table l).hasData = true) (i : Nat) :
    Moves l 0 σ (addSet i l σ).state := by
  have hok : TableOk (σ.table l) := hg.tables l.xecute
  obtain ⟨hmem, -⟩ := first_mem (index_ne_empty hok hd)
  have hpos : ∀ j ∈ (σ.table l).index, j ≠ 0 := fun j hj =>
    Nat.ne_of_gt (hg.numbered l.xecute j hj).1
  cases hset : (σ.table l).sets[(l.delim, l.pieces)]? with
  | some k =>
    obtain ⟨t, ht, hon⟩ := (hok.corresponds _ _ _).mp hset
    have hk : k ∈ (σ.table l).index := mem_index.mpr ⟨t, ht⟩
    have hof : (σ.table l).setOf l.delim l.pieces = k := by
      rw [Table.setOf, hset, Option.getD_some]
    have hindex : setindexOf l (σ.table l) = k := by simp [setindexOf, hof, hpos k hk]
    have hown : ∀ d p, (σ.table l).sets[(d, p)]? = some k → (d, p) = (l.delim, l.pieces) := by
      intro d p hs
      obtain ⟨u, hu, hon'⟩ := (hok.corresponds _ _ _).mp hs
      obtain rfl := Option.some.inj (ht.symm.trans hu)
      exact Prod.ext (Option.some.inj (hon'.2.1.symm.trans hon.2.1))
        (Option.some.inj (hon'.2.2.symm.trans hon.2.2))
    rw [addSet, hindex, hof]
    simp only [ne_eq, hpos k hk, not_false_iff, decide_true]
    exact addSetAt_moves true hl hg hd hk hown hset (Or.inl rfl) i
  | none =>
    have hof : (σ.table l).setOf l.delim l.pieces = 0 := by
      rw [Table.setOf, hset, Option.getD_none]
    by_cases hdel : ((σ.table l).trig (σ.table l).first).delim = none
    · have hindex : setindexOf l (σ.table l) = (σ.table l).first := by
        simp [setindexOf, hof, hdel]
      have hown : ∀ d p, (σ.table l).sets[(d, p)]? = some (σ.table l).first →
          (d, p) = (l.delim, l.pieces) := by
        intro d p hs
        obtain ⟨u, hu, hon⟩ := (hok.corresponds _ _ _).mp hs
        rw [trig_of_get hu, hon.2.1] at hdel
        exact absurd hdel (Option.some_ne_none d)
      rw [addSet, hindex, hof]
      simp only [if_neg (hpos _ hmem), ne_eq, not_true, decide_false]
      exact addSetAt_moves false hl hg hd hmem hown hset (Or.inr rfl) i
    · have hindex : setindexOf l (σ.table l) = 0 := by
        simp [setindexOf, hof, hdel]
      rw [addSet, hindex, hof]
      simp only [if_true, ne_eq, not_true, decide_false]
      exact addSetAt_incr hl hg hd hset i

end Add

section Delete

theorem table_setTable : (σ.setTable l e).table l = e := by
  rw [State.table, State.setTable, setGvn_self]
  exact Function.update_self _ _ _

theorem table_write {msg : Msg} : (σ.write i l msg).table l = σ.table l := by
  rw [State.table, write_hasht, State.table]

theorem killSet_setTable : killSet l (σ.setTable l e) =
    σ.setTable l { e with sets := e.sets.erase (l.delim, l.pieces) } := by
  rw [killSet, table_setTable]
  simp [State.setTable, State.setGvn]

/-- `kill hasht(gvn,xecute,delim,pieces)` in the node of the global. -/
def Gvn.killSet (l : Line) (g : Gvn) : Gvn := g.update l.xecute
  { g.xecute l.xecute with sets := (g.xecute l.xecute).sets.erase (l.delim, l.pieces) }

theorem killSet_setGvn (g : Gvn) : killSet l (σ.setGvn l g) = σ.setGvn l (g.killSet l) := by
  rw [killSet, State.table, setGvn_self, State.setTable, setGvn_self]
  simp [State.setGvn, Gvn.killSet, Gvn.update]

theorem decr_setTable : (σ.setTable l e).decr l =
    σ.setGvn l (hashtdecrement ((σ.hasht l.gvn).update l.xecute e)) := by
  rw [State.decr, State.setTable, setGvn_self]
  simp [State.setGvn, Gvn.update]

theorem killSet_none : Gvn.none.killSet l = Gvn.none := by
  have hsets : Table.none.sets.erase (l.delim, l.pieces) = Table.none.sets :=
    Std.ExtHashMap.erase_empty
  have htable : ({ Table.none with sets := Table.none.sets.erase (l.delim, l.pieces) } : Table) =
      Table.none := by rw [hsets]
  exact congrArg (Gvn.mk none none)
    ((congrArg (Function.update _ l.xecute) htable).trans (Function.update_eq_self _ _))

theorem killSet_decr : killSet l ((σ.setTable l e).decr l) =
    (σ.setTable l { e with sets := e.sets.erase (l.delim, l.pieces) }).decr l := by
  rw [decr_setTable, decr_setTable, killSet_setGvn]
  congr 1
  unfold hashtdecrement
  change Gvn.killSet l (if (σ.hasht l.gvn).tncount.getD 0 - 1 = 0 then _ else _) =
    if (σ.hasht l.gvn).tncount.getD 0 - 1 = 0 then _ else _
  split
  · exact killSet_none
  · simp [Gvn.killSet, Gvn.update]

variable (hl : LineOk l) (hg : GvnOk (σ.hasht l.gvn)) (hd : (σ.table l).hasData = true)
include hl hg hd

theorem deleteKill_spec (i : Nat) : Moves l 0 σ (deleteKill i l (σ.table l).first σ).1 ∧
    ((deleteKill i l (σ.table l).first σ).1.table l).sets = (σ.table l).sets ∧
    ∀ j, j ≠ (σ.table l).first → ((deleteKill i l (σ.table l).first σ).1.table l).index[j]? =
      (σ.table l).index[j]? := by
  have hok : TableOk (σ.table l) := hg.tables l.xecute
  have hf := index_ne_empty hok hd
  have hmem := (first_mem hf).1
  have hfirst := get_trig hmem
  have hS : S ∉ ((σ.table l).trig (σ.table l).first).cmds ∩ l.cmds := fun h =>
    hl.apart (Finset.mem_inter.mp h).2
  unfold deleteKill computediff
  simp only []
  split
  · split
    · rename_i hrest
      have hput := hok.kill hf ((σ.table l).trig (σ.table l).first).options hrest
        (by rw [Finset.mem_sdiff, and_iff_left hS])
      have hne := ne_none_of_cmds (t := { (σ.table l).trig (σ.table l).first with
        cmds := ((σ.table l).trig (σ.table l).first).cmds \
          (((σ.table l).trig (σ.table l).first).cmds ∩ l.cmds) }) hrest
      have hm := setTable_moves hg hput (mem_put_self hmem hne)
      refine ⟨hm.say i (.modified .nonSET _) rfl, ?_, ?_⟩
      · rw [table_write, table_setTable]
        rfl
      · intro j hj
        rw [table_write, table_setTable, index_put hne, if_neg hj]
    · rename_i hrest
      have hnot : S ∉ ((σ.table l).trig (σ.table l).first).cmds := fun h =>
        hrest ⟨S, Finset.mem_sdiff.mpr ⟨h, hS⟩⟩
      obtain ⟨hm, htable⟩ := decr_moves hg (hok.eraseKill hfirst hnot) hmem fun j => mem_erase
      refine ⟨hm.write i (.deleted .nonSET _), ?_, ?_⟩
      · rw [table_write, htable]
        rfl
      · intro j hj
        rw [table_write, htable, index_erase, if_neg hj]
  · split
    · exact ⟨(Moves.refl hg).say i (.notPresent .nonSET _) rfl, by rw [table_write],
        fun j _ => by rw [table_write]⟩
    · exact ⟨Moves.refl hg, rfl, fun _ _ => rfl⟩

omit hl hd in
theorem deleteSet_spec {setindex : Nat} (ht : (σ.table l).index[setindex]? = some t)
    (hc : t.cmds = {S}) (hon : SetOn t l.delim l.pieces) (i : Nat) :
    ∃ σ', deleteSet i l setindex σ = some σ' ∧ Moves l 0 σ σ' := by
  have hok : TableOk (σ.table l) := hg.tables l.xecute
  have hmem : setindex ∈ (σ.table l).index := mem_index.mpr ⟨t, ht⟩
  have hcommon : (computediff {S} {S}).common = {S} := Finset.inter_self _
  have hs : ∀ d p, SetOn t d p → (d, p) = (l.delim, l.pieces) := fun d p h =>
    Prod.ext (Option.some.inj (h.2.1.symm.trans hon.2.1)) (Option.some.inj (h.2.2.symm.trans hon.2.2))
  obtain ⟨hm, -⟩ := decr_moves hg (hok.eraseSet ht hs fun j => setOn_unique hok ht hon) hmem
    fun j => mem_erase
  have hm := hm.write i (.deleted .SET setindex)
  refine ⟨_, ?_, hm⟩
  unfold deleteSet
  simp only [trig_of_get ht, hc, hcommon, Finset.singleton_nonempty, not_true_eq_false, if_false,
    Finset.sdiff_self, Finset.not_nonempty_empty, killSet_decr]
  rfl

omit hl in
theorem deleteSame_moves {setexists : Bool} (i : Nat)
    (hs : ∀ d p, SetOn ((σ.table l).trig (σ.table l).first) d p → (d, p) = (l.delim, l.pieces))
    (honly : ∀ j, (σ.table l).sets[(l.delim, l.pieces)]? = some j → j = (σ.table l).first) :
    Moves l 0 σ (deleteSame i l (σ.table l).first setexists σ).state := by
  have hok : TableOk (σ.table l) := hg.tables l.xecute
  have hf := index_ne_empty hok hd
  have hmem := (first_mem hf).1
  have hfirst := get_trig hmem
  unfold deleteSame computediff
  simp only []
  split
  · split
    · rename_i hrest
      have hput := hok.dropSet hf hrest (by simp) hs honly
      have hne := ne_none_of_cmds (t := { (σ.table l).trig (σ.table l).first with
        cmds := ((σ.table l).trig (σ.table l).first).cmds \
          (((σ.table l).trig (σ.table l).first).cmds ∩ insert S l.cmds), pieces := none,
        delim := none }) hrest
      have hm := (Moves.refl hg).say i (.modified l.str (σ.table l).first) rfl
      have hm' := setTable_moves hm.gvn hput (mem_put_self hmem hne)
      rw [killSet_setTable]
      exact hm.trans hm'
    · have hm := (decr_moves hg (hok.eraseSet hfirst hs honly) hmem fun j => mem_erase).1
      rw [killSet_decr]
      exact hm.write i (.deleted l.str _)
  · split
    · exact (Moves.refl hg).say i (.modified .SET _) rfl
    · exact (Moves.refl hg).say i (.notPresent _ _) rfl

theorem deleteSet_of (hset : l.setspecified = true) (i : Nat) :
    ∃ r, delete i l σ = some r ∧ Moves l 0 σ r.state := by
  have hok : TableOk (σ.table l) := hg.tables l.xecute
  obtain ⟨hmem, hle⟩ := first_mem (index_ne_empty hok hd)
  have hfirst := get_trig hmem
  obtain ⟨hkill, hsets, hindex⟩ := deleteKill_spec hl hg hd i
  have hpos : ∀ j ∈ (σ.table l).index, j ≠ 0 := fun j hj =>
    Nat.ne_of_gt (hg.numbered l.xecute j hj).1
  unfold delete
  simp only [hd, if_true, hset]
  cases hq : (σ.table l).sets[(l.delim, l.pieces)]? with
  | some k =>
    obtain ⟨t, ht, hon⟩ := (hok.corresponds _ _ _).mp hq
    have hk : k ∈ (σ.table l).index := mem_index.mpr ⟨t, ht⟩
    have hof : (σ.table l).setOf l.delim l.pieces = k := by
      rw [Table.setOf, hq, Option.getD_some]
    have hat : setindexOf l (σ.table l) = k := by simp [setindexOf, hof, hpos k hk]
    simp only [hat, hof, ne_eq, hpos k hk, not_false_iff, decide_true]
    by_cases hne : (σ.table l).first = k
    · rw [if_neg (not_not.mpr hne)]
      refine ⟨_, rfl, deleteSame_moves hg hd i ?_ ?_⟩
      · intro d p h
        rw [hne, trig_of_get ht] at h
        exact Prod.ext (Option.some.inj (h.2.1.symm.trans hon.2.1))
          (Option.some.inj (h.2.2.symm.trans hon.2.2))
      · intro j hj
        exact (Option.some.inj (hj.symm.trans hq)).trans hne.symm
    · rw [if_pos hne]
      have hlt : (σ.table l).first < k := Nat.lt_of_le_of_ne (hle k hk) hne
      have hc := hok.lowest k t ht _ hmem hlt
      obtain ⟨σ', hσ', hm⟩ := deleteSet_spec hkill.gvn ((hindex k (Ne.symm hne)).trans ht) hc hon i
      refine ⟨⟨σ', true, (deleteKill i l (σ.table l).first σ).2⟩, ?_, hkill.trans hm⟩
      simp only [Bool.not_true, Bool.false_eq_true, if_false, hσ']
      rfl
  | none =>
    have hof : (σ.table l).setOf l.delim l.pieces = 0 := by
      rw [Table.setOf, hq, Option.getD_none]
    by_cases hdel : ((σ.table l).trig (σ.table l).first).delim = none
    · have hat : setindexOf l (σ.table l) = (σ.table l).first := by
        simp [setindexOf, hof, hdel]
      simp only [hat, ne_eq, not_true, if_false]
      refine ⟨_, rfl, deleteSame_moves hg hd i ?_ ?_⟩
      · intro d p h
        exact absurd (hdel.symm.trans h.2.1) (Option.some_ne_none d).symm
      · intro j hj
        exact absurd (hq.symm.trans hj) (Option.some_ne_none j).symm
    · have hat : setindexOf l (σ.table l) = 0 := by
        simp [setindexOf, hof, hdel]
      simp only [hat, hof, ne_eq, not_true, decide_false, Bool.not_false, if_true]
      rw [if_pos (hpos _ hmem)]
      exact ⟨_, rfl, hkill.say i (.doesNotExist .SET) rfl⟩

end Delete

theorem delete_moves (hl : LineOk l) (hg : GvnOk (σ.hasht l.gvn)) (i : Nat) :
    ∃ r, delete i l σ = some r ∧ Moves l 0 σ r.state := by
  cases hd : (σ.table l).hasData with
  | false =>
    refine ⟨⟨σ.write i l (.doesNotExist l.str), false, false⟩, ?_, ?_⟩
    · rw [delete, hd]
      rfl
    · exact (Moves.refl hg).say i (.doesNotExist l.str) rfl
  | true =>
    cases hset : l.setspecified with
    | true => exact deleteSet_of hl hg hd hset i
    | false =>
      refine ⟨⟨(deleteKill i l (σ.table l).first σ).1, false,
        (deleteKill i l (σ.table l).first σ).2⟩, ?_, (deleteKill_spec hl hg hd i).1⟩
      rw [delete, hd, hset]
      rfl

theorem add_moves (hl : LineOk l) (hg : GvnOk (σ.hasht l.gvn)) (i : Nat) :
    Moves l 0 σ (add i l σ).state := by
  unfold add
  cases hd : (σ.table l).hasData with
  | false => exact addNew_moves hl hg hd i
  | true =>
    rw [if_pos rfl]
    split
    · exact addSet_moves hl hg hd i
    · exact addKill_moves hl hg hd i

end YdbTest.TriggerLoad
