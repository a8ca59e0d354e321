import YdbTest.TriggerFile

namespace YdbTest.TriggerLoad

open MString

variable {e : Table} {i j : Nat} {t u : Trig} {l : Line} {g : Gvn} {σ : State}

def Gvn.incr (g : Gvn) : Gvn :=
  { g with seqnum := some (g.seqnum.getD 0 + 1), tncount := some (g.tncount.getD 0 + 1) }

/-- The table once the SET of a line is under `setindex`. -/
def setTable (l : Line) (setindex : Nat) (e : Table) : Table :=
  setPart l setindex (mergeCmds l e.first
    (withSet l setindex (decide (e.setOf l.delim l.pieces ≠ 0)) e))

def killTable (l : Line) (e : Table) : Table :=
  e.put e.first { e.trig e.first with
    options := l.options, cmds := (e.trig e.first).cmds ∪ l.cmds }

def newTable (l : Line) (killindex : Nat) (e : Table) : Table :=
  let t := { e.trig killindex with
    options := (e.trig killindex).options ∪ l.options
    cmds := (e.trig killindex).cmds ∪ l.cmds }
  if l.setspecified then
    ({ e with sets := e.sets.insert (l.delim, l.pieces) killindex } : Table).put killindex
      { t with cmds := insert S t.cmds, delim := some l.delim, pieces := some l.pieces }
  else e.put killindex t

def addGvn (l : Line) (g : Gvn) : Gvn :=
  let e := g.xecute l.xecute
  let next := g.seqnum.getD 0 + 1
  if e.hasData then
    if l.setspecified then
      if setindexOf l e = 0 then g.incr.update l.xecute (setTable l next e)
      else g.update l.xecute (setTable l (setindexOf l e) e)
    else g.update l.xecute (killTable l e)
  else g.incr.update l.xecute (newTable l next e)

theorem addSeparate_hasht (i killindex setindex : Nat) (setexists setmod killmod : Bool) :
    (addSeparate i l killindex setindex setexists setmod killmod σ).hasht = σ.hasht := by
  unfold addSeparate
  simp only
  split_ifs <;> simp only [write_hasht]

theorem addSame_hasht (i setindex : Nat) (setmod killmod : Bool) :
    (addSame i l setindex setmod killmod σ).hasht = σ.hasht := by
  unfold addSame
  split_ifs <;> simp only [write_hasht]

theorem addSetAt_hasht (i killindex setindex : Nat) (setexists : Bool) :
    (addSetAt i l killindex setindex setexists σ).state.hasht =
      (σ.setTable l (setPart l setindex (mergeCmds l killindex
        (withSet l setindex setexists (σ.table l))))).hasht := by
  obtain ⟨setmod, killmod, hstate⟩ := addSetAt_state (l := l) setexists killindex setindex i σ
  rw [hstate]
  split
  · rw [addSeparate_hasht]
  · rw [addSame_hasht]

theorem addNew_hasht (i : Nat) : (addNew i l σ).state.hasht =
    ((σ.incr l).setTable l
      (newTable l ((σ.hasht l.gvn).seqnum.getD 0 + 1) (σ.table l))).hasht := by
  unfold addNew newTable
  simp only [seqnum_incr, table_incr]
  split_ifs <;> simp only [write_hasht]

theorem addKill_hasht (i : Nat) :
    (addKill i l σ).state.hasht = (σ.setTable l (killTable l (σ.table l))).hasht := by
  unfold addKill killTable
  simp only
  split_ifs <;> simp only [write_hasht]

theorem incr_hasht : (σ.incr l).hasht l.gvn = (σ.hasht l.gvn).incr := setGvn_self _

theorem setTable_hasht : (σ.setTable l e).hasht =
    Function.update σ.hasht l.gvn ((σ.hasht l.gvn).update l.xecute e) := rfl

theorem incr_setTable_hasht : ((σ.incr l).setTable l e).hasht =
    Function.update σ.hasht l.gvn ((σ.hasht l.gvn).incr.update l.xecute e) := by
  rw [setTable_hasht, incr_hasht, State.incr, State.setGvn, Function.update_idem]

theorem add_hasht (i : Nat) (l : Line) (σ : State) : (add i l σ).state.hasht =
    Function.update σ.hasht l.gvn (addGvn l (σ.hasht l.gvn)) := by
  have htable : σ.table l = (σ.hasht l.gvn).xecute l.xecute := rfl
  unfold add addGvn
  simp only [← htable]
  cases hd : (σ.table l).hasData with
  | false =>
    simp only [Bool.false_eq_true, if_false]
    rw [addNew_hasht, incr_setTable_hasht]
  | true =>
    simp only [if_true]
    cases hs : l.setspecified with
    | false =>
      simp only [Bool.false_eq_true, if_false]
      rw [addKill_hasht, setTable_hasht]
    | true =>
      simp only [if_true]
      unfold addSet
      simp only
      by_cases hz : setindexOf l (σ.table l) = 0
      · rw [if_pos hz, if_pos hz, addSetAt_hasht, table_incr, seqnum_incr, incr_setTable_hasht]
        rfl
      · rw [if_neg hz, if_neg hz, addSetAt_hasht, setTable_hasht]
        rfl

def Line.others (l : Line) : Line := { l with setspecified := false, delim := [], pieces := [] }

def Line.setOnly (l : Line) : Line := { l with cmds := ∅ }

theorem put_put (hu : u ≠ Trig.none) (ht : t ≠ Trig.none) : (e.put i u).put i t = e.put i t := by
  have hindex : ((e.put i u).put i t).index = (e.put i t).index := by
    apply Std.ExtTreeMap.ext_getElem?
    intro j
    rw [index_put ht, index_put ht, index_put hu]
    by_cases hj : j = i
    · rw [if_pos hj, if_pos hj]
    · rw [if_neg hj, if_neg hj, if_neg hj]
  exact congrArg (Table.mk · e.sets) hindex

theorem trig_put (ht : t ≠ Trig.none) : (e.put i t).trig i = t :=
  trig_of_get (by rw [index_put ht, if_pos rfl])

theorem hasData_put (ht : t ≠ Trig.none) : (e.put i t).hasData = true := by
  have hmem : i ∈ (e.put i t).index := (mem_put ht).mpr (Or.inl rfl)
  have hne : (e.put i t).index.isEmpty = false := by
    rw [Std.ExtTreeMap.isEmpty_eq_false_iff]
    rintro hempty
    rw [hempty] at hmem
    exact Std.ExtTreeMap.not_mem_empty hmem
  rw [Table.hasData, hne]
  rfl

theorem first_of_least (hi : i ∈ e.index) (hle : ∀ j ∈ e.index, i ≤ j) : e.first = i := by
  have hne : e.index ≠ ∅ := by
    rintro hempty
    rw [hempty] at hi
    exact Std.ExtTreeMap.not_mem_empty hi
  obtain ⟨hmem, hfirst⟩ := first_mem hne
  exact Nat.le_antisymm (hfirst i hi) (hle _ hmem)

theorem first_put (hne : e.index ≠ ∅) (ht : t ≠ Trig.none) : (e.put e.first t).first = e.first := by
  obtain ⟨hmem, hle⟩ := first_mem hne
  refine first_of_least ((mem_put ht).mpr (Or.inl rfl)) fun j hj => ?_
  obtain rfl | hj := (mem_put ht).mp hj
  · exact le_rfl
  · exact hle j hj

theorem withSet_put (n : Nat) (setexists : Bool) :
    withSet l n setexists (e.put i t) = (withSet l n setexists e).put i t := by
  cases setexists <;> rfl

theorem trig_withSet (n : Nat) (setexists : Bool) :
    (withSet l n setexists e).trig i = e.trig i := by
  cases setexists <;> rfl

theorem setPart_put (hu : u ≠ Trig.none) : setPart l i (e.put i u) =
    e.put i { u with
      options := l.options
      cmds := insert S u.cmds
      delim := some l.delim
      pieces := some l.pieces } := by
  rw [setPart, trig_put hu]
  exact put_put hu (ne_none_of_cmds (Finset.insert_nonempty _ _))

def withOthers (l : Line) (t : Trig) (options : Finset Str) : Trig :=
  { t with options := options, cmds := t.cmds ∪ l.cmds }

theorem withOthers_ne_none (hk : l.cmds.Nonempty) (options : Finset Str) :
    withOthers l t options ≠ Trig.none :=
  ne_none_of_cmds (hk.mono Finset.subset_union_right)

theorem setTable_eq (n : Nat) : setTable l n e =
    setPart l n ((withSet l n (decide (e.setOf l.delim l.pieces ≠ 0)) e).put e.first
      (withOthers l (e.trig e.first) (e.trig e.first).options)) := by
  rw [setTable, mergeCmds, trig_withSet]
  rfl

theorem withOthers_setOnly :
    withOthers l.setOnly t t.options = t := by
  unfold withOthers
  rw [Line.setOnly, Finset.union_empty]

theorem setTable_split (hne : e.index ≠ ∅) (hk : l.cmds.Nonempty) (n : Nat)
    (ho : (e.trig e.first).options = l.options) :
    setTable l.setOnly n (killTable l.others e) = setTable l n e := by
  have hu := withOthers_ne_none (t := e.trig e.first) hk l.options
  have hkill : killTable l.others e = e.put e.first (withOthers l (e.trig e.first) l.options) := rfl
  have hsame : withOthers l.setOnly (withOthers l (e.trig e.first) l.options)
      (withOthers l (e.trig e.first) l.options).options =
        withOthers l (e.trig e.first) l.options := withOthers_setOnly
  rw [hkill, setTable_eq, setTable_eq, first_put hne hu, trig_put hu, withSet_put, hsame,
    put_put hu hu, ho]
  rfl

theorem setindexOf_kill (hne : e.index ≠ ∅) (hk : l.cmds.Nonempty) :
    setindexOf l.setOnly (killTable l.others e) = setindexOf l e := by
  have hu := withOthers_ne_none (t := e.trig e.first) hk l.options
  have hkill : killTable l.others e = e.put e.first (withOthers l (e.trig e.first) l.options) := rfl
  rw [hkill, setindexOf, first_put hne hu, trig_put hu]
  rfl

def newTrig (l : Line) : Trig := ⟨l.cmds, l.options, none, none⟩

theorem trig_none (n : Nat) : Table.none.trig n = Trig.none := by
  rw [Table.trig, Table.none, Std.ExtTreeMap.getElem?_empty]
  rfl

theorem newTable_others (n : Nat) :
    newTable l.others n Table.none = Table.none.put n (newTrig l) := by
  unfold newTable
  rw [trig_none]
  simp [Line.others, newTrig, Trig.none]

theorem newTable_set (hs : l.setspecified = true) (n : Nat) : newTable l n Table.none =
    (withSet l n false Table.none).put n
      ⟨insert S l.cmds, l.options, some l.delim, some l.pieces⟩ := by
  unfold newTable
  rw [trig_none, if_pos hs]
  simp [withSet, Trig.none]

theorem first_new (hk : l.cmds.Nonempty) (n : Nat) : (Table.none.put n (newTrig l)).first = n := by
  have ht : newTrig l ≠ Trig.none := ne_none_of_cmds hk
  refine first_of_least ((mem_put ht).mpr (Or.inl rfl)) fun j hj => ?_
  obtain rfl | hj := (mem_put ht).mp hj
  · exact le_rfl
  · exact absurd hj Std.ExtTreeMap.not_mem_empty

theorem setOf_new (n : Nat) (d p : Str) : (Table.none.put n (newTrig l)).setOf d p = 0 := by
  have hsets : (Table.none.put n (newTrig l)).sets = ∅ := rfl
  rw [Table.setOf, hsets, Std.ExtHashMap.getElem?_empty]
  rfl

theorem setindexOf_new (hk : l.cmds.Nonempty) (n : Nat) :
    setindexOf l.setOnly (Table.none.put n (newTrig l)) = n := by
  have ht : newTrig l ≠ Trig.none := ne_none_of_cmds hk
  rw [setindexOf, setOf_new, first_new hk, trig_put ht]
  rfl

theorem setTable_new (hs : l.setspecified = true) (hk : l.cmds.Nonempty) (n : Nat) :
    setTable l.setOnly n (Table.none.put n (newTrig l)) = newTable l n Table.none := by
  have ht : newTrig l ≠ Trig.none := ne_none_of_cmds hk
  have hsame : withOthers l.setOnly (newTrig l) (newTrig l).options = newTrig l :=
    withOthers_setOnly
  rw [setTable_eq, setOf_new, first_new hk, trig_put ht, withSet_put, hsame, put_put ht ht,
    setPart_put ht, newTable_set hs]
  rfl

theorem update_update {x : Str} {e' : Table} : (g.update x e).update x e' = g.update x e' := by
  unfold Gvn.update
  rw [Function.update_idem]

theorem addGvn_new (hd : (g.xecute l.xecute).hasData = false) : addGvn l g =
    g.incr.update l.xecute (newTable l (g.seqnum.getD 0 + 1) Table.none) := by
  rw [addGvn, hd, if_neg Bool.false_ne_true, hasData_false hd]

theorem addGvn_kill (hd : (g.xecute l.xecute).hasData = true) (hs : l.setspecified = false) :
    addGvn l g = g.update l.xecute (killTable l (g.xecute l.xecute)) := by
  rw [addGvn, hd, if_pos rfl, hs, if_neg Bool.false_ne_true]

theorem addGvn_set (hd : (g.xecute l.xecute).hasData = true) (hs : l.setspecified = true) :
    addGvn l g = if setindexOf l (g.xecute l.xecute) = 0 then
        g.incr.update l.xecute (setTable l (g.seqnum.getD 0 + 1) (g.xecute l.xecute))
      else g.update l.xecute
        (setTable l (setindexOf l (g.xecute l.xecute)) (g.xecute l.xecute)) := by
  rw [addGvn, hd, if_pos rfl, hs, if_pos rfl]

theorem addGvn_split (hg : GvnOk g) (hs : l.setspecified = true) (hk : l.cmds.Nonempty)
    (ho : (g.xecute l.xecute).hasData = true →
      ((g.xecute l.xecute).trig (g.xecute l.xecute).first).options = l.options) :
    addGvn l.setOnly (addGvn l.others g) = addGvn l g := by
  cases hd : (g.xecute l.xecute).hasData with
  | true =>
    have hne := index_ne_empty (hg.tables l.xecute) hd
    have hfirst : addGvn l.others g =
        g.update l.xecute (killTable l.others (g.xecute l.xecute)) := addGvn_kill hd rfl
    have htable : (addGvn l.others g).xecute l.setOnly.xecute =
        killTable l.others (g.xecute l.xecute) := by
      rw [hfirst]
      exact xecute_self
    have hdata : ((addGvn l.others g).xecute l.setOnly.xecute).hasData = true := by
      rw [htable]
      exact hasData_put (withOthers_ne_none (t := (g.xecute l.xecute).trig _) hk l.options)
    rw [addGvn_set hdata hs, addGvn_set hd hs, htable, setindexOf_kill hne hk,
      setTable_split hne hk _ (ho hd), setTable_split hne hk _ (ho hd), hfirst]
    congr 1
    · exact update_update (g := g.incr)
    · exact update_update
  | false =>
    have hfirst : addGvn l.others g = g.incr.update l.xecute
        (Table.none.put (g.seqnum.getD 0 + 1) (newTrig l)) := by
      rw [← newTable_others]
      exact addGvn_new (l := l.others) hd
    have htable : (addGvn l.others g).xecute l.setOnly.xecute =
        Table.none.put (g.seqnum.getD 0 + 1) (newTrig l) := by
      rw [hfirst]
      exact xecute_self
    have hdata : ((addGvn l.others g).xecute l.setOnly.xecute).hasData = true := by
      rw [htable]
      exact hasData_put (ne_none_of_cmds hk)
    rw [addGvn_set hdata hs, addGvn_new hd, htable, setindexOf_new hk,
      if_neg (Nat.succ_ne_zero _), setTable_new hs hk, hfirst]
    exact update_update

theorem addGvn_ok (hl : LineOk l) (hg : GvnOk g) : GvnOk (addGvn l g) := by
  have hgvn := (add_moves hl (σ := { initial with hasht := fun _ => g }) hg 0).gvn
  rw [add_hasht, Function.update_self] at hgvn
  exact hgvn

theorem addGvn_other {x : Str} (hx : x ≠ l.xecute) : (addGvn l g).xecute x = g.xecute x := by
  cases hd : (g.xecute l.xecute).hasData with
  | false =>
    rw [addGvn_new hd]
    exact xecute_other hx
  | true =>
    cases hs : l.setspecified with
    | false =>
      rw [addGvn_kill hd hs]
      exact xecute_other hx
    | true =>
      rw [addGvn_set hd hs]
      split
      · exact xecute_other hx
      · exact xecute_other hx

def Options (options : Finset Str) (e : Table) : Prop :=
  ∀ (i : Nat) (t : Trig), e.index[i]? = some t → t.options = options

variable {options : Finset Str}

theorem Options.put (h : Options options e) (ht : t.options = options) :
    Options options (e.put i t) := by
  intro j u hu
  by_cases hn : t = Trig.none
  · rw [hn, index_erase] at hu
    split at hu
    · cases hu
    · exact h j u hu
  · rw [index_put hn] at hu
    split at hu
    · exact Option.some.inj hu ▸ ht
    · exact h j u hu

theorem Options.first (h : Options options e) (hne : e.index ≠ ∅) :
    (e.trig e.first).options = options := h _ _ (get_trig (first_mem hne).1)

theorem Options.withSet (h : Options options e) (n : Nat) (setexists : Bool) :
    Options options (withSet l n setexists e) := by
  cases setexists
  · exact h
  · exact h

theorem Options.setPart (h : Options l.options e) (n : Nat) :
    Options l.options (setPart l n e) := by
  rw [TriggerLoad.setPart]
  exact h.put rfl

theorem Options.none : Options options Table.none := by
  intro i t h
  rw [Table.none, Std.ExtTreeMap.getElem?_empty] at h
  cases h

theorem addGvn_options (hg : GvnOk g) (h : Options l.options (g.xecute l.xecute)) :
    Options l.options ((addGvn l g).xecute l.xecute) := by
  cases hd : (g.xecute l.xecute).hasData with
  | false =>
    rw [addGvn_new hd, xecute_self]
    cases hs : l.setspecified with
    | false =>
      unfold newTable
      rw [hs, if_neg Bool.false_ne_true, trig_none]
      exact Options.none.put (Finset.empty_union _)
    | true =>
      rw [newTable_set hs]
      exact (Options.none.withSet _ _).put rfl
  | true =>
    have hfirst := h.first (index_ne_empty (hg.tables l.xecute) hd)
    have hset (n : Nat) : Options l.options (setTable l n (g.xecute l.xecute)) := by
      have hmerged : (withOthers l ((g.xecute l.xecute).trig (g.xecute l.xecute).first)
          ((g.xecute l.xecute).trig (g.xecute l.xecute).first).options).options = l.options := hfirst
      rw [setTable_eq]
      exact ((h.withSet n _).put hmerged).setPart n
    cases hs : l.setspecified with
    | false =>
      rw [addGvn_kill hd hs, xecute_self]
      exact h.put rfl
    | true =>
      rw [addGvn_set hd hs]
      split
      · rw [xecute_self]
        exact hset _
      · rw [xecute_self]
        exact hset _

/-- `hasht` after the addition of a line. -/
def addTo (hasht : Str → Gvn) (l : Line) : Str → Gvn :=
  Function.update hasht l.gvn (addGvn l (hasht l.gvn))

theorem addTo_ok {hasht : Str → Gvn} (hl : LineOk l) (h : ∀ g, GvnOk (hasht g)) (g : Str) :
    GvnOk (addTo hasht l g) := by
  by_cases hg : g = l.gvn
  · subst hg
    rw [addTo, Function.update_self]
    exact addGvn_ok hl (h _)
  · rw [addTo, Function.update_of_ne hg]
    exact h g

theorem addTo_options {hasht : Str → Gvn} {l' : Line} (h : ∀ g, GvnOk (hasht g))
    (ho : Options l'.options ((hasht l'.gvn).xecute l'.xecute))
    (hsame : l.gvn = l'.gvn → l.xecute = l'.xecute → l.options = l'.options) :
    Options l'.options ((addTo hasht l l'.gvn).xecute l'.xecute) := by
  by_cases hg : l'.gvn = l.gvn
  · rw [addTo, hg, Function.update_self]
    rw [hg] at ho
    by_cases hx : l'.xecute = l.xecute
    · rw [← hsame hg.symm hx.symm, hx] at ho
      rw [← hsame hg.symm hx.symm, hx]
      exact addGvn_options (h l.gvn) ho
    · rw [addGvn_other hx]
      exact ho
  · rw [addTo, Function.update_of_ne hg]
    exact ho

theorem addTo_split {hasht : Str → Gvn} (h : ∀ g, GvnOk (hasht g)) (hs : l.setspecified = true)
    (hk : l.cmds.Nonempty) (ho : Options l.options ((hasht l.gvn).xecute l.xecute)) :
    addTo (addTo hasht l.others) l.setOnly = addTo hasht l := by
  have hg : l.others.gvn = l.gvn := rfl
  have hg' : l.setOnly.gvn = l.gvn := rfl
  rw [addTo, addTo, addTo, hg, hg', Function.update_self, Function.update_idem,
    addGvn_split (h _) hs hk fun hd => ho.first (index_ne_empty ((h _).tables _) hd)]

theorem loop_adds (lines : List Str) (hadd : ∀ line ∈ lines, (parse line).add = true) (i : Nat)
    (σ : State) : ∃ σ', loop i lines σ = some σ' ∧
      σ'.hasht = (lines.map parse).foldl addTo σ.hasht := by
  induction lines generalizing i σ with
  | nil => exact ⟨σ, rfl, rfl⟩
  | cons line lines ih =>
    obtain ⟨hline, hadd⟩ := List.forall_mem_cons.mp hadd
    have hcount {l : Line} {r : Result} : (count l r).hasht = r.state.hasht := by
      unfold count
      dsimp only
      split <;> rfl
    have hstep : step σ i line = some (count (parse line) (add i (parse line) σ)) := by
      rw [step, hline, if_pos rfl]
    obtain ⟨σ', hloop, hσ'⟩ := ih hadd (i + 1) (count (parse line) (add i (parse line) σ))
    refine ⟨σ', ?_, ?_⟩
    · rw [loop, hstep]
      exact hloop
    · rw [hσ', hcount, add_hasht]
      rfl

end YdbTest.TriggerLoad
