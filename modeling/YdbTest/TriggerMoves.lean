import YdbTest.TriggerTable

namespace YdbTest.TriggerLoad

open MString

variable {e e' : Table} {i k : Nat} {x : Str} {g : Gvn} {l : Line} {σ σ' σ'' : State} {m n : Int}
  {msg : Msg}

def Gvn.triggers (g : Gvn) : Set (Str × Nat) := {q | q.2 ∈ (g.xecute q.1).index}

structure GvnOk (g : Gvn) : Prop where
  tables : ∀ x, TableOk (g.xecute x)
  finite : g.triggers.Finite
  count : g.tncount.getD 0 = g.triggers.ncard
  absent : g.tncount = none ↔ g.triggers = ∅
  numbered : ∀ x, ∀ i ∈ (g.xecute x).index, 1 ≤ i ∧ i ≤ g.seqnum.getD 0

theorem triggers_none : Gvn.none.triggers = ∅ := by
  rw [Set.eq_empty_iff_forall_notMem]
  rintro ⟨x, i⟩ h
  obtain ⟨t, ht⟩ := mem_index.mp h
  exact absurd ht (by simp [Gvn.none, Table.none])

theorem gvnOk_none : GvnOk Gvn.none := by
  refine ⟨fun x => tableOk_none, ?_, ?_, ?_, ?_⟩
  · rw [triggers_none]
    exact Set.finite_empty
  · rw [triggers_none, Set.ncard_empty]
    rfl
  · exact iff_of_true rfl triggers_none
  · intro x i h
    exact absurd (show (x, i) ∈ Gvn.none.triggers from h) (by rw [triggers_none]; exact id)

/-- The triggers after a change of the table under `x`. -/
def Gvn.update (g : Gvn) (x : Str) (e : Table) : Gvn :=
  { g with xecute := Function.update g.xecute x e }

theorem xecute_self : (g.update x e).xecute x = e := Function.update_self _ _ _

theorem xecute_other {y : Str} (hy : y ≠ x) : (g.update x e).xecute y = g.xecute y :=
  Function.update_of_ne hy _ _

theorem mem_update {q : Str × Nat} :
    q ∈ (g.update x e).triggers ↔ if q.1 = x then q.2 ∈ e.index else q ∈ g.triggers := by
  obtain ⟨y, i⟩ := q
  by_cases hy : y = x
  · subst hy
    simp [Gvn.triggers, Gvn.update]
  · simp [Gvn.triggers, Gvn.update, hy]

theorem triggers_same (h : ∀ i, i ∈ e.index ↔ i ∈ (g.xecute x).index) :
    (g.update x e).triggers = g.triggers := by
  ext ⟨y, i⟩
  rw [mem_update]
  by_cases hy : y = x
  · subst hy
    rw [if_pos rfl, h]
    rfl
  · rw [if_neg hy]

theorem triggers_insert (h : ∀ i, i ∈ e.index ↔ i = k ∨ i ∈ (g.xecute x).index) :
    (g.update x e).triggers = insert (x, k) g.triggers := by
  ext ⟨y, i⟩
  rw [mem_update, Set.mem_insert_iff, Prod.mk.injEq]
  by_cases hy : y = x
  · subst hy
    rw [if_pos rfl, h]
    simp [Gvn.triggers]
  · simp [hy]

theorem triggers_erase (h : ∀ i, i ∈ e.index ↔ i ≠ k ∧ i ∈ (g.xecute x).index) :
    (g.update x e).triggers = g.triggers \ {(x, k)} := by
  ext ⟨y, i⟩
  rw [mem_update, Set.mem_sdiff, Set.mem_singleton_iff, Prod.mk.injEq]
  by_cases hy : y = x
  · subst hy
    rw [if_pos rfl, h]
    simp [Gvn.triggers, and_comm]
  · simp [hy]

theorem tables_update (hg : ∀ x, TableOk (g.xecute x)) (he : TableOk e) (y : Str) :
    TableOk ((g.update x e).xecute y) := by
  by_cases hy : y = x
  · subst hy
    rw [xecute_self]
    exact he
  · rw [xecute_other hy]
    exact hg y

theorem GvnOk.same (hg : GvnOk g) (he : TableOk e)
    (h : ∀ i, i ∈ e.index ↔ i ∈ (g.xecute x).index) : GvnOk (g.update x e) := by
  have ht := triggers_same h
  refine ⟨tables_update hg.tables he, ht ▸ hg.finite, ?_, ?_, ?_⟩
  · rw [ht]
    exact hg.count
  · rw [ht]
    exact hg.absent
  · intro y i hi
    have hmem : (y, i) ∈ (g.update x e).triggers := hi
    rw [ht] at hmem
    exact hg.numbered y i hmem

theorem GvnOk.added (hg : GvnOk g) (he : TableOk e)
    (h : ∀ i, i ∈ e.index ↔ i = g.seqnum.getD 0 + 1 ∨ i ∈ (g.xecute x).index) :
    GvnOk { g.update x e with
      seqnum := some (g.seqnum.getD 0 + 1), tncount := some (g.tncount.getD 0 + 1) } := by
  have ht := triggers_insert h
  have hnew : (x, g.seqnum.getD 0 + 1) ∉ g.triggers := by
    intro hmem
    have := (hg.numbered x _ hmem).2
    omega
  have hcard : (insert (x, g.seqnum.getD 0 + 1) g.triggers).ncard = g.triggers.ncard + 1 :=
    Set.ncard_insert_of_notMem hnew hg.finite
  refine ⟨tables_update hg.tables he, ?_, ?_, ?_, ?_⟩
  · exact ht ▸ hg.finite.insert _
  · change g.tncount.getD 0 + 1 = ((g.update x e).triggers.ncard : Int)
    rw [ht, hcard, hg.count, Nat.cast_succ]
  · refine iff_of_false (Option.some_ne_none _) ?_
    change (g.update x e).triggers ≠ ∅
    rw [ht]
    exact (Set.insert_nonempty _ _).ne_empty
  · intro y i hi
    have hmem : (y, i) ∈ (g.update x e).triggers := hi
    rw [ht] at hmem
    change 1 ≤ i ∧ i ≤ g.seqnum.getD 0 + 1
    obtain hmem | hmem := hmem
    · have := (Prod.mk.inj hmem).2
      omega
    · have := hg.numbered y i hmem
      omega

theorem TableOk.eq_none (h : TableOk e) (hi : ∀ i, i ∉ e.index) : e = Table.none := by
  have hindex : e.index = ∅ := by
    apply Std.ExtTreeMap.ext_getElem?
    intro i
    rw [Std.ExtTreeMap.getElem?_empty, Option.eq_none_iff_forall_ne_some]
    exact fun t ht => hi i (mem_index.mpr ⟨t, ht⟩)
  have hd : e.hasData = false := by
    by_contra hd
    exact index_ne_empty h (Bool.eq_true_of_not_eq_false hd) hindex
  have hsets : e.sets = ∅ := by
    rw [Table.hasData, hindex] at hd
    exact Std.ExtHashMap.isEmpty_iff.mp (by simpa using hd)
  obtain ⟨index, sets⟩ := e
  rw [Table.none]
  exact congrArg₂ Table.mk hindex hsets

theorem hashtdecrement_spec (ht : ∀ x, TableOk (g.xecute x)) (hf : g.triggers.Finite)
    (hc : g.tncount.getD 0 = g.triggers.ncard + 1) :
    (hashtdecrement g).xecute = g.xecute ∧ (hashtdecrement g).tncount.getD 0 = g.triggers.ncard ∧
      ((hashtdecrement g).tncount = none ↔ g.triggers = ∅) ∧
      (g.triggers ≠ ∅ → (hashtdecrement g).seqnum = g.seqnum) := by
  rw [hashtdecrement, hc, add_sub_cancel_right]
  by_cases hz : g.triggers = ∅
  · have hzero : ((g.triggers.ncard : Nat) : Int) = 0 := by rw [hz, Set.ncard_empty]; rfl
    rw [if_pos hzero]
    refine ⟨?_, hzero.symm, iff_of_true rfl hz, fun h => absurd hz h⟩
    funext x
    refine ((ht x).eq_none ?_).symm
    intro i hi
    have hmem : (x, i) ∈ g.triggers := hi
    rw [hz] at hmem
    exact hmem
  · have hpos : ((g.triggers.ncard : Nat) : Int) ≠ 0 := by
      have := (Set.ncard_pos hf).mpr (Set.nonempty_iff_ne_empty.mpr hz)
      omega
    rw [if_neg hpos]
    exact ⟨rfl, rfl, iff_of_false (Option.some_ne_none _) hz, fun _ => rfl⟩

theorem GvnOk.erase (hg : GvnOk g) (he : TableOk e) (hk : k ∈ (g.xecute x).index)
    (h : ∀ i, i ∈ e.index ↔ i ≠ k ∧ i ∈ (g.xecute x).index) :
    GvnOk (hashtdecrement (g.update x e)) ∧
      (hashtdecrement (g.update x e)).xecute = (g.update x e).xecute ∧
      ((hashtdecrement (g.update x e)).triggers.ncard : Int) = g.triggers.ncard - 1 := by
  have ht := triggers_erase h
  have hmem : (x, k) ∈ g.triggers := hk
  have hcard : (g.triggers \ {(x, k)}).ncard + 1 = g.triggers.ncard :=
    Set.ncard_sdiff_singleton_add_one hmem hg.finite
  have hf : (g.update x e).triggers.Finite := ht ▸ hg.finite.sdiff
  have hc : (g.update x e).tncount.getD 0 = (g.update x e).triggers.ncard + 1 := by
    rw [ht]
    have := hg.count
    change g.tncount.getD 0 = _
    omega
  obtain ⟨hx, hcount, habsent, hseq⟩ :=
    hashtdecrement_spec (tables_update hg.tables he) hf hc
  have htr : (hashtdecrement (g.update x e)).triggers = (g.update x e).triggers := by
    rw [Gvn.triggers, hx, Gvn.triggers]
  refine ⟨⟨?_, htr ▸ hf, ?_, ?_, ?_⟩, hx, ?_⟩
  · intro y
    rw [hx]
    exact tables_update hg.tables he y
  · rw [htr, hcount]
  · rw [htr, habsent]
  · intro y i hi
    rw [hx] at hi
    have hold : (y, i) ∈ (g.update x e).triggers := hi
    have hne : (g.update x e).triggers ≠ ∅ := Set.nonempty_iff_ne_empty.mp ⟨_, hold⟩
    rw [hseq hne]
    rw [ht] at hold
    exact hg.numbered y i hold.1
  · rw [htr, ht]
    omega

/-- From `σ` to `σ'` only the line's global has changed, which is as it should be; `n` of its new
triggers are not yet counted as added, or have not been counted as deleted. -/
structure Moves (l : Line) (n : Int) (σ σ' : State) : Prop where
  others : ∀ g, g ≠ l.gvn → σ'.hasht g = σ.hasht g
  gvn : GvnOk (σ'.hasht l.gvn)
  balance : ((σ'.hasht l.gvn).triggers.ncard : Int) = (σ.hasht l.gvn).triggers.ncard +
    (σ'.added - σ.added) - (σ'.deleted - σ.deleted) + n

def Msg.delta : Msg → Int
  | .added _ _ => 1
  | .deleted _ _ => -1
  | _ => 0

@[simp] theorem write_hasht : (σ.write i l msg).hasht = σ.hasht := by
  cases msg <;> rfl

theorem write_counts (σ : State) (i : Nat) (l : Line) (msg : Msg) : 
    ((σ.write i l msg).added : Int) - (σ.write i l msg).deleted = σ.added - σ.deleted + msg.delta := by
  cases msg <;> simp [State.write, Msg.delta] <;> omega

theorem Moves.refl (hg : GvnOk (σ.hasht l.gvn)) : Moves l 0 σ σ :=
  ⟨fun _ _ => rfl, hg, by omega⟩

theorem Moves.trans (h : Moves l m σ σ') (h' : Moves l n σ' σ'') : Moves l (m + n) σ σ'' := by
  refine ⟨fun g hg => (h'.others g hg).trans (h.others g hg), h'.gvn, ?_⟩
  have h1 := h.balance
  have h2 := h'.balance
  omega

theorem Moves.write (h : Moves l n σ σ') (i : Nat) (msg : Msg) :
    Moves l (n - msg.delta) σ (σ'.write i l msg) := by
  have hc := write_counts σ' i l msg
  have hb := h.balance
  refine ⟨?_, ?_, ?_⟩
  · rw [write_hasht]
    exact h.others
  · rw [write_hasht]
    exact h.gvn
  · rw [write_hasht]
    omega

theorem Moves.say (h : Moves l n σ σ') (i : Nat) (msg : Msg) (hm : msg.delta = 0) :
    Moves l n σ (σ'.write i l msg) := by
  have := h.write i msg
  rwa [hm, sub_zero] at this

theorem setGvn_self (g : Gvn) : (σ.setGvn l g).hasht l.gvn = g := Function.update_self _ _ _

theorem setGvn_others {y : Str} (hy : y ≠ l.gvn) (g : Gvn) : (σ.setGvn l g).hasht y = σ.hasht y :=
  Function.update_of_ne hy _ _

theorem setTable_moves (hg : GvnOk (σ.hasht l.gvn)) (he : TableOk e)
    (h : ∀ i, i ∈ e.index ↔ i ∈ (σ.table l).index) : Moves l 0 σ (σ.setTable l e) := by
  have hself : (σ.setTable l e).hasht l.gvn = (σ.hasht l.gvn).update l.xecute e := setGvn_self _
  refine ⟨fun y hy => setGvn_others hy _, ?_, ?_⟩
  · rw [hself]
    exact hg.same he h
  · rw [hself, triggers_same h]
    simp [State.setTable, State.setGvn]

theorem incr_moves (hg : GvnOk (σ.hasht l.gvn)) (he : TableOk e)
    (h : ∀ i, i ∈ e.index ↔ i = (σ.hasht l.gvn).seqnum.getD 0 + 1 ∨ i ∈ (σ.table l).index) :
    Moves l 1 σ ((σ.incr l).setTable l e) := by
  have hself : ((σ.incr l).setTable l e).hasht l.gvn = { (σ.hasht l.gvn).update l.xecute e with
      seqnum := some ((σ.hasht l.gvn).seqnum.getD 0 + 1)
      tncount := some ((σ.hasht l.gvn).tncount.getD 0 + 1) } := by
    rw [State.setTable, setGvn_self, State.incr, setGvn_self]
    rfl
  have hgvn := hg.added he h
  refine ⟨?_, hself ▸ hgvn, ?_⟩
  · intro y hy
    rw [State.setTable, setGvn_others hy, State.incr, setGvn_others hy]
  · have hcount := hgvn.count
    rw [hself, ← hcount]
    have := hg.count
    simp only [Option.getD_some, State.setTable, State.setGvn, State.incr]
    omega

theorem decr_moves (hg : GvnOk (σ.hasht l.gvn)) (he : TableOk e) (hk : k ∈ (σ.table l).index)
    (h : ∀ i, i ∈ e.index ↔ i ≠ k ∧ i ∈ (σ.table l).index) :
    Moves l (-1) σ ((σ.setTable l e).decr l) ∧ ((σ.setTable l e).decr l).table l = e := by
  have hself : ((σ.setTable l e).decr l).hasht l.gvn =
      hashtdecrement ((σ.hasht l.gvn).update l.xecute e) := by
    rw [State.decr, setGvn_self, State.setTable, setGvn_self]
    rfl
  obtain ⟨hgvn, hx, hcard⟩ := hg.erase he hk h
  refine ⟨⟨?_, hself ▸ hgvn, ?_⟩, ?_⟩
  · intro y hy
    rw [State.decr, setGvn_others hy, State.setTable, setGvn_others hy]
  · rw [hself, hcard]
    simp [State.decr, State.setTable, State.setGvn]
    omega
  · rw [State.table, hself, hx, xecute_self]

end YdbTest.TriggerLoad
