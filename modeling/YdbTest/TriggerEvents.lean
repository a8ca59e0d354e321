import YdbTest.TriggerAdd

namespace YdbTest.TriggerLoad

open MString

/-- A command other than SET, or a SET with a delim and pieces. -/
inductive Event
  | command (c : Str)
  | set (delim pieces : Str)

def Trig.On (t : Trig) : Event → Prop
  | .command c => c ∈ t.cmds ∧ c ≠ S
  | .set d p => SetOn t d p

def Line.On (l : Line) : Event → Prop
  | .command c => c ∈ l.cmds
  | .set d p => l.setspecified = true ∧ d = l.delim ∧ p = l.pieces

/-- The events for which a table has a trigger. -/
def Table.events (e : Table) : Set Event :=
  {a | ∃ (i : Nat) (t : Trig), e.index[i]? = some t ∧ t.On a}

def Line.events (l : Line) : Set Event := {a | l.On a}

/-- The events, each with its global and the xecute string that is to be run. -/
def events (hasht : Str → Gvn) : Set (Str × Str × Event) :=
  {q | q.2.2 ∈ ((hasht q.1).xecute q.2.1).events}

def Line.targets (l : Line) : Set (Str × Str × Event) :=
  {q | (q.1 = l.gvn ∧ q.2.1 = l.xecute) ∧ q.2.2 ∈ l.events}

def Line.apply (s : Set (Str × Str × Event)) (l : Line) : Set (Str × Str × Event) :=
  if l.add then s ∪ l.targets else s \ l.targets

variable {e : Table} {i n : Nat} {t : Trig} {a : Event} {l : Line} {g : Gvn} {A : Set Event}
  {d p : Str}

theorem not_on_none : ¬ Trig.none.On a := by
  cases a with
  | command c => exact fun h => Finset.notMem_empty c h.1
  | set d p => exact fun h => Finset.notMem_empty S h.1

theorem mem_events_put : a ∈ (e.put i t).events ↔
    t.On a ∨ ∃ (j : Nat) (u : Trig), j ≠ i ∧ e.index[j]? = some u ∧ u.On a := by
  constructor
  · rintro ⟨j, u, hu, ha⟩
    by_cases hn : t = Trig.none
    · rw [hn, index_erase] at hu
      split_ifs at hu with hj
      exact Or.inr ⟨j, u, hj, hu, ha⟩
    · rw [index_put hn] at hu
      split_ifs at hu with hj
      · exact Or.inl (Option.some.inj hu ▸ ha)
      · exact Or.inr ⟨j, u, hj, hu, ha⟩
  · rintro (ha | ⟨j, u, hj, hu, ha⟩)
    · have hn : t ≠ Trig.none := by
        rintro rfl
        exact not_on_none ha
      exact ⟨i, t, by rw [index_put hn, if_pos rfl], ha⟩
    · by_cases hn : t = Trig.none
      · exact ⟨j, u, by rw [hn, index_erase, if_neg hj, hu], ha⟩
      · exact ⟨j, u, by rw [index_put hn, if_neg hj, hu], ha⟩

theorem mem_events_at (i : Nat) : a ∈ e.events ↔
    (e.trig i).On a ∨ ∃ (j : Nat) (u : Trig), j ≠ i ∧ e.index[j]? = some u ∧ u.On a := by
  constructor
  · rintro ⟨j, u, hu, ha⟩
    by_cases hj : j = i
    · subst hj
      rw [trig_of_get hu]
      exact Or.inl ha
    · exact Or.inr ⟨j, u, hj, hu, ha⟩
  · rintro (ha | ⟨j, u, -, hu, ha⟩)
    · cases hi : e.index[i]? with
      | none =>
        rw [Table.trig, hi] at ha
        exact absurd ha not_on_none
      | some t =>
        rw [trig_of_get hi] at ha
        exact ⟨i, t, hi, ha⟩
    · exact ⟨j, u, hu, ha⟩

theorem trig_after (j : Nat) : (e.put i t).trig j = if j = i then t else e.trig j := by
  by_cases hn : t = Trig.none
  · rw [Table.trig, hn, index_erase, Table.trig]
    split <;> rfl
  · rw [Table.trig, index_put hn, Table.trig]
    split <;> rfl

theorem events_put (h : ∀ a, t.On a ↔ (e.trig i).On a ∨ a ∈ A) :
    (e.put i t).events = e.events ∪ A := by
  ext a
  rw [Set.mem_union, mem_events_put, mem_events_at i, h, or_right_comm]

theorem events_drop (h : ∀ a, t.On a ↔ (e.trig i).On a ∧ a ∉ A)
    (hothers : ∀ (j : Nat) (u : Trig), j ≠ i → e.index[j]? = some u → ∀ a ∈ A, ¬ u.On a) :
    (e.put i t).events = e.events \ A := by
  ext a
  rw [Set.mem_sdiff, mem_events_put, mem_events_at i, h, or_and_right]
  apply or_congr_right
  constructor
  · rintro ⟨j, u, hj, hu, ha⟩
    exact ⟨⟨j, u, hj, hu, ha⟩, fun hA => hothers j u hj hu a hA ha⟩
  · exact And.left

theorem events_none : Table.none.events = ∅ := by
  ext a
  refine iff_of_false ?_ (Set.notMem_empty a)
  rintro ⟨i, t, ht, -⟩
  rw [Table.none, Std.ExtTreeMap.getElem?_empty] at ht
  cases ht

theorem events_others : l.others.events = {a | ∃ c ∈ l.cmds, a = .command c} := by
  ext a
  cases a with
  | command c => simp [Line.events, Line.On, Line.others]
  | set d p => simp [Line.events, Line.On, Line.others]

theorem events_setOnly : l.setOnly.events =
    {a | l.setspecified = true ∧ a = .set l.delim l.pieces} := by
  ext a
  cases a with
  | command c => simp [Line.events, Line.On, Line.setOnly]
  | set d p => simp [Line.events, Line.On, Line.setOnly]

theorem events_line : l.events = l.others.events ∪ l.setOnly.events := by
  rw [events_others, events_setOnly]
  ext a
  cases a with
  | command c => simp [Line.events, Line.On]
  | set d p => simp [Line.events, Line.On]

theorem events_noSet (h : l.setspecified = false) : l.setOnly.events = ∅ := by
  rw [events_setOnly, h]
  ext a
  simp

theorem events_plain (h : l.setspecified = false) : l.events = l.others.events := by
  rw [events_line, events_noSet h, Set.union_empty]

theorem setOn_withOthers (hl : LineOk l) (options : Finset Str) :
    SetOn (withOthers l t options) d p ↔ SetOn t d p := by
  have hS : S ∈ t.cmds ∪ l.cmds ↔ S ∈ t.cmds := by rw [Finset.mem_union, or_iff_left hl.apart]
  exact and_congr_left fun _ => hS

theorem on_withOthers (hl : LineOk l) (options : Finset Str) :
    (withOthers l t options).On a ↔ t.On a ∨ a ∈ l.others.events := by
  rw [events_others]
  cases a with
  | command c =>
    have hne : c ∈ l.cmds → c ≠ S := fun hc heq => hl.apart (heq ▸ hc)
    simp only [Trig.On, withOthers, Finset.mem_union, Set.mem_ofPred_eq, Event.command.injEq,
      exists_eq_right', or_and_right]
    exact or_congr_right (and_iff_left_of_imp hne)
  | set d p =>
    refine (setOn_withOthers hl options).trans (or_iff_left ?_).symm
    rintro ⟨c, -, h⟩
    cases h

theorem events_withSet (setexists : Bool) : (withSet l n setexists e).events = e.events := by
  cases setexists <;> rfl

theorem events_setPart (hs : l.setspecified = true)
    (hown : ∀ d p, SetOn (e.trig n) d p → (d, p) = (l.delim, l.pieces)) :
    (setPart l n e).events = e.events ∪ l.setOnly.events := by
  apply events_put
  intro a
  rw [events_setOnly]
  cases a with
  | command c =>
    have hor : (c = S ∨ c ∈ (e.trig n).cmds) ∧ c ≠ S ↔ c ∈ (e.trig n).cmds ∧ c ≠ S := by
      tauto
    simpa [Trig.On] using hor
  | set d p =>
    constructor
    · rintro ⟨-, hd, hp⟩
      obtain rfl := Option.some.inj hd
      obtain rfl := Option.some.inj hp
      exact Or.inr ⟨hs, rfl⟩
    · rintro (h | ⟨-, h⟩)
      · obtain ⟨rfl, rfl⟩ := Prod.mk.inj (hown d p h)
        exact ⟨Finset.mem_insert_self _ _, rfl, rfl⟩
      · obtain ⟨rfl, rfl⟩ := Event.set.inj h
        exact ⟨Finset.mem_insert_self _ _, rfl, rfl⟩

theorem own_setindexOf (hok : TableOk e) (hpos : ∀ j ∈ e.index, j ≠ 0)
    (h : SetOn (e.trig (setindexOf l e)) d p) : (d, p) = (l.delim, l.pieces) := by
  cases hset : e.sets[(l.delim, l.pieces)]? with
  | some k =>
    obtain ⟨t, ht, hon⟩ := (hok.corresponds _ _ _).mp hset
    have hof : e.setOf l.delim l.pieces = k := by rw [Table.setOf, hset, Option.getD_some]
    have hindex : setindexOf l e = k := by
      simp [setindexOf, hof, hpos k (mem_index.mpr ⟨t, ht⟩)]
    rw [hindex, trig_of_get ht] at h
    exact Prod.ext (Option.some.inj (h.2.1.symm.trans hon.2.1))
      (Option.some.inj (h.2.2.symm.trans hon.2.2))
  | none =>
    have hof : e.setOf l.delim l.pieces = 0 := by rw [Table.setOf, hset, Option.getD_none]
    by_cases hdelim : (e.trig e.first).delim = none
    · have hindex : setindexOf l e = e.first := by simp [setindexOf, hof, hdelim]
      rw [hindex] at h
      exact absurd (hdelim.symm.trans h.2.1) (Option.some_ne_none d).symm
    · have hindex : setindexOf l e = 0 := by simp [setindexOf, hof, hdelim]
      rw [hindex] at h
      have hzero : e.index[0]? = none := by
        rw [Option.eq_none_iff_forall_ne_some]
        exact fun t ht => hpos 0 (mem_index.mpr ⟨t, ht⟩) rfl
      rw [Table.trig, hzero] at h
      exact absurd h (not_on_none (a := .set d p))

theorem events_setTable (hl : LineOk l) (hs : l.setspecified = true)
    (hown : ∀ d p, SetOn (e.trig n) d p → (d, p) = (l.delim, l.pieces)) :
    (setTable l n e).events = e.events ∪ l.events := by
  have hfirst (setexists : Bool) : ((withSet l n setexists e).put e.first
      (withOthers l (e.trig e.first) (e.trig e.first).options)).events =
        e.events ∪ l.others.events := by
    rw [events_put (A := l.others.events), events_withSet]
    intro a
    rw [trig_withSet, on_withOthers hl]
  have htrig (setexists : Bool) (d p : Str) (h : SetOn (((withSet l n setexists e).put e.first
      (withOthers l (e.trig e.first) (e.trig e.first).options)).trig n) d p) :
        (d, p) = (l.delim, l.pieces) := by
    rw [trig_after, trig_withSet] at h
    split_ifs at h with hn
    · rw [setOn_withOthers hl, ← hn] at h
      exact hown d p h
    · exact hown d p h
  rw [setTable_eq, events_setPart hs (htrig _), hfirst, events_line (l := l), Set.union_assoc]

theorem events_newTable (hl : LineOk l) (n : Nat) :
    (newTable l n Table.none).events = l.events := by
  cases hs : l.setspecified with
  | false =>
    have htable : newTable l n Table.none =
        Table.none.put n (withOthers l Trig.none l.options) := by
      unfold newTable
      rw [hs, trig_none, if_neg Bool.false_ne_true]
      simp [withOthers, Trig.none]
    rw [htable, events_put (A := l.others.events), events_none, Set.empty_union, events_plain hs]
    intro a
    rw [on_withOthers hl, trig_none]
  | true =>
    rw [newTable_set hs, events_put (A := l.events), events_withSet, events_none, Set.empty_union]
    intro a
    rw [trig_withSet, trig_none, or_iff_right not_on_none]
    cases a with
    | command c =>
      have hne : c ∈ l.cmds → c ≠ S := fun hc heq => hl.apart (heq ▸ hc)
      have hor : (c = S ∨ c ∈ l.cmds) ∧ c ≠ S ↔ c ∈ l.cmds := by tauto
      simpa [Trig.On, Line.events, Line.On] using hor
    | set d p => simp [Trig.On, SetOn, Line.events, Line.On, hs, eq_comm]

theorem events_addGvn (hl : LineOk l) (hg : GvnOk g) :
    ((addGvn l g).xecute l.xecute).events = (g.xecute l.xecute).events ∪ l.events := by
  have hok := hg.tables l.xecute
  cases hd : (g.xecute l.xecute).hasData with
  | false =>
    rw [addGvn_new hd, xecute_self, events_newTable hl, hasData_false hd, events_none,
      Set.empty_union]
  | true =>
    cases hs : l.setspecified with
    | false =>
      rw [addGvn_kill hd hs, xecute_self, events_plain hs]
      exact events_put fun a => on_withOthers hl l.options
    | true =>
      have hpos : ∀ j ∈ (g.xecute l.xecute).index, j ≠ 0 := fun j hj =>
        Nat.ne_of_gt (hg.numbered l.xecute j hj).1
      rw [addGvn_set hd hs]
      split
      · rw [xecute_self]
        refine events_setTable hl hs fun d p h => absurd h ?_
        have hnew : (g.xecute l.xecute).index[g.seqnum.getD 0 + 1]? = none := by
          rw [Option.eq_none_iff_forall_ne_some]
          intro t ht
          have := (hg.numbered l.xecute _ (mem_index.mpr ⟨t, ht⟩)).2
          omega
        rw [Table.trig, hnew]
        exact not_on_none (a := .set d p)
      · rw [xecute_self]
        exact events_setTable hl hs fun d p h => own_setindexOf hok hpos h

theorem events_addTo {hasht : Str → Gvn} (hl : LineOk l) (hg : GvnOk (hasht l.gvn)) :
    events (addTo hasht l) = events hasht ∪ l.targets := by
  ext ⟨y, x, a⟩
  change a ∈ ((addTo hasht l y).xecute x).events ↔
    a ∈ ((hasht y).xecute x).events ∨ (y = l.gvn ∧ x = l.xecute) ∧ a ∈ l.events
  by_cases hy : y = l.gvn
  · subst hy
    rw [addTo, Function.update_self]
    by_cases hx : x = l.xecute
    · subst hx
      rw [events_addGvn hl hg]
      simp
    · rw [addGvn_other hx]
      simp [hx]
  · rw [addTo, Function.update_of_ne hy]
    simp [hy]

end YdbTest.TriggerLoad
