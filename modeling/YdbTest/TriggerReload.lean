import YdbTest.RandomTriggers
import YdbTest.TriggerSelect

namespace YdbTest.TriggerSelect

open MString TriggerLoad TrigSplit

/-- All triggers are as `randomtriggers` makes them, with these options. -/
def Holds (options : Finset Str) (hasht : Str → Gvn) : Prop :=
  ∀ y x (i : Nat) (t : Trig), ((hasht y).xecute x).index[i]? = some t → Written options y x t

structure LineWritten (options : Finset Str) (l : Line) : Prop where
  key : KeyOk l.gvn l.xecute
  cmds : l.cmds ⊆ commands.toFinset
  options : l.options = options
  pieceDelim : PieceDelim l.delim l.pieces

def Forms (e : Table) : Prop := ∀ (i : Nat) (t : Trig), e.index[i]? = some t → Form t

variable {e e' : Table} {t u : Trig} {l : Line} {g : Gvn} {options : Finset Str} {i n : Nat}
  {hasht : Str → Gvn} {σ σ' : State} {line : Str} {linein linein' lines : List Str}

theorem form_none : Form Trig.none := by
  refine ⟨Finset.empty_subset _, fun d hd => ?_⟩
  cases hd

theorem Forms.put (h : Forms e) (ht : Form t) : Forms (e.put i t) := by
  intro j u hu
  by_cases hn : t = Trig.none
  · rw [hn, index_erase] at hu
    split_ifs at hu
    exact h j u hu
  · rw [index_put hn] at hu
    split_ifs at hu
    · exact Option.some.inj hu ▸ ht
    · exact h j u hu

theorem Forms.trig (h : Forms e) (i : Nat) : Form (e.trig i) := by
  rw [Table.trig]
  cases hi : e.index[i]? with
  | none => exact form_none
  | some t => exact h i t hi

theorem Forms.none : Forms Table.none := by
  intro i t h
  rw [Table.none, Std.ExtTreeMap.getElem?_empty] at h
  cases h

theorem Forms.withSet (h : Forms e) (setexists : Bool) : Forms (withSet l n setexists e) := by
  cases setexists
  · exact h
  · exact h

section Lines

variable (hl : LineWritten options l)

include hl

theorem Form.others (h : Form t) (options : Finset Str) : Form (withOthers l t options) :=
  ⟨Finset.union_subset h.cmds hl.cmds, h.pieceDelim⟩

theorem Form.set (h : Form t) (options : Finset Str) : Form { t with
    options := options
    cmds := insert S t.cmds
    delim := some l.delim
    pieces := some l.pieces } := by
  refine ⟨Finset.insert_subset (by decide) h.cmds, fun d hd p hp => ?_⟩
  obtain rfl := Option.some.inj hd
  obtain rfl := Option.some.inj hp
  exact hl.pieceDelim

theorem Forms.setTable (h : Forms e) (n : Nat) : Forms (setTable l n e) := by
  rw [setTable_eq]
  have hfirst := (h.withSet (l := l) (n := n) (decide (e.setOf l.delim l.pieces ≠ 0))).put
    (i := e.first) ((h.trig e.first).others hl (e.trig e.first).options)
  exact hfirst.put ((hfirst.trig n).set hl l.options)

theorem Forms.newTable (n : Nat) : Forms (newTable l n Table.none) := by
  cases hs : l.setspecified with
  | false =>
    unfold TriggerLoad.newTable
    rw [hs, if_neg Bool.false_ne_true, trig_none]
    exact Forms.none.put (form_none.others hl _)
  | true =>
    rw [newTable_set hs]
    apply (Forms.none.withSet _).put
    have hset := (form_none.others hl l.options).set hl l.options
    rwa [withOthers, Trig.none, Finset.empty_union] at hset

theorem addGvn_forms (h : Forms (g.xecute l.xecute)) : Forms ((addGvn l g).xecute l.xecute) := by
  cases hd : (g.xecute l.xecute).hasData with
  | false =>
    rw [addGvn_new hd, xecute_self]
    exact Forms.newTable hl _
  | true =>
    cases hs : l.setspecified with
    | false =>
      rw [addGvn_kill hd hs, xecute_self]
      exact h.put ((h.trig _).others hl l.options)
    | true =>
      rw [addGvn_set hd hs]
      split
      · rw [xecute_self]
        exact h.setTable hl _
      · rw [xecute_self]
        exact h.setTable hl _

theorem Holds.addTo (h : Holds options hasht) (hg : GvnOk (hasht l.gvn)) :
    Holds options (addTo hasht l) := by
  intro y x i t ht
  by_cases hy : y = l.gvn
  · subst hy
    rw [TriggerLoad.addTo, Function.update_self] at ht
    by_cases hx : x = l.xecute
    · subst hx
      have hoptions : Options l.options ((hasht l.gvn).xecute l.xecute) :=
        fun i t ht => (h _ _ i t ht).options.trans hl.options.symm
      have hforms : Forms ((hasht l.gvn).xecute l.xecute) := fun i t ht => (h _ _ i t ht).form
      exact ⟨hl.key, addGvn_forms hl hforms i t ht,
        (addGvn_options hg hoptions i t ht).trans hl.options⟩
    · rw [addGvn_other hx] at ht
      exact h _ _ i t ht
  · rw [TriggerLoad.addTo, Function.update_of_ne hy] at ht
    exact h _ _ i t ht

omit hl in
theorem Written.within {y x : Str} (h : Written options y x t) (hu : u.Within t) :
    Written options y x u := by
  obtain ⟨hcmds, hoptions, hset⟩ := hu
  refine ⟨h.key, ⟨hcmds.trans h.form.cmds, fun d hd p hp => ?_⟩, hoptions.trans h.options⟩
  obtain ⟨hd', hp'⟩ | ⟨hd', -⟩ := hset
  · exact h.form.pieceDelim d (hd' ▸ hd) p (hp' ▸ hp)
  · rw [hd'] at hd
    cases hd

omit hl in
theorem Holds.changes (h : Holds options σ.hasht) (hc : Changes l e σ σ')
    (hw : e.Within (σ.table l)) : Holds options σ'.hasht := by
  intro y x i u hu
  rw [hc y x] at hu
  split_ifs at hu with hq
  · obtain ⟨t, ht, hut⟩ := hw i u hu
    rw [hq.1, hq.2]
    exact (h _ _ i t ht).within hut
  · exact h _ _ i u hu

end Lines

theorem Holds.step (h : Holds options σ.hasht) (hc : Consistent σ)
    (hl : LineWritten options (parse line)) (hstep : step σ i line = some σ') :
    Holds options σ'.hasht := by
  have hline := parse_ok line
  unfold TriggerLoad.step at hstep
  dsimp only at hstep
  split_ifs at hstep
  · obtain rfl := Option.some.inj hstep
    rw [count_hasht, add_hasht]
    exact h.addTo hl (hc.gvns _)
  · obtain ⟨r, e, hr, hchanges, hleaves⟩ := delete_leaves hline (hc.gvns _) i
    rw [hr] at hstep
    obtain rfl := Option.some.inj hstep
    rw [count_hasht]
    exact h.changes hchanges hleaves.within

theorem Holds.loop (h : Holds options σ.hasht) (hc : Consistent σ)
    (hl : ∀ line ∈ lines, LineWritten options (parse line)) (hloop : loop i lines σ = some σ') :
    Holds options σ'.hasht := by
  induction lines generalizing i σ with
  | nil => exact Option.some.inj hloop ▸ h
  | cons line lines ih =>
    obtain ⟨hline, hlines⟩ := List.forall_mem_cons.mp hl
    obtain ⟨σ₁, hstep, hc₁⟩ := step_consistent hc i line
    rw [TriggerLoad.loop, hstep] at hloop
    exact ih (h.step hc hline hstep) hc₁ hlines hloop

theorem mem_apply {q : Str × Str × Event} {s : Set (Str × Str × Event)}
    (h : q ∈ Line.apply s l) : q ∈ s ∨ q ∈ l.targets := by
  rw [Line.apply] at h
  split_ifs at h
  · exact h
  · exact Or.inl h.1

theorem mem_foldl_apply {q : Str × Str × Event} {ls : List Line} {s : Set (Str × Str × Event)}
    (h : q ∈ ls.foldl Line.apply s) : q ∈ s ∨ ∃ l ∈ ls, q ∈ l.targets := by
  induction ls generalizing s with
  | nil => exact Or.inl h
  | cons l ls ih =>
    obtain h | ⟨l', hl', h⟩ := ih h
    · exact (mem_apply h).imp_right fun hq => ⟨l, List.mem_cons_self, hq⟩
    · exact Or.inr ⟨l', List.mem_cons_of_mem l hl', h⟩

theorem mem_foldl_adds {q : Str × Str × Event} {ls : List Line} (hadd : ∀ l ∈ ls, l.add = true)
    (s : Set (Str × Str × Event)) :
    q ∈ ls.foldl Line.apply s ↔ q ∈ s ∨ ∃ l ∈ ls, q ∈ l.targets := by
  refine ⟨mem_foldl_apply, ?_⟩
  induction ls generalizing s with
  | nil =>
    rintro (h | ⟨l, hl, -⟩)
    · exact h
    · cases hl
  | cons l ls ih =>
    obtain ⟨hl, hls⟩ := List.forall_mem_cons.mp hadd
    have hone : Line.apply s l = s ∪ l.targets := by rw [Line.apply, hl, if_pos rfl]
    rintro (h | ⟨l', hl', h⟩)
    · exact ih hls _ (Or.inl (hone ▸ Or.inl h))
    · obtain rfl | hl' := List.mem_cons.mp hl'
      · exact ih hls _ (Or.inl (hone ▸ Or.inr h))
      · exact ih hls _ (Or.inr ⟨l', hl', h⟩)

structure Loaded (options : Finset Str) (linein : List Str) (σ : State) : Prop where
  consistent : Consistent σ
  holds : Holds options σ.hasht
  named : ∀ q ∈ events σ.hasht, (∃ line ∈ linein, (parse line).gvn = q.1) ∧
    ∃ line ∈ linein, (parse line).xecute = q.2.1

theorem exists_loaded (hl : ∀ line ∈ linein, LineWritten options (parse line)) : ∃ σ,
    gentrigload linein = some σ ∧ Loaded options linein σ ∧
      events σ.hasht = (linein.map parse).foldl Line.apply ∅ := by
  obtain ⟨σ, hσ, hc, hevents⟩ := loop_events initial_consistent 1 linein
  rw [events_initial] at hevents
  have hnone : Holds options initial.hasht := by
    intro y x i t ht
    change Table.none.index[i]? = some t at ht
    rw [Table.none, Std.ExtTreeMap.getElem?_empty] at ht
    cases ht
  refine ⟨σ, hσ, ⟨hc, hnone.loop initial_consistent hl hσ, fun q hq => ?_⟩, hevents⟩
  rw [hevents] at hq
  obtain hq | ⟨l, hl, hq⟩ := mem_foldl_apply hq
  · cases hq
  · obtain ⟨line, hline, rfl⟩ := List.mem_map.mp hl
    exact ⟨⟨line, hline, hq.1.1.symm⟩, line, hline, hq.1.2.symm⟩

def kills (hasht : Str → Gvn) (y x : Str) : Finset Str :=
  (((hasht y).xecute x).trig ((hasht y).xecute x).first).cmds.erase S

def keys (linein : List Str) (σ : State) : List (Str × Str × Option (Str × Str)) :=
  (entries linein σ).flatMap keysOf

def KeyEvent : Option (Str × Str) → Event → Prop
  | none, a => ∃ c, a = .command c
  | some q, a => a = .set q.1 q.2

variable {x y d p c : Str} {k : Str × Str × Option (Str × Str)} {q : Str × Str × Event} {a : Event}
  {r r' : Entry}

theorem setOn_iff (ht : TrigOk t) :
    SetOn t d p ↔ S ∈ t.cmds ∧ d = t.delim.getD [] ∧ p = t.pieces.getD [] := by
  apply and_congr_right
  intro hS
  obtain ⟨d', p', hd, hp⟩ := exists_carried ht hS
  simp [hd, hp, eq_comm]

theorem mem_keysOf (ht : TrigOk r.trig) : k ∈ keysOf r ↔
    (k.1 = r.gvn ∧ k.2.1 = r.xecute) ∧ ∃ a, KeyEvent k.2.2 a ∧ r.trig.On a := by
  have hmem : k ∈ keysOf r ↔
      (r.trig.cmds.erase S).Nonempty ∧ k = (r.gvn, r.xecute, none) ∨ S ∈ r.trig.cmds ∧
        k = (r.gvn, r.xecute, some (r.trig.delim.getD [], r.trig.pieces.getD [])) := by
    rw [keysOf, List.mem_append]
    apply or_congr
    · split_ifs with hc <;>
        simp only [hc, List.mem_singleton, List.not_mem_nil, true_and, false_and]
    · split_ifs with hS <;>
        simp only [hS, List.mem_singleton, List.not_mem_nil, true_and, false_and]
  rw [hmem]
  obtain ⟨y, x, o⟩ := k
  cases o with
  | none =>
    constructor
    · rintro (⟨⟨c, hc⟩, h⟩ | ⟨-, h⟩)
      · cases h
        obtain ⟨hne, hc⟩ := Finset.mem_erase.mp hc
        exact ⟨⟨rfl, rfl⟩, _, ⟨c, rfl⟩, hc, hne⟩
      · cases h
    · rintro ⟨⟨rfl, rfl⟩, _, ⟨c, rfl⟩, hc, hne⟩
      exact Or.inl ⟨⟨c, Finset.mem_erase.mpr ⟨hne, hc⟩⟩, rfl⟩
  | some q =>
    constructor
    · rintro (⟨-, h⟩ | ⟨hS, h⟩)
      · cases h
      · cases h
        exact ⟨⟨rfl, rfl⟩, _, rfl, (setOn_iff ht).mpr ⟨hS, rfl, rfl⟩⟩
    · rintro ⟨⟨rfl, rfl⟩, _, rfl, hon⟩
      obtain ⟨hS, hd, hp⟩ := (setOn_iff ht).mp hon
      exact Or.inr ⟨hS, by rw [← hd, ← hp]⟩

theorem kills_eq (h : TableOk ((hasht y).xecute x)) (ht : ((hasht y).xecute x).index[i]? = some t)
    (hne : (t.cmds.erase S).Nonempty) :
    i = ((hasht y).xecute x).first ∧ kills hasht y x = t.cmds.erase S := by
  have hf : ((hasht y).xecute x).index ≠ ∅ := by
    intro hempty
    rw [hempty, Std.ExtTreeMap.getElem?_empty] at ht
    cases ht
  have hi : i = ((hasht y).xecute x).first := by
    by_contra hi
    rw [lowest_first h hf hi ht] at hne
    exact absurd hne (by decide)
  refine ⟨hi, ?_⟩
  rw [kills, ← hi, trig_of_get ht]

theorem mem_kills (h : TableOk ((hasht y).xecute x)) :
    c ∈ kills hasht y x ↔ (y, x, .command c) ∈ events hasht := by
  constructor
  · intro hc
    obtain ⟨hne, hc⟩ := Finset.mem_erase.mp hc
    exact (mem_events_at _).mpr (Or.inl ⟨hc, hne⟩)
  · rintro ⟨i, t, ht, hc, hne⟩
    have hmem := Finset.mem_erase.mpr ⟨hne, hc⟩
    rw [(kills_eq h ht ⟨c, hmem⟩).2]
    exact hmem

namespace Loaded

variable (h : Loaded options linein σ)

include h

theorem table (y x : Str) : TableOk ((σ.hasht y).xecute x) := (h.consistent.gvns y).tables x

theorem entry (hr : r ∈ entries linein σ) :
    TrigOk r.trig ∧ Written options r.gvn r.xecute r.trig := by
  have hget := (mem_entries.mp hr).2
  exact ⟨(h.table _ _).trigs _ _ hget, h.holds _ _ _ _ hget⟩

theorem mem_keys : k ∈ keys linein σ ↔
    ∃ a, KeyEvent k.2.2 a ∧ (k.1, k.2.1, a) ∈ events σ.hasht := by
  rw [keys, List.mem_flatMap]
  constructor
  · rintro ⟨r, hr, hk⟩
    obtain ⟨⟨hy, hx⟩, a, hka, hon⟩ := (mem_keysOf (h.entry hr).1).mp hk
    refine ⟨a, hka, ?_⟩
    rw [hy, hx]
    exact ⟨r.index, r.trig, (mem_entries.mp hr).2, hon⟩
  · rintro ⟨a, hka, ha⟩
    have hnamed := h.named _ ha
    obtain ⟨i, t, ht, hon⟩ := ha
    exact ⟨⟨k.1, k.2.1, i, t⟩, mem_entries.mpr ⟨hnamed, ht⟩,
      (mem_keysOf ((h.table _ _).trigs i t ht)).mpr ⟨⟨rfl, rfl⟩, a, hka, hon⟩⟩

theorem eq_of_mem_keysOf (hr : r ∈ entries linein σ) (hr' : r' ∈ entries linein σ)
    (hk : k ∈ keysOf r) (hk' : k ∈ keysOf r') : r = r' := by
  obtain ⟨⟨hy, hx⟩, a, hka, hon⟩ := (mem_keysOf (h.entry hr).1).mp hk
  obtain ⟨⟨hy', hx'⟩, a', hka', hon'⟩ := (mem_keysOf (h.entry hr').1).mp hk'
  obtain ⟨y, x, i, t⟩ := r
  obtain ⟨y', x', i', t'⟩ := r'
  obtain rfl : y = y' := hy.symm.trans hy'
  obtain rfl : x = x' := hx.symm.trans hx'
  have hget : ((σ.hasht y).xecute x).index[i]? = some t := (mem_entries.mp hr).2
  have hget' : ((σ.hasht y).xecute x).index[i']? = some t' := (mem_entries.mp hr').2
  have hi : i = i' := by
    cases hq : k.2.2 with
    | none =>
      rw [hq] at hka hka'
      obtain ⟨c, rfl⟩ := hka
      obtain ⟨c', rfl⟩ := hka'
      have hfirst := (kills_eq (h.table y x) hget ⟨c, Finset.mem_erase.mpr ⟨hon.2, hon.1⟩⟩).1
      rw [hfirst, (kills_eq (h.table y x) hget' ⟨c', Finset.mem_erase.mpr ⟨hon'.2, hon'.1⟩⟩).1]
    | some q =>
      rw [hq] at hka hka'
      obtain rfl : a = _ := hka
      obtain rfl : a' = _ := hka'
      exact (setOn_unique (h.table y x) hget hon
        (((h.table y x).corresponds _ _ i').mpr ⟨t', hget', hon'⟩)).symm
  subst hi
  rw [Option.some.inj (hget.symm.trans hget')]

theorem keys_nodup : (keys linein σ).Nodup := by
  apply nodup_flatMap (entries_nodup linein σ)
  · intro r _
    unfold keysOf
    split_ifs <;> simp
  · intro r hr r' hr' k hk hk'
    exact h.eq_of_mem_keysOf hr hr' hk hk'

theorem split_selectout (ho : options ⊆ optionWords.toFinset) (region : Str → Str) :
    trigsplit (grepV (selectout region linein σ)) =
      (keys linein σ).map (keyLine options (kills σ.hasht)) := by
  have hname (r : Entry) : lit ";trigger name" <+: nameLine region σ r := by
    have hlit : lit ";trigger name: " = lit ";trigger name" ++ lit ": " := rfl
    rw [nameLine, hlit]
    simp only [List.append_assoc]
    exact List.prefix_append _ _
  have hline (r : Entry) : ¬ lit ";trigger name" <+: line r.gvn r.xecute r.trig := by
    rintro ⟨rest, hrest⟩
    exact absurd (congrArg List.head? hrest) (by simp [line, lit])
  have hout : grepV (selectout region linein σ) =
      (entries linein σ).map fun r => line r.gvn r.xecute r.trig := by
    rw [grepV, selectout, List.filter_flatMap, List.map_eq_flatMap]
    apply List.flatMap_congr
    intro r _
    simp [hname, hline]
  rw [hout, trigsplit, List.flatMap_map, keys, List.map_flatMap]
  apply List.flatMap_congr
  intro r hr
  obtain ⟨ht, hw⟩ := h.entry hr
  exact splitLine_line hw ht ho
    (fun hne => (kills_eq (h.table _ _) (mem_entries.mp hr).2 hne).2) r.index

end Loaded

theorem keys_perm (h : Loaded options linein σ) (h' : Loaded options linein' σ')
    (he : events σ'.hasht = events σ.hasht) : (keys linein' σ').Perm (keys linein σ) := by
  apply (List.perm_ext_iff_of_nodup h'.keys_nodup h.keys_nodup).mpr
  intro k
  rw [h'.mem_keys, h.mem_keys, he]

theorem kills_congr (h : Loaded options linein σ) (h' : Loaded options linein' σ')
    (he : events σ'.hasht = events σ.hasht) : kills σ'.hasht = kills σ.hasht := by
  funext y x
  ext c
  rw [mem_kills (h'.table y x), mem_kills (h.table y x), he]

theorem perm_of_events (h : Loaded options linein σ) (h' : Loaded options linein' σ')
    (ho : options ⊆ optionWords.toFinset) (he : events σ'.hasht = events σ.hasht)
    (region : Str → Str) : (trigsplit (grepV (selectout region linein' σ'))).Perm
      (trigsplit (grepV (selectout region linein σ))) := by
  rw [h'.split_selectout ho, h.split_selectout ho, kills_congr h h' he]
  exact (keys_perm h h' he).map _

theorem parse_reloaded (ht : TrigOk r.trig) (hw : Written options r.gvn r.xecute r.trig)
    (ho : options ⊆ optionWords.toFinset) : parse (reloaded r) = {
      add := true
      gvn := r.gvn
      setspecified := decide (S ∈ r.trig.cmds)
      cmds := r.trig.cmds.erase S
      delim := r.trig.delim.getD []
      pieces := r.trig.pieces.getD []
      xecute := r.xecute
      options := r.trig.options } := by
  obtain ⟨s, hs⟩ := exists_renders hw ht ho
  have hcmds : s.cmds.toFinset = r.trig.cmds := by
    rw [hs.cmds]
    exact toFinset_filter hw.form.cmds
  have hoptions : s.options.toFinset = r.trig.options := by
    rw [hs.options]
    exact toFinset_filter hs.within
  have hS : decide (S ∈ s.cmds) = decide (S ∈ r.trig.cmds) := decide_eq_decide.mpr hs.mem_S
  have htext : reloaded r = s.toTrigLine.text := (hs.load_text r.index).symm
  rw [htext, parse_text, s.added, hs.gbl, hS, hcmds, ← hs.delim, ← hs.pieces, hs.xecute, hoptions]

theorem targets_reloaded (ht : TrigOk r.trig) (hw : Written options r.gvn r.xecute r.trig)
    (ho : options ⊆ optionWords.toFinset) : q ∈ (parse (reloaded r)).targets ↔
      (q.1 = r.gvn ∧ q.2.1 = r.xecute) ∧ r.trig.On q.2.2 := by
  rw [parse_reloaded ht hw ho]
  obtain ⟨y, x, a⟩ := q
  apply and_congr_right
  rintro -
  cases a with
  | command c => exact Finset.mem_erase.trans and_comm
  | set d p =>
    refine Iff.trans ?_ (setOn_iff ht).symm
    exact and_congr_left fun _ => decide_eq_true_iff

theorem reloaded_written (ht : TrigOk r.trig) (hw : Written options r.gvn r.xecute r.trig)
    (ho : options ⊆ optionWords.toFinset) : LineWritten options (parse (reloaded r)) := by
  rw [parse_reloaded ht hw ho]
  refine ⟨hw.key, (Finset.erase_subset _ _).trans hw.form.cmds, hw.options, ?_⟩
  by_cases hS : S ∈ r.trig.cmds
  · obtain ⟨d, p, hd, hp⟩ := exists_carried ht hS
    have hform := hw.form.pieceDelim d hd p hp
    rwa [hd, hp]
  · obtain ⟨hd, hp⟩ := ht.plain hS
    rw [hd, hp]
    exact Or.inl ⟨rfl, rfl⟩

theorem exists_reload (h : Loaded options linein σ) (ho : options ⊆ optionWords.toFinset) : ∃ σ',
    gentrigload ((entries linein σ).map reloaded) = some σ' ∧
      Loaded options ((entries linein σ).map reloaded) σ' ∧
      events σ'.hasht = events σ.hasht := by
  have hlines : ∀ line ∈ (entries linein σ).map reloaded, LineWritten options (parse line) := by
    intro line hline
    obtain ⟨r, hr, rfl⟩ := List.mem_map.mp hline
    obtain ⟨ht, hw⟩ := h.entry hr
    exact reloaded_written ht hw ho
  have hadds : ∀ l ∈ ((entries linein σ).map reloaded).map parse, l.add = true := by
    intro l hl
    obtain ⟨line, hline, rfl⟩ := List.mem_map.mp hl
    obtain ⟨r, hr, rfl⟩ := List.mem_map.mp hline
    obtain ⟨ht, hw⟩ := h.entry hr
    rw [parse_reloaded ht hw ho]
  obtain ⟨σ', hσ', h', hevents⟩ := exists_loaded hlines
  refine ⟨σ', hσ', h', ?_⟩
  ext q
  rw [hevents, mem_foldl_adds hadds, or_iff_right (Set.notMem_empty q)]
  constructor
  · rintro ⟨l, hl, hq⟩
    obtain ⟨line, hline, rfl⟩ := List.mem_map.mp hl
    obtain ⟨r, hr, rfl⟩ := List.mem_map.mp hline
    obtain ⟨ht, hw⟩ := h.entry hr
    obtain ⟨y, x, a⟩ := q
    obtain ⟨⟨rfl, rfl⟩, hon⟩ := (targets_reloaded ht hw ho).mp hq
    exact ⟨r.index, r.trig, (mem_entries.mp hr).2, hon⟩
  · intro hq
    have hnamed := h.named q hq
    obtain ⟨i, t, ht, hon⟩ := hq
    have hr : (⟨q.1, q.2.1, i, t⟩ : Entry) ∈ entries linein σ := mem_entries.mpr ⟨hnamed, ht⟩
    obtain ⟨hok, hw⟩ := h.entry hr
    exact ⟨_, List.mem_map.mpr ⟨_, List.mem_map.mpr ⟨_, hr, rfl⟩, rfl⟩,
      (targets_reloaded hok hw ho).mpr ⟨⟨rfl, rfl⟩, hon⟩⟩

theorem written_of_oneOf {g : Nat} {os : List Str} {t : TrigLine}
    (h : RandomTriggers.OneOf g os t) : LineWritten os.toFinset (parse t.text) := by
  have hcmd : ∀ c ∈ RandomTriggers.cmd, c ∈ commands := by decide
  have hpieces : ∀ p ∈ RandomTriggers.pieceValues, hyphen ∉ p := by decide
  have hdelims : ∀ d ∈ RandomTriggers.delimValues, hyphen ∉ d := by decide
  have hdo : hyphen ∉ lit "\"do" := by decide
  have hlabels : ∀ n ∈ RandomTriggers.labels, hyphen ∉ lit "^twork(" ++ n ++ lit ")\"" := by decide
  obtain ⟨i, -, hgbl⟩ := h.gbl
  obtain ⟨n, hn, hx⟩ := h.xecute
  rw [parse_text]
  refine ⟨⟨t.gbl_word, ?_, t.xecute, rfl, t.xecute_words, ?_⟩, ?_,
    congrArg List.toFinset h.options, ?_⟩
  · have hhyphen : hyphen = 45 := rfl
    rw [hgbl, List.mem_singleton]
    omega
  · rw [hx]
    exact ⟨hdo, hlabels n hn⟩
  · intro c hc
    have hmem := List.mem_toFinset.mp (Finset.mem_of_mem_erase hc)
    exact List.mem_toFinset.mpr (hcmd c (h.cmds.subset hmem))
  · cases hq : t.piecedelim with
    | none => exact Or.inl ⟨rfl, rfl⟩
    | some q =>
      obtain ⟨-, hp, hd⟩ := h.piecedelim q hq
      exact Or.inr ⟨q, ⟨rfl, rfl⟩, t.piecedelim_words q hq, hpieces _ hp, hdelims _ hd⟩

theorem exists_written (h : RandomTriggers.randomtriggers.Can linein) : ∃ options,
    options ⊆ optionWords.toFinset ∧ ∀ line ∈ linein, LineWritten options (parse line) := by
  have hoptions : ∀ os ∈ RandomTriggers.optionLists, ∀ o ∈ os, o ∈ optionWords := by decide
  obtain ⟨g, n, -, -, os, hos, ts, -, hts, rfl⟩ := RandomTriggers.exists_lines h
  refine ⟨os.toFinset, fun o ho => ?_, fun line hline => ?_⟩
  · exact List.mem_toFinset.mpr (hoptions os hos o (List.mem_toFinset.mp ho))
  · obtain ⟨t, ht, rfl⟩ := List.mem_map.mp hline
    exact written_of_oneOf (hts t ht)

theorem exists_plain (add : Bool) (ws : List Str) {i : Nat} (hne : ws ≠ [])
    (hws : ws.Sublist RandomTriggers.cmd) (hi : i ≤ 1) :
    ∃ t : TrigLine, RandomTriggers.OneOf 1 [] t ∧ t.text =
      (if add then lit "+" else lit "-") ++ lit "^" ++ [97 + i] ++ lit " -commands=" ++
        [44].intercalate ws ++ lit " -xecute=\"do ^twork(66)\"" := by
  obtain ⟨t, ht, htext⟩ := RandomTriggers.exists_oneOf (q := none) add hi hne hws
    (fun p hp => by cases hp) (List.mem_cons_self : lit "66" ∈ RandomTriggers.labels)
    (List.mem_cons_self : [] ∈ RandomTriggers.optionLists)
  refine ⟨t, ht, htext.trans ?_⟩
  simp [lit, space, RandomTriggers.piecedelimText, RandomTriggers.optionText]

theorem can_ones {n : Nat} {ts : List TrigLine} (hn : n ≤ 10) (hlen : ts.length = 2 ^ n)
    (hts : ∀ t ∈ ts, RandomTriggers.OneOf 1 [] t) :
    RandomTriggers.randomtriggers.Can (ts.map TrigLine.text) :=
  RandomTriggers.can_lines (by decide) hn List.mem_cons_self hlen hts

/-- A select file that is loaded again gives, once split and sorted, the lines it has itself, so the
diff is empty for each file that `randomtriggers` can write. -/
theorem reload_select (region : Str → Str) (linein : List Str)
    (h : RandomTriggers.randomtriggers.Can linein) : ∃ σ σ', gentrigload linein = some σ ∧
      gentrigload ((entries linein σ).map reloaded) = some σ' ∧
      (trigsplit (grepV (selectout region ((entries linein σ).map reloaded) σ'))).Perm
        (trigsplit (grepV (selectout region linein σ))) := by
  obtain ⟨options, ho, hlines⟩ := exists_written h
  obtain ⟨σ, hσ, hloaded, -⟩ := exists_loaded hlines
  obtain ⟨σ', hσ', hloaded', hevents⟩ := exists_reload hloaded ho
  exact ⟨σ, σ', hσ, hσ', perm_of_events hloaded hloaded' ho hevents region⟩

/-- The second line takes one of the two commands back. -/
def takenBack : List Str :=
  [lit "+^a -commands=S,K -xecute=\"do ^twork(66)\"", lit "-^a -commands=K -xecute=\"do ^twork(66)\""]

theorem reload_select_takenBack : ∃ σ σ', gentrigload takenBack = some σ ∧
    gentrigload ((entries takenBack σ).map reloaded) = some σ' ∧
    (trigsplit (grepV (selectout (fun _ => lit "AREG") ((entries takenBack σ).map reloaded) σ'))).Perm
      (trigsplit (grepV (selectout (fun _ => lit "AREG") takenBack σ))) := by
  obtain ⟨t, ht, htext⟩ := exists_plain true [S, K] (by decide) (by decide) (Nat.zero_le 1)
  obtain ⟨u, hu, hutext⟩ := exists_plain false [K] (by decide) (by decide) (Nat.zero_le 1)
  have hline : t.text = lit "+^a -commands=S,K -xecute=\"do ^twork(66)\"" := htext
  have hline' : u.text = lit "-^a -commands=K -xecute=\"do ^twork(66)\"" := hutext
  have hcan := can_ones (Nat.one_le_ofNat) rfl (List.forall_mem_cons.mpr
    ⟨ht, List.forall_mem_singleton.mpr hu⟩)
  rw [List.map_cons, List.map_singleton, hline, hline'] at hcan
  exact reload_select (fun _ => lit "AREG") takenBack hcan

end YdbTest.TriggerSelect
