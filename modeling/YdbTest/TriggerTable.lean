import YdbTest.TriggerLoad
import Mathlib.Data.Set.Card

namespace YdbTest.TriggerLoad

open MString

variable {e : Table} {i j : Nat} {t u : Trig} {d p : Str} {sets : Std.ExtHashMap (Str × Str) Nat}

/-- What a trigger carries: some command, and a delim and pieces exactly if it is a SET trigger. -/
structure TrigOk (t : Trig) : Prop where
  commands : t.cmds.Nonempty
  carries : S ∈ t.cmds → t.delim.isSome ∧ t.pieces.isSome
  plain : S ∉ t.cmds → t.delim = none ∧ t.pieces = none

def SetOn (t : Trig) (d p : Str) : Prop := S ∈ t.cmds ∧ t.delim = some d ∧ t.pieces = some p

/-- The triggers for one global and xecute string: those with a SET part are in one-to-one
correspondence with the entries by delim and pieces, and only the lowest index has other commands. -/
structure TableOk (e : Table) : Prop where
  trigs : ∀ (i : Nat) (t : Trig), e.index[i]? = some t → TrigOk t
  corresponds : ∀ d p i, e.sets[(d, p)]? = some i ↔ ∃ t, e.index[i]? = some t ∧ SetOn t d p
  lowest : ∀ (i : Nat) (t : Trig), e.index[i]? = some t → ∀ j ∈ e.index, j < i → t.cmds = {S}

theorem tableOk_none : TableOk Table.none := by
  constructor
  · intro i t h
    simp [Table.none] at h
  · intro d p i
    simp [Table.none]
  · intro i t h
    simp [Table.none] at h

theorem mem_index : i ∈ e.index ↔ ∃ t, e.index[i]? = some t := by
  rw [Std.ExtTreeMap.mem_iff_isSome_getElem?, Option.isSome_iff_exists]

theorem trig_of_get (h : e.index[i]? = some t) : e.trig i = t := by
  rw [Table.trig, h, Option.getD_some]

theorem get_trig (h : i ∈ e.index) : e.index[i]? = some (e.trig i) := by
  obtain ⟨t, ht⟩ := mem_index.mp h
  rw [ht, trig_of_get ht]

theorem TrigOk.ne_none (h : TrigOk t) : t ≠ Trig.none := by
  rintro rfl
  exact Finset.not_nonempty_empty h.commands

theorem first_mem (h : e.index ≠ ∅) : e.first ∈ e.index ∧ ∀ j ∈ e.index, e.first ≤ j := by
  obtain ⟨k, hk⟩ := Option.isSome_iff_exists.mp (Std.ExtTreeMap.isSome_minKey?_iff_ne_empty.mpr h)
  have hfirst : e.first = k := by rw [Table.first, hk, Option.getD_some]
  obtain ⟨hmem, hle⟩ := Std.ExtTreeMap.minKey?_eq_some_iff_mem_and_forall.mp hk
  rw [hfirst]
  exact ⟨hmem, fun j hj => Nat.isLE_compare.mp (hle j hj)⟩

theorem index_ne_empty (h : TableOk e) (hd : e.hasData = true) : e.index ≠ ∅ := by
  intro hi
  have hs : e.sets = ∅ := by
    apply Std.ExtHashMap.ext_getElem?
    rintro ⟨d, p⟩
    rw [Std.ExtHashMap.getElem?_empty, Option.eq_none_iff_forall_ne_some]
    intro k hk
    obtain ⟨t, ht, -⟩ := (h.corresponds d p k).mp hk
    rw [hi] at ht
    exact absurd ht (by simp)
  rw [Table.hasData, hi, hs] at hd
  exact absurd hd (by simp)

theorem index_put (h : t ≠ Trig.none) (j : Nat) :
    (e.put i t).index[j]? = if j = i then some t else e.index[j]? := by
  rw [Table.put, if_neg h, Std.ExtTreeMap.getElem?_insert]
  by_cases hj : j = i
  · simp [hj]
  · rw [if_neg hj, if_neg (fun hc => hj (Std.LawfulEqCmp.compare_eq_iff_eq.mp hc).symm)]

theorem index_erase (j : Nat) :
    (e.put i Trig.none).index[j]? = if j = i then none else e.index[j]? := by
  rw [Table.put, if_pos rfl, Std.ExtTreeMap.getElem?_erase]
  by_cases hj : j = i
  · simp [hj]
  · rw [if_neg hj, if_neg (fun hc => hj (Std.LawfulEqCmp.compare_eq_iff_eq.mp hc).symm)]

theorem mem_put (h : t ≠ Trig.none) : j ∈ (e.put i t).index ↔ j = i ∨ j ∈ e.index := by
  rw [mem_index, index_put h, mem_index]
  by_cases hj : j = i
  · simp [hj]
  · simp [hj]

theorem mem_erase : j ∈ (e.put i Trig.none).index ↔ j ≠ i ∧ j ∈ e.index := by
  rw [mem_index, index_erase, mem_index]
  by_cases hj : j = i
  · simp [hj]
  · simp [hj]

theorem TableOk.put (h : TableOk e) (ht : TrigOk t)
    (hi : i ∈ e.index ∨ ∀ j ∈ e.index, j < i) (hlow : ∀ j ∈ e.index, j < i → t.cmds = {S})
    (hsets : ∀ d p j, sets[(d, p)]? = some j ↔
      if j = i then SetOn t d p else e.sets[(d, p)]? = some j) :
    TableOk ⟨(e.put i t).index, sets⟩ := by
  have hget := index_put (e := e) (i := i) ht.ne_none
  refine ⟨?_, ?_, ?_⟩
  · intro j u hu
    rw [hget] at hu
    split at hu
    · exact Option.some.inj hu ▸ ht
    · exact h.trigs j u hu
  · intro d p j
    rw [hsets, hget]
    by_cases hj : j = i
    · simp [hj]
    · simp [hj, h.corresponds]
  · intro j u hu k hk hkj
    rw [hget] at hu
    have hk := (mem_put ht.ne_none).mp hk
    by_cases hj : j = i
    · subst hj
      rw [if_pos rfl] at hu
      have hk : k ∈ e.index := hk.resolve_left (Nat.ne_of_lt hkj)
      exact Option.some.inj hu ▸ hlow k hk hkj
    · rw [if_neg hj] at hu
      have hjmem : j ∈ e.index := mem_index.mpr ⟨u, hu⟩
      obtain rfl | hk := hk
      · obtain hi | hi := hi
        · exact h.lowest j u hu k hi hkj
        · exact absurd (hi j hjmem) (Nat.lt_asymm hkj)
      · exact h.lowest j u hu k hk hkj

theorem TableOk.erase (h : TableOk e)
    (hsets : ∀ (d p : Str) (j : Nat), sets[(d, p)]? = some j ↔ j ≠ i ∧ e.sets[(d, p)]? = some j) :
    TableOk ⟨(e.put i Trig.none).index, sets⟩ := by
  have hget := index_erase (e := e) (i := i)
  have hold : ∀ (j : Nat) (u : Trig), (e.put i Trig.none).index[j]? = some u →
      e.index[j]? = some u := by
    intro j u hu
    rw [hget] at hu
    split at hu
    · exact absurd hu (Option.some_ne_none u).symm
    · exact hu
  refine ⟨?_, ?_, ?_⟩
  · exact fun j u hu => h.trigs j u (hold j u hu)
  · intro d p j
    rw [hsets, h.corresponds, hget]
    by_cases hj : j = i
    · simp [hj]
    · simp [hj]
  · intro j u hu k hk hkj
    exact h.lowest j u (hold j u hu) k (mem_erase.mp hk).2 hkj

end YdbTest.TriggerLoad
