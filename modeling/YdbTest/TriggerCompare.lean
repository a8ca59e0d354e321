import YdbTest.TriggerReload

namespace YdbTest.TriggerSelect

open MString TriggerLoad TrigSplit Separated

variable {s u : SelectLine} {t t' : Trig} {x x' y y' : Str} {options : Finset Str}
  {k k' : Str × Str × Option (Str × Str)} {q : Str × Str × Event} {σ σ' : State}
  {linein linein' : List Str}

def fields (s : SelectLine) : List Str :=
  (lit "+^" ++ s.gbl) :: (lit "-commands=" ++ [comma].intercalate s.cmds) :: s.words

theorem text_fields (s : SelectLine) : s.text = [space].intercalate (fields s) := by
  have hcommands : lit " -commands=" = space :: lit "-commands=" := rfl
  rw [SelectLine.text, hcommands, fields, intercalate_cons]
  simp [after]

theorem fields_space (s : SelectLine) : ∀ w ∈ fields s, space ∉ w := by
  refine List.forall_mem_cons.mpr ⟨?_, List.forall_mem_cons.mpr ⟨?_, words_space⟩⟩
  · rw [List.mem_append, not_or]
    exact ⟨by decide, s.gbl_word.1⟩
  · rw [List.mem_append, not_or]
    exact ⟨by decide, cmds_space s⟩

theorem fields_inj (h : s.text = u.text) : fields s = fields u := by
  rw [← List.splitOn_intercalate space (fields_space s) (List.cons_ne_nil _ _), ← text_fields, h,
    text_fields, List.splitOn_intercalate space (fields_space u) (List.cons_ne_nil _ _)]

theorem words_inj (ho : s.options = u.options) (h : s.words = u.words) :
    s.piecedelim = u.piecedelim ∧ s.xecute = u.xecute := by
  rw [SelectLine.words, SelectLine.words, ho, List.append_assoc, List.append_assoc] at h
  have hrest := List.append_cancel_left h
  cases hs : s.piecedelim with
  | none =>
    cases hu : u.piecedelim with
    | none =>
      rw [hs, hu] at hrest
      obtain ⟨h1, h2⟩ := List.cons.inj hrest
      exact ⟨rfl, Prod.ext (List.append_cancel_left h1) (List.cons.inj h2).1⟩
    | some q =>
      rw [hs, hu] at hrest
      exact absurd (congrArg List.length hrest) (by simp)
  | some p =>
    cases hu : u.piecedelim with
    | none =>
      rw [hs, hu] at hrest
      exact absurd (congrArg List.length hrest) (by simp)
    | some q =>
      rw [hs, hu] at hrest
      obtain ⟨hdelim, hrest⟩ := List.cons.inj hrest
      obtain ⟨hpieces, hrest⟩ := List.cons.inj hrest
      obtain ⟨h1, h2⟩ := List.cons.inj hrest
      have hpq : p = q :=
        Prod.ext (List.append_cancel_left hpieces) (List.append_cancel_left hdelim)
      exact ⟨congrArg some hpq, Prod.ext (List.append_cancel_left h1) (List.cons.inj h2).1⟩

theorem text_inj (ho : s.options = u.options) (h : s.text = u.text) :
    s.gbl = u.gbl ∧ s.cmds = u.cmds ∧ s.piecedelim = u.piecedelim ∧ s.xecute = u.xecute := by
  obtain ⟨hgbl, hrest⟩ := List.cons.inj (fields_inj h)
  obtain ⟨hcmds, hwords⟩ := List.cons.inj hrest
  have hcomma (s : SelectLine) : ∀ c ∈ s.cmds, comma ∉ c := fun c hc => (s.cmds_words c hc).2.1
  refine ⟨List.append_cancel_left hgbl, ?_, words_inj ho hwords⟩
  rw [← List.splitOn_intercalate comma (hcomma s) s.cmds_ne, List.append_cancel_left hcmds,
    List.splitOn_intercalate comma (hcomma u) u.cmds_ne]

theorem line_inj (hw : Written options y x t) (ht : TrigOk t) (hw' : Written options y' x' t')
    (ht' : TrigOk t') (ho : options ⊆ optionWords.toFinset) (h : line y x t = line y' x' t') :
    (y = y' ∧ x = x') ∧ t.cmds = t'.cmds ∧ t.delim.getD [] = t'.delim.getD [] ∧
      t.pieces.getD [] = t'.pieces.getD [] := by
  obtain ⟨s, hs⟩ := exists_renders hw ht ho
  obtain ⟨u, hu⟩ := exists_renders hw' ht' ho
  have hoptions : s.options = u.options := by rw [hs.options, hu.options, hw.options, hw'.options]
  rw [← hs.text, ← hu.text] at h
  obtain ⟨hgbl, hcmds, hpiecedelim, hxecute⟩ := text_inj hoptions h
  refine ⟨⟨?_, ?_⟩, ?_, ?_, ?_⟩
  · rw [← hs.gbl, ← hu.gbl, hgbl]
  · rw [← hs.xecute, ← hu.xecute, hxecute]
  · rw [← toFinset_filter hw.form.cmds, ← hs.cmds, hcmds, hu.cmds, toFinset_filter hw'.form.cmds]
  · rw [hs.delim, hu.delim, hpiecedelim]
  · rw [hs.pieces, hu.pieces, hpiecedelim]

def keyTrig (options : Finset Str) (kills : Str → Str → Finset Str)
    (k : Str × Str × Option (Str × Str)) : Trig :=
  k.2.2.elim ⟨kills k.1 k.2.1, options, none, none⟩ fun q => ⟨{S}, options, some q.1, some q.2⟩

theorem Loaded.keyTrig_written (h : Loaded options linein σ) (hk : k ∈ keys linein σ) :
    Written options k.1 k.2.1 (keyTrig options (kills σ.hasht) k) ∧
      TrigOk (keyTrig options (kills σ.hasht) k) := by
  obtain ⟨r, hr, hk⟩ := List.mem_flatMap.mp hk
  obtain ⟨ht, hw⟩ := h.entry hr
  obtain ⟨⟨hy, hx⟩, a, hka, hon⟩ := (mem_keysOf ht).mp hk
  obtain ⟨y, x, o⟩ := k
  obtain rfl : y = r.gvn := hy
  obtain rfl : x = r.xecute := hx
  cases o with
  | none =>
    obtain ⟨c, rfl⟩ := hka
    have hne : (r.trig.cmds.erase S).Nonempty := ⟨c, Finset.mem_erase.mpr ⟨hon.2, hon.1⟩⟩
    have hkills := (kills_eq (h.table _ _) (mem_entries.mp hr).2 hne).2
    rw [keyTrig, Option.elim_none, hkills]
    refine ⟨⟨hw.key, ⟨(Finset.erase_subset _ _).trans hw.form.cmds, fun d hd => ?_⟩, rfl⟩,
      ⟨hne, fun hS => absurd hS (Finset.notMem_erase S _), fun _ => ⟨rfl, rfl⟩⟩⟩
    cases hd
  | some q =>
    obtain rfl : a = _ := hka
    obtain ⟨hS, hd, hp⟩ := hon
    have hcmds : {S} ⊆ commands.toFinset := by decide
    refine ⟨⟨hw.key, ⟨hcmds, fun d hd' p hp' => ?_⟩, rfl⟩, ⟨Finset.singleton_nonempty S,
      fun _ => ⟨rfl, rfl⟩, fun hn => absurd (Finset.mem_singleton_self S) hn⟩⟩
    obtain rfl := Option.some.inj hd'
    obtain rfl := Option.some.inj hp'
    exact hw.form.pieceDelim _ hd _ hp

theorem keyLine_inj (h : Loaded options linein σ) (h' : Loaded options linein' σ')
    (ho : options ⊆ optionWords.toFinset) (hk : k ∈ keys linein σ) (hk' : k' ∈ keys linein' σ')
    (heq : keyLine options (kills σ.hasht) k = keyLine options (kills σ'.hasht) k') :
    k = k' ∧ (k.2.2 = none → kills σ.hasht k.1 k.2.1 = kills σ'.hasht k.1 k.2.1) := by
  obtain ⟨hw, ht⟩ := h.keyTrig_written hk
  obtain ⟨hw', ht'⟩ := h'.keyTrig_written hk'
  obtain ⟨⟨hy, hx⟩, hcmds, hdelim, hpieces⟩ := line_inj hw ht hw' ht' ho heq
  have hS (τ : State) (y x : Str) : kills τ.hasht y x ≠ {S} := fun hn =>
    absurd (hn ▸ Finset.mem_singleton_self S) (Finset.notMem_erase S _)
  obtain ⟨y, x, o⟩ := k
  obtain ⟨y', x', o'⟩ := k'
  obtain rfl : y = y' := hy
  obtain rfl : x = x' := hx
  cases o with
  | none =>
    cases o' with
    | none => exact ⟨rfl, fun _ => hcmds⟩
    | some q' => exact absurd hcmds (hS σ y x)
  | some q =>
    cases o' with
    | none => exact absurd hcmds.symm (hS σ' y x)
    | some q' =>
      obtain rfl : q = q' := Prod.ext hdelim hpieces
      exact ⟨rfl, fun hn => absurd hn (Option.some_ne_none q)⟩

theorem events_of_lines (h : Loaded options linein σ) (h' : Loaded options linein' σ')
    (ho : options ⊆ optionWords.toFinset)
    (hlines : (keys linein σ).map (keyLine options (kills σ.hasht)) ⊆
      (keys linein' σ').map (keyLine options (kills σ'.hasht)))
    (hq : q ∈ events σ.hasht) : q ∈ events σ'.hasht := by
  have hkey (k) (hk : k ∈ keys linein σ) : k ∈ keys linein' σ' ∧
      (k.2.2 = none → kills σ.hasht k.1 k.2.1 = kills σ'.hasht k.1 k.2.1) := by
    obtain ⟨k', hk', heq⟩ := List.mem_map.mp (hlines (List.mem_map_of_mem hk))
    obtain ⟨rfl, hkills⟩ := keyLine_inj h h' ho hk hk' heq.symm
    exact ⟨hk', hkills⟩
  obtain ⟨y, x, a⟩ := q
  cases a with
  | command c =>
    have hk : (y, x, none) ∈ keys linein σ := h.mem_keys.mpr ⟨_, ⟨c, rfl⟩, hq⟩
    rw [← mem_kills (h'.table y x), ← (hkey _ hk).2 rfl, mem_kills (h.table y x)]
    exact hq
  | set d p =>
    have hk : (y, x, some (d, p)) ∈ keys linein σ := h.mem_keys.mpr ⟨_, rfl, hq⟩
    obtain ⟨a, rfl, ha⟩ := h'.mem_keys.mp (hkey _ hk).1
    exact ha

theorem perm_iff (h : Loaded options linein σ) (h' : Loaded options linein' σ')
    (ho : options ⊆ optionWords.toFinset) (region : Str → Str) :
    (trigsplit (grepV (selectout region linein' σ'))).Perm
        (trigsplit (grepV (selectout region linein σ))) ↔
      events σ'.hasht = events σ.hasht := by
  constructor
  · rw [h.split_selectout ho, h'.split_selectout ho]
    intro hperm
    ext q
    constructor
    · exact events_of_lines h' h ho hperm.subset
    · exact events_of_lines h h' ho hperm.symm.subset
  · exact fun he => perm_of_events h h' ho he region

/-- The comparison finds each difference between what two files leave: the select files agree, once
split and sorted, exactly when the two files with the same options leave the same triggers. -/
theorem compare_iff (region : Str → Str) (linein linein' : List Str)
    (h : RandomTriggers.randomtriggers.Can linein) (h' : RandomTriggers.randomtriggers.Can linein')
    (hsame : ∀ line ∈ linein, ∀ line' ∈ linein', (parse line).options = (parse line').options) :
    ∃ σ σ', gentrigload linein = some σ ∧ gentrigload linein' = some σ' ∧
      ((trigsplit (grepV (selectout region linein' σ'))).Perm
          (trigsplit (grepV (selectout region linein σ))) ↔
        (linein'.map parse).foldl Line.apply ∅ = (linein.map parse).foldl Line.apply ∅) := by
  obtain ⟨options, ho, hlines⟩ := exists_written h
  obtain ⟨options', -, hlines'⟩ := exists_written h'
  obtain ⟨line, hline⟩ : ∃ line, line ∈ linein := by
    obtain ⟨g, n, -, -, os, -, ts, hlen, -, rfl⟩ := RandomTriggers.exists_lines h
    apply List.exists_mem_of_length_pos
    rw [List.length_map, hlen]
    exact Nat.two_pow_pos n
  have hlines'' : ∀ line' ∈ linein', LineWritten options (parse line') := fun line' hline' =>
    ⟨(hlines' line' hline').key, (hlines' line' hline').cmds,
      (hsame line hline line' hline').symm.trans (hlines line hline).options,
      (hlines' line' hline').pieceDelim⟩
  obtain ⟨σ, hσ, hloaded, hevents⟩ := exists_loaded hlines
  obtain ⟨σ', hσ', hloaded', hevents'⟩ := exists_loaded hlines''
  refine ⟨σ, σ', hσ, hσ', ?_⟩
  rw [← hevents, ← hevents']
  exact perm_iff hloaded hloaded' ho region

theorem compare_iff_two : ∃ σ σ',
    gentrigload [lit "+^a -commands=S -xecute=\"do ^twork(66)\""] = some σ ∧
      gentrigload [lit "+^a -commands=K -xecute=\"do ^twork(66)\""] = some σ' ∧
      ((trigsplit (grepV (selectout (fun _ => lit "AREG")
          [lit "+^a -commands=K -xecute=\"do ^twork(66)\""] σ'))).Perm
          (trigsplit (grepV (selectout (fun _ => lit "AREG")
            [lit "+^a -commands=S -xecute=\"do ^twork(66)\""] σ))) ↔
        ([lit "+^a -commands=K -xecute=\"do ^twork(66)\""].map parse).foldl Line.apply ∅ =
          ([lit "+^a -commands=S -xecute=\"do ^twork(66)\""].map parse).foldl Line.apply ∅) := by
  obtain ⟨t, ht, htext⟩ := exists_plain true [S] (by decide) (by decide) (Nat.zero_le 1)
  obtain ⟨u, hu, hutext⟩ := exists_plain true [K] (by decide) (by decide) (Nat.zero_le 1)
  have hcan := can_ones (Nat.zero_le 10) rfl (List.forall_mem_singleton.mpr ht)
  have hcan' := can_ones (Nat.zero_le 10) rfl (List.forall_mem_singleton.mpr hu)
  have hoptions : (parse t.text).options = (parse u.text).options := by
    rw [parse_text, parse_text, ht.options, hu.options]
  have hS : t.text = lit "+^a -commands=S -xecute=\"do ^twork(66)\"" := htext
  have hK : u.text = lit "+^a -commands=K -xecute=\"do ^twork(66)\"" := hutext
  rw [← hS, ← hK]
  refine compare_iff (fun _ => lit "AREG") [t.text] [u.text] hcan hcan' fun line h line' h' => ?_
  rw [List.mem_singleton.mp h, List.mem_singleton.mp h']
  exact hoptions

/-- The lines for one xecute string of a global. -/
def keyed (y x : Str) (linein : List Str) : List Str :=
  linein.filter fun line => (parse line).gvn = y ∧ (parse line).xecute = x

theorem keyed_cons {line : Str} : keyed y x (line :: linein) =
    if (parse line).gvn = y ∧ (parse line).xecute = x then line :: keyed y x linein
    else keyed y x linein := by
  rw [keyed, List.filter_cons]
  simp only [decide_eq_true_eq]
  rfl

theorem mem_keyed {line : Str} :
    line ∈ keyed y x linein ↔ line ∈ linein ∧ (parse line).gvn = y ∧ (parse line).xecute = x := by
  rw [keyed, List.mem_filter, decide_eq_true_iff]

theorem mem_apply_other {l : Line} (s : Set (Str × Str × Event))
    (hl : ¬ (l.gvn = q.1 ∧ l.xecute = q.2.1)) : q ∈ Line.apply s l ↔ q ∈ s := by
  have hq : q ∉ l.targets := fun hq => hl ⟨hq.1.1.symm, hq.1.2.symm⟩
  rw [Line.apply]
  split_ifs
  · exact or_iff_left hq
  · exact and_iff_left hq

theorem mem_apply_congr {l : Line} {s s' : Set (Str × Str × Event)} (h : q ∈ s ↔ q ∈ s') :
    q ∈ Line.apply s l ↔ q ∈ Line.apply s' l := by
  rw [Line.apply, Line.apply]
  split_ifs
  · exact or_congr_left h
  · exact and_congr_left fun _ => h

theorem mem_foldl_keyed (s s' : Set (Str × Str × Event)) (h : q ∈ s ↔ q ∈ s') :
    q ∈ (linein.map parse).foldl Line.apply s ↔
      q ∈ ((keyed q.1 q.2.1 linein).map parse).foldl Line.apply s' := by
  induction linein generalizing s s' with
  | nil => exact h
  | cons line linein ih =>
    by_cases hl : (parse line).gvn = q.1 ∧ (parse line).xecute = q.2.1
    · rw [keyed_cons, if_pos hl]
      exact ih _ _ (mem_apply_congr h)
    · rw [keyed_cons, if_neg hl]
      exact ih _ _ ((mem_apply_other s hl).trans h)

/-- Nothing but the order of the lines for the same global and xecute string matters to the select
file, once it is split and sorted. -/
theorem select_of_keyed (region : Str → Str) (linein linein' : List Str)
    (h : RandomTriggers.randomtriggers.Can linein)
    (hkeyed : ∀ y x, keyed y x linein' = keyed y x linein) :
    ∃ σ σ', gentrigload linein = some σ ∧ gentrigload linein' = some σ' ∧
      (trigsplit (grepV (selectout region linein' σ'))).Perm
        (trigsplit (grepV (selectout region linein σ))) := by
  obtain ⟨options, ho, hlines⟩ := exists_written h
  have hlines' : ∀ line ∈ linein', LineWritten options (parse line) := by
    intro line hline
    have hmem := mem_keyed.mpr ⟨hline, rfl, rfl⟩
    rw [hkeyed] at hmem
    exact hlines line (mem_keyed.mp hmem).1
  obtain ⟨σ, hσ, hloaded, hevents⟩ := exists_loaded hlines
  obtain ⟨σ', hσ', hloaded', hevents'⟩ := exists_loaded hlines'
  have he : events σ'.hasht = events σ.hasht := by
    ext q
    rw [hevents, hevents', mem_foldl_keyed ∅ ∅ Iff.rfl, hkeyed]
    exact (mem_foldl_keyed ∅ ∅ Iff.rfl).symm
  exact ⟨σ, σ', hσ, hσ', perm_of_events hloaded hloaded' ho he region⟩

theorem select_of_keyed_two : ∃ σ σ',
    gentrigload [lit "+^a -commands=S -xecute=\"do ^twork(66)\"",
      lit "+^b -commands=K -xecute=\"do ^twork(66)\""] = some σ ∧
    gentrigload [lit "+^b -commands=K -xecute=\"do ^twork(66)\"",
      lit "+^a -commands=S -xecute=\"do ^twork(66)\""] = some σ' ∧
    (trigsplit (grepV (selectout (fun _ => lit "AREG")
      [lit "+^b -commands=K -xecute=\"do ^twork(66)\"",
        lit "+^a -commands=S -xecute=\"do ^twork(66)\""] σ'))).Perm
      (trigsplit (grepV (selectout (fun _ => lit "AREG")
        [lit "+^a -commands=S -xecute=\"do ^twork(66)\"",
          lit "+^b -commands=K -xecute=\"do ^twork(66)\""] σ))) := by
  obtain ⟨t, ht, htext⟩ := exists_plain true [S] (by decide) (by decide) (Nat.zero_le 1)
  obtain ⟨u, hu, hutext⟩ := exists_plain true [K] (by decide) (by decide) le_rfl
  have hS : t.text = lit "+^a -commands=S -xecute=\"do ^twork(66)\"" := htext
  have hK : u.text = lit "+^b -commands=K -xecute=\"do ^twork(66)\"" := hutext
  have hcan := can_ones (Nat.one_le_ofNat) rfl (List.forall_mem_cons.mpr
    ⟨ht, List.forall_mem_singleton.mpr hu⟩)
  have hne : (parse t.text).gvn ≠ (parse u.text).gvn := by
    rw [hS, hK]
    decide
  rw [← hS, ← hK]
  refine select_of_keyed (fun _ => lit "AREG") [t.text, u.text] [u.text, t.text] hcan fun y x => ?_
  by_cases hy : (parse t.text).gvn = y ∧ (parse t.text).xecute = x
  · have hother : ¬ ((parse u.text).gvn = y ∧ (parse u.text).xecute = x) :=
      fun hu => hne (hy.1.trans hu.1.symm)
    simp only [keyed_cons, if_pos hy, if_neg hother]
  · simp only [keyed_cons, if_neg hy]

end YdbTest.TriggerSelect
