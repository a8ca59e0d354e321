import YdbTest.DbcargsLines

namespace YdbTest.Dbcargs

open MString Pieces
open DbcreateMulti (Opt Opts Entry entry test start parse fields)

def Unfixed (s : Opts) (o : Opt) : Prop :=
  o ∈ sizes.map opt ∧ (s.value o = [] ∨ hyphen ∈ s.value o ∨ comma ∈ s.value o)

/-- `dbcreate_multi.awk` gets the same options from both lines. -/
def Same (b : DbcreateMulti.Environ) (ws vs : List Str) : Prop :=
  (∀ o, ¬ Unfixed (parse b ws) o → (parse b vs).value o = (parse b ws).value o) ∧
    (parse b vs).journals = (parse b ws).journals

/-- The dropped words leave the options as they are without them. -/
def Untouched (b : DbcreateMulti.Environ) (ws : List Str) : Prop :=
  (∀ o, (∀ k ∈ defargs, Given ws k.1 → opt k.1 ≠ o) → ¬ Unfixed (parse b ws) o →
    (parse b ws).value o = (start b).value o) ∧ (parse b ws).journals = (start b).journals

/-- What `norandom` makes of the word is read like the word, but for a size it has cut. -/
def CutKept (i : Nat) (w : Str) : Prop :=
  entry i (cut (lower w)) = entry i w ∨ ∃ o ∈ sizes.map opt, ∃ y z,
    entry i w = some (.value o y) ∧ (hyphen ∈ y ∨ comma ∈ y) ∧
      entry i (cut (lower w)) = some (.value o z)

/-- The way through `error`. -/
def Fails (e : Environ) (draws : Draws) (ws : List Str) : Prop :=
  (randomize e draws (parseargs ws)).bind writeargs = none

/-- The lines without a range, and those whose words survive the way that is taken. -/
def Faithful (e : Environ) (draws : Draws) (b : DbcreateMulti.Environ) (ws : List Str) : Prop :=
  ws.any ranged = false ∨ (¬ Fails e draws ws ∧ Sorted ws ∧ Untouched b ws) ∨
    (Fails e draws ws ∧ ∀ i w, ws[i]? = some w → CutKept (i + 1) w)

variable {e : Environ} {draws : Draws} {b : DbcreateMulti.Environ} {ws us vs : List Str}
  {args args' : Args} {k : Arg × Str} {w : Str} {s s' : Opts} {i : Nat}

theorem fields_eq (h : ∀ w ∈ ws, w ≠ []) : fields ws = ws :=
  List.filter_eq_self.mpr fun w hw => decide_eq_true (h w hw)

theorem parse_eq (h : ∀ w ∈ ws, w ≠ []) : parse b ws = DbcreateMulti.read (start b) 1 ws := by
  rw [parse, fields_eq h]

theorem takeWhile_defargs {pre post : List (Arg × Str)} (h : defargs = pre ++ k :: post) :
    defargs.takeWhile (fun j => j.1 ≠ k.1) = pre := by
  have hnodup : (defargs.map Prod.fst).Nodup := by decide
  rw [h, List.map_append, List.map_cons] at hnodup
  have hne : ∀ j ∈ pre, j.1 ≠ k.1 := fun j hj heq =>
    List.disjoint_of_nodup_append hnodup (List.mem_map_of_mem hj) (heq ▸ List.mem_cons_self)
  rw [h, List.takeWhile_append_of_pos fun j hj => decide_eq_true (hne j hj),
    List.takeWhile_cons_of_neg (by simp), List.append_nil]

theorem randomize_isSome (h : randomize e draws args = some args') (a : Arg) :
    (args' a).isSome = (args a).isSome := by
  obtain ⟨heq, -⟩ | ⟨-, y, z, hy, -, hz, -⟩ := drawn_randomize h a
  · rw [heq]
  · rw [hy, hz]
    rfl

theorem same_iff_untouched (hne : ∀ w ∈ ws, w ≠ []) (hsorted : Sorted ws)
    (h : randomize e draws (parseargs ws) = some args') (hw : writeargs args' = some vs) :
    Same b ws vs ↔ Untouched b ws := by
  have hheld := held_parse hsorted (start b)
  rw [← parse_eq hne] at hheld
  have hgiven : ∀ a, (args' a).isSome ↔ Given ws a := fun a => by
    rw [randomize_isSome h, parseargs_isSome]
  have hfull : ∀ pre k post, defargs = pre ++ k :: post →
      (Full ws k.1 ↔ ∀ j ∈ pre, (args' j.1).isSome) := by
    intro pre k post hsplit
    rw [Full, takeWhile_defargs hsplit]
    exact forall₂_congr fun j _ => (hgiven j.1).symm
  let x : Arg → Str := fun a =>
    if a ∈ sizes then (args' a).getD [] else (parse b ws).value (opt a)
  have hc : ∀ k ∈ defargs, ∀ z, args' k.1 = some z → Carried (Full ws) k z (x k.1) := by
    intro k hk z hz
    have hcarried := carried_randomize hheld h hk hz
    simp only [x, hz, Option.getD_some]
    exact hcarried
  obtain ⟨hnonempty, hwritten, hothers, hjournals⟩ :=
    read_writeFrom hc hfull [] defargs rfl (start b)
  have hvs : vs = writeFrom args' defargs 1 0 := by
    rw [writeargs] at hw
    split at hw
    · exact absurd hw (Option.some_ne_none _).symm
    · exact (Option.some.inj hw).symm
  have hparse : parse b vs = DbcreateMulti.read (start b) 1 (writeFrom args' defargs 1 0) := by
    rw [hvs]
    exact parse_eq hnonempty
  rw [Same, hparse]
  constructor
  · rintro ⟨hvalue, hjournal⟩
    refine ⟨fun o ho hfixed => ?_, hjournal.symm.trans hjournals⟩
    rw [← hvalue o hfixed]
    exact hothers o fun k hk hsome => ho k hk ((hgiven k.1).mp hsome)
  · rintro ⟨hvalue, hjournal⟩
    refine ⟨fun o hfixed => ?_, hjournals.trans hjournal.symm⟩
    by_cases ho : ∀ k ∈ defargs, Given ws k.1 → opt k.1 ≠ o
    · rw [hvalue o ho hfixed]
      exact hothers o fun k hk hsome => ho k hk ((hgiven k.1).mp hsome)
    · push Not at ho
      obtain ⟨k, hk, hg, rfl⟩ := ho
      have hval : (DbcreateMulti.read (start b) 1 (writeFrom args' defargs 1 0)).value (opt k.1) =
          x k.1 := hwritten k hk ((hgiven k.1).mpr hg)
      rw [hval]
      by_cases hs : k.1 ∈ sizes
      · -- a size that is neither a range nor a list is written as it is
        obtain ⟨y, hy⟩ := Option.isSome_iff_exists.mp (parseargs_isSome.mpr hg)
        have hfit := hheld.fit k hk y hy
        rw [Fit, if_pos hs] at hfit
        obtain ⟨heq, -⟩ | ⟨-, y', z, hy', hlisted, -⟩ := drawn_randomize h k.1
        · simp only [x, if_pos hs]
          rw [heq, hy, Option.getD_some, hfit.1]
        · obtain rfl : y' = y := Option.some.inj (hy'.symm.trans hy)
          refine absurd ⟨List.mem_map_of_mem hs, Or.inr ?_⟩ hfixed
          rw [hfit.1]
          exact hlisted
      · simp only [x, if_neg hs]

theorem setPiece_ne_nil {v : Str} (hv : equals ∉ v) : setPiece w equals 2 v ≠ [] := by
  intro h
  have hsplit := splitOn_setPiece (s := w) (d := equals) (n := 2) (by decide) hv
  rw [h, List.splitOn_nil] at hsplit
  have hlen := congrArg List.length hsplit
  have hpos := List.length_pos_iff.mpr (List.splitOn_ne_nil equals w)
  rw [List.length_set, List.length_append, List.length_replicate, List.length_singleton] at hlen
  omega

theorem cut_ne_nil (hw : w ≠ []) : cut w ≠ [] := by
  rw [cut]
  have hcut : ∀ v : Str, v ≠ [] → (if cutValue v then canon (num v) else v) ≠ [] := by
    intro v hv
    split_ifs
    · exact (canon_plain _).1
    · exact hv
  refine hcut _ ?_
  split_ifs
  · exact setPiece_ne_nil (canon_plain _).2.1
  · exact hw

theorem lower_ne_nil (hw : w ≠ []) : lower w ≠ [] := fun h => hw (List.map_eq_nil_iff.mp h)

def CutSame (s s' : Opts) : Prop :=
  (∀ o, s'.value o = s.value o ∨
    o ∈ sizes.map opt ∧ (hyphen ∈ s.value o ∨ comma ∈ s.value o)) ∧ s'.journals = s.journals

theorem CutSame.enter (h : CutSame s s') (hk : CutKept i w) :
    CutSame (s.enter (entry i w)) (s'.enter (entry i (cut (lower w)))) := by
  obtain ⟨hvalue, hjournal⟩ := h
  obtain heq | ⟨o, ho, y, z, hy, hlisted, hz⟩ := hk
  · rw [heq]
    cases hentry : entry i w with
    | none => exact ⟨hvalue, hjournal⟩
    | some t =>
      cases t with
      | journal v => exact ⟨hvalue, congrArg (· ++ [v]) hjournal⟩
      | value o v =>
        refine ⟨fun o' => ?_, hjournal⟩
        by_cases hoo : o' = o
        · left
          simp only [Opts.enter, hoo, Function.update_self]
        · simp only [Opts.enter, Function.update_of_ne hoo]
          exact hvalue o'
  · rw [hy, hz]
    refine ⟨fun o' => ?_, hjournal⟩
    by_cases hoo : o' = o
    · right
      simp only [Opts.enter, hoo, Function.update_self]
      exact ⟨ho, hlisted⟩
    · simp only [Opts.enter, Function.update_of_ne hoo]
      exact hvalue o'

theorem CutSame.read (h : CutSame s s') (us : List Str) (i : Nat)
    (hus : ∀ j w, us[j]? = some w → CutKept (i + j) w) :
    CutSame (DbcreateMulti.read s i us) (DbcreateMulti.read s' i (norandom us)) := by
  induction us generalizing i s s' with
  | nil => exact h
  | cons w us ih =>
    refine ih (h.enter (hus 0 w rfl)) (i + 1) fun j u hu => ?_
    rw [Nat.add_right_comm, Nat.add_assoc]
    exact hus (j + 1) u hu

theorem same_norandom (hne : ∀ w ∈ ws, w ≠ [])
    (h : ∀ i w, ws[i]? = some w → CutKept (i + 1) w) : Same b ws (norandom ws) := by
  have hcut : ∀ w ∈ norandom ws, w ≠ [] := by
    intro w hw
    obtain ⟨v, hv, rfl⟩ := List.mem_map.mp hw
    exact cut_ne_nil (lower_ne_nil (hne v hv))
  have hsame : CutSame (parse b ws) (parse b (norandom ws)) := by
    rw [parse_eq hne, parse_eq hcut]
    refine CutSame.read ⟨fun _ => Or.inl rfl, rfl⟩ ws 1 fun j w hw => ?_
    rw [Nat.add_comm]
    exact h j w hw
  exact ⟨fun o hfixed => (hsame.1 o).resolve_right fun h => hfixed ⟨h.1, Or.inr h.2⟩, hsame.2⟩

/-- The written line means the same if its words survive. When each is kept or dropped, it means
the same just in case the dropped words do not matter. -/
theorem dbcargs_same (e : Environ) (draws : Draws) (b : DbcreateMulti.Environ) (l : CommandLine) :
    (Faithful e draws b l.words → Same b l.words (dbcargs e draws l.words)) ∧
      (l.words.any ranged = true → ¬ Fails e draws l.words → Sorted l.words →
        (Same b l.words (dbcargs e draws l.words) ↔ Untouched b l.words)) := by
  have hne : ∀ w ∈ l.words, w ≠ [] := fun w hw => (l.plain w hw).1
  have hwritten : l.words.any ranged = true → ¬ Fails e draws l.words → Sorted l.words →
      (Same b l.words (dbcargs e draws l.words) ↔ Untouched b l.words) := by
    intro hr hfails hsorted
    obtain ⟨vs, hvs⟩ := Option.ne_none_iff_exists'.mp hfails
    obtain ⟨args', hargs, hwrite⟩ := Option.bind_eq_some_iff.mp hvs
    rw [dbcargs, if_pos hr, hvs, Option.getD_some]
    exact same_iff_untouched hne hsorted hargs hwrite
  refine ⟨?_, hwritten⟩
  rintro (hr | ⟨hfails, hsorted, huntouched⟩ | ⟨hfails, hcut⟩)
  · rw [dbcargs, if_neg (by rw [hr]; decide)]
    exact ⟨fun _ _ => rfl, rfl⟩
  · by_cases hr : l.words.any ranged = true
    · exact (hwritten hr hfails hsorted).mpr huntouched
    · rw [dbcargs, if_neg hr]
      exact ⟨fun _ _ => rfl, rfl⟩
  · by_cases hr : l.words.any ranged = true
    · rw [dbcargs, if_pos hr, hfails, Option.getD_none]
      exact same_norandom hne hcut
    · rw [dbcargs, if_neg hr]
      exact ⟨fun _ _ => rfl, rfl⟩

theorem writable_of {full : Arg → Prop} {a : Arg} {y : Str} (hne : y ≠ []) (hc : comma ∉ y)
    (ht : test y = none) : Writable full a y := by
  intro z hz
  obtain rfl : z = y := by
    split at hz
    · rw [List.splitOn_eq_singleton hc] at hz
      exact List.mem_singleton.mp hz
    · exact List.mem_singleton.mp hz
  exact ⟨hne, fun _ => ht⟩

/-- Nothing is set in the environment, and all that is drawn is 0. -/
def unset : DbcreateMulti.Environ := ⟨false, false, false, false, false⟩

def zeros : Draws := ⟨fun _ => 0, fun _ => 0⟩

def plain : Environ := ⟨false, 70000⟩

def allocLine : CommandLine :=
  ⟨["mumps", "2", "64-128", "256", "-alloc=2048"].map lit, by decide⟩

theorem kept_place {full : Arg → Prop} (hi : 1 ≤ i) (hk : (defargs.take 15)[i - 1]? = some k)
    (hw : w.head? ≠ some hyphen) (hl : lower w = w) (hf : ¬ lit "-f" <:+: w) (hk' : k ∈ named)
    (heq : equals ∉ w) (hne : w ≠ []) (hc : comma ∉ w) : Kept full i w :=
  .place hi hk hw hl hf (Or.inr ⟨hk', heq⟩)
    (writable_of hne hc (DbcreateMulti.test_plain hw hf))

theorem sorted_allocLine : Sorted allocLine.words := by
  intro i w hw
  left
  have hlen : i < 5 := (List.getElem?_eq_some_iff.mp hw).1
  interval_cases i
  · obtain rfl : lit "mumps" = w := Option.some.inj hw
    exact .first (by decide) (by decide) (by decide)
  · obtain rfl : lit "2" = w := Option.some.inj hw
    exact kept_place (k := (.n_regions, lit "n_regions")) (by decide) rfl (by decide) (by decide)
      (by decide) (by decide) (by decide) (by decide) (by decide)
  · obtain rfl : lit "64-128" = w := Option.some.inj hw
    exact kept_place (k := (.key_size, lit "key_size")) (by decide) rfl (by decide) (by decide)
      (by decide) (by decide) (by decide) (by decide) (by decide)
  · obtain rfl : lit "256" = w := Option.some.inj hw
    exact kept_place (k := (.record_size, lit "record_size")) (by decide) rfl (by decide)
      (by decide) (by decide) (by decide) (by decide) (by decide) (by decide)
  · obtain rfl : hyphen :: (lit "al" ++ lit "loc") ++ equals :: lit "2048" = w :=
      Option.some.inj hw
    exact .value (a := .allocation) (Or.inl (by decide)) (by decide) (by decide) (by decide)
      (by decide) (by decide) (fun h => absurd h (by decide))
      (writable_of (by decide) (by decide) (by decide))

theorem untouched_allocLine : Untouched unset allocLine.words := by
  have hgiven : ∀ k ∈ defargs.take 6, k.1 ≠ .block_size →
      (parseargs allocLine.words k.1).isSome := by decide +kernel
  have hparse : parse unset allocLine.words = ((((((start unset).enter
      (some (.value .file_name (lit "mumps")))).enter (some (.value .n_regions (lit "2")))).enter
      (some (.value .key_size (lit "64-128")))).enter
      (some (.value .record_size (lit "256")))).enter
      (some (.value .allocation (lit "2048")))) := rfl
  refine ⟨fun o ho _ => ?_, by rw [hparse]; rfl⟩
  have hne : ∀ k ∈ defargs.take 6, k.1 ≠ .block_size → o ≠ opt k.1 := fun k hk hb heq =>
    ho k (List.mem_of_mem_take hk) (parseargs_isSome.mp (hgiven k hk hb)) heq.symm
  rw [hparse]
  simp only [defargs, List.take, List.forall_mem_cons, opt] at hne
  obtain ⟨hfile, hregions, hkey, hrec, -, halloc, -⟩ := hne
  rw [Opts.enter_of_ne (halloc (by decide)), Opts.enter_of_ne (hrec (by decide)),
    Opts.enter_of_ne (hkey (by decide)), Opts.enter_of_ne (hregions (by decide)),
    Opts.enter_of_ne (hfile (by decide))]

theorem dbcargs_same_alloc : Same unset allocLine.words (dbcargs plain zeros allocLine.words) ∧
    dbcargs plain zeros allocLine.words =
      ["mumps", "2", "64", "256", "-allocation=2048"].map lit :=
  ⟨(dbcargs_same plain zeros unset allocLine).1 (Or.inr (Or.inl
    ⟨by unfold Fails; decide +kernel, sorted_allocLine, untouched_allocLine⟩)), by decide +kernel⟩

/-- An option that is not in `defargs` is dropped, the file name gets lower-case letters, and the
way through `error` cuts a list that is no size. -/
theorem options_lost :
    (∃ l : CommandLine, l.words = ["mumps", "2", "64-128", "256", "-different_gld"].map lit ∧
      ¬ Same unset l.words (dbcargs plain zeros l.words)) ∧
    (∃ l : CommandLine, l.words = ["Mumps", "1", "64-128", "256"].map lit ∧
      ¬ Same unset l.words (dbcargs plain zeros l.words)) ∧
    ∃ l : CommandLine, l.words = ["mumps", "2", "-alloc=100,200"].map lit ∧
      ¬ Same unset l.words (dbcargs plain zeros l.words) := by
  refine ⟨⟨⟨_, by decide⟩, rfl, fun h => ?_⟩, ⟨⟨_, by decide⟩, rfl, fun h => ?_⟩,
    ⟨⟨_, by decide⟩, rfl, fun h => ?_⟩⟩
  · exact absurd (h.1 .different_gld (fun hu => absurd hu.1 (by decide))) (by decide +kernel)
  · exact absurd (h.1 .file_name (fun hu => absurd hu.1 (by decide))) (by decide +kernel)
  · exact absurd (h.1 .allocation (fun hu => absurd hu.1 (by decide))) (by decide +kernel)

end YdbTest.Dbcargs
