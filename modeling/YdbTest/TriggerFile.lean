import YdbTest.TriggerConsistent
import YdbTest.Pieces
import YdbTest.Separated

namespace YdbTest.TriggerLoad

open MString Delimiter Pieces

variable {g : Str} {i : Nat} {l : Line} {line : Str} {σ σ' : State} {lines : List Str}

def triggers (σ : State) : Set (Str × Str × Nat) := {q | q.2 ∈ (σ.hasht q.1).triggers}

/-- The table is as it should be for every global, and the indices are those that have been added
and not deleted. -/
structure Consistent (σ : State) : Prop where
  gvns : ∀ g, GvnOk (σ.hasht g)
  finite : (triggers σ).Finite
  total : (triggers σ).ncard + σ.deleted = σ.added

theorem ncard_triggers (hf : (triggers σ).Finite) (g : Str) :
    (triggers σ).ncard = (σ.hasht g).triggers.ncard + {q ∈ triggers σ | q.1 ≠ g}.ncard := by
  have himage : {q ∈ triggers σ | q.1 = g} = Set.image (Prod.mk g) (σ.hasht g).triggers := by
    ext ⟨y, q⟩
    rw [Set.mem_image]
    constructor
    · rintro ⟨hq, rfl⟩
      exact ⟨q, hq, rfl⟩
    · rintro ⟨r, hr, he⟩
      obtain ⟨rfl, rfl⟩ := Prod.mk.inj he
      exact ⟨hr, rfl⟩
  have hinj : Function.Injective (Prod.mk g : Str × Nat → Str × Str × Nat) :=
    Prod.mk_right_injective g
  rw [← Set.ncard_image_of_injective _ hinj, ← himage, ← Set.ncard_union_eq ?_ (hf.subset
    (Set.sep_subset _ _)) (hf.subset (Set.sep_subset _ _))]
  · congr 1
    ext q
    by_cases hq : q.1 = g
    · simp [hq]
    · simp [hq]
  · rw [Set.disjoint_left]
    exact fun q hq hq' => hq'.2 hq.2

theorem Consistent.moves (h : Consistent σ) (hm : Moves l 0 σ σ') : Consistent σ' := by
  have hothers : {q ∈ triggers σ' | q.1 ≠ l.gvn} = {q ∈ triggers σ | q.1 ≠ l.gvn} := by
    ext q
    by_cases hq : q.1 = l.gvn
    · simp [hq]
    · have := hm.others q.1 hq
      simp [hq, triggers, this]
  have hgvns : ∀ g, GvnOk (σ'.hasht g) := by
    intro g
    by_cases hg : g = l.gvn
    · rw [hg]
      exact hm.gvn
    · rw [hm.others g hg]
      exact h.gvns g
  have hfinite : (triggers σ').Finite := by
    have hsplit : triggers σ' ⊆ Set.image (Prod.mk l.gvn) (σ'.hasht l.gvn).triggers ∪
        {q ∈ triggers σ | q.1 ≠ l.gvn} := by
      intro q hq
      by_cases hg : q.1 = l.gvn
      · obtain ⟨y, q⟩ := q
        subst hg
        exact Or.inl ⟨q, hq, rfl⟩
      · rw [← hothers]
        exact Or.inr ⟨hq, hg⟩
    exact ((hm.gvn.finite.image _).union (h.finite.subset (Set.sep_subset _ _))).subset hsplit
  refine ⟨hgvns, hfinite, ?_⟩
  have h1 := ncard_triggers h.finite l.gvn
  have h2 := ncard_triggers hfinite l.gvn
  rw [hothers] at h2
  have hb := hm.balance
  have ht := h.total
  omega

theorem initial_consistent : Consistent initial := by
  have hnone : triggers initial = ∅ := by
    rw [Set.eq_empty_iff_forall_notMem]
    intro q hq
    have hq : q.2 ∈ Gvn.none.triggers := hq
    rw [triggers_none] at hq
    exact hq
  refine ⟨fun _ => gvnOk_none, ?_, ?_⟩
  · rw [hnone]
    exact Set.finite_empty
  · rw [hnone, Set.ncard_empty]
    rfl

theorem parse_ok (line : Str) : LineOk (parse line) := by
  constructor
  · exact Finset.notMem_erase _ _
  · intro hs
    have hs : S ∉ commaList (behind (piece line space 2) (lit "-commands=")) :=
      of_decide_eq_false hs
    have hne : (commaList (behind (piece line space 2) (lit "-commands="))).Nonempty := by
      rw [commaList, List.toFinset_nonempty_iff]
      exact List.splitOn_ne_nil _ _
    change (Finset.erase _ S).Nonempty
    rwa [Finset.erase_eq_of_notMem hs]

theorem count_consistent {r : Result} (h : Consistent r.state) : Consistent (count l r) := by
  unfold count
  simp only []
  split
  · exact ⟨h.gvns, h.finite, h.total⟩
  · exact ⟨h.gvns, h.finite, h.total⟩

theorem step_consistent (h : Consistent σ) (i : Nat) (line : Str) :
    ∃ σ', step σ i line = some σ' ∧ Consistent σ' := by
  have hl := parse_ok line
  unfold step
  simp only []
  split
  · exact ⟨_, rfl, count_consistent (h.moves (add_moves hl (h.gvns _) i))⟩
  · obtain ⟨r, hr, hm⟩ := delete_moves hl (h.gvns _) i
    rw [hr]
    exact ⟨_, rfl, count_consistent (h.moves hm)⟩

theorem loop_consistent (h : Consistent σ) (i : Nat) (lines : List Str) :
    ∃ σ', loop i lines σ = some σ' ∧ Consistent σ' := by
  induction lines generalizing i σ with
  | nil => exact ⟨σ, rfl, h⟩
  | cons line lines ih =>
    obtain ⟨σ', hs, hc⟩ := step_consistent h i line
    obtain ⟨σ'', hloop, hc'⟩ := ih hc (i + 1)
    refine ⟨σ'', ?_, hc'⟩
    rw [loop, hs]
    exact hloop

theorem loop_append (i : Nat) (rest : List Str) :
    loop i (lines ++ rest) σ = (loop i lines σ).bind (loop (i + lines.length) rest) := by
  induction lines generalizing i σ with
  | nil => rfl
  | cons line lines ih =>
    rw [List.cons_append, loop, loop]
    cases step σ i line with
    | none => rfl
    | some σ' =>
      have hlen : i + (line :: lines).length = i + 1 + lines.length := by
        rw [List.length_cons]
        omega
      rw [hlen]
      exact ih (i + 1)

section Text

variable (t : TrigLine)

theorem notMem_intercalate {c d : Nat} {ws : List Str} (hd : c ≠ d) (h : ∀ w ∈ ws, c ∉ w) :
    c ∉ [d].intercalate ws := by
  cases ws with
  | nil => exact List.not_mem_nil
  | cons w ws =>
    rw [Separated.intercalate_cons, List.mem_append, Separated.after, List.mem_flatMap, not_or]
    refine ⟨h w List.mem_cons_self, ?_⟩
    rintro ⟨u, hu, hc⟩
    obtain hc | hc := List.mem_cons.mp hc
    · exact hd hc
    · exact h u (List.mem_cons_of_mem w hu) hc

/-- The words of a line, between its spaces. -/
def TrigLine.words : List Str :=
  ((if t.add then lit "+" else lit "-") ++ (lit "^" ++ t.gbl)) ::
    (lit "-commands=" ++ [44].intercalate t.cmds) ::
    ((t.piecedelim.elim [] fun q => [lit "-pieces=" ++ q.1, lit "-delim=" ++ q.2]) ++
      [lit "-xecute=" ++ t.xecute.1, t.xecute.2] ++
      if t.options = [] then [] else [lit "-options=" ++ [44].intercalate t.options])

theorem text_eq : t.text = [space].intercalate t.words := by
  have h1 : lit " -commands=" = space :: lit "-commands=" := rfl
  have h2 : lit " -xecute=" = space :: lit "-xecute=" := rfl
  have h3 : lit " -pieces=" = space :: lit "-pieces=" := rfl
  have h4 : lit " -delim=" = space :: lit "-delim=" := rfl
  have h5 : lit " -options=" = space :: lit "-options=" := rfl
  unfold TrigLine.text TrigLine.words TrigLine.pickpiecedelim TrigLine.pickoptions
  by_cases ho : t.options = []
  · cases t.piecedelim with
    | none => simp [ho, h1, h2]
    | some q => simp [ho, h1, h2, h3, h4]
  · cases t.piecedelim with
    | none => simp [ho, h1, h2, h5]
    | some q => simp [ho, h1, h2, h3, h4, h5]

theorem words_notMem : ∀ w ∈ t.words, space ∉ w := by
  have hcmds : space ∉ [44].intercalate t.cmds :=
    notMem_intercalate (by decide) fun c hc => (t.cmds_words c hc).1
  have hoptions : space ∉ [44].intercalate t.options :=
    notMem_intercalate (by decide) fun o ho => (t.options_words o ho).1
  have hpieces : ∀ w ∈ t.piecedelim.elim [] (fun q => [lit "-pieces=" ++ q.1, lit "-delim=" ++ q.2]),
      space ∉ w := by
    cases hp : t.piecedelim with
    | none => exact fun w hw => absurd hw List.not_mem_nil
    | some q =>
      obtain ⟨h1, h2⟩ := t.piecedelim_words q hp
      simp only [Option.elim, List.mem_cons, List.not_mem_nil, or_false, forall_eq_or_imp, forall_eq,
        List.mem_append, not_or]
      exact ⟨⟨by decide, h1⟩, by decide, h2⟩
  intro w hw
  simp only [TrigLine.words, List.mem_cons, List.mem_append, List.not_mem_nil, or_false] at hw
  obtain rfl | rfl | (hw | rfl | rfl) | hw := hw
  · have hop : space ∉ (if t.add then lit "+" else lit "-") := by split <;> decide
    simp only [List.mem_append, not_or]
    exact ⟨hop, by decide, t.gbl_word.1⟩
  · simp only [List.mem_append, not_or]
    exact ⟨by decide, hcmds⟩
  · exact hpieces w hw
  · simp only [List.mem_append, not_or]
    exact ⟨by decide, t.xecute_words.1⟩
  · exact t.xecute_words.2
  · split at hw
    · exact absurd hw List.not_mem_nil
    · rw [List.mem_singleton.mp hw, List.mem_append, not_or]
      exact ⟨by decide, hoptions⟩

theorem piece_text (k : Nat) : piece t.text space (k + 1) = t.words.getD k [] := by
  rw [text_eq]
  exact piece_fields (words_notMem t) (List.cons_ne_nil _ _) k

theorem piece_at {k : Nat} {ws : List Str} (h : t.words.drop k = ws) (j : Nat) :
    piece t.text space (k + j + 1) = ws.getD j [] := by
  rw [piece_text, ← h, List.getD_eq_getElem?_getD, List.getD_eq_getElem?_getD, List.getElem?_drop]

theorem pieceTo_text {k : Nat} {a b : Str} {ws : List Str} (h : t.words.drop k = a :: b :: ws) :
    pieceTo t.text space (k + 1) (k + 2) = a ++ space :: b := by
  have hsplit : t.text.splitOn space = t.words := by
    rw [text_eq, List.splitOn_intercalate space (words_notMem t) (List.cons_ne_nil _ _)]
  rw [pieceTo, hsplit, List.drop_take, Nat.add_sub_cancel, h, Nat.add_sub_cancel_left,
    List.take_succ_cons, List.take_succ_cons, List.take_zero]
  simp

theorem behind_append {d s : Str} (hd : 45 :: d.tail = d) (hs : 45 ∉ s) : behind (d ++ s) d = s := by
  rw [behind, split_append_self hd, ← hd, split_of_notMem hs]
  rfl

theorem commaList_intercalate {ws : List Str} (hne : ws ≠ []) (h : ∀ w ∈ ws, 44 ∉ w) :
    commaList ([44].intercalate ws) = ws.toFinset := by
  rw [commaList, List.splitOn_intercalate 44 h hne]

theorem behind_options : behind ((if t.options = [] then [] else
    [lit "-options=" ++ [44].intercalate t.options]).getD 0 []) (lit "-options=") =
    [44].intercalate t.options := by
  have hdash : 45 ∉ [44].intercalate t.options :=
    notMem_intercalate (by decide) fun o ho => (t.options_words o ho).2.2.1
  by_cases ho : t.options = []
  · rw [if_pos ho, ho]
    rfl
  · rw [if_neg ho]
    exact behind_append rfl hdash

theorem options_text : (if [44].intercalate t.options = [] then ∅ else
    commaList ([44].intercalate t.options)) = t.options.toFinset := by
  cases ho : t.options with
  | nil => rfl
  | cons o os =>
    have hw := t.options_words
    rw [ho] at hw
    have hne : [44].intercalate (o :: os) ≠ [] := by
      rw [Separated.intercalate_cons]
      exact List.append_ne_nil_of_left_ne_nil (hw o List.mem_cons_self).2.2.2 _
    rw [if_neg hne, commaList_intercalate (List.cons_ne_nil o os) fun c hc => (hw c hc).2.1]

theorem parse_text : parse t.text = {
    add := t.add
    gvn := t.gbl
    setspecified := decide (S ∈ t.cmds)
    cmds := t.cmds.toFinset.erase S
    delim := t.piecedelim.elim [] fun q => lit "-delim=" ++ q.2
    pieces := t.piecedelim.elim [] fun q => lit "-pieces=" ++ q.1
    xecute := lit "-xecute=" ++ (t.xecute.1 ++ space :: t.xecute.2)
    options := t.options.toFinset } := by
  have hdash : 45 ∉ [44].intercalate t.cmds :=
    notMem_intercalate (by decide) fun c hc => (t.cmds_words c hc).2.2.1
  have hcmds : commaList (behind (piece t.text space 2) (lit "-commands=")) = t.cmds.toFinset := by
    have h2 : piece t.text space 2 = lit "-commands=" ++ [44].intercalate t.cmds := piece_text t 1
    rw [h2, behind_append rfl hdash,
      commaList_intercalate t.cmds_ne fun c hc => (t.cmds_words c hc).2.1]
  have h1 : piece t.text space 1 = (if t.add then lit "+" else lit "-") ++ (lit "^" ++ t.gbl) :=
    piece_text t 0
  have hadd : decide ((piece t.text space 1).take 1 = lit "+") = t.add := by
    rw [h1]
    cases t.add <;> rfl
  have hgvn : ((piece t.text space 1).take 99).drop 2 = t.gbl := by
    have hlen := t.gbl_word.2
    rw [h1]
    have hshort : t.gbl.take 97 = t.gbl := List.take_of_length_le (by omega)
    cases t.add <;> exact hshort
  cases hq : t.piecedelim with
  | none =>
    have hwords : t.words.drop 2 = (lit "-xecute=" ++ t.xecute.1) :: t.xecute.2 ::
        if t.options = [] then [] else [lit "-options=" ++ [44].intercalate t.options] := by
      simp [TrigLine.words, hq]
    have h3 : piece t.text space 3 = lit "-xecute=" ++ t.xecute.1 := piece_at t hwords 0
    have hxecute : pieceTo t.text space 3 4 = lit "-xecute=" ++ t.xecute.1 ++ space :: t.xecute.2 :=
      pieceTo_text t hwords
    have h5 := piece_at t hwords 2
    have hnot : piece (lit "-xecute=" ++ t.xecute.1) 61 1 ≠ lit "-pieces" := by
      have hx : piece (lit "-xecute=" ++ t.xecute.1) 61 1 = lit "-xecute" :=
        piece_first (p := lit "-xecute") (by decide) t.xecute.1
      rw [hx]
      decide
    have hopt : behind (piece t.text space 5) (lit "-options=") = [44].intercalate t.options :=
      (congrArg (behind · _) h5).trans (behind_options t)
    simp [parse, h3, hxecute, hopt, hadd, hgvn, hcmds, hnot, options_text]
  | some q =>
    have hwords : t.words.drop 2 = (lit "-pieces=" ++ q.1) :: (lit "-delim=" ++ q.2) ::
        (lit "-xecute=" ++ t.xecute.1) :: t.xecute.2 ::
        if t.options = [] then [] else [lit "-options=" ++ [44].intercalate t.options] := by
      simp [TrigLine.words, hq]
    have h3 : piece t.text space 3 = lit "-pieces=" ++ q.1 := piece_at t hwords 0
    have h4 : piece t.text space 4 = lit "-delim=" ++ q.2 := piece_at t hwords 1
    have hrest : t.words.drop 4 = (lit "-xecute=" ++ t.xecute.1) :: t.xecute.2 ::
        if t.options = [] then [] else [lit "-options=" ++ [44].intercalate t.options] := by
      simp [TrigLine.words, hq]
    have hxecute : pieceTo t.text space 5 6 = lit "-xecute=" ++ t.xecute.1 ++ space :: t.xecute.2 :=
      pieceTo_text t hrest
    have h7 := piece_at t hwords 4
    have hpieces : piece (lit "-pieces=" ++ q.1) 61 1 = lit "-pieces" :=
      piece_first (p := lit "-pieces") (by decide) q.1
    have hopt : behind (piece t.text space 7) (lit "-options=") = [44].intercalate t.options :=
      (congrArg (behind · _) h7).trans (behind_options t)
    simp [parse, h3, h4, hxecute, hopt, hadd, hgvn, hcmds, hpieces, options_text]

end Text

/-- No file that `randomtriggers` can write makes the load halt, and the table is consistent after
every line of it. -/
theorem gentrigload_consistent (ts rest : List TrigLine) : ∃ σ,
    gentrigload (ts.map TrigLine.text) = some σ ∧ Consistent σ ∧
      gentrigload ((ts ++ rest).map TrigLine.text) =
        loop (1 + ts.length) (rest.map TrigLine.text) σ := by
  obtain ⟨σ, hσ, hc⟩ := loop_consistent initial_consistent 1 (ts.map TrigLine.text)
  refine ⟨σ, hσ, hc, ?_⟩
  rw [gentrigload, List.map_append, loop_append, hσ, List.length_map]
  rfl

end YdbTest.TriggerLoad
