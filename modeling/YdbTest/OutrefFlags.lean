import Mathlib.Data.List.Nodup
import YdbTest.Awk
import YdbTest.Marks

namespace YdbTest.OutrefFlags

open Awk Marks

def blank (c : Char) : Bool := c == ' ' || c == '\t'

def fields (s : Text) : List Text := (s.splitOnP blank).filter (· ≠ [])

/-- `process(option,"correct")`. -/
def process (option : Text) : Text := option.map Char.toUpper

def HOST_ALL : Text := "HOST_ALL".toList

def ALLOW_OUTPUT : Text := "##ALLOW_OUTPUT".toList

def SUSPEND_OUTPUT : Text := "##SUSPEND_OUTPUT".toList

def simple (c : Char) : Bool := c ∉ "\\^$*+?()[]\x7b\x7d|".toList

def sign (a b : Char) : Bool := a == '.' || a == b

/-- `gensub(p,r,"g",t)` for a pattern of simple signs. -/
def gensub (p r t : Text) : Text := replace sign p r t

def flag (w : Text) : Text := '#' :: (w ++ ['#'])

structure Platform where
  all_platforms : List Text
  tst_org_host : Text
  tst_hostos_machtype : Text
  tst_machtype : Text
  tst_osname : Text
  tst_linux_distrib : Text

def Platform.machine (P : Platform) : List Text :=
  [P.tst_hostos_machtype, P.tst_machtype, P.tst_osname, P.tst_linux_distrib]

/-- An entry of `envir`, as the end of BEGIN leaves it. -/
def elem (v : Text) : Text := if v = [] then ['@'] else flag v

section Rules

variable (P : Platform)

def envlist : Text :=
  elem P.tst_org_host ++ ' ' :: (P.tst_machtype ++ ' ' :: (P.tst_osname ++ ' ' :: P.tst_linux_distrib))

def clear (deny w : Text) : Text := gensub (flag w) ['#'] deny

def allow (deny field : Text) : Text :=
  let deny :=
    if HOST_ALL ≠ process field then clear deny (process field)
    -- the entry of the host already has its own marks
    else clear (P.all_platforms.foldl clear deny) (elem P.tst_org_host)
  if index (envlist P) (process field) ≠ 0 then
    clear (clear (clear (clear deny P.tst_hostos_machtype) P.tst_machtype) P.tst_osname)
      P.tst_linux_distrib
  else deny

def add (deny w : Text) : Text := if index deny (flag w) = 0 then deny ++ flag w else deny

def suspend (deny field : Text) : Text :=
  if HOST_ALL ≠ process field then add deny (process field) else P.all_platforms.foldl add deny

abbrev Marked (mark line : Text) : Prop := mark <:+: (fields line).headD []

/-- `deny` after a line of the reference file. -/
def denyAfter (deny line : Text) : Text :=
  if Marked ALLOW_OUTPUT line then (fields line).tail.foldl (allow P) deny
  else if Marked SUSPEND_OUTPUT line then squeeze '#' ((fields line).tail.foldl (suspend P) deny)
  else deny

def printed (envir : List Text) (deny line : Text) : List Text :=
  if Marked ALLOW_OUTPUT line ∨ Marked SUSPEND_OUTPUT line then []
  else if envir.all (fun v => index deny (elem v) = 0) then [line] else []

/-- The reference file as the rules on flags expand it. -/
def expand (envir : List Text) : Text → List Text → List Text
  | _, [] => []
  | deny, line :: lines => printed envir deny line ++ expand envir (denyAfter P deny line) lines

end Rules

section Fields

def Word (w : Text) : Prop := w ≠ [] ∧ w.all (fun c => !blank c)

instance : DecidablePred Word := fun w => inferInstanceAs (Decidable (w ≠ [] ∧ w.all (fun c => !blank c)))

variable {w : Text} {ws : List Text}

theorem fields_word (hw : Word w) : fields w = [w] := by
  have hsplit : w.splitOnP blank = [w] := List.splitOnP_eq_singleton (by simpa using hw.2)
  rw [fields, hsplit, List.filter_cons_of_pos (by simpa using hw.1), List.filter_nil]

theorem fields_skip (s : Text) : fields (' ' :: s) = fields s := by
  have hblank : blank ' ' = true := rfl
  rw [fields, List.splitOnP_cons_eq_if_modifyHead, if_pos hblank, List.filter_cons_of_neg (by simp),
    fields]

theorem fields_blank (hw : Word w) (s : Text) : fields (w ++ ' ' :: s) = w :: fields s := by
  have hsplit : w.splitOnP blank = [w] := List.splitOnP_eq_singleton (by simpa using hw.2)
  rw [fields, List.splitOnP_append_cons w s rfl, hsplit, List.singleton_append,
    List.filter_cons_of_pos (by simpa using hw.1), fields]

theorem fields_words (hw : Word w) (hws : ∀ v ∈ ws, Word v) :
    fields (w ++ ws.flatMap (' ' :: ·)) = w :: ws := by
  induction ws generalizing w with
  | nil =>
    rw [List.flatMap_nil, List.append_nil]
    exact fields_word hw
  | cons v vs ih =>
    rw [List.forall_mem_cons] at hws
    rw [List.flatMap_cons, List.cons_append, fields_blank hw, ih hws.1 hws.2]

theorem fields_words_skip (hw : Word w) (hws : ∀ v ∈ ws, Word v) (hne : ws ≠ []) :
    fields (w ++ ' ' :: ws.flatMap (' ' :: ·)) = w :: ws := by
  obtain ⟨v, vs, rfl⟩ := List.exists_cons_of_ne_nil hne
  rw [List.forall_mem_cons] at hws
  rw [fields_blank hw, List.flatMap_cons, List.cons_append, fields_skip, fields_words hws.1 hws.2]

end Fields

theorem sign_refl (a : Char) : sign a a := by simp [sign]

theorem sign_mark (a : Char) : sign '#' a ↔ a = '#' := by
  have hdot : ('#' == '.') = false := rfl
  rw [sign, hdot, Bool.false_or, beq_iff_eq, eq_comm]

/-- Options that the marks in `deny` keep apart, and patterns that each match no more than one. -/
structure Apart (ws ps : List Text) : Prop where
  word : ∀ w ∈ ws, Word w
  plain : ∀ w ∈ ws, '#' ∉ w
  simple : ∀ p ∈ ps, p.all simple
  alone : ∀ p ∈ ps, Alone sign '#' ws p

structure Readable (P : Platform) (ws : List Text) : Prop extends Apart ws (ws ++ P.machine) where
  upper : ∀ w ∈ ws, process w = w
  not_all : HOST_ALL ∉ ws
  platform : ∀ w ∈ P.machine, w ∉ ws

/-- The text in `deny` holds the flags `us`, each once. -/
def Denies (deny : Text) (us : List Text) : Prop := us.Nodup ∧ (deny = [] ∧ us = [] ∨ deny = blocks '#' us)

/-- As `Denies`, with the marks that a SUSPEND_OUTPUT line puts twice. -/
def DeniesTwice (deny : Text) (us : List Text) : Prop :=
  deny = [] ∧ us = [] ∨ ∃ vs, deny = blocks '#' vs ∧ vs.filter (· ≠ []) = us

def clears (P : Platform) (w : Text) : List Text :=
  (if HOST_ALL ≠ w then [w] else P.all_platforms ++ [elem P.tst_org_host]) ++
    if index (envlist P) w ≠ 0 then P.machine else []

/-- What a SUSPEND_OUTPUT line puts in for an option. -/
def adds (P : Platform) (w : Text) : List Text := if HOST_ALL ≠ w then [w] else P.all_platforms

def suspended (us fs : List Text) : List Text :=
  fs.foldl (fun us w => if w ∈ us then us else us ++ [w]) us

section Flags

variable {P : Platform} {ws ps us fs : List Text} {deny w : Text}

theorem allow_eq (deny field : Text) : allow P deny field = (clears P (process field)).foldl clear deny := by
  rw [allow, clears, List.foldl_append]
  split_ifs
  · rfl
  · rw [List.foldl_append]
    rfl
  · rfl
  · rw [List.foldl_append]
    rfl

theorem suspend_eq (deny field : Text) : suspend P deny field = (adds P (process field)).foldl add deny := by
  rw [suspend, adds]
  split_ifs
  · rfl
  · rfl

theorem clear_denies (hr : Apart ws ps) (hsub : us ⊆ ws) (hw : w ∈ ps) (h : Denies deny us) :
    Denies (clear deny w) (us.erase w) := by
  obtain ⟨hnodup, ⟨rfl, rfl⟩ | rfl⟩ := h
  · exact ⟨hnodup, .inl ⟨rfl, rfl⟩⟩
  · refine ⟨hnodup.erase w, .inr ?_⟩
    exact replace_blocks sign_mark (fun u hu => hr.plain u (hsub hu)) sign_refl
      (fun vs hne hvs => hr.alone w hw vs hne (List.Subset.trans hvs hsub)) hnodup

theorem clear_foldl (hr : Apart ws ps) (hsub : us ⊆ ws) (hfs : fs ⊆ ps) (h : Denies deny us) :
    Denies (fs.foldl clear deny) (us.diff fs) := by
  induction fs generalizing us deny with
  | nil => exact h
  | cons f fs ih =>
    rw [List.cons_subset] at hfs
    rw [List.foldl_cons, List.diff_cons]
    exact ih (List.Subset.trans List.erase_subset hsub) hfs.2 (clear_denies hr hsub hfs.1 h)

theorem index_flag (hne : w ≠ []) (hmark : '#' ∉ w) (hplain : ∀ u ∈ us, '#' ∉ u)
    (h : DeniesTwice deny us) : index deny (flag w) ≠ 0 ↔ w ∈ us := by
  rw [index_ne_zero, flag]
  obtain ⟨rfl, rfl⟩ | ⟨vs, rfl, rfl⟩ := h
  · simp
  · have hplain' : ∀ v ∈ vs, '#' ∉ v := by
      intro v hv hmem
      refine hplain v (List.mem_filter.mpr ⟨hv, ?_⟩) hmem
      exact decide_eq_true (List.ne_nil_of_mem hmem)
    rw [infix_blocks hmark hplain', List.mem_filter, decide_eq_true_iff, and_iff_left hne]

theorem add_twice (hr : Apart ws ps) (hsub : us ⊆ ws) (hw : w ∈ ws) (h : DeniesTwice deny us) :
    DeniesTwice (add deny w) (if w ∈ us then us else us ++ [w]) := by
  have hindex := index_flag (hr.word w hw).1 (hr.plain w hw) (fun u hu => hr.plain u (hsub hu)) h
  rw [add]
  by_cases hmem : w ∈ us
  · rw [if_neg (hindex.mpr hmem), if_pos hmem]
    exact h
  · rw [if_pos (not_not.mp (hindex.not.mpr hmem)), if_neg hmem]
    obtain ⟨rfl, rfl⟩ | ⟨vs, rfl, rfl⟩ := h
    · exact .inr ⟨[w], by simp [blocks, flag], by simpa using (hr.word w hw).1⟩
    · refine .inr ⟨vs ++ [[], w], blocks_append vs w, ?_⟩
      simpa using (hr.word w hw).1

theorem mem_suspended : w ∈ suspended us fs ↔ w ∈ us ∨ w ∈ fs := by
  induction fs generalizing us with
  | nil => simp [suspended]
  | cons f fs ih =>
    rw [suspended, List.foldl_cons, ← suspended, ih]
    split_ifs with hf
    · constructor
      · exact Or.imp_right (List.mem_cons_of_mem f)
      · rintro (h | h)
        · exact .inl h
        · obtain rfl | h := List.mem_cons.mp h
          exacts [.inl hf, .inr h]
    · rw [List.mem_append, List.mem_singleton, List.mem_cons, or_assoc]

theorem suspended_nodup (h : us.Nodup) : (suspended us fs).Nodup := by
  induction fs generalizing us with
  | nil => exact h
  | cons f fs ih =>
    rw [suspended, List.foldl_cons, ← suspended]
    refine ih ?_
    split_ifs with hf
    · exact h
    · refine List.nodup_append.mpr ⟨h, List.pairwise_singleton _ f, ?_⟩
      intro a ha b hb
      exact List.mem_singleton.mp hb ▸ ne_of_mem_of_not_mem ha hf

theorem add_foldl (hr : Apart ws ps) (hsub : us ⊆ ws) (hfs : fs ⊆ ws) (h : DeniesTwice deny us) :
    DeniesTwice (fs.foldl add deny) (suspended us fs) := by
  induction fs generalizing us deny with
  | nil => exact h
  | cons f fs ih =>
    rw [List.cons_subset] at hfs
    rw [List.foldl_cons, suspended, List.foldl_cons, ← suspended]
    refine ih ?_ hfs.2 (add_twice hr hsub hfs.1 h)
    split_ifs
    · exact hsub
    · exact List.append_subset.mpr ⟨hsub, by simpa using hfs.1⟩

theorem squeeze_denies (hplain : ∀ u ∈ us, '#' ∉ u) (hnodup : us.Nodup) (h : DeniesTwice deny us) :
    Denies (squeeze '#' deny) us := by
  obtain ⟨rfl, rfl⟩ | ⟨vs, rfl, rfl⟩ := h
  · exact ⟨hnodup, .inl ⟨rfl, rfl⟩⟩
  · refine ⟨hnodup, .inr (squeeze_blocks fun v hv hmem => hplain v ?_ hmem)⟩
    exact List.mem_filter.mpr ⟨hv, decide_eq_true (List.ne_nil_of_mem hmem)⟩

theorem Denies.twice (hws : ∀ u ∈ us, Word u) (h : Denies deny us) : DeniesTwice deny us := by
  obtain ⟨_, h | rfl⟩ := h
  · exact .inl h
  · exact .inr ⟨us, rfl, List.filter_eq_self.mpr fun u hu => decide_eq_true (hws u hu).1⟩

end Flags

/-- The flags that `deny` holds are those of `S`. -/
def Holds (ws : List Text) (deny : Text) (S : Text → Prop) : Prop :=
  ∃ us, us ⊆ ws ∧ (∀ w, w ∈ us ↔ S w) ∧ Denies deny us

def names (line : Text) : List Text := (fields line).tail.map process

section Lines

variable {P : Platform} {ws ps envir : List Text} {deny line v : Text} {S : Text → Prop}

theorem holds_nil : Holds ws [] (fun _ => False) :=
  ⟨[], List.nil_subset _, fun _ => iff_of_false List.not_mem_nil not_false, List.nodup_nil, .inl ⟨rfl, rfl⟩⟩

theorem holds_congr {T : Text → Prop} (h : Holds ws deny S) (heq : ∀ w, S w ↔ T w) : Holds ws deny T := by
  rwa [← funext fun w => propext (heq w)]

theorem holds_allow (hr : Apart ws ps) (hline : Marked ALLOW_OUTPUT line)
    (hps : (names line).flatMap (clears P) ⊆ ps) (h : Holds ws deny S) :
    Holds ws (denyAfter P deny line) (fun w => S w ∧ w ∉ (names line).flatMap (clears P)) := by
  obtain ⟨us, hsub, hus, hdeny⟩ := h
  have hfold : (fields line).tail.foldl (allow P) deny =
      ((names line).flatMap (clears P)).foldl clear deny := by
    rw [names, List.flatMap_map, List.foldl_flatMap]
    exact congrFun (congrFun (congrArg List.foldl (funext₂ allow_eq)) _) _
  rw [denyAfter, if_pos hline, hfold]
  refine ⟨_, List.Subset.trans (List.diff_subset _ _) hsub, fun w => ?_, clear_foldl hr hsub hps hdeny⟩
  rw [List.Nodup.mem_sdiff_iff hdeny.1, hus]

theorem holds_suspend (hr : Apart ws ps) (hnot : ¬ Marked ALLOW_OUTPUT line)
    (hline : Marked SUSPEND_OUTPUT line) (hws : (names line).flatMap (adds P) ⊆ ws)
    (h : Holds ws deny S) :
    Holds ws (denyAfter P deny line) (fun w => S w ∨ w ∈ (names line).flatMap (adds P)) := by
  obtain ⟨us, hsub, hus, hdeny⟩ := h
  have hfold : (fields line).tail.foldl (suspend P) deny =
      ((names line).flatMap (adds P)).foldl add deny := by
    rw [names, List.flatMap_map, List.foldl_flatMap]
    exact congrFun (congrFun (congrArg List.foldl (funext₂ suspend_eq)) _) _
  have hsub' : suspended us ((names line).flatMap (adds P)) ⊆ ws := by
    intro w hw
    exact (mem_suspended.mp hw).elim (fun hw => hsub hw) (fun hw => hws hw)
  have htwice := add_foldl hr hsub hws (hdeny.twice fun u hu => hr.word u (hsub hu))
  rw [denyAfter, if_neg hnot, if_pos hline, hfold]
  refine ⟨_, hsub', fun w => ?_,
    squeeze_denies (fun u hu => hr.plain u (hsub' hu)) (suspended_nodup hdeny.1) htwice⟩
  rw [mem_suspended, hus]

theorem denyAfter_plain (ha : ¬ Marked ALLOW_OUTPUT line) (hs : ¬ Marked SUSPEND_OUTPUT line) :
    denyAfter P deny line = deny := by
  rw [denyAfter, if_neg ha, if_neg hs]

theorem index_elem (hr : Apart ws ps) (hempty : v = [] → ∀ w ∈ ws, '@' ∉ w) (hmark : '#' ∉ v)
    (h : Holds ws deny S) : index deny (elem v) ≠ 0 ↔ S v := by
  obtain ⟨us, hsub, hus, hdeny⟩ := h
  rw [elem]
  split_ifs with hv
  · have hnot : '@' ∉ deny := by
      obtain ⟨_, ⟨rfl, _⟩ | rfl⟩ := hdeny
      · exact List.not_mem_nil
      · rw [blocks, List.mem_cons, List.mem_flatMap]
        rintro (h | ⟨u, hu, h⟩)
        · exact absurd h (by decide)
        · obtain h | h := List.mem_append.mp h
          · exact hempty hv u (hsub hu) h
          · exact absurd h (by decide)
    rw [index_ne_zero, hv, ← hus]
    refine iff_of_false (fun h => hnot (h.subset List.mem_cons_self)) fun h => ?_
    exact (hr.word _ (hsub h)).1 rfl
  · rw [index_flag hv hmark (fun u hu => hr.plain u (hsub hu)) (hdeny.twice fun u hu => hr.word u (hsub hu)),
      hus]

theorem printed_plain [DecidablePred S] (hr : Apart ws ps) (ha : ¬ Marked ALLOW_OUTPUT line)
    (hs : ¬ Marked SUSPEND_OUTPUT line)
    (henvir : ∀ v ∈ envir, '#' ∉ v ∧ (v = [] → ∀ w ∈ ws, '@' ∉ w)) (h : Holds ws deny S) :
    printed envir deny line = if ∀ v ∈ envir, ¬ S v then [line] else [] := by
  have hall : envir.all (fun v => index deny (elem v) = 0) ↔ ∀ v ∈ envir, ¬ S v := by
    rw [List.all_eq_true]
    refine forall₂_congr fun v hv => ?_
    rw [decide_eq_true_iff, ← index_elem hr (henvir v hv).2 (henvir v hv).1 h, not_not]
  rw [printed, if_neg (by rintro (h | h) <;> contradiction)]
  exact if_congr hall rfl rfl

theorem printed_flag (h : Marked ALLOW_OUTPUT line ∨ Marked SUSPEND_OUTPUT line) :
    printed envir deny line = [] := if_pos h

end Lines

section Files

variable (P : Platform) (envir : List Text)

def denyAtEnd (deny : Text) (lines : List Text) : Text := lines.foldl (denyAfter P) deny

theorem expand_append (deny : Text) (a b : List Text) :
    expand P envir deny (a ++ b) = expand P envir deny a ++ expand P envir (denyAtEnd P deny a) b := by
  induction a generalizing deny with
  | nil => rfl
  | cons line a ih =>
    rw [List.cons_append, expand, ih, expand, List.append_assoc]
    rfl

theorem denyAtEnd_append (deny : Text) (a b : List Text) :
    denyAtEnd P deny (a ++ b) = denyAtEnd P (denyAtEnd P deny a) b := List.foldl_append

end Files

def dingo : Platform where
  all_platforms := ["HOST_LINUX_IX86".toList, "HOST_LINUX_X86_64".toList]
  tst_org_host := "DINGO".toList
  tst_hostos_machtype := "HOST_LINUX_X86_64".toList
  tst_machtype := "X86_64".toList
  tst_osname := "LINUX".toList
  tst_linux_distrib := "UBUNTU".toList

end YdbTest.OutrefFlags
