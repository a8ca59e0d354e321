import YdbTest.OutstreamLines
import YdbTest.RegexpFront

namespace YdbTest.Outstream

open Regexp RegexpSyntax

variable {c : Setup} {st : State} {l l' : Text} {log log' : List Text} {b : Block}
  {bs : List Block} {ls : List Text} {ks : List Nat}

/-- Masking line by line: a line outside the process table has the same filtered form in both logs,
and if the logs differ in masked values only, so do none of their outputs. -/
structure LineByLine (c : Setup) (log log' : List Text) : Prop where
  same_form : ∀ i j l, log[i]? = some l → log'[j]? = some l → ¬ InTable c (log.take i) →
    ¬ InTable c (log'.take j) → (forms c start log)[i]? = (forms c start log')[j]?
  same_output : DifferInMasked c log log' → output c log = output c log'

theorem contains_of_absent {re : Text} (h : absent ks re ls = true) (hl : l ∈ ls) :
    contains re l = false := by
  rw [contains, bind_find_of_absent h hl]
  rfl

theorem Sub.run_of_absent {s : Sub} (h : absent ks s.re ls = true) (hl : l ∈ ls) :
    s.run l = (l, 0) := by
  have hnone := bind_find_of_absent h hl
  rw [Sub.run]
  cases hp : parse s.re with
  | none => rfl
  | some r =>
    rw [hp] at hnone
    exact Prod.ext (replace_of_none hnone) (matched_eq_zero.mpr hnone)

theorem runSubs_of_absent {ss : List Sub} (h : ss.all (fun s => absent ks s.re ls) = true)
    (hl : l ∈ ls) : runSubs ss l = (l, 0) := by
  induction ss with
  | nil => rfl
  | cons s ss ih =>
    rw [List.all_cons, Bool.and_eq_true] at h
    rw [runSubs, Sub.run_of_absent h.1 hl, ih h.2]
    rfl

def Block.quiet (ks : List Nat) (ls : List Text) (b : Block) : Bool :=
  if b.guards.isEmpty then b.subs.all fun s => absent ks s.re ls
  else b.guards.all fun re => absent ks re ls

theorem applies_of_quiet (h : b.quiet ks ls = true) (hl : l ∈ ls) (hb : b.guards.isEmpty = false) :
    b.applies l = false := by
  rw [Block.quiet, hb, if_neg Bool.false_ne_true] at h
  rw [Block.applies, hb, Bool.false_or, List.any_eq_false]
  intro re hre hmatch
  rw [contains_of_absent (List.all_eq_true.mp h re hre) hl] at hmatch
  exact nomatch hmatch

theorem Block.run_of_quiet (h : b.quiet ks ls = true) (hl : l ∈ ls) : b.run l = l := by
  by_cases hb : b.guards.isEmpty = true
  · rw [Block.quiet, if_pos hb] at h
    rw [Block.run, runSubs_of_absent h hl]
    split_ifs <;> rfl
  · have happ := applies_of_quiet h hl ((Bool.not_eq_true _).mp hb)
    rw [Block.run, happ, if_neg Bool.false_ne_true]

theorem runBlocks_of_quiet (h : bs.all (Block.quiet ks ls) = true) (hl : l ∈ ls) :
    runBlocks bs l = l := by
  induction bs with
  | nil => rfl
  | cons b bs ih =>
    rw [List.all_cons, Bool.and_eq_true] at h
    rw [runBlocks, List.foldl_cons, b.run_of_quiet h.1 hl]
    exact ih h.2

/-- The texts have no match for any rule behind that on the renamed file. -/
structure Quiet (c : Setup) (ks : List Nat) (ls : List Text) : Prop where
  early : (earlyRules c).all (Block.quiet ks ls) = true
  journal : (journalRules c).all (Block.quiet ks ls) = true
  endian : [endiancvt, dbendian].all (Block.quiet ks ls) = true
  header : fileHeader.all (Block.quiet ks ls) = true
  frozen : frozen.all (fun re => absent ks re ls) = true
  last : lastRules.all (Block.quiet ks ls) = true

theorem endianLine_of_quiet (st : State) (h : b.quiet ks ls = true) (hl : l ∈ ls)
    (hb : b.guards.isEmpty = false) : endianLine b st l = (l, st) := by
  rw [endianLine, applies_of_quiet h hl hb, if_neg Bool.false_ne_true]

theorem tableLine_of_outside (c : Setup) (l : Text) (h : st.jnl_flag1line ≠ 2) :
    (tableLine c st l).1 = l ∧ (tableLine c st l).2.substatus = st.substatus := by
  rw [tableLine, if_neg h]
  exact ⟨rfl, rfl⟩

theorem filterLine_of_quiet (h : Quiet c ks ls) (hl : (renameLine st l).1 ∈ ls)
    (hignored : contains ignored l = false) (hst : st.jnl_flag1line ≠ 2) :
    (filterLine c st l).1 = some (renameLine st l).1 ∧
      (filterLine c st l).2.substatus = (renameLine st l).2.substatus := by
  obtain ⟨htext, hcount⟩ := tableLine_of_outside c (renameLine st l).1
    ((renameLine_flag st l).symm ▸ hst : (renameLine st l).2.jnl_flag1line ≠ 2)
  have hendian := h.endian
  rw [List.all_cons, List.all_cons, List.all_nil, Bool.and_true, Bool.and_eq_true] at hendian
  have hfrozen : frozen.any (fun re => contains re (renameLine st l).1) = false := by
    rw [List.any_eq_false]
    intro re hre hmatch
    rw [contains_of_absent (List.all_eq_true.mp h.frozen re hre) hl] at hmatch
    exact nomatch hmatch
  rw [filterLine, hignored, if_neg Bool.false_ne_true]
  simp only [runBlocks_of_quiet h.early hl, htext, runBlocks_of_quiet h.journal hl,
    endianLine_of_quiet _ hendian.1 hl rfl, endianLine_of_quiet _ hendian.2 hl rfl,
    runBlocks_of_quiet h.header hl, hfrozen, Bool.false_and, if_neg Bool.false_ne_true,
    runBlocks_of_quiet h.last hl]
  exact ⟨trivial, hcount⟩

theorem flag_of_start (h : st.jnl_flag1line = 0) : (filterLine c st l).2.jnl_flag1line ≠ 2 := by
  have hflag (st : State) (l : Text) (h : st.jnl_flag1line = 0) :
      (tableLine c st l).2.jnl_flag1line ≠ 2 := by
    rw [tableLine, if_neg (by rw [h]; decide)]
    dsimp only
    split_ifs <;> omega
  have hendian (b : Block) (st : State) (l : Text) :
      (endianLine b st l).2.jnl_flag1line = st.jnl_flag1line := by
    rw [endianLine]
    split_ifs <;> rfl
  rw [filterLine]
  by_cases hignored : contains ignored l = true
  · rw [if_pos hignored, h]
    decide
  · have hstart := hflag (renameLine st l).2 (runBlocks (earlyRules c) (renameLine st l).1)
      ((renameLine_flag st l).trans h)
    rw [if_neg hignored]
    dsimp only
    split_ifs
    · rw [hendian, hendian]
      exact hstart
    · rw [hendian, hendian]
      exact hstart

theorem not_inTable (h : log.length < 2) : ¬ InTable c log := by
  rintro ⟨ls, hd, d, rows, hlog, -⟩
  have hle := List.length_filter_le (fun l => !contains ignored l) log
  rw [hlog, List.length_append, List.length_cons, List.length_cons] at hle
  omega

def debugSetup : Setup where
  priorver := none
  mask_jnleod := false
  host := ['h']
  user := ['u']
  tst_image := ['d', 'b', 'g']
  keep_muinstfrozen := false
  readable := by decide +kernel

def renamed (old new : String) : Text :=
  "%YDB-I-FILERENAME, File ".toList ++ (old.toList ++ (" is renamed to ".toList ++ new.toList))

def quietTexts : List Text :=
  [renamed "a.d" "a.d_12", FILTERED ++ renamed "a.d" "a.d_12",
    FILTERED ++ renamed "a.mjl" "a.mjl_##TIMESTAMP##"]

theorem quiet_debugSetup : Quiet debugSetup [4, 11, 12] quietTexts := by
  constructor
  -- the texts are spelled out, so that they do not have to be decoded
  all_goals unfold quietTexts renamed FILTERED
  case early =>
    simp only [earlyRules, List.all_append, Bool.and_eq_true]
    unfold extracts mujnlstat instances poolId replication operation timedText timed processes
      alive stamped paths remote domain markedWhen when sub subOf gsub gsubOf
    simp only [String.toList_append, List.map_cons, List.map_nil]
    repeat rw [String.toList_ofList]
    decide +kernel
  case journal =>
    unfold journalRules journalTimes journalFields gsub gsubOf
    repeat rw [String.toList_ofList]
    decide +kernel
  case endian =>
    unfold endiancvt dbendian markedWhen gsubOf
    simp only [String.toList_append]
    repeat rw [String.toList_ofList]
    decide +kernel
  case header =>
    unfold fileHeader gsub gsubOf
    simp only [String.toList_append]
    repeat rw [String.toList_ofList]
    decide +kernel
  case frozen =>
    unfold frozen
    repeat rw [String.toList_ofList]
    decide +kernel
  case last =>
    unfold lastRules gsub gsubOf
    repeat rw [String.toList_ofList]
    decide +kernel

def renamedFiles : List Text :=
  [renamed "a.d" "a.d_12", renamed "a.mjl" "a.mjl_12", renamed "a.mjl" "a.mjl_34"]

theorem bare_mem : renamed "a.d" "a.d_12" ∈ renamedFiles := List.mem_cons_self

theorem named_mem : renamed "a.mjl" "a.mjl_12" ∈ renamedFiles :=
  List.mem_cons_of_mem _ List.mem_cons_self

theorem later_mem : renamed "a.mjl" "a.mjl_34" ∈ renamedFiles :=
  List.mem_cons_of_mem _ (List.mem_cons_of_mem _ List.mem_cons_self)

theorem not_ignored {l : Text} (hl : l ∈ renamedFiles) : contains ignored l = false := by
  suffices absent [4] ignored renamedFiles = true from contains_of_absent this hl
  unfold renamedFiles renamed ignored
  repeat rw [String.toList_ofList]
  decide +kernel

theorem applies_renamed : ∀ l ∈ renamedFiles, rename.applies l = true := by
  unfold renamedFiles renamed rename markedWhen
  simp only [String.toList_append]
  repeat rw [String.toList_ofList]
  decide +kernel

theorem runSubs_bare :
    runSubs rename.subs (renamed "a.d" "a.d_12") = (renamed "a.d" "a.d_12", 0) := by
  suffices rename.subs.all (fun s => absent [4] s.re [renamed "a.d" "a.d_12"]) = true from
    runSubs_of_absent this (List.mem_singleton_self _)
  unfold renamed rename markedWhen gsubOf
  repeat rw [String.toList_ofList]
  decide +kernel

theorem runSubs_named : runSubs rename.subs (renamed "a.mjl" "a.mjl_12") =
    (renamed "a.mjl" "a.mjl_##TIMESTAMP##", 1) := by
  unfold renamed rename markedWhen gsubOf
  repeat rw [String.toList_ofList]
  decide +kernel

theorem alike_named :
    AlikeSubs rename.subs (renamed "a.mjl" "a.mjl_12") (renamed "a.mjl" "a.mjl_34") := by
  unfold renamed rename markedWhen gsubOf
  refine Or.inl ?_
  unfold Sub.keeps
  repeat rw [String.toList_ofList]
  decide +kernel

theorem renameLine_bare (st : State) : renameLine st (renamed "a.d" "a.d_12") =
    (marked st.substatus (renamed "a.d" "a.d_12"), st) := by
  rw [renameLine, if_pos (applies_renamed _ bare_mem), runSubs_bare]
  rfl

theorem renameLine_named : renameLine start (renamed "a.mjl" "a.mjl_12") =
    (FILTERED ++ renamed "a.mjl" "a.mjl_##TIMESTAMP##", ⟨1, 0⟩) := by
  rw [renameLine, if_pos (applies_renamed _ named_mem), runSubs_named]
  rfl

theorem start_flag : start.jnl_flag1line ≠ 2 := Nat.zero_ne_add_one 1

theorem form_bare : (filterLine debugSetup start (renamed "a.d" "a.d_12")).1 =
    some (renamed "a.d" "a.d_12") := by
  have hrename : (renameLine start (renamed "a.d" "a.d_12")).1 = renamed "a.d" "a.d_12" := by
    rw [renameLine_bare, marked, if_pos (show start.substatus = 0 from rfl)]
  have hmem : (renameLine start (renamed "a.d" "a.d_12")).1 ∈ quietTexts := by
    rw [hrename]
    exact List.mem_cons_self
  have hform := filterLine_of_quiet quiet_debugSetup hmem (not_ignored bare_mem) start_flag
  exact hform.1.trans (congrArg some hrename)

theorem substatus_named :
    (filterLine debugSetup start (renamed "a.mjl" "a.mjl_12")).2.substatus = 1 := by
  have hmem : (renameLine start (renamed "a.mjl" "a.mjl_12")).1 ∈ quietTexts := by
    rw [renameLine_named]
    exact List.mem_cons_of_mem _ (List.mem_cons_of_mem _ List.mem_cons_self)
  have hform := filterLine_of_quiet quiet_debugSetup hmem (not_ignored named_mem) start_flag
  rw [hform.2, renameLine_named]

theorem form_bare_marked (h : st.substatus = 1) (hst : st.jnl_flag1line ≠ 2) :
    (filterLine debugSetup st (renamed "a.d" "a.d_12")).1 =
      some (FILTERED ++ renamed "a.d" "a.d_12") := by
  have hrename : (renameLine st (renamed "a.d" "a.d_12")).1 =
      FILTERED ++ renamed "a.d" "a.d_12" := by
    rw [renameLine_bare, marked, if_neg (h ▸ Nat.one_ne_zero)]
  have hmem : (renameLine st (renamed "a.d" "a.d_12")).1 ∈ quietTexts := by
    rw [hrename]
    exact List.mem_cons_of_mem _ List.mem_cons_self
  have hform := filterLine_of_quiet quiet_debugSetup hmem (not_ignored bare_mem) hst
  exact hform.1.trans (congrArg some hrename)

theorem form_of_clean (h : CleanLog c log) {i : Nat} (hi : log[i]? = some l) {inTable : Bool}
    (ht : inTable = true ↔ InTable c (log.take i)) :
    (forms c start log)[i]? = some (mask (stages c inTable) l) := by
  rw [getElem?_forms, hi, Option.map_some, filterLine_fst (h i l hi) ht]

theorem forms_of_differ (h : CleanLog c log) (h' : CleanLog c log')
    (hdiffer : DifferInMasked c log log') : forms c start log = forms c start log' := by
  apply List.ext_getElem?
  intro i
  by_cases hi : i < log.length
  · have hi' : i < log'.length := hdiffer.length ▸ hi
    have hget := List.getElem?_eq_getElem hi
    have hget' := List.getElem?_eq_getElem hi'
    obtain ⟨inTable, ht⟩ : ∃ inTable, inTable = true ↔ InTable c (log.take i) := by
      classical exact ⟨decide (InTable c (log.take i)), decide_eq_true_iff⟩
    have hmask := mask_eq_of_alike (hdiffer.lines i _ _ hget hget' inTable ht)
    calc (forms c start log)[i]?
        = some (mask (stages c inTable) log[i]) := form_of_clean h hget ht
      _ = some (mask (stages c inTable) log'[i]) := congrArg some hmask
      _ = (forms c start log')[i]? :=
        (form_of_clean h' hget' (ht.trans (hdiffer.tables i))).symm
  · have hnone := List.getElem?_eq_none (Nat.le_of_not_lt hi)
    have hnone' := List.getElem?_eq_none (hdiffer.length ▸ Nat.le_of_not_lt hi)
    rw [getElem?_forms, getElem?_forms, hnone, hnone', Option.map_none, Option.map_none]

/-- Logs in which no line meets anything that is left over are masked line by line. -/
theorem lineByLine_of_clean (h : CleanLog c log) (h' : CleanLog c log') :
    LineByLine c log log' := by
  constructor
  · intro i j l hi hj hout hout'
    rw [form_of_clean h hi (iff_of_false Bool.false_ne_true hout),
      form_of_clean h' hj (iff_of_false Bool.false_ne_true hout')]
  · intro hdiffer
    rw [output, forms_of_differ h h' hdiffer, output]

theorem not_inTable_take {a b : Text} {i : Nat} (hi : i < 2) : ¬ InTable c ([a, b].take i) :=
  not_inTable (Nat.lt_of_le_of_lt (List.length_take_le i [a, b]) hi)

theorem cleanLog_pair {a b : Text} (hb : ¬ Bare b) : CleanLog c [a, b] := by
  intro i l hi
  match i with
  | 0 => exact ⟨fun _ => rfl, fun _ => iff_of_false start_flag (not_inTable_take Nat.two_pos)⟩
  | 1 =>
    obtain rfl := Option.some.inj hi
    exact ⟨fun hbare => absurd hbare hb,
      fun _ => iff_of_false (flag_of_start rfl) (not_inTable_take Nat.one_lt_two)⟩
  | i + 2 => exact nomatch hi

theorem alike_self (ss : List Stage) (l : Text) : Alike ss l l := by
  induction ss generalizing l with
  | nil => rfl
  | cons s ss ih =>
    cases s with
    | skip res => exact ⟨rfl, ih l⟩
    | block b => exact Or.inr (ih (b.run l))

theorem not_inTable_pair {a b : Text} (ha : contains header (early c a) = false) :
    ¬ InTable c [a, b] := by
  rintro ⟨ls, h, d, rows, hlog, hheader, -⟩
  have hle := List.length_filter_le (fun l => !contains ignored l) [a, b]
  have hsame : [a, b].filter (fun l => !contains ignored l) = [a, b] := by
    refine List.filter_sublist.eq_of_length_le ?_
    rw [hlog, List.length_append, List.length_cons, List.length_cons]
    simp only [List.length_cons, List.length_nil]
    omega
  rw [hsame] at hlog
  have hls : ls = [] := by
    have hlength := congrArg List.length hlog
    simp only [List.length_cons, List.length_nil, List.length_append] at hlength
    exact List.eq_nil_of_length_eq_zero (by omega)
  rw [hls, List.nil_append] at hlog
  rw [← (List.cons.inj hlog).1, ha] at hheader
  exact Bool.false_ne_true hheader

theorem differ_pair {a a' b : Text} (h : Alike (stages c false) a a')
    (ha : contains header (early c a) = false) (ha' : contains header (early c a') = false) :
    DifferInMasked c [a, b] [a', b] := by
  refine ⟨rfl, fun i => ?_, fun i x x' hx hx' inTable ht => ?_⟩
  · obtain hi | hi := Nat.lt_or_ge i 2
    · exact iff_of_false (not_inTable_take hi) (not_inTable_take hi)
    · rw [List.take_of_length_le hi, List.take_of_length_le hi]
      exact iff_of_false (not_inTable_pair ha) (not_inTable_pair ha')
  · match i with
    | 0 =>
      obtain rfl := Option.some.inj hx
      obtain rfl := Option.some.inj hx'
      have hfalse : inTable = false :=
        (Bool.not_eq_true _).mp fun h => absurd (ht.mp h) (not_inTable_take Nat.two_pos)
      rwa [hfalse]
    | 1 =>
      obtain rfl := Option.some.inj hx
      obtain rfl := Option.some.inj hx'
      exact alike_self _ _
    | i + 2 => exact nomatch hx

theorem alike_renamed {inTable : Bool} (hignored : contains ignored l = contains ignored l')
    (h : rename.applies l = true) (h' : rename.applies l' = true)
    (hsubs : AlikeSubs rename.subs l l') : Alike (stages c inTable) l l' := by
  refine ⟨?_, Or.inl ⟨h, h', hsubs⟩⟩
  rw [List.any_cons, List.any_cons, hignored]
  rfl

theorem not_bare_named : ¬ Bare (renamed "a.mjl" "a.mjl_12") := by
  intro h
  have hcount := h.unmasked
  rw [runSubs_named] at hcount
  exact Nat.one_ne_zero hcount

theorem run_later :
    rename.run (renamed "a.mjl" "a.mjl_34") = rename.run (renamed "a.mjl" "a.mjl_12") := by
  rw [Block.run, Block.run, if_pos (applies_renamed _ later_mem),
    if_pos (applies_renamed _ named_mem), runSubs_eq_of_alike alike_named]

theorem no_header (h : rename.run l = rename.run (renamed "a.mjl" "a.mjl_12")) :
    contains header (early debugSetup l) = false := by
  have hrun : rename.run l = FILTERED ++ renamed "a.mjl" "a.mjl_##TIMESTAMP##" := by
    rw [h, ← @renameLine_fst start _ fun _ => rfl, renameLine_named]
  have hmem : FILTERED ++ renamed "a.mjl" "a.mjl_##TIMESTAMP##" ∈ quietTexts :=
    List.mem_cons_of_mem _ (List.mem_cons_of_mem _ List.mem_cons_self)
  rw [early, hrun, runBlocks_of_quiet quiet_debugSetup.early hmem]
  suffices absent [4] header [FILTERED ++ renamed "a.mjl" "a.mjl_##TIMESTAMP##"] = true from
    contains_of_absent this (List.mem_singleton_self _)
  unfold FILTERED renamed header
  repeat rw [String.toList_ofList]
  decide +kernel

/-- A name behind another one that differs in the time only, and the same name at the head of a
log. -/
theorem lineByLine_of_clean_behind :
    output debugSetup [renamed "a.mjl" "a.mjl_12", renamed "a.mjl" "a.mjl_12"] =
        output debugSetup [renamed "a.mjl" "a.mjl_34", renamed "a.mjl" "a.mjl_12"] ∧
      (forms debugSetup start [renamed "a.mjl" "a.mjl_12", renamed "a.mjl" "a.mjl_12"])[0]? =
        (forms debugSetup start [renamed "a.mjl" "a.mjl_34", renamed "a.mjl" "a.mjl_12"])[1]? := by
  have hlines := lineByLine_of_clean
    (cleanLog_pair not_bare_named : CleanLog debugSetup [renamed "a.mjl" "a.mjl_12", _])
    (cleanLog_pair not_bare_named : CleanLog debugSetup [renamed "a.mjl" "a.mjl_34", _])
  refine ⟨hlines.same_output (differ_pair ?_ (no_header rfl) (no_header run_later)),
    hlines.same_form 0 1 _ rfl rfl (not_inTable_take Nat.two_pos)
      (not_inTable_take Nat.one_lt_two)⟩
  exact alike_renamed ((not_ignored named_mem).trans (not_ignored later_mem).symm)
    (applies_renamed _ named_mem) (applies_renamed _ later_mem) alike_named

theorem not_lineByLine (h : (filterLine c start l).1 = some l)
    (h' : (filterLine c (filterLine c start l').2 l).1 = some (FILTERED ++ l)) :
    ¬ LineByLine c [l] [l', l] := by
  intro hlines
  have hsame := hlines.same_form 0 1 l rfl rfl (not_inTable Nat.zero_lt_two)
    (not_inTable Nat.one_lt_two)
  rw [getElem?_forms, getElem?_forms] at hsame
  have hforms : (filterLine c start l).1 = (filterLine c (filterLine c start l').2 l).1 :=
    Option.some.inj hsame
  rw [h, h'] at hforms
  have hlength := congrArg List.length (Option.some.inj hforms)
  have hmark : FILTERED.length ≠ 0 := by decide +kernel
  rw [List.length_append] at hlength
  omega

/-- A name that is not masked is marked behind one that is. -/
theorem left_over_marks :
    ¬ LineByLine debugSetup [renamed "a.d" "a.d_12"]
      [renamed "a.mjl" "a.mjl_12", renamed "a.d" "a.d_12"] :=
  not_lineByLine form_bare (form_bare_marked substatus_named (flag_of_start rfl))

end YdbTest.Outstream
