import YdbTest.DbcreateMulti
import YdbTest.Dealing

namespace YdbTest.PrintBlock

open MString DbcreateMulti Dealing

def colon : Nat := 58

/-- The whole number at the front of a text. -/
def number (t : Str) : Nat := (t.takeWhile isDigit).foldl (fun n c => 10 * n + (c - 48)) 0

def isNumber (t : Str) : Bool := decide (t ≠ []) && t.all isDigit

/-- A value of awk. A field that looks like a number is one, any other text is a text. -/
structure Value where
  text : Str
  field : Bool

def Value.isTrue (v : Value) : Bool :=
  if v.field && isNumber v.text then number v.text != 0 else decide (v.text ≠ [])

def Value.of (t : Str) : Value := ⟨t, false⟩

/-- `i<v`, which compares texts if `v` is a text. -/
def below (i : Nat) (v : Value) : Bool :=
  if v.field then decide (i < number v.text) else decide (dec i < v.text)

abbrev Table := Opt → Value

inductive SegReg where
  | segment | region
  deriving DecidableEq

/-- What a command changes: a value that `print_out` prints, or a text that stands for an option. -/
inductive Qualifier where
  | out (x : Opt) (val : Str)
  | flag (o : Opt) (s : Str)
  deriving DecidableEq

/-- `change -segment name ...` or `change -region name ...` -/
structure Change where
  seg_reg : SegReg
  name : Str
  qualifier : Qualifier
  deriving DecidableEq

def outName : Opt → String
  | .access_method => "access_method"
  | .block_size => "block_size"
  | .allocation => "allocation"
  | .global_buffer_count => "global_buffer_count"
  | .extension_count => "extension_count"
  | .reserved_bytes => "reserved_bytes"
  | .lock_space => "lock_space"
  | .record_size => "record_size"
  | .key_size => "key_size"
  | .collation_default => "collation_default"
  | _ => ""

def Qualifier.text : Qualifier → Str
  | .out x val => lit "-" ++ lit (outName x) ++ lit "=" ++ val
  | .flag _ s => s

def Change.text (c : Change) : Str :=
  (match c.seg_reg with
    | .segment => lit "change -segment "
    | .region => lit "change -region ") ++ c.name ++ lit " " ++ c.qualifier.text

def line (b : Bool) (c : Change) : List Change := if b then [c] else []

/-- The comparisons with the release and with environment variables. -/
structure Env where
  from_v60000 : Bool
  from_v62002 : Bool
  from_v63001 : Bool
  nostats : Bool
  tst_on_remote : Bool
  /-- The regions whose GT.CM server is not this one. -/
  skip : Nat → Bool

section

variable (e : Env) (journals : List Str)

/-- Whether `print_out` prints the option. -/
def specified (x : Opt) (v : Value) : Bool :=
  (decide (x = .record_size ∧ v.text = lit "0") || v.isTrue) && decide (v.text ≠ lit ".")

def Value.rest (v : Value) : Value := if colon ∈ v.text then .of (behind colon v.text) else v

def print_out (x : Opt) (seg_reg : SegReg) (name : Str) (value : Table) : List Change × Table :=
  if specified x (value x) then
    ([⟨seg_reg, name, .out x (front colon (value x).text)⟩],
      Function.update value x (value x).rest)
  else ([], value)

def nameOf (segname regname : Str) : SegReg → Str
  | .segment => segname
  | .region => regname

/-- Calls of `print_out`, one after the other. -/
def print_outs (segname regname : Str) : List (Opt × SegReg) → Table → List Change × Table
  | [], value => ([], value)
  | (x, sr) :: calls, value =>
    let r := print_out x sr (nameOf segname regname sr) value
    let rs := print_outs segname regname calls r.2
    (r.1 ++ rs.1, rs.2)

def addJournals (jnlarg : Str) : List Str → Str
  | [] => jnlarg
  | j :: js =>
    addJournals ((if jnlarg ≠ lit "(" then jnlarg ++ lit "," else jnlarg) ++ j) js

def print_jnl (regname : Str) (addfn : Bool) (value : Table) : List Change :=
  let jnl_prefix := (value .jnl_prefix_text).text
  let jnl_suffix := (value .jnl_suffix_text).text
  let unspec := lit "***unspec***"
  let jnlarg :=
    if addfn ∧ ( jnl_prefix ≠ unspec ∨ jnl_suffix ≠ unspec) then
      lit "file_name=\"" ++ (if jnl_prefix ≠ unspec then jnl_prefix else []) ++
        (if regname = lit "DEFAULT" then (value .file_name).text else regname) ++
        (if jnl_suffix ≠ unspec then jnl_suffix else lit ".mjl") ++ lit "\""
    else []
  let jnlarg :=
    if journals ≠ [] then addJournals (lit "(" ++ jnlarg) journals ++ lit ")" else jnlarg
  line (jnlarg ≠ []) ⟨.region, regname, .flag .journal (lit "-journal=" ++ jnlarg)⟩

def isMM (value : Table) : Bool := decide ((value .access_method).text = lit "MM")

/-- The calls of `print_out` after those for the access method. -/
def outs (mm : Bool) : List (Opt × SegReg) :=
  [(.block_size, .segment), (.allocation, .segment)] ++
    (if mm then [] else [(.global_buffer_count, .segment)]) ++
    [(.extension_count, .segment), (.reserved_bytes, .segment), (.lock_space, .segment),
      (.record_size, .region), (.key_size, .region), (.collation_default, .region)]

def accessOuts (mm : Bool) : List (Opt × SegReg) := if mm then [(.access_method, .segment)] else []

def printed (seg_reg : SegReg) (name : Str) (o : Opt) (value : Table) : List Change :=
  line (value o).isTrue ⟨seg_reg, name, .flag o (value o).text⟩

def releaseLines (segname regname : Str) (value : Table) : List Change :=
  if e.from_v60000 then
    printed .region regname .freeze value ++ printed .region regname .qdbrundown value ++
      (if e.from_v62002 then
        printed .segment segname .defer_allocate value ++
          printed .region regname .epoch_taper value
      else [])
  else []

def asyncioLine (segname : Str) (value : Table) : List Change :=
  line (e.from_v63001 && decide ((value .asyncio).text = lit "-asyncio") && !isMM value &&
    decide (number (value .block_size).text % 4096 = 0))
    ⟨.segment, segname, .flag .asyncio (value .asyncio).text⟩

/-- `NULL` is what an option without a value is set to. -/
def nullSubscripts (v : Value) : Value := if v.text = lit "NULL" then .of (lit "ALWAYS") else v

def nullLine (regname : Str) (v : Value) : List Change :=
  if v.isTrue then
    if v.text = lit "NOVAL" then
      [⟨.region, regname, .flag .null_subscripts (lit "-NULL_SUBSCRIPTS")⟩]
    else line (v.text ≠ lit ".")
      ⟨.region, regname, .flag .null_subscripts (lit "-NULL_SUBSCRIPTS=" ++ v.text)⟩
  else []

def print_block (segname regname : Str) (value : Table) : List Change × Table :=
  let mm := isMM value
  let jnl := print_jnl journals regname (!mm) value
  let access := print_outs segname regname (accessOuts mm) value
  let nojournal := line mm ⟨.region, regname, .flag .journal (lit "-nojournal")⟩
  let out := print_outs segname regname (outs mm) access.2
  let value := out.2
  let null_subscripts := nullSubscripts (value .null_subscripts)
  (jnl ++ access.1 ++ nojournal ++ out.1 ++
    printed .region regname .test_stdnull_collation value ++
    printed .region regname .test_stats value ++
    releaseLines e segname regname value ++
    asyncioLine e segname value ++
    line (e.nostats && e.from_v63001) ⟨.region, regname, .flag .test_stats (lit "-nostats")⟩ ++
    nullLine regname null_subscripts,
    Function.update value .null_subscripts null_subscripts)

/-- A region: its place, 0 for `DEFAULT`, and the names of its segment and of itself. -/
structure Region where
  i : Nat
  seg : Str
  reg : Str
  deriving DecidableEq

def filenames (i : Nat) : Str := if 1 ≤ i ∧ i ≤ 26 then [96 + i] else []

def defaultRegion : Region := ⟨0, lit "DEFAULT", lit "DEFAULT"⟩

def region (i : Nat) : Region := ⟨i, filenames i ++ lit "seg", filenames i ++ lit "reg"⟩

/-- The values of `i` in the loop over the regions. -/
def places (n_regions : Value) : List Nat :=
  if isNumber n_regions.text && below 1 n_regions then
    (List.range' 1 (number n_regions.text - 1)).takeWhile fun i => below i n_regions
  else []

/-- The regions that `print_block` is called for. A template stands for all settings; on the remote
side of a test with different global directories, each second region is left out. -/
def regions (value : Table) : List Region :=
  if (value .template).isTrue then []
  else
    defaultRegion :: (((places (value .n_regions)).filter fun i =>
      !e.skip i && !(e.tst_on_remote && (value .different_gld).isTrue && i % 2 == 0)).map region)

def regionBlock (r : Region) (value : Table) : List Change × Table :=
  let block := print_block e journals r.seg r.reg value
  let test_collation := block.2 .test_collation
  (block.1 ++ line (test_collation.isTrue && r.i != 1)
    ⟨.region, r.reg, .out .collation_default test_collation.text⟩, block.2)

def regionBlocks : List Region → Table → List (List Change)
  | [], _ => []
  | r :: rs, value =>
    let block := regionBlock e journals r value
    block.1 :: regionBlocks rs block.2

/-- The settings of the regions one after the other. -/
def commands (value : Table) : List (List Change) :=
  regionBlocks e journals (regions e value) value

end

variable {e : Env} {journals : List Str} {value : Table} {x y : Opt} {v : Value}
  {ws : List Str} {segname regname : Str}

/-- The values that an option is given with: nothing if `print_out` takes it for not specified. -/
def Given (x : Opt) (v : Value) (ws : List Str) : Prop :=
  if specified x v then
    ws ≠ [] ∧ v.text = [colon].intercalate ws ∧ ∀ w ∈ ws, w ≠ [] ∧ colon ∉ w ∧ w ≠ lit "."
  else ws = []

def sets (x : Opt) (c : Change) : Bool :=
  match c.qualifier with
  | .out y _ => decide (y = x)
  | .flag _ _ => false

theorem intercalate_specified (hne : ws ≠ []) (hws : ∀ w ∈ ws, w ≠ [] ∧ colon ∉ w ∧ w ≠ lit ".") :
    specified x (.of ([colon].intercalate ws)) = true := by
  obtain ⟨hnil, hdot⟩ :
      [colon].intercalate ws ≠ [] ∧ [colon].intercalate ws ≠ lit "." := by
    match ws with
    | [w] =>
      rw [List.intercalate_singleton]
      exact ⟨(hws w List.mem_cons_self).1, (hws w List.mem_cons_self).2.2⟩
    | w :: u :: ws =>
      have hmem : colon ∈ [colon].intercalate (w :: u :: ws) := by
        simp [List.intercalate_cons_cons]
      refine ⟨List.ne_nil_of_mem hmem, fun hdot => ?_⟩
      rw [hdot] at hmem
      exact absurd hmem (by decide)
  have htrue : (Value.of ([colon].intercalate ws)).isTrue = true := decide_eq_true hnil
  rw [specified, htrue, Bool.or_true, Bool.true_and]
  exact decide_eq_true hdot

theorem Given.rest (h : Given x v ws) (hs : specified x v = true) : Given x v.rest (next ws) := by
  rw [Given, if_pos hs] at h
  obtain ⟨hne, htext, hws⟩ := h
  have hcolon : ∀ w ∈ ws, colon ∉ w := fun w hw => (hws w hw).2.1
  have hnext : next ws ≠ [] := fun hnil => hne (next_eq_nil.mp hnil)
  have hws' : ∀ w ∈ next ws, w ≠ [] ∧ colon ∉ w ∧ w ≠ lit "." := fun w hw => hws w (mem_next hw)
  have hbehind : behind colon v.text = [colon].intercalate (next ws) := by
    rw [htext, behind_intercalate hcolon]
  rw [Value.rest]
  split
  · rw [Given, hbehind, if_pos (intercalate_specified hnext hws')]
    exact ⟨hnext, rfl, hws'⟩
  · next hno =>
    rw [Given, if_pos hs]
    rw [behind, if_neg hno] at hbehind
    exact ⟨hnext, hbehind, hws'⟩

def setting (x : Opt) (sr : SegReg) (name : Str) (ws : List Str) : List Change :=
  (pick 0 ws).toList.map fun w => ⟨sr, name, .out x w⟩

theorem print_out_given (h : Given x (value x) ws) (sr : SegReg) (name : Str) :
    (print_out x sr name value).1 = setting x sr name ws ∧
      Given x ((print_out x sr name value).2 x) (next ws) := by
  rw [print_out, setting, pick_zero]
  split
  · next hs =>
    have hrest := h.rest hs
    rw [Given, if_pos hs] at h
    obtain ⟨hne, htext, hws⟩ := h
    refine ⟨?_, ?_⟩
    · rw [← front_intercalate (fun w hw => (hws w hw).2.1) hne, ← htext]
      rfl
    · dsimp only
      rwa [Function.update_self]
  · next hs =>
    have hgiven := h
    rw [Given, if_neg hs] at h
    rw [h] at hgiven ⊢
    exact ⟨rfl, hgiven⟩

theorem print_out_of_ne (h : y ≠ x) (sr : SegReg) (name : Str) :
    (print_out x sr name value).2 y = value y := by
  rw [print_out]
  split
  · exact Function.update_of_ne h _ _
  · rfl

theorem filter_setting (sr : SegReg) (name : Str) (ws : List Str) :
    (setting x sr name ws).filter (sets y) = if x = y then setting x sr name ws else [] := by
  rw [setting]
  cases pick 0 ws with
  | none => simp
  | some w => simp [sets, List.filter_cons]

theorem print_out_filter (h : y ≠ x) (sr : SegReg) (name : Str) :
    (print_out x sr name value).1.filter (sets y) = [] := by
  rw [print_out]
  split
  · simp [sets, h.symm]
  · rfl

theorem print_outs_of_notMem {calls : List (Opt × SegReg)} (h : x ∉ calls.map Prod.fst)
    (value : Table) : (print_outs segname regname calls value).2 x = value x ∧
      (print_outs segname regname calls value).1.filter (sets x) = [] := by
  induction calls generalizing value with
  | nil => exact ⟨rfl, rfl⟩
  | cons call calls ih =>
    obtain ⟨y, sr⟩ := call
    rw [List.map_cons, List.mem_cons, not_or] at h
    rw [print_outs]
    obtain ⟨hvalue, hfilter⟩ := ih h.2 (print_out y sr (nameOf segname regname sr) value).2
    refine ⟨hvalue.trans (print_out_of_ne h.1 sr _), ?_⟩
    rw [List.filter_append, hfilter, print_out_filter h.1, List.append_nil]

theorem print_outs_given {calls : List (Opt × SegReg)} (hnodup : (calls.map Prod.fst).Nodup)
    {sr : SegReg} (hx : (x, sr) ∈ calls) (h : Given x (value x) ws) :
    (print_outs segname regname calls value).1.filter (sets x) =
        setting x sr (nameOf segname regname sr) ws ∧
      Given x ((print_outs segname regname calls value).2 x) (next ws) := by
  induction calls generalizing value with
  | nil => cases hx
  | cons call calls ih =>
    rw [List.map_cons, List.nodup_cons] at hnodup
    rw [print_outs]
    cases List.mem_cons.mp hx with
    | inl hhead =>
      subst hhead
      obtain ⟨hout, hgiven⟩ := print_out_given h sr (nameOf segname regname sr)
      have hlater : (print_outs segname regname calls _).2 x = _ ∧ _ :=
        print_outs_of_notMem hnodup.1 (print_out x sr (nameOf segname regname sr) value).2
      obtain ⟨hvalue, hfilter⟩ := hlater
      refine ⟨?_, hvalue ▸ hgiven⟩
      rw [List.filter_append, hfilter, hout, filter_setting, if_pos rfl, List.append_nil]
    | inr htail =>
      obtain ⟨y, sr'⟩ := call
      have hne : x ≠ y := by
        rintro rfl
        exact hnodup.1 (List.mem_map.mpr ⟨(x, sr), htail, rfl⟩)
      have hkept : (print_out y sr' (nameOf segname regname sr') value).2 x = value x :=
        print_out_of_ne hne sr' _
      obtain ⟨hfilter, hgiven⟩ := ih hnodup.2 htail (hkept ▸ h)
      refine ⟨?_, hgiven⟩
      rw [List.filter_append, print_out_filter hne, hfilter, List.nil_append]

theorem print_outs_append (calls calls' : List (Opt × SegReg)) (value : Table) :
    print_outs segname regname (calls ++ calls') value =
      ((print_outs segname regname calls value).1 ++
        (print_outs segname regname calls' (print_outs segname regname calls value).2).1,
        (print_outs segname regname calls' (print_outs segname regname calls value).2).2) := by
  induction calls generalizing value with
  | nil => rfl
  | cons call calls ih =>
    rw [List.cons_append, print_outs, ih, print_outs, List.append_assoc]

/-- All calls of `print_out`. -/
def calls (mm : Bool) : List (Opt × SegReg) := accessOuts mm ++ outs mm

@[simp]
theorem filter_line (b : Bool) (sr : SegReg) (name : Str) (o : Opt) (t : Str) :
    (line b ⟨sr, name, .flag o t⟩).filter (sets x) = [] := by
  cases b <;> rfl

@[simp]
theorem filter_nullLine (name : Str) (v : Value) : (nullLine name v).filter (sets x) = [] := by
  unfold nullLine
  split
  · split
    · rfl
    · exact filter_line ..
  · rfl

@[simp]
theorem filter_releaseLines : (releaseLines e segname regname value).filter (sets x) = [] := by
  unfold releaseLines
  split
  · split <;> simp [printed]
  · rfl

theorem mem_line {b : Bool} {c c' : Change} : c ∈ line b c' ↔ b = true ∧ c = c' := by
  cases b <;> simp [line]

theorem print_block_filter : (print_block e journals segname regname value).1.filter (sets x) =
    (print_outs segname regname (calls (isMM value)) value).1.filter (sets x) := by
  rw [calls, print_outs_append]
  simp [print_block, List.filter_append, print_jnl, printed, asyncioLine]

theorem print_block_table (h : x ≠ .null_subscripts) :
    (print_block e journals segname regname value).2 x =
      (print_outs segname regname (calls (isMM value)) value).2 x := by
  rw [calls, print_outs_append]
  exact Function.update_of_ne h _ _

theorem mem_print_outs {calls : List (Opt × SegReg)} {c : Change}
    (h : c ∈ (print_outs segname regname calls value).1) : ∃ x w, c.qualifier = .out x w := by
  induction calls generalizing value with
  | nil => cases h
  | cons call calls ih =>
    obtain ⟨x, sr⟩ := call
    cases List.mem_append.mp h with
    | inr h => exact ih h
    | inl h =>
      rw [print_out] at h
      split at h
      · exact ⟨x, _, congrArg Change.qualifier (List.mem_singleton.mp h)⟩
      · cases h

def asyncioChange (segname : Str) : Change := ⟨.segment, segname, .flag .asyncio (lit "-asyncio")⟩

/-- Whether asynchronous I/O is asked for, and there is such a thing. -/
def asyncioAsked (e : Env) (value : Table) : Bool :=
  e.from_v63001 && decide ((value .asyncio).text = lit "-asyncio") && !isMM value

theorem mem_nullLine {v : Value} {c : Change} (h : c ∈ nullLine regname v) :
    ∃ t, c.qualifier = .flag .null_subscripts t := by
  unfold nullLine at h
  split at h
  · split at h
    · exact ⟨_, congrArg Change.qualifier (List.mem_singleton.mp h)⟩
    · exact ⟨_, congrArg Change.qualifier (mem_line.mp h).2⟩
  · cases h

theorem mem_releaseLines {c : Change} (h : c ∈ releaseLines e segname regname value) :
    ∃ o t, o ∈ [Opt.freeze, .qdbrundown, .defer_allocate, .epoch_taper] ∧
      c.qualifier = .flag o t := by
  unfold releaseLines at h
  split at h
  · split at h
    · simp only [List.mem_append, printed, mem_line] at h
      obtain (⟨-, rfl⟩ | ⟨-, rfl⟩) | ⟨-, rfl⟩ | ⟨-, rfl⟩ := h <;> simp
    · simp only [List.mem_append, List.append_nil, printed, mem_line] at h
      obtain ⟨-, rfl⟩ | ⟨-, rfl⟩ := h <;> simp
  · cases h

theorem mem_asyncioLine :
    asyncioChange segname ∈ asyncioLine e segname value ↔
      asyncioAsked e value = true ∧ number (value .block_size).text % 4096 = 0 := by
  rw [asyncioLine, mem_line, asyncioChange, asyncioAsked]
  constructor
  · rintro ⟨hcond, -⟩
    rw [Bool.and_eq_true, decide_eq_true_iff] at hcond
    exact hcond
  · intro h
    have htext : (value .asyncio).text = lit "-asyncio" := by
      have h := h.1
      simp only [Bool.and_eq_true, decide_eq_true_iff] at h
      exact h.1.2
    rw [htext]
    refine ⟨?_, rfl⟩
    rw [htext] at h
    rw [Bool.and_eq_true, decide_eq_true_iff]
    exact h

/-- The rule for asynchronous I/O reads what the calls of `print_out` have left. -/
theorem mem_print_block :
    asyncioChange segname ∈ (print_block e journals segname regname value).1 ↔
      asyncioChange segname ∈
        asyncioLine e segname (print_outs segname regname (calls (isMM value)) value).2 := by
  have hout {calls : List (Opt × SegReg)} {value : Table} :
      asyncioChange segname ∉ (print_outs segname regname calls value).1 := by
    intro h
    obtain ⟨x, w, hxw⟩ := mem_print_outs h
    cases hxw
  have hnull {v : Value} : asyncioChange segname ∉ nullLine regname v := by
    intro h
    obtain ⟨t, ht⟩ := mem_nullLine h
    cases ht
  have hrelease {value : Table} : asyncioChange segname ∉ releaseLines e segname regname value := by
    intro h
    obtain ⟨o, t, ho, ht⟩ := mem_releaseLines h
    cases ht
    exact absurd ho (by decide)
  have hline {b : Bool} {sr : SegReg} {name t : Str} {o : Opt} (ho : o ≠ .asyncio) :
      asyncioChange segname ∉ line b ⟨sr, name, .flag o t⟩ := by
    intro h
    cases (mem_line.mp h).2
    exact ho rfl
  rw [calls, print_outs_append]
  simp [print_block, print_jnl, printed, hout, hnull, hrelease, hline]

/-- Every option that is printed is given with its values. -/
def Dealt (value : Table) (vs : Opt → List Str) : Prop :=
  ∀ x sr, (x, sr) ∈ calls (isMM value) → Given x (value x) (vs x)

/-- What the settings of a region leave as it is. -/
structure Kept (value value' : Table) : Prop where
  access_method : value' .access_method = value .access_method
  asyncio : value' .asyncio = value .asyncio
  test_collation : value' .test_collation = value .test_collation

section Block

variable {vs : Opt → List Str} {sr : SegReg} {r : Region}

theorem calls_nodup (mm : Bool) : ((calls mm).map Prod.fst).Nodup := by cases mm <;> decide

theorem calls_given {mm : Bool} (h : (x, sr) ∈ calls mm) :
    x ≠ .null_subscripts ∧ x ≠ .asyncio ∧ x ≠ .test_collation := by
  have hall : ∀ mm, ∀ call ∈ calls mm,
      call.1 ≠ Opt.null_subscripts ∧ call.1 ≠ .asyncio ∧ call.1 ≠ .test_collation := by decide
  exact hall mm (x, sr) h

theorem Kept.isMM {value' : Table} (h : Kept value value') : isMM value' = isMM value := by
  rw [PrintBlock.isMM, PrintBlock.isMM, h.access_method]

theorem print_out_plain (h : colon ∉ (value x).text) (name : Str) :
    (print_out x sr name value).2 = value := by
  have hrest : (value x).rest = value x := if_neg h
  rw [print_out, hrest, Function.update_eq_self]
  split <;> rfl

theorem access_kept : (print_outs segname regname (calls (isMM value)) value).2 .access_method =
    value .access_method := by
  by_cases hmm : isMM value = true
  · have htext : (value .access_method).text = lit "MM" := of_decide_eq_true hmm
    have hplain : colon ∉ (value .access_method).text := by
      rw [htext]
      decide
    have hnot : Opt.access_method ∉ (outs true).map Prod.fst := by decide
    have hcalls : (print_outs segname regname (calls true) value).2 =
        (print_outs segname regname (outs true)
          (print_out .access_method .segment segname value).2).2 := rfl
    rw [hmm, hcalls, print_out_plain hplain]
    exact (print_outs_of_notMem hnot value).1
  · have hnot : Opt.access_method ∉ (calls false).map Prod.fst := by decide
    rw [Bool.not_eq_true] at hmm
    rw [hmm]
    exact (print_outs_of_notMem hnot value).1

theorem print_outs_kept :
    Kept value (print_outs segname regname (calls (isMM value)) value).2 := by
  have hnot {o : Opt} (ho : ∀ mm, o ∉ (calls mm).map Prod.fst) :
      (print_outs segname regname (calls (isMM value)) value).2 o = value o :=
    (print_outs_of_notMem (ho _) value).1
  exact {
    access_method := access_kept
    asyncio := hnot (by decide)
    test_collation := hnot (by decide) }

theorem print_block_kept : Kept value (print_block e journals segname regname value).2 where
  access_method := (print_block_table (by decide)).trans print_outs_kept.access_method
  asyncio := (print_block_table (by decide)).trans print_outs_kept.asyncio
  test_collation := (print_block_table (by decide)).trans print_outs_kept.test_collation

theorem Kept.asyncioAsked {value' : Table} (h : Kept value value') :
    asyncioAsked e value' = asyncioAsked e value := by
  rw [PrintBlock.asyncioAsked, PrintBlock.asyncioAsked, h.asyncio, h.isMM]

theorem print_block_dealt (h : Dealt value vs) :
    Dealt (print_block e journals segname regname value).2 fun x => next (vs x) := by
  intro x sr hx
  rw [print_block_kept.isMM] at hx
  rw [print_block_table (calls_given hx).1]
  exact (print_outs_given (calls_nodup _) hx (h x sr hx)).2

def collationLine (value : Table) (r : Region) : List Change :=
  line ((value .test_collation).isTrue && r.i != 1)
    ⟨.region, r.reg, .out .collation_default (value .test_collation).text⟩

theorem regionBlock_filter (h : Dealt value vs) (hx : (x, sr) ∈ calls (isMM value)) :
    (regionBlock e journals r value).1.filter (sets x) =
      setting x sr (nameOf r.seg r.reg sr) (vs x) ++ (collationLine value r).filter (sets x) := by
  rw [regionBlock, List.filter_append, print_block_filter,
    (print_outs_given (calls_nodup _) hx (h x sr hx)).1, print_block_kept.test_collation,
    collationLine]

theorem number_front {t : Str} (ht : t.all isDigit = true) (s : Str) :
    number (t ++ colon :: s) = number t := by
  have ht' : ∀ a ∈ t, isDigit a = true := fun a ha => List.all_eq_true.mp ht a ha
  rw [number, number, List.takeWhile_append_of_pos ht', List.takeWhile_cons_of_neg (by decide),
    List.append_nil, List.takeWhile_eq_self_iff.mpr ht']

theorem number_unspecified (h : specified .block_size v = false) : number v.text = 0 := by
  rw [specified, Bool.and_eq_false_iff] at h
  cases h with
  | inl h =>
    rw [Bool.or_eq_false_iff, Value.isTrue] at h
    by_cases hnum : (v.field && isNumber v.text) = true
    · rw [if_pos hnum] at h
      exact of_not_not fun hne => by simp [hne] at h
    · rw [if_neg hnum] at h
      rw [not_not.mp (of_decide_eq_false h.2)]
      rfl
  | inr h =>
    rw [decide_eq_false_iff_not, not_not] at h
    rw [h]
    rfl

theorem number_given (h : Given .block_size v ws) (hdigits : ∀ w ∈ ws, w.all isDigit = true) :
    number v.text = ((pick 0 ws).map number).getD 0 := by
  rw [Given] at h
  split at h
  · rw [h.2.1, pick_zero]
    match ws with
    | [] => exact absurd rfl h.1
    | [w] =>
      rw [List.intercalate_singleton]
      rfl
    | w :: u :: ws =>
      have hcons : [colon].intercalate (w :: u :: ws) =
          w ++ colon :: [colon].intercalate (u :: ws) := by
        simp [List.intercalate_cons_cons]
      rw [hcons, number_front (hdigits w List.mem_cons_self)]
      rfl
  · next hs =>
    rw [h, number_unspecified (Bool.eq_false_iff.mpr hs)]
    rfl

theorem regionBlock_asyncio (h : Dealt value vs)
    (hdigits : ∀ w ∈ vs .block_size, w.all isDigit = true) :
    asyncioChange r.seg ∈ (regionBlock e journals r value).1 ↔ asyncioAsked e value = true ∧
      4096 ∣ ((pick 1 (vs .block_size)).map number).getD 0 := by
  have hblock : (Opt.block_size, SegReg.segment) ∈ calls (isMM value) := by
    have hall : ∀ mm, (Opt.block_size, SegReg.segment) ∈ calls mm := by decide
    exact hall _
  have hgiven : Given .block_size
      ((print_outs r.seg r.reg (calls (isMM value)) value).2 .block_size)
      (next (vs .block_size)) := (print_outs_given (calls_nodup _) hblock (h _ _ hblock)).2
  have hnumber := number_given hgiven fun w hw => hdigits w (mem_next hw)
  have hcollation {value : Table} : asyncioChange r.seg ∉ collationLine value r := by
    intro hmem
    cases (mem_line.mp hmem).2
  rw [pick_succ, ← hnumber, Nat.dvd_iff_mod_eq_zero]
  calc asyncioChange r.seg ∈ (regionBlock e journals r value).1
      ↔ asyncioChange r.seg ∈ (print_block e journals r.seg r.reg value).1 :=
        List.mem_append.trans (or_iff_left hcollation)
    _ ↔ _ := mem_print_block.trans mem_asyncioLine
    _ ↔ _ := by rw [print_outs_kept.asyncioAsked]

end Block

section Regions

variable {vs : Opt → List Str} {sr : SegReg} {r : Region} {rs : List Region} {k : Nat}

theorem regionBlock_snd : (regionBlock e journals r value).2 =
    (print_block e journals r.seg r.reg value).2 := rfl

theorem regionBlock_kept : Kept value (regionBlock e journals r value).2 := by
  rw [regionBlock_snd]
  exact print_block_kept

theorem regionBlock_dealt (h : Dealt value vs) :
    Dealt (regionBlock e journals r value).2 fun x => next (vs x) := by
  rw [regionBlock_snd]
  exact print_block_dealt h

/-- The commands of the region at place `k`. -/
structure Printed (e : Env) (value : Table) (vs : Opt → List Str) (k : Nat) (r : Region)
    (cs : List Change) : Prop where
  values : ∀ x sr, (x, sr) ∈ calls (isMM value) → cs.filter (sets x) =
    ((pick k (vs x)).toList.map fun w => ⟨sr, nameOf r.seg r.reg sr, .out x w⟩) ++
      (collationLine value r).filter (sets x)
  asyncio : asyncioChange r.seg ∈ cs ↔ asyncioAsked e value = true ∧
    4096 ∣ ((pick (k + 1) (vs .block_size)).map number).getD 0

theorem regionBlocks_printed (h : Dealt value vs)
    (hdigits : ∀ w ∈ vs .block_size, w.all isDigit = true) (hr : rs[k]? = some r) :
    ∃ cs, (regionBlocks e journals rs value)[k]? = some cs ∧ Printed e value vs k r cs := by
  induction rs generalizing value vs k with
  | nil => cases hr
  | cons r' rs ih =>
    rw [regionBlocks]
    cases k with
    | zero =>
      obtain rfl : r' = r := Option.some.inj hr
      exact ⟨_, rfl, fun x sr hx => regionBlock_filter h hx, regionBlock_asyncio h hdigits⟩
    | succ k =>
      have hdealt : Dealt (regionBlock e journals r' value).2 _ := regionBlock_dealt h
      have hkept : Kept value (regionBlock e journals r' value).2 := regionBlock_kept
      obtain ⟨cs, hcs, hvalues, hasync⟩ := ih hdealt (fun w hw => hdigits w (mem_next hw)) hr
      refine ⟨cs, hcs, fun x sr hx => ?_, ?_⟩
      · rw [hvalues x sr (hkept.isMM ▸ hx), pick_succ, collationLine, collationLine,
          hkept.test_collation]
      · rw [hasync, hkept.asyncioAsked, ← pick_succ]

/-- The block size of the segment at place `k`, where `standard` is the one of a segment that none
is set for. -/
def ownBlock (standard k : Nat) (ws : List Str) : Nat := ((pick k ws).map number).getD standard

/-- Every region is given its value of each option, and its segment asynchronous I/O just if this is
asked for and its block size is a multiple of 4096. -/
def Distributes (e : Env) (journals : List Str) (standard : Nat) (value : Table)
    (vs : Opt → List Str) : Prop :=
  ∀ k r cs, (regions e value)[k]? = some r → (commands e journals value)[k]? = some cs →
    (∀ x sr, (x, sr) ∈ calls (isMM value) → vs x ≠ [] → ∃ w, pick k (vs x) = some w ∧
      cs.filter (sets x) = [⟨sr, nameOf r.seg r.reg sr, .out x w⟩]) ∧
    (asyncioChange r.seg ∈ cs ↔
      asyncioAsked e value = true ∧ 4096 ∣ ownBlock standard k (vs .block_size))

/-- Each block size that a region is given and the next one are multiples of 4096 or neither of
them is. -/
def SameMultiple (standard n : Nat) (ws : List Str) : Prop :=
  ∀ k < n, (ws = [] → 4096 ∣ standard) ∧
    ∀ v w, ws[k]? = some v → ws[k + 1]? = some w → (4096 ∣ number v ↔ 4096 ∣ number w)

theorem ownBlock_iff (standard n : Nat) (ws : List Str) :
    (∀ k < n, (4096 ∣ ((pick (k + 1) ws).map number).getD 0 ↔ 4096 ∣ ownBlock standard k ws)) ↔
      SameMultiple standard n ws := by
  refine forall_congr' fun k => imp_congr_right fun _ => ?_
  by_cases hws : ws = []
  · subst hws
    constructor
    · exact fun h => ⟨fun _ => h.mp (dvd_zero 4096), fun v w hv => by cases hv⟩
    · exact fun h => iff_of_true (dvd_zero 4096) (h.1 rfl)
  · obtain hlt | hle := Nat.lt_or_ge (k + 1) ws.length
    · have hk : pick k ws = some ws[k] := by
        rw [pick_of_lt (by omega), List.getElem?_eq_getElem]
      have hk' : pick (k + 1) ws = some ws[k + 1] := by
        rw [pick_of_lt hlt, List.getElem?_eq_getElem]
      rw [ownBlock, hk, hk']
      constructor
      · refine fun h => ⟨fun hnil => absurd hnil hws, fun v w hv hw => ?_⟩
        rw [List.getElem?_eq_getElem (by omega), Option.some.injEq] at hv hw
        exact hv ▸ hw ▸ h.symm
      · intro h
        exact (h.2 _ _ (List.getElem?_eq_getElem (by omega))
          (List.getElem?_eq_getElem hlt)).symm
    · have hsame : pick (k + 1) ws = pick k ws := by
        rw [pick_of_le (by omega), pick_of_le hle]
      obtain ⟨v, hv⟩ := Option.isSome_iff_exists.mp (pick_isSome k hws)
      rw [ownBlock, hsame, hv]
      refine iff_of_true Iff.rfl ⟨fun hnil => absurd hnil hws, fun v w _ hw => ?_⟩
      rw [List.getElem?_eq_none hle] at hw
      cases hw

theorem filter_collationLine (value : Table) (r : Region) :
    (collationLine value r).filter (sets x) =
      if x = .collation_default then collationLine value r else [] := by
  rw [collationLine]
  cases (value .test_collation).isTrue && r.i != 1 with
  | false => simp [line]
  | true =>
    by_cases hx : x = .collation_default
    · rw [if_pos hx, hx]
      rfl
    · rw [if_neg hx]
      have hne : Opt.collation_default ≠ x := fun h => hx h.symm
      simp [line, sets, hne]

theorem collationLine_eq_nil (h : collationLine value r = []) (hr : r.i ≠ 1) :
    (value .test_collation).isTrue = false := by
  rw [collationLine, bne_iff_ne.mpr hr, Bool.and_true] at h
  cases htrue : (value .test_collation).isTrue with
  | false => rfl
  | true =>
    rw [htrue] at h
    cases h

theorem collation_mem (mm : Bool) : (Opt.collation_default, SegReg.region) ∈ calls mm := by
  cases mm <;> decide

theorem regions_first (e : Env) (value : Table) :
    regions e value = [] ∨ (regions e value)[0]? = some defaultRegion := by
  rw [regions]
  split
  · exact Or.inl rfl
  · exact Or.inr rfl

/-- The values are always distributed, unless `-test_collation` sets the collation once more; for
asynchronous I/O, the rule has to find in the next block size what it would find in its own. -/
theorem Distributes_iff (e : Env) (journals : List Str) (standard : Nat) (value : Table)
    (vs : Opt → List Str) (h : Dealt value vs)
    (hdigits : ∀ w ∈ vs .block_size, w.all isDigit = true) :
    Distributes e journals standard value vs ↔
      (regions e value = [] ∨ (value .test_collation).isTrue = false ∨
        vs .collation_default = []) ∧
      (asyncioAsked e value = true →
        SameMultiple standard (regions e value).length (vs .block_size)) := by
  have hprinted (k : Nat) (r : Region) (hr : (regions e value)[k]? = some r) :
      ∃ cs, (commands e journals value)[k]? = some cs ∧ Printed e value vs k r cs :=
    regionBlocks_printed h hdigits hr
  constructor
  · intro hdist
    refine ⟨?_, fun hasked => (ownBlock_iff _ _ _).mp fun k hk => ?_⟩
    · cases regions_first e value with
      | inl hnil => exact Or.inl hnil
      | inr hfirst =>
        obtain ⟨cs, hcs, hvalues, -⟩ := hprinted 0 defaultRegion hfirst
        refine Or.inr (or_iff_not_imp_right.mpr fun hne => ?_)
        -- the region `DEFAULT` would be given its collation twice
        obtain ⟨w, hw, hone⟩ :=
          (hdist 0 defaultRegion cs hfirst hcs).1 _ _ (collation_mem (isMM value)) hne
        rw [hvalues _ _ (collation_mem (isMM value)), filter_collationLine, if_pos rfl, hw] at hone
        exact collationLine_eq_nil (List.cons.inj hone).2 (by decide)
    · have hr := List.getElem?_eq_getElem hk
      obtain ⟨cs, hcs, -, hasync⟩ := hprinted k _ hr
      have hboth := hasync.symm.trans (hdist k _ cs hr hcs).2
      exact and_congr_right_iff.mp hboth hasked
  · rintro ⟨hcollation, hsame⟩ k r cs hr hcs
    obtain ⟨cs', hcs', hvalues, hasync⟩ := hprinted k r hr
    obtain rfl : cs = cs' := Option.some.inj (hcs.symm.trans hcs')
    refine ⟨fun x sr hx hne => ?_, hasync.trans (and_congr_right fun hasked => ?_)⟩
    · obtain ⟨w, hw⟩ := Option.isSome_iff_exists.mp (pick_isSome k hne)
      have hline : (collationLine value r).filter (sets x) = [] := by
        rw [filter_collationLine]
        split
        · next hx =>
          obtain hnil | hno | hnone := hcollation
          · rw [hnil] at hr
            cases hr
          · rw [collationLine, hno]
            rfl
          · exact absurd (hx ▸ hnone) hne
        · rfl
      refine ⟨w, hw, ?_⟩
      rw [hvalues x sr hx, hline, hw]
      rfl
    · have hk : k < (regions e value).length := (List.getElem?_eq_some_iff.mp hr).1
      exact (ownBlock_iff _ _ _).mpr (hsame hasked) k hk

end Regions

/-- The options as they have been read; `field` tells which of them are fields as they stand. -/
def table (s : Opts) (field : Opt → Bool) : Table := fun o => ⟨s.value o, field o⟩

/-- `mumps 2 -block_size=1024:4096 -acc_meth=BG` with `gtm_test_asyncio` set. -/
def twoSizes : Table :=
  table
    (parse ⟨false, false, false, false, true⟩
      [lit "mumps", lit "2", lit "-block_size=1024:4096", lit "-acc_meth=BG"])
    fun o => o == .file_name || o == .n_regions

def recent : Env := ⟨true, true, true, false, false, fun _ => false⟩

def sizes : Opt → List Str
  | .block_size => [lit "1024", lit "4096"]
  | _ => []

/-- The segment of `DEFAULT` has blocks of 1024 bytes and asynchronous I/O. -/
theorem asyncio_of_next : ¬ Distributes recent [] 4096 twoSizes sizes := by
  intro h
  have hfirst : (regions recent twoSizes)[0]? = some defaultRegion := by decide +kernel
  have hcs : ∃ cs, (commands recent [] twoSizes)[0]? = some cs ∧
      asyncioChange (lit "DEFAULT") ∈ cs := by decide +kernel
  obtain ⟨cs, hcs, hmem⟩ := hcs
  have hown := ((h 0 defaultRegion cs hfirst hcs).2.mp hmem).2
  exact absurd hown (by decide +kernel)

theorem Distributes_iff_twoSizes : Distributes recent [] 4096 twoSizes sizes ↔
    (regions recent twoSizes = [] ∨ (twoSizes .test_collation).isTrue = false ∨
      sizes .collation_default = []) ∧
    (asyncioAsked recent twoSizes = true →
      SameMultiple 4096 (regions recent twoSizes).length (sizes .block_size)) := by
  refine Distributes_iff recent [] 4096 twoSizes sizes ?_ (by decide)
  have hunset : ∀ call ∈ calls (isMM twoSizes), call.1 ≠ Opt.block_size →
      specified call.1 (twoSizes call.1) = false ∧ sizes call.1 = [] := by decide +kernel
  intro x sr hx
  rw [Given]
  by_cases hblock : x = .block_size
  · subst hblock
    have hset : specified .block_size (twoSizes .block_size) = true := by decide +kernel
    rw [if_pos hset]
    exact ⟨List.cons_ne_nil _ _, by decide +kernel, by decide +kernel⟩
  · obtain ⟨hspec, hnil⟩ := hunset (x, sr) hx hblock
    rw [hspec]
    exact hnil

end YdbTest.PrintBlock
