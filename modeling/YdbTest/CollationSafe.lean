import YdbTest.Collation

namespace YdbTest.Collation

open Access Mem

/-- A call that succeeds has written and read inside of its descriptors only. -/
def Safe (src dst : Descriptor) (o : Outcome) : Prop :=
  o.code ≠ SUCCESS ∨ (∀ j ∈ o.mem.writes, j < dst.len) ∧ ∀ j ∈ o.mem.reads, j < src.len

variable {src dst : Descriptor}

theorem safe_of_failed {o : Outcome} (h : o.code ≠ SUCCESS) : Safe src dst o := Or.inl h

theorem safe_of_success {o : Outcome} (h : o.code = SUCCESS) :
    Safe src dst o ↔ (∀ j ∈ o.mem.writes, j < dst.len) ∧ ∀ j ∈ o.mem.reads, j < src.len :=
  or_iff_right (not_not.mpr h)

section Table

variable {table : List Nat}

theorem byTable_failed {nul : Bool} (h : src.len > dst.len) :
    Safe src dst (byTable table nul src dst) := by
  rw [byTable, if_pos h]
  exact safe_of_failed (show MYAPPS_SUBSC2LONG ≠ SUCCESS by decide)

variable (table) in
theorem byTable_copied (h : src.len ≤ dst.len) :
    (∀ j ∈ ((start src dst).copy (lookup table) src.len 0).writes, j < dst.len) ∧
      ∀ j ∈ ((start src dst).copy (lookup table) src.len 0).reads, j < src.len := by
  constructor
  · intro j hj
    obtain hj | hj := mem_copy_writes.mp hj
    · exact absurd hj List.not_mem_nil
    · omega
  · intro j hj
    obtain hj | hj := mem_copy_reads.mp hj
    · exact absurd hj List.not_mem_nil
    · omega

theorem byTable_safe : Safe src dst (byTable table false src dst) := by
  by_cases h : src.len > dst.len
  · exact byTable_failed h
  · rw [byTable, if_neg h]
    exact (safe_of_success rfl).mpr (byTable_copied table (Nat.le_of_not_lt h))

theorem byTable_nul_safe : Safe src dst (byTable table true src dst) ↔ src.len ≠ dst.len := by
  by_cases h : src.len > dst.len
  · exact iff_of_true (byTable_failed h) (Nat.ne_of_gt h)
  · have hle : src.len ≤ dst.len := Nat.le_of_not_lt h
    obtain ⟨hw, hr⟩ := byTable_copied table hle
    rw [byTable, if_neg h, safe_of_success rfl]
    simp only [if_true, store_writes, store_reads, List.forall_mem_cons]
    constructor
    · rintro ⟨⟨hlt, _⟩, _⟩
      exact Nat.ne_of_lt hlt
    · intro hne
      exact ⟨⟨Nat.lt_of_le_of_ne hle hne, hw⟩, hr⟩

end Table

section Complex

open col_complex

variable {m : Mem} {t : List UInt8}

/-- The memory from the source pointer on starts with a text. -/
def StartsWith (t : List UInt8) (src : Descriptor) : Prop :=
  ∀ j < t.length, src.val j = t.getD j 0

def Differs (t : List UInt8) (src : Descriptor) : Prop :=
  ∃ j < t.length, j < src.len ∧ src.val j ≠ t.getD j 0

theorem badchar_ne_zero : ∀ j < 0 + 21, badchar.getD j 0 ≠ 0 := by decide

theorem sub2long_ne_zero : ∀ j < 0 + 22, sub2long.getD j 0 ≠ 0 := by decide

theorem strncmp_startsWith {n : Nat} (hn : t.length = n) (hz : ∀ j < 0 + n, t.getD j 0 ≠ 0)
    (hm : m.src = src.val) : (m.strncmp t n 0).1 = true ↔ StartsWith t src := by
  rw [strncmp_eq hz, hm, StartsWith, hn, Nat.zero_add]
  exact ⟨fun h j hj => h j (Nat.zero_le j) hj, fun h j _ hj => h j hj⟩

theorem strncmp_differs {n : Nat} (hn : t.length = n) (hz : ∀ j < 0 + n, t.getD j 0 ≠ 0)
    (hm : m.src = src.val) (hne : ¬StartsWith t src) :
    (∀ j ∈ (m.strncmp t n 0).2.reads, j < src.len) ↔
      (∀ j ∈ m.reads, j < src.len) ∧ Differs t src := by
  have hf : (m.strncmp t n 0).1 = false :=
    Bool.eq_false_iff.mpr fun h => hne ((strncmp_startsWith hn hz hm).mp h)
  rw [strncmp_reads hz hf, hm, Differs, hn, Nat.zero_add]
  refine and_congr_right fun _ => exists_congr fun j => ?_
  exact ⟨fun ⟨_, h⟩ => h, fun h => ⟨Nat.zero_le j, h⟩⟩

theorem swapped_safe (hm : ∀ j, j ∉ m.writes) :
    Safe src dst (swapped src dst m) ↔ src.len ≤ dst.len ∧ ∀ j ∈ m.reads, j < src.len := by
  rw [swapped, safe_of_success rfl]
  simp only [mem_copy_writes, mem_copy_reads, hm, false_or]
  constructor
  · rintro ⟨hw, hr⟩
    refine ⟨?_, fun j hj => hr j (Or.inl hj)⟩
    by_contra hlt
    exact absurd (hw dst.len ⟨by omega, by omega⟩) (Nat.lt_irrefl _)
  · rintro ⟨hle, hr⟩
    refine ⟨fun j hj => by omega, fun j hj => ?_⟩
    obtain hj | hj := hj
    · exact hr j hj
    · omega

theorem complex_xform_safe : Safe src dst (col_complex.gtm_ac_xform src dst) ↔
    StartsWith badchar src ∨ StartsWith sub2long src ∨
      src.len ≤ dst.len ∧ Differs badchar src ∧ Differs sub2long src := by
  have hb : ((start src dst).strncmp badchar 21 0).1 = true ↔ StartsWith badchar src :=
    strncmp_startsWith rfl badchar_ne_zero rfl
  rw [col_complex.gtm_ac_xform]
  by_cases h1 : StartsWith badchar src
  · rw [if_pos (hb.mpr h1)]
    exact iff_of_true (safe_of_failed (show ERR_BADCHAR ≠ SUCCESS by decide)) (Or.inl h1)
  · rw [if_neg (fun h => h1 (hb.mp h))]
    have hd := strncmp_differs (m := start src dst) (n := 21) rfl badchar_ne_zero rfl h1
    have hsrc : ((start src dst).strncmp badchar 21 0).2.src = src.val := strncmp_src
    have hw : ((start src dst).strncmp badchar 21 0).2.writes = [] := strncmp_writes
    generalize ((start src dst).strncmp badchar 21 0).2 = m at hd hsrc hw
    have hs : (m.strncmp sub2long 22 0).1 = true ↔ StartsWith sub2long src :=
      strncmp_startsWith rfl sub2long_ne_zero hsrc
    by_cases h2 : StartsWith sub2long src
    · simp only [if_pos (hs.mpr h2)]
      exact iff_of_true (safe_of_failed (show ERR_SUB2LONG ≠ SUCCESS by decide))
        (Or.inr (Or.inl h2))
    · simp only [if_neg (fun h => h2 (hs.mp h))]
      rw [swapped_safe (by rw [strncmp_writes, hw]; exact fun _ => List.not_mem_nil),
        strncmp_differs (n := 22) rfl sub2long_ne_zero hsrc h2, hd, or_iff_right h1,
        or_iff_right h2]
      refine and_congr_right fun _ => and_congr_left fun _ => and_iff_right ?_
      exact fun j hj => absurd hj List.not_mem_nil

end Complex

section Chinese

open col_chinese

def Converts (sys : System) (tocode fromcode : String) (src dst : Descriptor) : Prop :=
  sys.iconv_open tocode fromcode ≠ none ∨
    (sys.iconv tocode fromcode src.bytes dst.len).errno ≠ none ∨
    (sys.iconv tocode fromcode src.bytes dst.len).written.length < dst.len

theorem convert_safe {sys : System} (hsys : sys.Documented) {tocode fromcode : String} :
    Safe src dst (convert sys tocode fromcode src dst) ↔
      Converts sys tocode fromcode src dst := by
  cases he : sys.iconv_open tocode fromcode with
  | some e =>
    rw [convert, he]
    exact iff_of_true (safe_of_failed (hsys.iconv_open_errno he))
      (Or.inl (he ▸ Option.some_ne_none e))
  | none =>
    rw [Converts, or_iff_right (not_not.mpr he)]
    cases hc : (sys.iconv tocode fromcode src.bytes dst.len).errno with
    | some e =>
      simp only [convert, he, hc]
      exact iff_of_true (safe_of_failed (hsys.iconv_errno hc)) (Or.inl (Option.some_ne_none e))
    | none =>
      have hle := hsys.written_le tocode fromcode src.bytes dst.len
      rw [or_iff_right (not_not.mpr rfl)]
      simp only [convert, he, hc]
      rw [safe_of_success rfl]
      simp only [store_writes, store_reads, put_reads, List.forall_mem_cons]
      constructor
      · rintro ⟨⟨hlt, _⟩, _⟩
        exact hlt
      · intro hlt
        refine ⟨⟨hlt, fun j hj => ?_⟩, fun j hj => ?_⟩
        · obtain hj | hj := mem_put_writes.mp hj
          · exact absurd hj List.not_mem_nil
          · omega
        · obtain hj | hj := (mem_loads_reads _ _ _).mp hj
          · exact hj
          · exact absurd hj List.not_mem_nil

end Chinese

section UnicodeNumeric

open col_unicode_numeric

variable {m : Mem} {n i j : Nat}

theorem turn_reads : (turn i m).reads = m.reads := by
  rw [turn]
  split
  · rfl
  · exact store_reads m _ _

theorem turn_dst (hj : j ≠ i + 2) : (turn i m).dst j = m.dst j := by
  rw [turn]
  split
  · rfl
  · rw [store_dst, if_neg hj]

theorem mem_turn_writes :
    j ∈ (turn i m).writes ↔
      j ∈ m.writes ∨ j = i + 2 ∧ m.dst i = 224 ∧ m.dst (i + 1) = 165 := by
  rw [turn]
  split
  next h =>
    refine (or_iff_left ?_).symm
    rintro ⟨_, h1, h2⟩
    exact h.elim (fun h => h h1) (fun h => h h2)
  next h =>
    push Not at h
    rw [store_writes, List.mem_cons, or_comm]
    exact or_congr_right ⟨fun hj => ⟨hj, h⟩, fun hj => hj.1⟩

theorem turns_reads : (turns n i m).reads = m.reads := by
  fun_induction turns n i m with
  | case1 i m h ih => rw [ih, turn_reads]
  | case2 => rfl

theorem mem_turns_writes :
    j ∈ (turns n i m).writes ↔ j ∈ m.writes ∨
      ∃ k, i + 3 * k < n ∧ j = i + 3 * k + 2 ∧
        m.dst (i + 3 * k) = 224 ∧ m.dst (i + 3 * k + 1) = 165 := by
  fun_induction turns n i m with
  | case1 i m h ih =>
    rw [ih, mem_turn_writes, or_assoc]
    refine or_congr_right ⟨?_, ?_⟩
    · rintro (hj | ⟨k, hk, hj, h1, h2⟩)
      · exact ⟨0, h, hj⟩
      · rw [turn_dst (by omega)] at h1 h2
        refine ⟨k + 1, by omega, by omega, ?_⟩
        rw [show i + 3 * (k + 1) = i + 3 + 3 * k by omega]
        exact ⟨h1, h2⟩
    · rintro ⟨k, hk, hj, h1, h2⟩
      cases k with
      | zero => exact Or.inl ⟨hj, h1, h2⟩
      | succ k =>
        rw [show i + 3 * (k + 1) = i + 3 + 3 * k by omega] at hk hj h1 h2
        refine Or.inr ⟨k, hk, hj, ?_, ?_⟩
        · rw [turn_dst (by omega), h1]
        · rw [turn_dst (by omega), h2]
  | case2 i m h =>
    refine (or_iff_left ?_).symm
    rintro ⟨k, hk, _⟩
    omega

def loaded (src dst : Descriptor) : Mem :=
  let m := (start src dst).put (List.replicate dst.len 0) 0
  let srcbuf := m.strncpy src.len 0
  srcbuf.2.put srcbuf.1 0

theorem loaded_reads (hj : j ∈ (loaded src dst).reads) : j < src.len := by
  rw [loaded, put_reads] at hj
  obtain hj | hj := strncpy_reads_lt hj
  · rw [put_reads] at hj
    exact absurd hj List.not_mem_nil
  · omega

theorem mem_loaded_writes (h : src.len ≤ dst.len) :
    j ∈ (loaded src dst).writes ↔ j < dst.len := by
  rw [loaded, mem_put_writes, strncpy_length, strncpy_writes, mem_put_writes,
    List.length_replicate]
  constructor
  · rintro ((hj | hj) | hj)
    · exact absurd hj List.not_mem_nil
    · omega
    · omega
  · intro hj
    exact Or.inl (Or.inr (by omega))

theorem loaded_dst_source (hj : j < src.len) {b : UInt8} (hb : b ≠ 0) :
    (loaded src dst).dst j = b ↔ src.val j = b ∧ ∀ k < j, src.val k ≠ 0 := by
  rw [loaded, put_dst, strncpy_length, if_pos (by omega), Nat.sub_zero, strncpy_get hj hb,
    put_src, Nat.zero_add]
  simp only [Nat.zero_add]
  rfl

theorem loaded_dst_between (hj : src.len ≤ j) (hlt : j < dst.len) :
    (loaded src dst).dst j = 0 := by
  rw [loaded, put_dst, strncpy_length, if_neg (by omega), strncpy_dst, put_dst,
    List.length_replicate, if_pos (by omega), List.getD_eq_getElem?_getD, List.getElem?_replicate,
    if_pos (by omega)]
  rfl

theorem loaded_dst_after (hj : src.len ≤ j) (hlt : dst.len ≤ j) :
    (loaded src dst).dst j = dst.val j := by
  rw [loaded, put_dst, strncpy_length, if_neg (by omega), strncpy_dst, put_dst,
    List.length_replicate, if_neg (by omega)]
  rfl

/-- The last group of a source that fills the destination has one or two bytes, without a NUL
before them, and goes on like a Hindi number. -/
def Overruns (src dst : Descriptor) : Prop :=
  src.len = dst.len ∧ (∀ k < src.len, src.val k ≠ 0) ∧
    (src.len % 3 = 2 ∧ src.val (src.len - 2) = 224 ∧ src.val (src.len - 1) = 165 ∨
      src.len % 3 = 1 ∧ src.val (src.len - 1) = 224 ∧ dst.val dst.len = 165)

theorem overruns_iff (hle : src.len ≤ dst.len) :
    Overruns src dst ↔ ∃ k, 3 * k < src.len ∧ dst.len ≤ 3 * k + 2 ∧
      (loaded src dst).dst (3 * k) = 224 ∧ (loaded src dst).dst (3 * k + 1) = 165 := by
  constructor
  · rintro ⟨hlen, hz, ⟨hmod, h1, h2⟩ | ⟨hmod, h1, h2⟩⟩
    · obtain ⟨k, hk⟩ : ∃ k, src.len = 3 * k + 2 := ⟨src.len / 3, by omega⟩
      rw [show src.len - 2 = 3 * k by omega] at h1
      rw [show src.len - 1 = 3 * k + 1 by omega] at h2
      refine ⟨k, by omega, by omega, ?_, ?_⟩
      · exact (loaded_dst_source (by omega) (by decide)).mpr
          ⟨h1, fun i hi => hz i (by omega)⟩
      · exact (loaded_dst_source (by omega) (by decide)).mpr
          ⟨h2, fun i hi => hz i (by omega)⟩
    · obtain ⟨k, hk⟩ : ∃ k, src.len = 3 * k + 1 := ⟨src.len / 3, by omega⟩
      rw [show src.len - 1 = 3 * k by omega] at h1
      rw [show dst.len = 3 * k + 1 by omega] at h2
      refine ⟨k, by omega, by omega, ?_, ?_⟩
      · exact (loaded_dst_source (by omega) (by decide)).mpr
          ⟨h1, fun i hi => hz i (by omega)⟩
      · rw [loaded_dst_after (by omega) (by omega), h2]
  · rintro ⟨k, hk, hN, h1, h2⟩
    obtain ⟨h1, hz⟩ := (loaded_dst_source hk (by decide)).mp h1
    by_cases hin : 3 * k + 1 < src.len
    · obtain ⟨h2, hz⟩ := (loaded_dst_source hin (by decide)).mp h2
      refine ⟨by omega, fun i hi => ?_, Or.inl ⟨by omega, ?_, ?_⟩⟩
      · obtain hlt | rfl : i < 3 * k + 1 ∨ i = 3 * k + 1 := by omega
        · exact hz i hlt
        · rw [h2]
          decide
      · rw [show src.len - 2 = 3 * k by omega, h1]
      · rw [show src.len - 1 = 3 * k + 1 by omega, h2]
    · obtain hlt | hge := Nat.lt_or_ge (3 * k + 1) dst.len
      · rw [loaded_dst_between (by omega) hlt] at h2
        exact absurd h2 (by decide)
      · rw [loaded_dst_after (by omega) hge] at h2
        refine ⟨by omega, fun i hi => ?_, Or.inr ⟨by omega, ?_, ?_⟩⟩
        · obtain hlt | rfl : i < 3 * k ∨ i = 3 * k := by omega
          · exact hz i hlt
          · rw [h1]
            decide
        · rw [show src.len - 1 = 3 * k by omega, h1]
        · rw [show dst.len = 3 * k + 1 by omega, h2]

theorem hindinumreverse_safe :
    Safe src dst (hindinumreverse (some src) (some dst)) ↔ ¬Overruns src dst := by
  have hempty : ∀ j, j ∉ (start src dst).writes := fun _ => List.not_mem_nil
  simp only [hindinumreverse]
  by_cases h0 : src.len = 0
  · rw [if_pos h0, safe_of_success rfl]
    refine iff_of_true ⟨fun j hj => ?_, fun j hj => ?_⟩ ?_
    · obtain hj | hj := mem_put_writes.mp hj
      · exact absurd hj (hempty j)
      · rw [List.length_replicate] at hj
        omega
    · rw [put_reads] at hj
      exact absurd hj List.not_mem_nil
    · rintro ⟨_, _, ⟨hmod, _⟩ | ⟨hmod, _⟩⟩ <;> omega
  · rw [if_neg h0]
    by_cases hgt : src.len > dst.len
    · rw [if_pos hgt]
      exact iff_of_true (safe_of_failed (show MYAPPS_SUBSC2LONG ≠ SUCCESS by decide))
        fun ho => Nat.ne_of_gt hgt ho.1
    · have hle : src.len ≤ dst.len := Nat.le_of_not_lt hgt
      rw [if_neg hgt, safe_of_success rfl]
      change (∀ j ∈ (turns src.len 0 (loaded src dst)).writes, j < dst.len) ∧
        (∀ j ∈ (turns src.len 0 (loaded src dst)).reads, j < src.len) ↔ _
      rw [turns_reads, and_iff_left (fun j hj => loaded_reads hj), overruns_iff hle]
      simp only [mem_turns_writes, mem_loaded_writes hle, Nat.zero_add]
      constructor
      · rintro hw ⟨k, hk, hN, h1, h2⟩
        have := hw (3 * k + 2) (Or.inr ⟨k, hk, rfl, h1, h2⟩)
        omega
      · rintro ho j (hj | ⟨k, hk, rfl, h1, h2⟩)
        · exact hj
        · by_contra hN
          exact ho ⟨k, hk, by omega, h1, h2⟩

end UnicodeNumeric

open col_chinese (System)

/-- The inputs on which `gtm_ac_xform` stays within its descriptors or returns an error. -/
def XformFits (sys : System) : Plugin → Descriptor → Descriptor → Prop
  | .col_polish, src, dst | .col_polish_rev, src, dst => src.len ≠ dst.len
  | .col_complex, src, dst =>
    StartsWith col_complex.badchar src ∨ StartsWith col_complex.sub2long src ∨
      src.len ≤ dst.len ∧ Differs col_complex.badchar src ∧ Differs col_complex.sub2long src
  | .col_chinese, src, dst =>
    Converts sys (col_chinese.conv_from_chset sys) (col_chinese.conv_to_chset sys) src dst
  | .col_straight, _, _ | .col_reverse, _, _ => True
  | .col_unicode_numeric, src, dst => ¬Overruns src dst

def XbackFits (sys : System) : Plugin → Descriptor → Descriptor → Prop
  | .col_polish, src, dst | .col_polish_rev, src, dst => src.len ≠ dst.len
  | .col_complex, src, dst => src.len ≤ dst.len
  | .col_chinese, src, dst => Converts sys "UTF-8" "GB18030" src dst
  | .col_straight, _, _ | .col_reverse, _, _ => True
  | .col_unicode_numeric, src, dst => ¬Overruns src dst

theorem xform_safe {sys : System} (hsys : sys.Documented) (p : Plugin) :
    Safe src dst (gtm_ac_xform sys p src dst) ↔ XformFits sys p src dst := by
  cases p with
  | col_polish => exact byTable_nul_safe
  | col_polish_rev => exact byTable_nul_safe
  | col_complex => exact complex_xform_safe
  | col_chinese => exact convert_safe hsys
  | col_straight => exact iff_true_intro byTable_safe
  | col_reverse => exact iff_true_intro byTable_safe
  | col_unicode_numeric => exact hindinumreverse_safe

theorem xback_safe {sys : System} (hsys : sys.Documented) (p : Plugin) :
    Safe src dst (gtm_ac_xback sys p src dst) ↔ XbackFits sys p src dst := by
  cases p with
  | col_polish => exact byTable_nul_safe
  | col_polish_rev => exact byTable_nul_safe
  | col_complex =>
    refine (swapped_safe fun _ => List.not_mem_nil).trans (and_iff_left fun j hj => ?_)
    exact absurd hj List.not_mem_nil
  | col_chinese => exact convert_safe hsys
  | col_straight => exact iff_true_intro byTable_safe
  | col_reverse => exact iff_true_intro byTable_safe
  | col_unicode_numeric => exact hindinumreverse_safe

/-- Exactly when the two functions of a plugin stay within their descriptors. -/
theorem within_descriptors (sys : System) (hsys : sys.Documented) (p : Plugin)
    (src dst : Descriptor) :
    (Safe src dst (gtm_ac_xform sys p src dst) ↔ XformFits sys p src dst) ∧
      (Safe src dst (gtm_ac_xback sys p src dst) ↔ XbackFits sys p src dst) :=
  ⟨xform_safe hsys p, xback_safe hsys p⟩

/-- ASCII bytes are the same in UTF-8 and GB18030; others are not converted here. -/
def ascii : System where
  iconv_open := fun _ _ => none
  iconv := fun _ _ inbuf outbytesleft =>
    let l := inbuf.takeWhile (· < 128)
    if l.length < inbuf.length then ⟨l.take outbytesleft, some 84⟩
    else if outbytesleft < l.length then ⟨l.take outbytesleft, some 7⟩
    else ⟨l, none⟩
  gtm_test_linux_distrib := none

theorem ascii_documented : ascii.Documented where
  iconv_open_errno := by
    intro tocode fromcode e h
    exact absurd h (by simp [ascii])
  iconv_errno := by
    intro tocode fromcode inbuf outbytesleft e h
    simp only [ascii] at h
    split at h
    · exact Option.some.inj h ▸ (by decide : (84 : Nat) ≠ 0)
    · split at h
      · exact Option.some.inj h ▸ (by decide : (7 : Nat) ≠ 0)
      · exact absurd h (by simp)
  written_le := by
    intro tocode fromcode inbuf outbytesleft
    simp only [ascii]
    split
    · exact List.length_take_le _ _
    · split
      · exact List.length_take_le _ _
      next h => exact Nat.le_of_not_lt h

/-- The letter `a`, for a destination of one byte. -/
def letter : Descriptor := ⟨1, fun _ => 97⟩

theorem within_descriptors_letter :
    (Safe letter letter (gtm_ac_xform ascii .col_chinese letter letter) ↔
        XformFits ascii .col_chinese letter letter) ∧
      (Safe letter letter (gtm_ac_xback ascii .col_chinese letter letter) ↔
        XbackFits ascii .col_chinese letter letter) :=
  within_descriptors ascii ascii_documented .col_chinese letter letter

/-- `col_polish` ends one byte with a NUL behind it. -/
theorem nul_past_end : ¬∀ (sys : System) (p : Plugin) (src dst : Descriptor),
    Safe src dst (gtm_ac_xform sys p src dst) ∧ Safe src dst (gtm_ac_xback sys p src dst) := by
  intro h
  have hpolish := (h ascii .col_polish letter letter).1
  exact (byTable_nul_safe.mp hpolish) rfl

end YdbTest.Collation
