import YdbTest.CollationSafe

namespace YdbTest.Collation

open Access Mem

variable {src dst : Descriptor}

theorem map_bytes (f : UInt8 → UInt8) (d e : Descriptor) (hlen : d.len = e.len)
    (h : ∀ j < e.len, d.val j = f (e.val j)) : d.bytes = e.bytes.map f := by
  rw [Descriptor.bytes, Descriptor.bytes, hlen, List.map_map]
  exact List.map_congr_left fun j hj => h j (List.mem_range.mp hj)

/-- What a call leaves at the destination, as the source of the next call: `*dstlen` bytes. -/
def Outcome.output (o : Outcome) : Descriptor := ⟨o.dstlen.getD 0, o.mem.dst⟩

section Tables

def Inverse (table table' : List Nat) : Prop :=
  ∀ n ∈ List.range 256, table.getD n 0 < 256 ∧ table'.getD (table.getD n 0) 0 = n

instance (table table' : List Nat) : Decidable (Inverse table table') :=
  inferInstanceAs (Decidable (∀ n ∈ List.range 256,
    table.getD n 0 < 256 ∧ table'.getD (table.getD n 0) 0 = n))

theorem Inverse.lookup {table table' : List Nat} (h : Inverse table table') (b : UInt8) :
    Collation.lookup table' (Collation.lookup table b) = b := by
  obtain ⟨hlt, hback⟩ := h b.toNat (List.mem_range.mpr b.toNat_lt)
  rw [Collation.lookup, Collation.lookup, UInt8.toNat_ofNat_of_lt' hlt, hback, UInt8.ofNat_toNat]

theorem col_polish_inverse : Inverse col_polish.xform_table col_polish.inverse_table := by
  decide +kernel

theorem col_polish_rev_inverse :
    Inverse col_polish_rev.xform_table col_polish_rev.inverse_table := by
  decide +kernel

theorem col_reverse_inverse : Inverse col_reverse.xform_table col_reverse.inverse_table := by
  decide +kernel

end Tables

section Output

theorem byTable_code {table : List Nat} {nul : Bool} (h : src.len ≤ dst.len) :
    (byTable table nul src dst).code = SUCCESS := by
  rw [byTable, if_neg (Nat.not_lt.mpr h)]

theorem byTable_output {table : List Nat} {nul : Bool} (h : src.len ≤ dst.len) :
    (byTable table nul src dst).output.bytes = src.bytes.map (lookup table) := by
  rw [byTable, if_neg (Nat.not_lt.mpr h)]
  refine map_bytes _ _ _ rfl fun j hj => ?_
  have hcopy : ((start src dst).copy (lookup table) src.len 0).dst j =
      lookup table (src.val j) := by
    rw [copy_dst, if_pos ⟨Nat.zero_le j, by omega⟩]
    rfl
  cases nul with
  | false => exact hcopy
  | true =>
    -- the NUL stands behind the bytes
    change ((copy _ _ _ _).store src.len 0).dst j = _
    rw [store_dst, if_neg (Nat.ne_of_lt hj), hcopy]

theorem swapped_output {m : Mem} (hm : m.src = src.val) :
    (col_complex.swapped src dst m).output.bytes = src.bytes.map col_complex.swap := by
  refine map_bytes _ _ _ rfl fun j hj => ?_
  change (m.copy col_complex.swap src.len 0).dst j = _
  rw [copy_dst, if_pos ⟨Nat.zero_le j, by omega⟩, hm]

theorem swap_swap (b : UInt8) : col_complex.swap (col_complex.swap b) = b := by
  by_cases ha : b = 97
  · subst ha
    rfl
  · by_cases hb : b = 98
    · subst hb
      rfl
    · have h : col_complex.swap b = b := by rw [col_complex.swap, if_neg ha, if_neg hb]
      rw [h, h]

theorem complex_code : (col_complex.gtm_ac_xform src dst).code = SUCCESS ∨
    StartsWith col_complex.badchar src ∨ StartsWith col_complex.sub2long src := by
  simp only [col_complex.gtm_ac_xform]
  split
  next h => exact Or.inr (Or.inl ((strncmp_startsWith (n := 21) rfl badchar_ne_zero rfl).mp h))
  next =>
    split
    next h =>
      exact Or.inr (Or.inr ((strncmp_startsWith (n := 22) rfl sub2long_ne_zero strncmp_src).mp h))
    next => exact Or.inl rfl

theorem complex_output (h : (col_complex.gtm_ac_xform src dst).code = SUCCESS) :
    (col_complex.gtm_ac_xform src dst).output.bytes = src.bytes.map col_complex.swap := by
  simp only [col_complex.gtm_ac_xform] at h ⊢
  split at h
  · exact absurd h (show ERR_BADCHAR ≠ SUCCESS by decide)
  next h1 =>
    rw [if_neg h1]
    split at h
    · exact absurd h (show ERR_SUB2LONG ≠ SUCCESS by decide)
    next h2 =>
      rw [if_neg h2]
      exact swapped_output (by rw [strncmp_src, strncmp_src]; rfl)

end Output

/-- A plugin whose two functions map single bytes, the second undoing the first. -/
structure Bytewise (xform xback : Descriptor → Descriptor → Outcome) (f g : UInt8 → UInt8) :
    Prop where
  xform_output {src dst : Descriptor} : src.len ≤ dst.len → (xform src dst).code = SUCCESS →
    (xform src dst).output.bytes = src.bytes.map f
  xback_output {src dst : Descriptor} : src.len ≤ dst.len → (xback src dst).code = SUCCESS ∧
    (xback src dst).output.bytes = src.bytes.map g
  back (b : UInt8) : g (f b) = b

section Bytewise

variable {xform xback : Descriptor → Descriptor → Outcome} {f g : UInt8 → UInt8}

theorem length_bytes (d : Descriptor) : d.bytes.length = d.len := by
  rw [Descriptor.bytes, List.length_map, List.length_range]

theorem Bytewise.round (h : Bytewise xform xback f g) (hfit : src.len ≤ dst.len)
    (hok : (xform src dst).code = SUCCESS) {back : Descriptor} (hback : src.len ≤ back.len) :
    (xback (xform src dst).output back).code = SUCCESS ∧
      (xback (xform src dst).output back).output.bytes = src.bytes := by
  have hout := h.xform_output hfit hok
  have hlen : (xform src dst).output.len = src.len := by
    rw [← length_bytes, hout, List.length_map, length_bytes]
  obtain ⟨hcode, hbytes⟩ := h.xback_output (hlen ▸ hback)
  refine ⟨hcode, ?_⟩
  rw [hbytes, hout, List.map_map]
  exact List.map_id'' h.back _

theorem Bytewise.distinct (h : Bytewise xform xback f g) (hfit : src.len ≤ dst.len)
    (hok : (xform src dst).code = SUCCESS) {src' dst' : Descriptor}
    (hfit' : src'.len ≤ dst'.len) (hok' : (xform src' dst').code = SUCCESS)
    (heq : (xform src' dst').output.bytes = (xform src dst).output.bytes) :
    src'.bytes = src.bytes := by
  rw [h.xform_output hfit hok, h.xform_output hfit' hok'] at heq
  exact List.map_injective_iff.mpr (Function.LeftInverse.injective h.back) heq

theorem bytewise_table {table table' : List Nat} {nul : Bool} (h : Inverse table table') :
    Bytewise (byTable table nul) (byTable table' nul) (lookup table) (lookup table') where
  xform_output hfit _ := byTable_output hfit
  xback_output hfit := ⟨byTable_code hfit, byTable_output hfit⟩
  back := h.lookup

theorem bytewise_complex : Bytewise col_complex.gtm_ac_xform col_complex.gtm_ac_xback
    col_complex.swap col_complex.swap where
  xform_output _ hok := complex_output hok
  xback_output _ := ⟨rfl, swapped_output rfl⟩
  back := swap_swap

end Bytewise

open col_chinese (System)

def bytewise : List Plugin := [.col_polish, .col_polish_rev, .col_complex, .col_reverse]

theorem exists_bytewise (sys : System) {p : Plugin} (hp : p ∈ bytewise) :
    ∃ f g, Bytewise (gtm_ac_xform sys p) (gtm_ac_xback sys p) f g := by
  cases p with
  | col_polish => exact ⟨_, _, bytewise_table col_polish_inverse⟩
  | col_polish_rev => exact ⟨_, _, bytewise_table col_polish_rev_inverse⟩
  | col_complex => exact ⟨_, _, bytewise_complex⟩
  | col_reverse => exact ⟨_, _, bytewise_table col_reverse_inverse⟩
  | col_chinese => simp [bytewise] at hp
  | col_straight => simp [bytewise] at hp
  | col_unicode_numeric => simp [bytewise] at hp

theorem xform_code (sys : System) {p : Plugin} (hp : p ∈ bytewise) (hfit : src.len ≤ dst.len) :
    (gtm_ac_xform sys p src dst).code = SUCCESS ∨ p = .col_complex ∧
      (StartsWith col_complex.badchar src ∨ StartsWith col_complex.sub2long src) := by
  cases p with
  | col_polish => exact Or.inl (byTable_code hfit)
  | col_polish_rev => exact Or.inl (byTable_code hfit)
  | col_complex => exact complex_code.imp id fun h => ⟨rfl, h⟩
  | col_reverse => exact Or.inl (byTable_code hfit)
  | col_chinese => simp [bytewise] at hp
  | col_straight => simp [bytewise] at hp
  | col_unicode_numeric => simp [bytewise] at hp

/-- `xback` undoes `xform` on every string that fits, and no two strings share a key, unless
`xform` returns an error, as only `col_complex` does, for its two texts. -/
theorem xback_xform (sys : System) (p : Plugin) (hp : p ∈ bytewise) (src dst : Descriptor)
    (hfit : src.len ≤ dst.len) :
    ((gtm_ac_xform sys p src dst).code = SUCCESS ∨ p = .col_complex ∧
      (StartsWith col_complex.badchar src ∨ StartsWith col_complex.sub2long src)) ∧
    ((gtm_ac_xform sys p src dst).code = SUCCESS →
      (∀ back : Descriptor, src.len ≤ back.len →
        (gtm_ac_xback sys p (gtm_ac_xform sys p src dst).output back).code = SUCCESS ∧
        (gtm_ac_xback sys p (gtm_ac_xform sys p src dst).output back).output.bytes =
          src.bytes) ∧
      ∀ src' dst' : Descriptor, src'.len ≤ dst'.len →
        (gtm_ac_xform sys p src' dst').code = SUCCESS →
        (gtm_ac_xform sys p src' dst').output.bytes =
          (gtm_ac_xform sys p src dst).output.bytes →
        src'.bytes = src.bytes) := by
  obtain ⟨f, g, h⟩ := exists_bytewise sys hp
  refine ⟨xform_code sys hp hfit, fun hok => ⟨fun back hback => ?_, ?_⟩⟩
  · exact h.round hfit hok hback
  · intro src' dst' hfit' hok' heq
    exact h.distinct hfit hok hfit' hok' heq

theorem xback_xform_letter :
    (gtm_ac_xback ascii .col_complex
      (gtm_ac_xform ascii .col_complex letter letter).output letter).output.bytes = [97] :=
  (((xback_xform ascii .col_complex (by simp [bytewise]) letter letter (Nat.le_refl 1)).2
    (by decide)).1 letter (Nat.le_refl 1)).2

end YdbTest.Collation
