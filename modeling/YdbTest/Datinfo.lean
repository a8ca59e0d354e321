import Mathlib.Algebra.Order.Field.Basic
import Mathlib.Data.Rat.Floor
import Mathlib.Tactic.FieldSimp
import Mathlib.Tactic.Linarith

namespace YdbTest.Datinfo

/-- What the file header gives. -/
structure Header where
  block_size : Nat
  max_record_size : Nat
  max_key_size : Nat

structure Setting where
  /-- `$zchset="M"` -/
  m : Bool
  version : Nat
  /-- `+$ztrnlnm("gtm_test_spannode")` -/
  spannode : Int

/-- The nodes of `datinfo`, without the two that are set at the end. -/
structure Limits where
  block_size : Int
  max_record_size : Int
  max_key_size : Int

structure Info extends Limits where
  record_size : Int
  key_size : Int

def imptpmaxkeysize : Int := 40

def recpad : Int := 4

def key2blockpct : ℚ := 3 / 10

def Setting.ugenstrmax (s : Setting) : Int := if s.m then 70 else 120

/-- Versions before V6.0-000 have no spanning nodes. -/
def Setting.blockspan (s : Setting) : Int := if s.version < 60000 then 0 else s.spannode

def int (x : ℚ) : Int := if 0 ≤ x then ⌊x⌋ else ⌈x⌉

def dseget (h : Header) : Limits := ⟨h.block_size, h.max_record_size, h.max_key_size⟩

def capRecord (s : Setting) (d : Limits) : Limits :=
  if s.blockspan = 0 ∧ d.max_record_size > 1000 then { d with max_record_size := 1000 } else d

def halveKey (d : Limits) : Limits :=
  if (1 / 2 : ℚ) < d.max_key_size / d.block_size then
    { d with max_key_size := int (d.block_size * (1 / 2)) }
  else d

/-- The longest string of `ugenstr` is to fit. -/
def fitString (s : Setting) (d : Limits) : Limits :=
  if s.blockspan = 0 ∧ d.max_record_size - d.max_key_size < s.ugenstrmax then
    { d with
      max_key_size :=
        if d.max_key_size < 255 then s.ugenstrmax else d.max_key_size - s.ugenstrmax }
  else d

def Limits.Large (d : Limits) : Prop :=
  let blockdatalen := d.block_size - d.max_key_size
  blockdatalen = 0 ∨ (d.max_record_size / blockdatalen : ℚ) > 3

instance (d : Limits) : Decidable d.Large := inferInstanceAs (Decidable (_ ∨ _))

def shortenKey (d : Limits) : Limits :=
  if d.max_key_size > d.block_size * key2blockpct then
    { d with max_key_size := int (d.block_size * key2blockpct) }
  else d

/-- `MAXBTLEVEL` is avoided. -/
def spread (s : Setting) (d : Limits) : Limits :=
  if s.blockspan = 1 ∧ d.Large then
    let d := shortenKey d
    if d.Large then { d with max_record_size := 3 * (d.block_size - d.max_key_size) } else d
  else d

def Limits.info (s : Setting) (d : Limits) : Info :=
  { d with
    record_size := d.max_record_size - if s.blockspan > 0 then recpad else d.max_key_size + recpad
    key_size := d.max_key_size - imptpmaxkeysize }

def get (s : Setting) (h : Header) : Info :=
  (spread s (fitString s (halveKey (capRecord s (dseget h))))).info s

/-- What is asked for is allowed by the database: keys, records, and, with spanning nodes, the
blocks that a record takes. -/
structure Info.Allowed (x : Info) (s : Setting) (h : Header) : Prop where
  key : x.key_size + imptpmaxkeysize ≤ h.max_key_size
  positive : 0 ≤ x.record_size
  record : x.record_size + recpad + (if s.blockspan > 0 then 0 else x.max_key_size) ≤
    h.max_record_size
  blocks : s.blockspan = 1 → x.max_record_size ≤ 3 * (x.block_size - x.max_key_size)

/-- With spanning nodes, there is room for the header of a record. Without them, a string of
`ugenstr` fits behind the longest key as it is, or the key can be cut, or it can become as long as
such a string. -/
def Roomy (s : Setting) (h : Header) : Prop :=
  if s.blockspan = 1 then 4 ≤ h.max_record_size
  else
    let record : Int := min h.max_record_size 1000
    let key : Int := min h.max_key_size (h.block_size / 2)
    s.ugenstrmax ≤ record - key ∨
      if key < 255 then s.ugenstrmax ≤ h.max_key_size ∧ s.ugenstrmax + 4 ≤ record
      else key + 4 ≤ record + s.ugenstrmax

instance (s : Setting) (h : Header) : Decidable (Roomy s h) := by
  unfold Roomy
  infer_instance

variable {s : Setting} {h : Header} {d : Limits}

theorem floor_mul (n : Int) (m : Nat) (k : Int) :
    ⌊(n : ℚ) * (k / m)⌋ = n * k / m := by
  rw [← mul_div_assoc, ← Int.cast_mul]
  exact Rat.floor_intCast_div_natCast _ m

theorem ugenstrmax_ge (s : Setting) : 70 ≤ s.ugenstrmax := by
  unfold Setting.ugenstrmax
  split
  · exact le_rfl
  · decide

theorem halveKey_key (hblock : 0 < d.block_size) :
    halveKey d = { d with max_key_size := min d.max_key_size (d.block_size / 2) } := by
  have hpos : (0 : ℚ) < d.block_size := Int.cast_pos.mpr hblock
  have hhalf : int (d.block_size * (1 / 2)) = d.block_size / 2 := by
    rw [int, if_pos (by positivity)]
    simpa using floor_mul d.block_size 2 1
  have hlong : (1 / 2 : ℚ) < d.max_key_size / d.block_size ↔ d.block_size < 2 * d.max_key_size := by
    rw [div_lt_div_iff₀ two_pos hpos, one_mul, mul_comm]
    norm_cast
  rw [halveKey, hhalf]
  split
  · next hkey =>
    rw [min_eq_right]
    have := hlong.mp hkey
    omega
  · next hkey =>
    rw [min_eq_left]
    have := mt hlong.mpr hkey
    omega

theorem large_iff (hkey : d.max_key_size < d.block_size) :
    d.Large ↔ 3 * (d.block_size - d.max_key_size) < d.max_record_size := by
  have hpos : (0 : ℚ) < (d.block_size : ℚ) - d.max_key_size := by
    rw [sub_pos]
    exact_mod_cast hkey
  have hne : d.block_size - d.max_key_size ≠ 0 := by omega
  unfold Limits.Large
  rw [or_iff_right hne, gt_iff_lt]
  push_cast
  rw [lt_div_iff₀ hpos]
  norm_cast

theorem shortenKey_key (hblock : 0 ≤ d.block_size) :
    shortenKey d = { d with max_key_size := min d.max_key_size (d.block_size * 3 / 10) } := by
  have hpos : (0 : ℚ) ≤ d.block_size := Int.cast_nonneg hblock
  have hpct : int (d.block_size * key2blockpct) = d.block_size * 3 / 10 := by
    rw [int, if_pos (by unfold key2blockpct; positivity)]
    simpa [key2blockpct] using floor_mul d.block_size 10 3
  have hlong : d.max_key_size > d.block_size * key2blockpct ↔
      d.block_size * 3 < d.max_key_size * 10 := by
    rw [gt_iff_lt, key2blockpct, ← mul_div_assoc, div_lt_iff₀ (by norm_num)]
    norm_cast
  rw [shortenKey, hpct]
  split
  · next hkey =>
    rw [min_eq_right]
    have := hlong.mp hkey
    omega
  · next hkey =>
    rw [min_eq_left]
    have := mt hlong.mpr hkey
    omega

theorem spread_spec (hspan : s.blockspan = 1) (hkey : 0 ≤ d.max_key_size)
    (hhalf : d.max_key_size ≤ d.block_size / 2) (hblock : 2 ≤ d.block_size) :
    (spread s d).max_key_size ≤ d.max_key_size ∧
      (spread s d).max_record_size ≤ d.max_record_size ∧
      (spread s d).max_record_size ≤ 3 * ((spread s d).block_size - (spread s d).max_key_size) ∧
      (4 ≤ d.max_record_size → 4 ≤ (spread s d).max_record_size) := by
  have hlarge := large_iff (d := d) (by omega)
  unfold spread
  split
  · next hcond =>
    rw [shortenKey_key (by omega)]
    dsimp only
    have hshort := large_iff (d := { d with max_key_size := min d.max_key_size (d.block_size * 3 / 10) })
      (by dsimp only; omega)
    dsimp only at hshort
    split
    · next hlong =>
      rw [hshort] at hlong
      exact ⟨min_le_left _ _, by dsimp only; omega, le_rfl, fun _ => by dsimp only; omega⟩
    · next hlong =>
      rw [hshort, not_lt] at hlong
      exact ⟨min_le_left _ _, le_rfl, hlong, id⟩
  · next hcond =>
    rw [and_iff_right hspan, hlarge, not_lt] at hcond
    exact ⟨le_rfl, le_rfl, hcond, id⟩

theorem capRecord_span (hspan : s.blockspan = 1) (d : Limits) : capRecord s d = d := by
  apply if_neg
  rw [hspan]
  exact fun h => absurd h.1 one_ne_zero

theorem fitString_span (hspan : s.blockspan = 1) (d : Limits) : fitString s d = d := by
  apply if_neg
  rw [hspan]
  exact fun h => absurd h.1 one_ne_zero

theorem capRecord_plain (hspan : s.blockspan = 0) (d : Limits) :
    capRecord s d = { d with max_record_size := min d.max_record_size 1000 } := by
  unfold capRecord
  split
  · next hlong => rw [min_eq_right (by omega)]
  · next hlong =>
    have hle : d.max_record_size ≤ 1000 := not_lt.mp fun h => hlong ⟨hspan, h⟩
    rw [min_eq_left hle]

theorem spread_plain (hspan : s.blockspan = 0) (d : Limits) : spread s d = d := by
  apply if_neg
  rw [hspan]
  exact fun h => absurd h.1 zero_ne_one

def halved (h : Header) : Limits :=
  { dseget h with max_key_size := min h.max_key_size (h.block_size / 2) }

theorem halveKey_dseget (hlt : h.max_key_size < h.block_size) : halveKey (dseget h) = halved h := by
  apply halveKey_key
  exact Int.natCast_pos.mpr (by omega)

theorem info_span (hspan : s.blockspan = 1) : (d.info s).Allowed s h ↔
    d.max_key_size ≤ h.max_key_size ∧ 4 ≤ d.max_record_size ∧
      d.max_record_size ≤ h.max_record_size ∧
      d.max_record_size ≤ 3 * (d.block_size - d.max_key_size) := by
  have hpos : s.blockspan > 0 := hspan ▸ one_pos
  have hinfo : d.info s =
      ⟨d, d.max_record_size - recpad, d.max_key_size - imptpmaxkeysize⟩ := by
    rw [Limits.info, if_pos hpos]
  rw [hinfo]
  unfold recpad imptpmaxkeysize
  constructor
  · rintro ⟨hkey, hpositive, hrecord, hblocks⟩
    rw [if_pos hpos] at hrecord
    unfold recpad imptpmaxkeysize at *
    dsimp only at *
    exact ⟨by omega, by omega, by omega, hblocks hspan⟩
  · rintro ⟨hkey, hroom, hrecord, hblocks⟩
    refine ⟨?_, ?_, ?_, fun _ => hblocks⟩
    · dsimp only [imptpmaxkeysize]
      omega
    · dsimp only
      omega
    · rw [if_pos hpos]
      dsimp only [recpad]
      omega

theorem info_plain (hspan : s.blockspan = 0) : (d.info s).Allowed s h ↔
    d.max_key_size ≤ h.max_key_size ∧ d.max_key_size + 4 ≤ d.max_record_size ∧
      d.max_record_size ≤ h.max_record_size := by
  have hneg : ¬ s.blockspan > 0 := by omega
  have hone : s.blockspan ≠ 1 := by omega
  have hinfo : d.info s =
      ⟨d, d.max_record_size - (d.max_key_size + recpad), d.max_key_size - imptpmaxkeysize⟩ := by
    rw [Limits.info, if_neg hneg]
  rw [hinfo]
  constructor
  · rintro ⟨hkey, hpositive, hrecord, _⟩
    rw [if_neg hneg] at hrecord
    unfold recpad imptpmaxkeysize at *
    dsimp only at *
    exact ⟨by omega, by omega, by omega⟩
  · rintro ⟨hkey, hroom, hrecord⟩
    refine ⟨?_, ?_, ?_, fun h => absurd h hone⟩
    · dsimp only [imptpmaxkeysize]
      omega
    · dsimp only [recpad]
      omega
    · rw [if_neg hneg]
      dsimp only [recpad]
      omega

theorem allowed_span (hspan : s.blockspan = 1) (hkey : 1 ≤ h.max_key_size)
    (hlt : h.max_key_size < h.block_size) : (get s h).Allowed s h ↔ 4 ≤ h.max_record_size := by
  have hhalf : (halved h).max_key_size ≤ (halved h).block_size / 2 := min_le_right _ _
  have hle : (halved h).max_key_size ≤ h.max_key_size := min_le_left _ _
  have hrec : (halved h).max_record_size = h.max_record_size := rfl
  have hnonneg : 0 ≤ (halved h).max_key_size := by
    change 0 ≤ min (h.max_key_size : Int) (h.block_size / 2)
    omega
  have hblock : 2 ≤ (halved h).block_size := by
    change (2 : Int) ≤ h.block_size
    omega
  obtain ⟨hshort, hrecord, hblocks, hroom⟩ := spread_spec hspan hnonneg hhalf hblock
  unfold get
  rw [capRecord_span hspan, halveKey_dseget hlt, fitString_span hspan, info_span hspan]
  constructor
  · rintro ⟨_, h4, _⟩
    omega
  · intro h4
    exact ⟨hshort.trans hle, hroom (by omega), hrecord, hblocks⟩

theorem allowed_plain (hspan : s.blockspan = 0) (hlt : h.max_key_size < h.block_size) :
    (get s h).Allowed s h ↔ Roomy s h := by
  have hone : s.blockspan ≠ 1 := by omega
  have hlong := ugenstrmax_ge s
  have hcap : halveKey (capRecord s (dseget h)) =
      { halved h with max_record_size := min h.max_record_size 1000 } := by
    rw [capRecord_plain hspan]
    apply halveKey_key
    exact Int.natCast_pos.mpr (by omega)
  unfold get Roomy
  rw [hcap, spread_plain hspan, info_plain hspan, if_neg hone]
  unfold fitString halved dseget
  simp only [hspan, true_and]
  split
  · split
    · dsimp only
      omega
    · dsimp only
      omega
  · dsimp only
    omega

/-- Under both settings: the values that are stored are allowed exactly if there is that room. -/
theorem get_allowed_iff (s : Setting) (h : Header) (hspan : s.blockspan = 0 ∨ s.blockspan = 1)
    (hkey : 1 ≤ h.max_key_size) (hlt : h.max_key_size < h.block_size) :
    (get s h).Allowed s h ↔ Roomy s h := by
  obtain hspan | hspan := hspan
  · exact allowed_plain hspan hlt
  · rw [allowed_span hspan hkey hlt, Roomy, if_pos hspan]

def spanning : Setting := ⟨false, 63000, 1⟩

def plain : Setting := ⟨false, 63000, 0⟩

/-- With spanning nodes the key is halved and then cut again, and the record is cut. Without them
the record is cut, or the key becomes as long as a string. -/
theorem get_allowed_iff_adjusted :
    ((get spanning ⟨1024, 4096, 600⟩).Allowed spanning ⟨1024, 4096, 600⟩ ∧
      (get spanning ⟨1024, 4096, 600⟩).max_key_size = 307 ∧
      (get spanning ⟨1024, 4096, 600⟩).max_record_size = 2151) ∧
    ((get plain ⟨4096, 2000, 900⟩).Allowed plain ⟨4096, 2000, 900⟩ ∧
      (get plain ⟨4096, 2000, 900⟩).max_key_size = 780 ∧
      (get plain ⟨4096, 2000, 900⟩).max_record_size = 1000) ∧
    (get plain ⟨1024, 256, 200⟩).Allowed plain ⟨1024, 256, 200⟩ ∧
      (get plain ⟨1024, 256, 200⟩).max_key_size = 120 :=
  ⟨⟨(get_allowed_iff spanning _ (Or.inr rfl) (by decide) (by decide)).mpr (by decide),
      by decide +kernel, by decide +kernel⟩,
    ⟨(get_allowed_iff plain _ (Or.inl rfl) (by decide) (by decide)).mpr (by decide),
      by decide +kernel, by decide +kernel⟩,
    (get_allowed_iff plain _ (Or.inl rfl) (by decide) (by decide)).mpr (by decide),
    by decide +kernel⟩

/-- A key of 64 becomes one of 120 when the longest record has 100 bytes. -/
theorem get_raises_key : ¬ ∀ (s : Setting) (h : Header), s.blockspan = 0 ∨ s.blockspan = 1 →
    1 ≤ h.max_key_size → h.max_key_size < h.block_size → (get s h).Allowed s h := by
  intro hall
  have hkey := (hall ⟨false, 63000, 0⟩ ⟨1024, 100, 64⟩ (Or.inl rfl) (by decide) (by decide)).key
  exact absurd hkey (by decide +kernel)

end YdbTest.Datinfo
