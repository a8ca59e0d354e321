import YdbTest.Decimal
import YdbTest.Fields
import YdbTest.MsgDirective
import YdbTest.Numeral

namespace YdbTest.Genmsgs

open MString Fields MsgDirective

/-- `$extract(s,i,j)` of a text of ASCII characters. -/
def extract (s : Str) (i j : Nat) : Str := (s.take j).drop (i - 1)

def digitChar (i : Nat) : Nat := if i > 9 then (lit "ABCDEF").getD (i - 10) 0 else 48 + i

/-- `$find("0123456789ABCDEF",c)-2` for a character that is there. -/
def digitValue (c : Nat) : Nat := (lit "0123456789ABCDEF").idxOf c

/-- Convert `x` from base `y` to base 10. -/
def decimal (x : Str) (y : Nat) : Nat :=
  if y = 10 then toNat x else x.foldl (fun value c => value * y + digitValue c) 0

/-- The loop of `convert`, for a base from 2 on. -/
def convertLoop (z n : Nat) (value : Str) : Str :=
  if _h : n / z = 0 ∨ z < 2 then digitChar (n % z) :: value
  else convertLoop z (n / z) (digitChar (n % z) :: value)
termination_by n
decreasing_by
  rw [not_or, not_lt] at _h
  exact Nat.div_lt_self (Nat.pos_of_ne_zero fun h0 => _h.1 (by rw [h0, Nat.zero_div])) _h.2

/-- Convert `n` from base `y` to base `z`. -/
def convert (n : Str) (y z : Nat) : Str :=
  if z = 10 then dec (decimal n y) else convertLoop z (decimal n y) []

/-- Prefix a string with a particular character up to the specified width. If the string is longer
than that width, it is truncated to match the width. -/
def fill (string : Str) (width digit : Nat) : Str :=
  let string := List.replicate (width - string.length) digit ++ string
  if width < string.length then string.drop (string.length - width) else string

def fromFirst (binary : Str) : Str :=
  if 49 ∈ binary then binary.dropWhile (· ≠ 49) else binary.drop (binary.length - 1)

def signedBinary (x : Int) (width : Nat) : Str :=
  if 0 ≤ x then fill (convert (dec x.toNat) 10 2) width 48
  else
    let binary := fromFirst (convert (dec (-x - 1).toNat) 10 2)
    fill (binary.map fun c => 48 + (1 - (c - 48))) width 49

inductive Value where
  | number (x : Int)
  | text (s : Str)

def notImplemented (fullType : Str) : Str := lit "TYPE NOT IMPLEMENTED: " ++ fullType

/-- What `generateRandomNum` has returned, without and with its sign. -/
def signOf (signedValue : Int) : Int := if 0 < signedValue then 1 else -1

def indirectArg (signedValue : Int) (firstChar secondChar fullType : Str) : Int × Str :=
  let value := signOf signedValue * signedValue
  let binary := signedBinary value 64
  (value,
    if secondChar = lit "Q" then
      if firstChar = lit "X" then convert binary 2 16
      else if firstChar = lit "Z" then convert binary 2 10
      else if firstChar = lit "U" then convert binary 2 10
      else notImplemented fullType
    else notImplemented fullType)

def signedDecimal (binary : Str) : Str :=
  if extract binary 1 1 = lit "1" then
    45 :: dec (decimal (binary.map fun c => 48 + (1 - (c - 48))) 2 + 1)
  else convert binary 2 10

def integerArg (is64Bit : Bool) (signedValue : Int) (firstChar secondChar fullType expValue : Str) :
    Int × Str × Nat :=
  let sign := signOf signedValue
  let value := sign * signedValue
  if secondChar = lit "B" then
    let value := sign * (value % 300)
    let binary := signedBinary value 8
    if firstChar = lit "X" then (value, convert binary 2 16, 2)
    else (value, notImplemented fullType, 0)
  else if secondChar = lit "W" then
    let value := sign * (value % 70000)
    let binary := signedBinary value 16
    if firstChar = lit "X" then (value, convert binary 2 16, 4)
    else (value, notImplemented fullType, 0)
  else if secondChar = lit "L" then
    let value := sign * (value % 4300000000)
    let binary := signedBinary value 32
    if firstChar = lit "X" then (value, convert binary 2 16, 8)
    else if firstChar = lit "S" then (value, signedDecimal binary, 0)
    else if firstChar = lit "U" then (value, convert binary 2 10, 0)
    else (value, notImplemented fullType, 0)
  else if secondChar = lit "J" then
    let value := if is64Bit then value else sign * (value % 4300000000)
    let binary := signedBinary value (if is64Bit then 64 else 32)
    if firstChar = lit "X" then (value, convert binary 2 16, if is64Bit then 16 else 8)
    else if firstChar = lit "U" then (value, convert binary 2 10, 0)
    else (value, notImplemented fullType, 0)
  else (value, expValue, 0)

def requestedWidth (type : Str) : Nat × Str :=
  if extract type 1 1 = lit "n" then
    let width := toNat (extract type 2 10)
    (width, extract type (2 + (dec width).length) 10)
  else (0, type)

def inflate (firstChar : Str) (width : Nat) (expValue : Str) : Str :=
  let fillChar := if firstChar = lit "X" ∨ firstChar = lit "Z" then 48 else 32
  if ¬ lit "TYPE NOT IMPLEMENTED" <:+: expValue ∧ 0 < width then
    if expValue.length > width then List.replicate width 42 else rjust width fillChar expValue
  else expValue

def argument (is64Bit : Bool) (signedValue : Int) (str fullType expValue : Str) (width : Nat)
    (type : Str) : Value × Str :=
  let indirection := extract type 1 1 = lit "@"
  let type := if indirection then extract type 2 10 else type
  let firstChar := extract type 1 1
  let secondChar := extract type 2 2
  if indirection then
    let (value, expValue) := indirectArg signedValue firstChar secondChar fullType
    (.number value, inflate firstChar width expValue)
  else if firstChar = lit "A" then
    (.text str, inflate firstChar width (if width = 0 then str else notImplemented fullType))
  else
    let (value, expValue, xWidth) :=
      integerArg is64Bit signedValue firstChar secondChar fullType expValue
    let expValue :=
      if firstChar = lit "X" ∧ expValue.length < xWidth then rjust xWidth 48 expValue else expValue
    (.number value, inflate firstChar width expValue)

/-- Generate an argument of a specific type, from what the random functions return. The last argument
is what `expValue` has been before. -/
def generateArg (is64Bit : Bool) (signedValue : Int) (str type expValue : Str) : Value × Str :=
  argument is64Bit signedValue str type expValue (requestedWidth type).1 (requestedWidth type).2

def reduced (bits : Nat) (x : Int) : Nat := (x % 2 ^ bits).toNat

def hex (width n : Nat) : Str := rjust width 48 ((Numeral.write 16 n).map digitChar)

def signed (bits : Nat) (x : Int) : Str :=
  if reduced bits x < 2 ^ (bits - 1) then dec (reduced bits x)
  else 45 :: dec (2 ^ bits - reduced bits x)

def pad (width c : Nat) (s : Str) : Str :=
  if width = 0 then s
  else if width < s.length then List.replicate width 42
  else rjust width c s

def width (d : Directive) : Nat := toNat d.digits

def shown (is64Bit : Bool) (d : Directive) : Value → Str
  | .text s =>
    match d.kind with
    | .str _ => if width d = 0 then s else notImplemented d.type
    | _ => notImplemented d.type
  | .number x =>
    match d.kind with
    | .hex .B => pad (width d) 48 (hex 2 (reduced 8 x))
    | .hex .W => pad (width d) 48 (hex 4 (reduced 16 x))
    | .hex .L => pad (width d) 48 (hex 8 (reduced 32 x))
    | .hex .J =>
      if is64Bit then pad (width d) 48 (hex 16 (reduced 64 x))
      else pad (width d) 48 (hex 8 (reduced 32 x))
    | .num .S .L => pad (width d) 32 (signed 32 x)
    | .num .U .L => pad (width d) 32 (dec (reduced 32 x))
    | .num .U .J => pad (width d) 32 (dec (reduced (if is64Bit then 64 else 32) x))
    | .far .X .Q => pad (width d) 48 (hex 16 (reduced 64 x))
    | .far .U .Q => pad (width d) 32 (dec (reduced 64 x))
    | .far .Z .Q => pad (width d) 48 (dec (reduced 64 x))
    | _ => notImplemented d.type

/-- Whatever is drawn and whatever argument came before, the printed text is predicted. -/
def Right (d : Directive) : Prop :=
  ∀ is64Bit (signedValue : Int) str expValue, |signedValue| < 10 ^ 18 →
    (generateArg is64Bit signedValue str d.type expValue).2 =
      shown is64Bit d (generateArg is64Bit signedValue str d.type expValue).1

def place : Kind → Nat
  | .str _ | .far _ .J => 8
  | .num _ _ | .hex _ | .star _ => 7
  | .far _ .Q => 6

def Predicted (d : Directive) : Prop :=
  (d.digits = [] ∨ dec (width d) = d.digits) ∧ d.digits.length ≤ place d.kind ∧
    match d.kind with
    | .num _ .Q | .star _ => False
    | .far .X .Q => 16 ≤ width d
    | _ => True

variable {z n w : Nat} {x : Int} {s t : Str} {ds : List Nat}

theorem digitValue_digitChar {i : Nat} (hi : i < 16) : digitValue (digitChar i) = i := by
  interval_cases i <;> rfl

theorem convertLoop_eq (hz : 2 ≤ z) (n : Nat) (s : Str) :
    convertLoop z n s = (Numeral.write z n).map digitChar ++ s := by
  induction n using Nat.strongRecOn generalizing s with
  | ind n ih =>
    have hz' : ¬ z < 2 := by omega
    rw [convertLoop]
    split_ifs with h
    · have hlt : n < z := (Nat.div_eq_zero_iff_lt (by omega)).mp (h.resolve_right hz')
      rw [Numeral.write_small hlt, Nat.mod_eq_of_lt hlt]
      rfl
    · have hge : z ≤ n := by
        by_contra hlt
        exact h (Or.inl (Nat.div_eq_of_lt (by omega)))
      have hlt : n / z < n := Nat.div_lt_self (by omega) (by omega)
      rw [ih _ hlt, Numeral.write_step hz hge, List.map_append, List.append_assoc]
      rfl

theorem decimal_eq {y : Nat} (hy : y ≠ 10) (hds : ∀ d ∈ ds, d < 16) :
    decimal (ds.map digitChar) y = Numeral.value y ds := by
  rw [decimal, if_neg hy, List.foldl_map, Numeral.value]
  refine List.foldl_ext _ _ _ fun v d hd => ?_
  rw [digitValue_digitChar (hds d hd)]

def bits (ds : List Nat) : Str := ds.map digitChar

theorem convert_dec (n : Nat) : convert (dec n) 10 2 = bits (Numeral.write 2 n) := by
  have hdec : decimal (dec n) 10 = n := Decimal.toNat_dec n
  rw [convert, if_neg (by decide), hdec, convertLoop_eq le_rfl, List.append_nil]
  rfl

section Binary

variable (hds : ∀ d ∈ ds, d < 2)

include hds

theorem decimal_bits : decimal (bits ds) 2 = Numeral.value 2 ds :=
  decimal_eq (by decide) fun d hd => (hds d hd).trans (by decide)

theorem bits_flip : (bits ds).map (fun c => 48 + (1 - (c - 48))) = bits (Numeral.flip ds) := by
  rw [bits, bits, Numeral.flip, List.map_map, List.map_map]
  refine List.map_congr_left fun d hd => ?_
  have := hds d hd
  interval_cases d <;> rfl

theorem convert_bits_dec : convert (bits ds) 2 10 = dec (Numeral.value 2 ds) := by
  rw [convert, if_pos rfl, decimal_bits hds]

theorem convert_bits_hex :
    convert (bits ds) 2 16 = (Numeral.write 16 (Numeral.value 2 ds)).map digitChar := by
  rw [convert, if_neg (by decide), decimal_bits hds, convertLoop_eq (by decide), List.append_nil]

end Binary

def fit (w c : Nat) (ds : List Nat) : List Nat :=
  (List.replicate (w - ds.length) c ++ ds).drop
    ((List.replicate (w - ds.length) c ++ ds).length - w)

theorem fill_bits (ds : List Nat) (w : Nat) {c : Nat} (hc : c < 10) :
    fill (bits ds) w (48 + c) = bits (fit w c ds) := by
  have hchar : digitChar c = 48 + c := if_neg (by omega)
  have hall : List.replicate (w - (bits ds).length) (48 + c) ++ bits ds =
      bits (List.replicate (w - ds.length) c ++ ds) := by
    rw [bits, bits, List.map_append, List.map_replicate, hchar, List.length_map]
  rw [fill, hall, fit, bits, bits, List.length_map, List.map_drop]
  split_ifs with h
  · rfl
  · rw [Nat.sub_eq_zero_of_le (Nat.le_of_not_lt h)]
    rfl

theorem fit_length (w c : Nat) (ds : List Nat) : (fit w c ds).length = w := by
  simp only [fit, List.length_drop, List.length_append, List.length_replicate]
  omega

theorem mem_fit {c d : Nat} (hd : d ∈ fit w c ds) : d = c ∨ d ∈ ds := by
  obtain h | h := List.mem_append.mp (List.mem_of_mem_drop hd)
  · exact Or.inl (List.eq_of_mem_replicate h)
  · exact Or.inr h

theorem value_fit (hds : ∀ d ∈ ds, d < 2) (w : Nat) :
    Numeral.value 2 (fit w 0 ds) = Numeral.value 2 ds % 2 ^ w := by
  have hall : ∀ d ∈ List.replicate (w - ds.length) 0 ++ ds, d < 2 := by
    intro d hd
    obtain h | h := List.mem_append.mp hd
    · rw [List.eq_of_mem_replicate h]
      decide
    · exact hds d h
  have hlen := fit_length w 0 ds
  rw [fit] at hlen ⊢
  rw [Numeral.value_drop hall, hlen, Numeral.value_append, Numeral.value_replicate_zero,
    Nat.zero_mul, Nat.zero_add]

theorem fit_flip (w : Nat) (ds : List Nat) : fit w 1 (Numeral.flip ds) = Numeral.flip (fit w 0 ds) := by
  simp [fit, Numeral.flip]

theorem flip_lt : ∀ d ∈ Numeral.flip ds, d < 2 := by
  intro d hd
  obtain ⟨e, _, rfl⟩ := List.mem_map.mp hd
  omega

theorem fromFirst_write (m : Nat) : fromFirst (bits (Numeral.write 2 m)) = bits (Numeral.write 2 m) := by
  by_cases hm : m = 0
  · rw [hm]
    rfl
  · have hne : Nat.digits 2 m ≠ [] := fun h => hm (Nat.digits_eq_nil_iff_eq_zero.mp h)
    have hlast := Nat.getLast_digit_ne_zero 2 hm
    have hlt : (Nat.digits 2 m).getLast hne < 2 :=
      Nat.digits_lt_base (by decide) (List.getLast_mem hne)
    have hone : (Nat.digits 2 m).getLast hne = 1 := by omega
    have hhead : ∃ es, bits (Numeral.write 2 m) = 49 :: es := by
      rw [bits, Numeral.write, if_neg hm, ← List.dropLast_append_getLast hne, hone,
        List.reverse_append]
      exact ⟨_, rfl⟩
    obtain ⟨es, hes⟩ := hhead
    rw [hes, fromFirst, if_pos List.mem_cons_self]
    rfl

theorem reduced_natCast (w n : Nat) : reduced w n = n % 2 ^ w := by
  have h : ((n : Int) % 2 ^ w) = ((n % 2 ^ w : Nat) : Int) := by push_cast; rfl
  rw [reduced, h, Int.toNat_natCast]

theorem reduced_neg (w m : Nat) : reduced w (-(m : Int) - 1) + m % 2 ^ w + 1 = 2 ^ w := by
  have hlt : m % 2 ^ w < 2 ^ w := Nat.mod_lt _ (by positivity)
  have hsplit : -(m : Int) - 1 = ((2 ^ w - 1 - m % 2 ^ w : Nat) : Int) +
      2 ^ w * (-((m / 2 ^ w : Nat) : Int) - 1) := by
    have hdiv := Nat.div_add_mod m (2 ^ w)
    have hcast : ((2 ^ w - 1 - m % 2 ^ w : Nat) : Int) = 2 ^ w - 1 - ((m % 2 ^ w : Nat) : Int) := by
      rw [Nat.sub_sub, Nat.cast_sub (by omega)]
      push_cast
      ring
    rw [hcast]
    zify at hdiv
    push_cast
    linarith
  have hmod : (-(m : Int) - 1) % 2 ^ w = ((2 ^ w - 1 - m % 2 ^ w : Nat) : Int) := by
    rw [hsplit, Int.add_mul_emod_self_left]
    have hbound : 2 ^ w - 1 - m % 2 ^ w < 2 ^ w := by omega
    exact Int.emod_eq_of_lt (Int.natCast_nonneg _) (by exact_mod_cast hbound)
  rw [reduced, hmod, Int.toNat_natCast]
  omega

theorem signedBinary_eq (x : Int) (w : Nat) :
    ∃ ds, signedBinary x w = bits ds ∧ ds.length = w ∧ (∀ d ∈ ds, d < 2) ∧
      Numeral.value 2 ds = reduced w x := by
  have hwrite : ∀ m, ∀ d ∈ Numeral.write 2 m, d < 2 := fun m d hd => Numeral.write_lt le_rfl hd
  have hzero : ∀ m, ∀ d ∈ fit w 0 (Numeral.write 2 m), d < 2 := by
    intro m d hd
    obtain rfl | h := mem_fit hd
    · decide
    · exact hwrite m d h
  rw [signedBinary]
  split_ifs with hx
  · obtain ⟨n, rfl⟩ := Int.eq_ofNat_of_zero_le hx
    refine ⟨fit w 0 (Numeral.write 2 n), ?_, fit_length _ _ _, hzero n, ?_⟩
    · rw [Int.toNat_natCast, convert_dec]
      exact fill_bits _ w (c := 0) (by decide)
    · rw [value_fit (hwrite n), Numeral.value_write le_rfl, reduced_natCast]
  · obtain ⟨m, hm⟩ : ∃ m : Nat, x = -(m : Int) - 1 := ⟨(-x - 1).toNat, by omega⟩
    have htoNat : (-x - 1).toNat = m := by omega
    refine ⟨fit w 1 (Numeral.flip (Numeral.write 2 m)), ?_, fit_length _ _ _, ?_, ?_⟩
    · dsimp only
      rw [htoNat, convert_dec, fromFirst_write, bits_flip (hwrite m)]
      exact fill_bits _ w (c := 1) (by decide)
    · rw [fit_flip]
      exact flip_lt
    · have hflip := Numeral.value_flip (hzero m)
      have hneg := reduced_neg w m
      rw [value_fit (hwrite m), Numeral.value_write le_rfl, fit_length] at hflip
      rw [fit_flip, hm]
      omega

theorem convert_dec_signed (x : Int) (w : Nat) :
    convert (signedBinary x w) 2 10 = dec (reduced w x) := by
  obtain ⟨ds, hds, _, hlt, hval⟩ := signedBinary_eq x w
  rw [hds, convert_bits_dec hlt, hval]

theorem convert_hex_signed (x : Int) (w : Nat) :
    convert (signedBinary x w) 2 16 = (Numeral.write 16 (reduced w x)).map digitChar := by
  obtain ⟨ds, hds, _, hlt, hval⟩ := signedBinary_eq x w
  rw [hds, convert_bits_hex hlt, hval]

theorem signedDecimal_eq (x : Int) {w : Nat} (hw : w ≠ 0) :
    signedDecimal (signedBinary x w) = signed w x := by
  obtain ⟨ds, hds, hlen, hlt, hval⟩ := signedBinary_eq x w
  cases ds with
  | nil => exact absurd hlen.symm hw
  | cons d ds =>
    have hd := hlt d List.mem_cons_self
    have hrest : ∀ e ∈ ds, e < 2 := fun e he => hlt e (List.mem_cons_of_mem d he)
    have hhigh := Numeral.value_high hd hrest
    have hflip := Numeral.value_flip hlt
    have hfirst : extract (bits (d :: ds)) 1 1 = lit "1" ↔ d = 1 := by
      interval_cases d <;> simp [extract, bits, digitChar, lit]
    have hwidth : w - 1 = ds.length := by
      rw [← hlen]
      rfl
    rw [hval] at hhigh hflip
    rw [hlen] at hflip
    rw [hds, signedDecimal, signed, bits_flip hlt, decimal_bits flip_lt, convert_bits_dec hlt, hval,
      hwidth]
    simp only [hfirst, ← hhigh]
    by_cases hupper : 2 ^ ds.length ≤ reduced w x
    · rw [if_pos hupper, if_neg (by omega)]
      congr 2
      omega
    · rw [if_neg hupper, if_pos (by omega)]

end YdbTest.Genmsgs
