import YdbTest.Decimal
import Mathlib.Algebra.BigOperators.Group.List.Basic
import Mathlib.Data.Rat.Floor
import Mathlib.Tactic.Linarith
import Mathlib.Tactic.Ring

namespace YdbTest.PopulateTree

open MString

def MiB : Nat := 1048576

abbrev Tree := List (Str × List (Str × Str))

def quoted (s : Str) : Str := lit "\"" ++ s ++ lit "\""

def object (ms : List Str) : Str := lit "\x7b" ++ (lit ", ").intercalate ms ++ lit "\x7d"

def member (key value : Str) : Str := quoted key ++ lit ": " ++ value

def encode (t : Tree) : Str :=
  object (t.map fun c => member c.1 (object (c.2.map fun m => member m.1 (quoted m.2))))

def nodes (s : Str) : List Str :=
  if s = [] then [] else s.take MiB :: nodes (s.drop MiB)
termination_by s.length
decreasing_by
  have := List.length_pos_of_ne_nil ‹_›
  rw [List.length_drop]
  have : 0 < MiB := by decide
  omega

def validateEncodedOutput (dataSize : Nat) (out : List Str) : Bool × Bool :=
  let expectedNodes := dataSize / MiB + if dataSize % MiB ≠ 0 then 1 else 0
  let resultSize := ((out.take expectedNodes).map List.length).sum
  (decide (expectedNodes = out.length), decide (resultSize = dataSize))

structure Dims where
  breadth : Nat
  depth : Nat
deriving DecidableEq

def grow (dataSize : Nat) : Nat → Nat → Nat → Bool → Option Dims
  | 0, _, _, _ => none
  | fuel + 1, breadth, depth, toggle =>
    let numChunks := breadth * depth
    if (dataSize / numChunks : ℚ) > MiB then
      grow dataSize fuel (if toggle then breadth + 1 else breadth)
        (if toggle then depth else depth + 1) !toggle
    else some ⟨breadth, depth⟩

def pair : Nat := 2

/-- The length of the numbers from 1 to `n`. -/
def lengths (n : Nat) : Nat := ((List.range' 1 n).map fun i => (dec i).length).sum

def numDigits (breadth depth : Nat) : Nat :=
  ((List.range' 1 breadth).map fun i => (dec i).length + lengths depth).sum

def numFormatChars (breadth depth : Nat) : Nat :=
  let numChunks := breadth * depth
  let numQuotes := numChunks * pair * pair + depth * pair
  let numBrackets := breadth * pair + pair
  let numColons := numChunks + depth
  let numCommas := (breadth - 1) * depth + depth - 1
  let numSpaces := numCommas + numColons
  numQuotes + numBrackets + numColons + numCommas + numSpaces + numDigits breadth depth

def numDataChars (dataSize : Nat) (p : Dims) : Int := dataSize - numFormatChars p.breadth p.depth

def shortfall (dataSize : Nat) (p : Dims) : Int :=
  numDataChars dataSize p % (p.breadth * p.depth : Nat)

def chunkSize (dataSize : Nat) (p : Dims) : Int :=
  (numDataChars dataSize p - shortfall dataSize p).tdiv (p.breadth * p.depth : Nat)

def tree (breadth depth : Nat) (value : Nat → Nat → Str) : Tree :=
  (List.range' 1 breadth).map fun i =>
    (dec i, (List.range' 1 depth).map fun j => (dec j, value i j))

structure Populated where
  shortfall : Int
  tree : Tree

/-- `RANDSTR` gives for each node a string of the length that is asked for. The last one is the
longest. -/
def populateTree (RANDSTR : Nat → Nat → Int → Str) (dataSize : Nat) : Option Populated :=
  (grow dataSize (dataSize + 1) 4 4 false).bind fun p =>
    -- M strings have at most 1 MiB; a longer one is an error.
    if chunkSize dataSize p + shortfall dataSize p > MiB then none
    else some
      { shortfall := shortfall dataSize p
        tree := tree p.breadth p.depth fun i j =>
          RANDSTR i j (chunkSize dataSize p +
            if i = p.breadth ∧ j = p.depth then shortfall dataSize p else 0) }

/-- The text has the size that was asked for, no value is too long, and both checks pass. -/
structure Populated.Hits (p : Populated) (dataSize : Nat) : Prop where
  size : (encode p.tree).length = dataSize
  values : ∀ c ∈ p.tree, ∀ m ∈ c.2, (m.2.length : Int) ≤ MiB + p.shortfall
  checks : validateEncodedOutput dataSize (nodes (encode p.tree)) = (true, true)

/-- The text of a square tree without any values is not too long, and the last value, which gets
what is left over, is no longer than a string can be. -/
def Fits (dataSize n : Nat) : Prop :=
  let text := (encode (tree n n fun _ _ => [])).length
  text ≤ dataSize ∧ (dataSize - text) / (n * n) + (dataSize - text) % (n * n) ≤ MiB

/-- The tree is as broad as it is deep, and its text fits. -/
def Square (dataSize : Nat) : Prop :=
  ∃ n, (n = 4 ∨ 4 < n ∧ (n - 1) * n * MiB < dataSize) ∧ dataSize ≤ n * n * MiB ∧ Fits dataSize n

variable {dataSize breadth depth fuel : Nat} {p : Dims} {toggle : Bool}

theorem nodes_spec (s : Str) : ((nodes s).map List.length).sum = s.length ∧
    (nodes s).length = s.length / MiB + if s.length % MiB ≠ 0 then 1 else 0 := by
  induction s using nodes.induct with
  | case1 =>
    rw [nodes, if_pos rfl]
    exact ⟨rfl, rfl⟩
  | case2 s hs ih =>
    obtain ⟨hsum, hlen⟩ := ih
    have hpos := List.length_pos_of_ne_nil hs
    rw [nodes, if_neg hs]
    constructor
    · rw [List.map_cons, List.sum_cons, hsum, List.length_take, List.length_drop]
      omega
    · rw [List.length_cons, hlen, List.length_drop]
      unfold MiB
      split <;> split <;> omega

theorem validate_nodes {s : Str} (h : s.length = dataSize) :
    validateEncodedOutput dataSize (nodes s) = (true, true) := by
  obtain ⟨hsum, hlen⟩ := nodes_spec s
  rw [h] at hlen hsum
  unfold validateEncodedOutput
  dsimp only
  rw [← hlen, List.take_length, hsum]
  simp

theorem length_intercalate (sep m : Str) (ms : List Str) :
    (sep.intercalate (m :: ms)).length =
      ((m :: ms).map List.length).sum + ms.length * sep.length := by
  induction ms generalizing m with
  | nil => simp [List.intercalate]
  | cons n ms ih =>
    rw [List.intercalate_cons_cons]
    simp only [List.length_append, ih, List.map_cons, List.sum_cons, List.length_cons]
    ring

theorem length_object {ms : List Str} (h : ms ≠ []) :
    (object ms).length = 2 * ms.length + (ms.map List.length).sum := by
  obtain ⟨m, ms, rfl⟩ := List.exists_cons_of_ne_nil h
  simp only [object, List.length_append, length_intercalate]
  simp [lit]
  ring

theorem length_member (key value : Str) :
    (member key value).length = key.length + value.length + 4 := by
  simp [member, quoted, lit]
  ring

theorem length_quoted (s : Str) : (quoted s).length = s.length + 2 := by
  simp [quoted, lit]

theorem length_row (hd : 0 < depth) (value : Nat → Str) :
    (object ((List.range' 1 depth).map fun j => member (dec j) (quoted (value j)))).length =
      8 * depth + lengths depth + ((List.range' 1 depth).map fun j => (value j).length).sum := by
  have hne : List.range' 1 depth ≠ [] := by simp; omega
  rw [length_object (by simpa using hne)]
  simp only [List.map_map, Function.comp_def, length_member, length_quoted, List.length_map,
    List.length_range', List.sum_map_add, List.map_const', List.sum_replicate, smul_eq_mul, lengths]
  ring

theorem encode_length (hb : 0 < breadth) (hd : 0 < depth) (value : Nat → Nat → Str) :
    (encode (tree breadth depth value)).length =
      8 * (breadth * depth) + 6 * breadth + numDigits breadth depth +
        ((List.range' 1 breadth).map fun i =>
          ((List.range' 1 depth).map fun j => (value i j).length).sum).sum := by
  have hne : List.range' 1 breadth ≠ [] := by simp; omega
  rw [encode, length_object (by simpa [tree] using hne)]
  simp only [tree, List.map_map, Function.comp_def, length_member, length_row hd, List.length_map,
    List.length_range', List.sum_map_add, List.map_const', List.sum_replicate, smul_eq_mul,
    numDigits]
  ring

theorem numFormatChars_eq (hb : 0 < breadth) (hd : 0 < depth) :
    numFormatChars breadth depth =
      8 * (breadth * depth) + 4 * depth + 2 * breadth + numDigits breadth depth := by
  obtain ⟨b, rfl⟩ := Nat.exists_eq_succ_of_ne_zero hb.ne'
  obtain ⟨d, rfl⟩ := Nat.exists_eq_succ_of_ne_zero hd.ne'
  simp only [numFormatChars, pair, Nat.succ_eq_add_one, Nat.add_sub_cancel, ← Nat.add_assoc]
  ring

theorem sum_last (n q : Nat) (f : Nat → Nat) (hf : ∀ i, i ≤ n → f i = q) :
    ((List.range' 1 (n + 1)).map f).sum = n * q + f (n + 1) := by
  have hconst : (List.range' 1 n).map f = (List.range' 1 n).map fun _ => q := by
    apply List.map_congr_left
    intro i hi
    apply hf
    rw [List.mem_range'_1] at hi
    omega
  rw [List.range'_concat, List.map_append, List.sum_append, hconst]
  simp [Nat.add_comm 1 n]

theorem sum_values (f : Nat → Nat → Nat) (b d q r : Nat)
    (hf : ∀ i j, f i j = if i = b + 1 ∧ j = d + 1 then r else q) :
    ((List.range' 1 (b + 1)).map fun i => ((List.range' 1 (d + 1)).map (f i)).sum).sum =
      b * ((d + 1) * q) + (d * q + r) := by
  have hrow (i : Nat) : ((List.range' 1 (d + 1)).map (f i)).sum = d * q + f i (d + 1) := by
    apply sum_last
    intro j hj
    rw [hf, if_neg (by omega)]
  simp only [hrow]
  rw [sum_last b ((d + 1) * q)]
  · rw [hf, if_pos ⟨rfl, rfl⟩]
  · intro i hi
    rw [hf, if_neg (by omega)]
    ring

theorem large_iff (hb : 0 < breadth) (hd : 0 < depth) :
    (dataSize / (breadth * depth : Nat) : ℚ) > MiB ↔ breadth * depth * MiB < dataSize := by
  have hpos : (0 : ℚ) < (breadth * depth : Nat) := Nat.cast_pos.mpr (Nat.mul_pos hb hd)
  rw [gt_iff_lt, lt_div_iff₀ hpos, mul_comm]
  norm_cast

/-- What holds whenever the loop comes round: the size needs all that has been reached before. -/
structure Growing (dataSize breadth depth : Nat) (toggle : Bool) : Prop where
  four : 4 ≤ breadth
  shape : depth = if toggle then breadth + 1 else breadth
  needed : if toggle then breadth * breadth * MiB < dataSize
    else breadth = 4 ∨ 4 < breadth ∧ (breadth - 1) * breadth * MiB < dataSize

theorem Growing.next (h : Growing dataSize breadth depth toggle)
    (hlt : breadth * depth * MiB < dataSize) :
    Growing dataSize (if toggle then breadth + 1 else breadth)
      (if toggle then depth else depth + 1) !toggle := by
  have hfour := h.four
  have hshape := h.shape
  cases toggle with
  | false => exact ⟨hfour, congrArg (· + 1) hshape, by simpa [hshape] using hlt⟩
  | true =>
    refine ⟨Nat.le_succ_of_le hfour, hshape, Or.inr ⟨Nat.lt_succ_of_le hfour, ?_⟩⟩
    simpa [hshape] using hlt

theorem Growing.pos (h : Growing dataSize breadth depth toggle) : 0 < breadth ∧ 0 < depth := by
  have hfour := h.four
  have hshape := h.shape
  cases toggle with
  | false => exact ⟨by omega, by rw [hshape, if_neg Bool.false_ne_true]; omega⟩
  | true => exact ⟨by omega, by rw [hshape, if_pos rfl]; omega⟩

theorem grow_spec (h : Growing dataSize breadth depth toggle) (hfuel : 0 < fuel)
    (henough : dataSize < breadth * depth + fuel) :
    ∃ p toggle', grow dataSize fuel breadth depth toggle = some p ∧
      Growing dataSize p.breadth p.depth toggle' ∧ dataSize ≤ p.breadth * p.depth * MiB := by
  induction fuel generalizing breadth depth toggle with
  | zero => exact absurd hfuel (lt_irrefl 0)
  | succ fuel ih =>
    obtain ⟨hb, hd⟩ := h.pos
    have hlarge := @large_iff dataSize breadth depth hb hd
    rw [grow]
    split
    · next hlt =>
      have hlt := hlarge.mp hlt
      have hle : breadth * depth ≤ breadth * depth * MiB := Nat.le_mul_of_pos_right _ (by decide)
      refine ih (h.next hlt) (by omega) ?_
      cases toggle with
      | false =>
        have hmore : breadth * (depth + 1) = breadth * depth + breadth := Nat.mul_succ _ _
        simp only [Bool.false_eq_true, if_false]
        omega
      | true =>
        have hmore : (breadth + 1) * depth = breadth * depth + depth := Nat.succ_mul _ _
        simp only [if_true]
        omega
    · next hle => exact ⟨⟨breadth, depth⟩, toggle, rfl, h, not_lt.mp (mt hlarge.mpr hle)⟩

theorem growing_start : Growing dataSize 4 4 false := ⟨le_rfl, rfl, Or.inl rfl⟩

theorem dealt (hn : 0 < p.breadth * p.depth) :
    ((p.breadth * p.depth : Nat) : Int) * chunkSize dataSize p + shortfall dataSize p =
      numDataChars dataSize p := by
  have hpos : (0 : Int) < (p.breadth * p.depth : Nat) := Int.natCast_pos.mpr hn
  have hsub : numDataChars dataSize p - shortfall dataSize p =
      (p.breadth * p.depth : Nat) * (numDataChars dataSize p / (p.breadth * p.depth : Nat)) := by
    have := Int.mul_ediv_add_emod (numDataChars dataSize p) (p.breadth * p.depth : Nat)
    unfold shortfall
    omega
  rw [chunkSize, hsub, Int.mul_tdiv_cancel_left _ hpos.ne', ← hsub]
  ring

theorem shortfall_bounds (hn : 0 < p.breadth * p.depth) :
    0 ≤ shortfall dataSize p ∧ shortfall dataSize p < (p.breadth * p.depth : Nat) := by
  have hpos : (0 : Int) < (p.breadth * p.depth : Nat) := Int.natCast_pos.mpr hn
  exact ⟨Int.emod_nonneg _ hpos.ne', Int.emod_lt_of_pos _ hpos⟩

theorem chunkSize_nonneg (hn : 0 < p.breadth * p.depth) (hdata : 0 ≤ numDataChars dataSize p) :
    0 ≤ chunkSize dataSize p := by
  have hdealt := @dealt dataSize p hn
  have hlt := (@shortfall_bounds dataSize p hn).2
  by_contra hneg
  have hle : ((p.breadth * p.depth : Nat) : Int) * chunkSize dataSize p ≤
      (p.breadth * p.depth : Nat) * (-1) :=
    Int.mul_le_mul_of_nonneg_left (by omega) (Int.natCast_nonneg _)
  omega

def treeOf (RANDSTR : Nat → Nat → Int → Str) (dataSize : Nat) (p : Dims) : Tree :=
  tree p.breadth p.depth fun i j => RANDSTR i j (chunkSize dataSize p +
    if i = p.breadth ∧ j = p.depth then shortfall dataSize p else 0)

variable {RANDSTR : Nat → Nat → Int → Str}

section Sizes

variable (hlen : ∀ i j n, n ≤ chunkSize dataSize p + shortfall dataSize p →
  (RANDSTR i j n).length = n.toNat)

include hlen

theorem length_value (hn : 0 < p.breadth * p.depth) (i j : Nat) :
    (RANDSTR i j (chunkSize dataSize p +
      if i = p.breadth ∧ j = p.depth then shortfall dataSize p else 0)).length =
    (chunkSize dataSize p +
      if i = p.breadth ∧ j = p.depth then shortfall dataSize p else 0).toNat := by
  have hs := (@shortfall_bounds dataSize p hn).1
  exact hlen i j _ (by split <;> omega)

theorem treeOf_length (hb : 0 < p.breadth) (hd : 0 < p.depth) :
    (encode (treeOf RANDSTR dataSize p)).length =
      8 * (p.breadth * p.depth) + 6 * p.breadth + numDigits p.breadth p.depth +
        ((p.breadth * p.depth - 1) * (chunkSize dataSize p).toNat +
          (chunkSize dataSize p + shortfall dataSize p).toNat) := by
  obtain ⟨b, d⟩ := p
  obtain ⟨b, rfl⟩ := Nat.exists_eq_succ_of_ne_zero hb.ne'
  obtain ⟨d, rfl⟩ := Nat.exists_eq_succ_of_ne_zero hd.ne'
  rw [treeOf, encode_length hb hd]
  congr 1
  simp only [length_value hlen (Nat.mul_pos hb hd)]
  rw [sum_values _ b d (chunkSize dataSize ⟨b + 1, d + 1⟩).toNat
    (chunkSize dataSize ⟨b + 1, d + 1⟩ + shortfall dataSize ⟨b + 1, d + 1⟩).toNat]
  · have hn : (b + 1) * (d + 1) - 1 = b * (d + 1) + d := by
      rw [Nat.succ_mul]
      omega
    simp only [Nat.succ_eq_add_one, hn]
    ring
  · intro i j
    split <;> simp

theorem treeOf_dealt (hb : 0 < p.breadth) (hd : 0 < p.depth)
    (hdata : 0 ≤ numDataChars dataSize p) :
    ((encode (treeOf RANDSTR dataSize p)).length : Int) =
      dataSize - 4 * p.depth + 4 * p.breadth := by
  have hn : 0 < p.breadth * p.depth := Nat.mul_pos hb hd
  have hdealt := @dealt dataSize p hn
  obtain ⟨hs, _⟩ := @shortfall_bounds dataSize p hn
  obtain ⟨q, hq⟩ := Int.eq_ofNat_of_zero_le (chunkSize_nonneg hn hdata)
  obtain ⟨r, hr⟩ := Int.eq_ofNat_of_zero_le hs
  obtain ⟨n, hN⟩ := Nat.exists_eq_succ_of_ne_zero hn.ne'
  have hformat := numFormatChars_eq hb hd
  rw [treeOf_length hlen hb hd, hq, hr]
  rw [hq, hr, numDataChars, hformat, hN] at hdealt
  rw [hN, Nat.succ_sub_one, ← Int.natCast_add, Int.toNat_natCast, Int.toNat_natCast]
  push_cast at hdealt ⊢
  linarith

theorem treeOf_square (hb : 0 < p.breadth) (hshape : p.depth = p.breadth)
    (hdata : 0 ≤ numDataChars dataSize p) :
    (encode (treeOf RANDSTR dataSize p)).length = dataSize := by
  have := treeOf_dealt hlen hb (hshape ▸ hb) hdata
  omega

theorem treeOf_oblong (hb : 4 ≤ p.breadth) (hshape : p.depth = p.breadth + 1) :
    (encode (treeOf RANDSTR dataSize p)).length ≠ dataSize := by
  have hb' : 0 < p.breadth := by omega
  have hd' : 0 < p.depth := by omega
  by_cases hdata : 0 ≤ numDataChars dataSize p
  · have := treeOf_dealt hlen hb' hd' hdata
    omega
  · intro hsize
    have hn : 0 < p.breadth * p.depth := Nat.mul_pos hb' hd'
    have hmany : 20 ≤ p.breadth * p.depth := by
      calc 20 = 4 * 5 := rfl
        _ ≤ p.breadth * p.depth := Nat.mul_le_mul hb (by omega)
    have hformat := numFormatChars_eq hb' hd'
    have hdealt := @dealt dataSize p hn
    obtain ⟨hs, hlt⟩ := @shortfall_bounds dataSize p hn
    have htext := @treeOf_length dataSize p RANDSTR hlen hb' hd'
    generalize chunkSize dataSize p = chunk at *
    generalize shortfall dataSize p = rest at *
    generalize p.breadth * p.depth = n at *
    -- nearly all the characters are missing, so each node but the last would get a negative number
    have hneg : chunk < 0 := by
      by_contra hnonneg
      have := mul_nonneg (Int.natCast_nonneg n) (not_lt.mp hnonneg)
      omega
    have hzero : chunk.toNat = 0 := Int.toNat_of_nonpos hneg.le
    rw [hsize, hzero, Nat.mul_zero, Nat.zero_add] at htext
    rw [numDataChars] at hdealt hdata
    have hone : chunk = -1 := by
      by_contra hne
      have hle : (n : Int) * chunk ≤ n * (-2) :=
        Int.mul_le_mul_of_nonneg_left (by omega) (Int.natCast_nonneg n)
      omega
    rw [hone, mul_neg_one] at hdealt
    omega

end Sizes

theorem encode_empty {n : Nat} (hn : 0 < n) :
    (encode (tree n n fun _ _ => [])).length = numFormatChars n n := by
  rw [encode_length hn hn, numFormatChars_eq hn hn]
  simp
  ring

theorem nonneg_iff (h : 0 < p.breadth) (hshape : p.depth = p.breadth) :
    0 ≤ numDataChars dataSize p ↔
      (encode (tree p.breadth p.breadth fun _ _ => [])).length ≤ dataSize := by
  rw [encode_empty h, numDataChars, hshape]
  omega

theorem square_iff (h : Growing dataSize p.breadth p.depth toggle)
    (hroom : dataSize ≤ p.breadth * p.depth * MiB) :
    Square dataSize ↔ toggle = false ∧ Fits dataSize p.breadth := by
  obtain ⟨hfour, hshape, hneeded⟩ := h
  have hmono {a b c d : Nat} (hac : a ≤ c) (hbd : b ≤ d) : a * b * MiB ≤ c * d * MiB :=
    Nat.mul_le_mul_right MiB (Nat.mul_le_mul hac hbd)
  cases toggle with
  | true =>
    rw [hshape, if_pos rfl] at hroom
    refine ⟨?_, fun h => absurd h.1 (by decide)⟩
    rintro ⟨n, hn, hle, _⟩
    exfalso
    have hlt : p.breadth < n := by
      by_contra hnot
      have := hmono (not_lt.mp hnot) (not_lt.mp hnot)
      simp only [if_true] at hneeded
      omega
    obtain ⟨_, hsmall⟩ := hn.resolve_left (by omega)
    have := hmono (show p.breadth ≤ n - 1 by omega) (show p.breadth + 1 ≤ n by omega)
    omega
  | false =>
    rw [hshape, if_neg Bool.false_ne_true] at hroom
    simp only [Bool.false_eq_true, if_false] at hneeded
    constructor
    · rintro ⟨n, hn, hle, htext⟩
      have hge : p.breadth ≤ n := by
        by_contra hlt
        have := hmono (show n ≤ p.breadth - 1 by omega) (show n ≤ p.breadth by omega)
        omega
      have hle' : n ≤ p.breadth := by
        by_contra hlt
        have := hmono (show p.breadth ≤ n - 1 by omega) (show p.breadth ≤ n by omega)
        omega
      rw [le_antisymm hge hle']
      exact ⟨rfl, htext⟩
    · exact fun h => ⟨p.breadth, hneeded, hroom, h.2⟩

theorem chunkSize_le (hn : 0 < p.breadth * p.depth) (hroom : dataSize ≤ p.breadth * p.depth * MiB) :
    chunkSize dataSize p ≤ MiB := by
  have hdealt := @dealt dataSize p hn
  have hs := (@shortfall_bounds dataSize p hn).1
  have hpos : (0 : Int) < (p.breadth * p.depth : Nat) := Int.natCast_pos.mpr hn
  have hroom' : (dataSize : Int) ≤ (p.breadth * p.depth : Nat) * MiB := by exact_mod_cast hroom
  apply le_of_mul_le_mul_left _ hpos
  rw [numDataChars] at hdealt
  omega

theorem values_short (hlen : ∀ i j n, n ≤ chunkSize dataSize p + shortfall dataSize p →
      (RANDSTR i j n).length = n.toNat) (hn : 0 < p.breadth * p.depth) (hroom : dataSize ≤ p.breadth * p.depth * MiB) :
    ∀ c ∈ treeOf RANDSTR dataSize p, ∀ m ∈ c.2,
      (m.2.length : Int) ≤ MiB + shortfall dataSize p := by
  have hchunk := chunkSize_le hn hroom
  have hs := (@shortfall_bounds dataSize p hn).1
  intro c hc m hm
  obtain ⟨i, _, rfl⟩ := List.mem_map.mp hc
  obtain ⟨j, _, rfl⟩ := List.mem_map.mp hm
  dsimp only
  rw [length_value hlen hn]
  split <;> omega

theorem length_dec_le {i : Nat} (hi : i < 10 ^ 18) : (dec i).length ≤ 18 := by
  by_cases hzero : i = 0
  · simp [dec, hzero]
  · rw [Decimal.dec_eq_digits hzero, digits, digitsStr, List.length_map, List.length_reverse]
    exact (Nat.digits_length_le_iff (by decide) i).mpr hi

theorem sum_le_of_le (n q : Nat) (f : Nat → Nat) (hf : ∀ i, i ≤ n → f i ≤ q) :
    ((List.range' 1 n).map f).sum ≤ n * q := by
  have hle := List.sum_le_card_nsmul ((List.range' 1 n).map f) q (by
    intro x hx
    obtain ⟨i, hi, rfl⟩ := List.mem_map.mp hx
    rw [List.mem_range'_1] at hi
    exact hf i (by omega))
  simpa using hle

theorem square_iff_of_lt (hsize : 200 ≤ dataSize) (hlt : dataSize < 10 ^ 18) : Square dataSize ↔
    ∃ n, (n = 4 ∨ 4 < n ∧ (n - 1) * n * MiB < dataSize) ∧ dataSize ≤ n * n * MiB ∧
      (dataSize - (encode (tree n n fun _ _ => [])).length) / (n * n) +
        (dataSize - (encode (tree n n fun _ _ => [])).length) % (n * n) ≤ MiB := by
  constructor
  · rintro ⟨n, hn, hle, -, hlast⟩
    exact ⟨n, hn, hle, hlast⟩
  rintro ⟨n, hn, hle, hlast⟩
  refine ⟨n, hn, hle, ?_, hlast⟩
  obtain rfl | ⟨hfour, hsmall⟩ := hn
  · have h172 : (encode (tree 4 4 fun _ _ => [])).length = 172 := by decide +kernel
    omega
  · have hlarge : 4 * n ≤ (n - 1) * n := Nat.mul_le_mul_right n (by omega)
    have hsquare : (n - 1) * n + n = n * n := by
      rw [← Nat.succ_mul, Nat.succ_eq_add_one, Nat.sub_add_cancel (by omega)]
    have hdigits : numDigits n n ≤ n * (18 + n * 18) := by
      have hshort (i : Nat) (hi : i ≤ n) : (dec i).length ≤ 18 := by
        apply length_dec_le
        unfold MiB at hsmall
        omega
      apply sum_le_of_le
      intro i hi
      exact Nat.add_le_add (hshort i hi) (sum_le_of_le n 18 _ hshort)
    have hexpand : n * (18 + n * 18) = 18 * n + 18 * (n * n) := by ring
    rw [encode_empty (by omega), numFormatChars_eq (by omega) (by omega)]
    unfold MiB at hsmall
    omega

theorem last_eq (hb : 0 < p.breadth) (hshape : p.depth = p.breadth)
    (htext : (encode (tree p.breadth p.breadth fun _ _ => [])).length ≤ dataSize) :
    chunkSize dataSize p + shortfall dataSize p =
      (((dataSize - (encode (tree p.breadth p.breadth fun _ _ => [])).length) /
          (p.breadth * p.breadth) +
        (dataSize - (encode (tree p.breadth p.breadth fun _ _ => [])).length) %
          (p.breadth * p.breadth) : Nat) : Int) := by
  have hn : 0 < p.breadth * p.depth := Nat.mul_pos hb (hshape ▸ hb)
  have hdata : numDataChars dataSize p =
      ((dataSize - (encode (tree p.breadth p.breadth fun _ _ => [])).length : Nat) : Int) := by
    rw [encode_empty hb] at htext ⊢
    rw [numDataChars, hshape, Int.ofNat_sub htext]
  have hrest : shortfall dataSize p =
      (((dataSize - (encode (tree p.breadth p.breadth fun _ _ => [])).length) %
        (p.breadth * p.breadth) : Nat) : Int) := by
    rw [shortfall, hdata, hshape, Int.natCast_mod]
  have hdealt := @dealt dataSize p hn
  rw [hdata, hrest, hshape] at hdealt
  have hdiv := Nat.div_add_mod
    (dataSize - (encode (tree p.breadth p.breadth fun _ _ => [])).length) (p.breadth * p.breadth)
  have hchunk : chunkSize dataSize p =
      (((dataSize - (encode (tree p.breadth p.breadth fun _ _ => [])).length) /
        (p.breadth * p.breadth) : Nat) : Int) := by
    have hpos : ((p.breadth * p.breadth : Nat) : Int) ≠ 0 := by
      rw [hshape] at hn
      exact Int.natCast_ne_zero.mpr hn.ne'
    apply Int.eq_of_mul_eq_mul_left hpos
    rw [← Int.natCast_mul]
    omega
  rw [hchunk, hrest, Int.natCast_add]

/-- The text of the tree has the size that was asked for, with no value too long and both checks
passed, exactly for the sizes that need no more than a square and leave no more over than fits. -/
theorem populateTree_hits_iff (RANDSTR : Nat → Nat → Int → Str)
    (hlen : ∀ i j, ∀ n : Int, n ≤ MiB → (RANDSTR i j n).length = n.toNat) (dataSize : Nat)
    (hsize : 200 ≤ dataSize) :
    (∃ p, populateTree RANDSTR dataSize = some p ∧ p.Hits dataSize) ↔ Square dataSize := by
  obtain ⟨p, toggle, hgrow, hgrowing, hroom⟩ :=
    @grow_spec dataSize _ _ (dataSize + 1) _ growing_start (by omega) (by omega)
  obtain ⟨hb, hd⟩ := hgrowing.pos
  have hrun : populateTree RANDSTR dataSize =
      if chunkSize dataSize p + shortfall dataSize p > MiB then none
      else some ⟨shortfall dataSize p, treeOf RANDSTR dataSize p⟩ := by
    rw [populateTree, hgrow]
    rfl
  have hshape := hgrowing.shape
  rw [square_iff hgrowing hroom, hrun]
  constructor
  · rintro ⟨q, hq, hits⟩
    split_ifs at hq with hlong
    obtain rfl := Option.some.inj hq
    have hlast := not_lt.mp hlong
    have hvalue := fun i j n (hn : n ≤ chunkSize dataSize p + shortfall dataSize p) =>
      hlen i j n (hn.trans hlast)
    have hits := hits.size
    cases toggle with
    | true => exact absurd hits (treeOf_oblong hvalue hgrowing.four hshape)
    | false =>
      have htext := @treeOf_length dataSize p RANDSTR hvalue hb hd
      have hempty := encode_empty hb
      have hformat := numFormatChars_eq hb hb
      rw [hits, hshape] at htext
      simp only [Bool.false_eq_true, if_false] at htext
      have hle : (encode (tree p.breadth p.breadth fun _ _ => [])).length ≤ dataSize := by omega
      refine ⟨rfl, hle, ?_⟩
      rw [last_eq hb hshape hle] at hlast
      exact Int.ofNat_le.mp hlast
  · rintro ⟨rfl, htext, hlast⟩
    have hdata := (nonneg_iff hb hshape).mpr htext
    have hle : chunkSize dataSize p + shortfall dataSize p ≤ MiB := by
      rw [last_eq hb hshape htext]
      exact Int.ofNat_le.mpr hlast
    have hvalue := fun i j n (hn : n ≤ chunkSize dataSize p + shortfall dataSize p) =>
      hlen i j n (hn.trans hle)
    have hsquare := treeOf_square hvalue hb hshape hdata
    exact ⟨_, if_neg (not_lt.mpr hle), hsquare, values_short hvalue (Nat.mul_pos hb hd) hroom,
      validate_nodes hsquare⟩

def letters : Nat → Nat → Int → Str := fun _ _ n => List.replicate n.toNat 65

/-- Four rows of four, with 1048564 letters in each node and 12 more in the last one. -/
theorem populateTree_hits_large :
    ∃ p, populateTree letters (16 * MiB - 8) = some p ∧ p.Hits (16 * MiB - 8) := by
  refine (populateTree_hits_iff letters (fun _ _ n _ => List.length_replicate) (16 * MiB - 8)
    (by decide)).mpr ?_
  exact ⟨4, Or.inl rfl, by decide, by decide +kernel, by decide +kernel⟩

/-- The first size for which four rows get five members. -/
theorem populateTree_misses : ¬ ∀ (RANDSTR : Nat → Nat → Int → Str),
    (∀ i j, ∀ n : Int, n ≤ MiB → (RANDSTR i j n).length = n.toNat) → ∀ dataSize, 200 ≤ dataSize →
      ∃ p, populateTree RANDSTR dataSize = some p ∧ p.Hits dataSize := by
  intro hall
  have hlen : ∀ i j n, (letters i j n).length = n.toNat := fun _ _ n => List.length_replicate
  obtain ⟨p, hp, hits⟩ := hall letters (fun i j n _ => hlen i j n) (16 * MiB + 1) (by decide)
  have hgrow : grow (16 * MiB + 1) (16 * MiB + 1 + 1) 4 4 false = some ⟨4, 5⟩ := by decide +kernel
  have hlast : ¬ chunkSize (16 * MiB + 1) ⟨4, 5⟩ + shortfall (16 * MiB + 1) ⟨4, 5⟩ > MiB := by
    decide +kernel
  rw [populateTree, hgrow, Option.bind_some, if_neg hlast] at hp
  obtain rfl := Option.some.inj hp
  exact treeOf_oblong (p := ⟨4, 5⟩) (fun i j n _ => hlen i j n) le_rfl rfl hits.size

end YdbTest.PopulateTree
