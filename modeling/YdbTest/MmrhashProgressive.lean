import YdbTest.Mmrhash
import Mathlib.Tactic.Ring

namespace YdbTest.MmrhashProgressive

open LittleEndian Blockwise Mmrhash

/-- The state that has `h` of the blocks so far and carries the bytes of `cs`, fewer than a block. -/
def carrying (h : Hash) (cs : UInt8s) : State :=
  ⟨h, pack 64 (cs.take 8), pack 64 (cs.drop 8), cs.length⟩

def block (h : Hash) (s : UInt8s) : Hash :=
  PROCESS_BLOCK (pack 64 (s.take 8)) (pack 64 (s.drop 8)) h

/-- The state after the bytes of `s` that follow a number of whole blocks. -/
def carried (h : Hash) (s : UInt8s) : State :=
  carrying (absorb 15 block h s).1 (absorb 15 block h s).2

variable {h : Hash} {cs key u v : UInt8s} {n : Nat}

theorem assert_bind {α : Type} {p : Prop} [Decidable p] {f : Unit → Option α} {r : Option α}
    (hp : p) (h : f () = r) : (assert p).bind f = r := by
  rw [assert, if_pos hp, Option.bind_some, h]

theorem take_succ_of_lt (hn : n < key.length) : key.take (n + 1) = key.take n ++ [key[n]] :=
  List.take_succ_eq_append_getElem hn

theorem pack_take_succ (hn : n < key.length) (k : Nat) :
    pack 64 (key.take (n + 1)) <<< k =
      key[n].setWidth 64 <<< (8 * n + k) ||| pack 64 (key.take n) <<< k := by
  rw [take_succ_of_lt hn, pack_append, pack_singleton, BitVec.shiftLeft_or_distrib,
    List.length_take_of_le (Nat.le_of_lt hn), ← BitVec.shiftLeft_add, BitVec.or_comm]

theorem add_bytes_one_eq (carry : Nat) (c1 : Word) (hn : n ≤ key.length) :
    add_bytes_one key carry n c1 = some (c1 ||| pack 64 (key.take n) <<< (8 * carry)) := by
  induction n generalizing c1 with
  | zero => simp [add_bytes_one, pack]
  | succ n ih =>
    have hshift : (carry + (n + 1) - 1) * 8 = 8 * n + 8 * carry := by omega
    rw [add_bytes_one, List.getElem?_eq_getElem hn, pack_take_succ hn]
    simp only [Option.bind_eq_bind, Option.bind_some]
    rw [ih _ (Nat.le_of_lt hn), hshift, BitVec.or_assoc]

theorem add_bytes_two_eq (carry : Nat) (c1 c2 : Word) (hn : n ≤ key.length) :
    add_bytes_two key carry n c1 c2 =
      some (c1 ||| pack 64 ((key.take n).take (8 - carry)) <<< (8 * carry),
        c2 ||| pack 64 ((key.take n).drop (8 - carry)) <<< (8 * (carry - 8))) := by
  induction n generalizing c2 with
  | zero => simp [add_bytes_two, pack]
  | succ n ih =>
    by_cases h8 : 8 < carry + (n + 1)
    · have hle : 8 - carry ≤ n := by omega
      have hlen : (key.take n).length = n := List.length_take_of_le (Nat.le_of_lt hn)
      have hone : (key.take (n + 1)).take (8 - carry) = (key.take n).take (8 - carry) := by
        rw [List.take_take, List.take_take, Nat.min_eq_left hle, Nat.min_eq_left (by omega)]
      have htwo : (key.take (n + 1)).drop (8 - carry) = (key.take n).drop (8 - carry) ++ [key[n]] := by
        rw [take_succ_of_lt hn, List.drop_append_of_le_length (by omega)]
      have hshift : (carry + (n + 1) - 9) * 8 = 8 * (n - (8 - carry)) + 8 * (carry - 8) := by omega
      rw [add_bytes_two, if_pos h8, List.getElem?_eq_getElem hn, hone, htwo, pack_append,
        pack_singleton, List.length_drop, hlen, BitVec.shiftLeft_or_distrib, ← BitVec.shiftLeft_add,
        ← hshift]
      simp only [Option.bind_eq_bind, Option.bind_some]
      rw [ih _ (Nat.le_of_lt hn), BitVec.or_assoc, BitVec.or_comm (key[n].setWidth 64 <<< _)]
    · have hlen : (key.take (n + 1)).length ≤ 8 - carry := by
        rw [List.length_take_of_le hn]
        omega
      rw [add_bytes_two, if_neg h8, add_bytes_one_eq carry c1 hn, List.take_of_length_le hlen,
        List.drop_of_length_le hlen, pack, BitVec.zero_shiftLeft, BitVec.or_zero]
      rfl

theorem pack_take_append (cs u : UInt8s) :
    pack 64 (cs.take 8) ||| pack 64 (u.take (8 - cs.length)) <<< (8 * cs.length) =
      pack 64 ((cs ++ u).take 8) := by
  rw [List.take_append, pack_append]
  obtain hle | hge := Nat.le_total cs.length 8
  · rw [List.take_of_length_le hle]
  · rw [Nat.sub_eq_zero_of_le hge, List.take_zero, pack, BitVec.zero_shiftLeft,
      BitVec.zero_shiftLeft]

theorem pack_drop_append (cs u : UInt8s) :
    pack 64 (cs.drop 8) ||| pack 64 (u.drop (8 - cs.length)) <<< (8 * (cs.length - 8)) =
      pack 64 ((cs ++ u).drop 8) := by
  rw [List.drop_append, pack_append, List.length_drop]

theorem ADD_BYTES_eq (hc : cs.length + n ≤ 16) (hn : n ≤ key.length) :
    ADD_BYTES (carrying h cs) key n = some (carrying h (cs ++ key.take n)) := by
  have hlow : (0 : Int) ≤ cs.length + n := by omega
  have hhigh : (cs.length : Int) + n ≤ 16 := by omega
  have hempty : (cs.length : Int) ≠ 0 ∨ pack 64 (cs.take 8) = 0 ∧ pack 64 (cs.drop 8) = 0 := by
    cases cs with
    | nil => exact .inr ⟨rfl, rfl⟩
    | cons c cs => exact .inl (by simp; omega)
  have hlen : (cs ++ key.take n).length = cs.length + n := by
    rw [List.length_append, List.length_take_of_le hn]
  have hempty' : (cs.length : Int) + n ≠ 0 ∨
      pack 64 ((cs ++ key.take n).take 8) = 0 ∧ pack 64 ((cs ++ key.take n).drop 8) = 0 := by
    cases hs : cs ++ key.take n with
    | nil => exact .inr ⟨rfl, rfl⟩
    | cons c s =>
      rw [hs, List.length_cons] at hlen
      exact .inl (by omega)
  have hsame : (n : Int) ≠ 0 ∨ pack 64 (cs.take 8) = pack 64 ((cs ++ key.take n).take 8) ∧
      pack 64 (cs.drop 8) = pack 64 ((cs ++ key.take n).drop 8) := by
    cases n with
    | zero => exact .inr (by simp)
    | succ n => exact .inl (by omega)
  have hwords : add_bytes_two key (carrying h cs).carry_bytes.toNat (n : Int).toNat
      (carrying h cs).one (carrying h cs).two =
      some (pack 64 ((cs ++ key.take n).take 8), pack 64 ((cs ++ key.take n).drop 8)) := by
    simp only [carrying, Int.toNat_natCast, add_bytes_two_eq _ _ _ hn, pack_take_append,
      pack_drop_append]
  unfold ADD_BYTES
  refine assert_bind hlow (assert_bind hhigh (assert_bind hempty ?_))
  rw [hwords]
  refine assert_bind hempty' (assert_bind hsame ?_)
  rw [carrying, carrying, hlen]
  rfl

theorem straddle (hu : u.length = 8) {c : Nat} (hc : c ≤ 8) :
    pack 64 u >>> ((8 - c) * 8) ||| pack 64 v <<< (c * 8) = pack 64 (u.drop (8 - c) ++ v) := by
  have hlen : (u.drop (8 - c)).length = c := by
    rw [List.length_drop]
    omega
  rw [pack_append, hlen, Nat.mul_comm c, Nat.mul_comm (8 - c), pack_shiftRight (by omega)]

/-- The two words of the block `cs ++ u ++ v` begins with, and what is carried after it. -/
theorem GET_BLOCK_eq (hc : cs.length < 16) (hu : u.length = 8) (hv : v.length = 8) (t : UInt8s) :
    GET_BLOCK (carrying h cs) (u ++ v ++ t) =
      some (pack 64 ((cs ++ u ++ v).take 8), pack 64 (((cs ++ u ++ v).drop 8).take 8),
        carrying h ((cs ++ u ++ v).drop 16)) := by
  have hempty : (cs.length : Int) ≠ 0 ∨ pack 64 (cs.take 8) = 0 ∧ pack 64 (cs.drop 8) = 0 := by
    cases cs with
    | nil => exact .inr ⟨rfl, rfl⟩
    | cons c cs => exact .inl (by simp; omega)
  have hlt : (cs.length : Int) < 16 := by omega
  have hm1 : GETBLOCK64 (u ++ v ++ t) 0 = pack 64 u := by
    rw [GETBLOCK64, Nat.mul_zero, List.drop_zero, List.append_assoc, List.take_left' hu]
  have hm2 : GETBLOCK64 (u ++ v ++ t) 1 = pack 64 v := by
    rw [GETBLOCK64, Nat.mul_one, List.append_assoc, List.drop_left' hu, List.take_left' hv]
  unfold GET_BLOCK
  refine assert_bind hempty (assert_bind hlt ?_)
  rw [hm1, hm2]
  dsimp only [carrying]
  have hassoc : cs ++ u ++ v = cs ++ (u ++ v) := List.append_assoc cs u v
  have huv : (cs ++ u ++ v).length = cs.length + 16 := by
    rw [List.length_append, List.length_append, hu, hv]
  have hlen : ((cs ++ u ++ v).drop 16).length = cs.length := by
    rw [List.length_drop, huv]
    omega
  rw [hlen, Int.toNat_natCast]
  by_cases h0 : cs.length = 0
  · have hnil : cs = [] := List.length_eq_zero_iff.mp h0
    subst hnil
    have hlast : (u ++ v).drop 16 = [] := List.drop_of_length_le (by simp; omega)
    refine (if_pos rfl).trans ?_
    rw [List.nil_append, List.take_left' hu, List.drop_left' hu, hlast,
      List.take_of_length_le (Nat.le_of_eq hv)]
  refine (if_neg (by omega)).trans ?_
  by_cases h8 : cs.length ≤ 8
  · -- the second word of what is carried is empty, before and after
    have hcs : cs.take 8 = cs := List.take_of_length_le h8
    have htwo : cs.drop 8 = [] := List.drop_of_length_le h8
    have hfront : (cs ++ u ++ v).take 8 = (cs ++ u).take 8 :=
      List.take_append_of_le_length (by rw [List.length_append]; omega)
    have hmid : (cs ++ u ++ v).drop 8 = u.drop (8 - cs.length) ++ v := by
      rw [hassoc, List.drop_append, htwo, List.nil_append,
        List.drop_append_of_le_length (by omega)]
    have hlast : (cs ++ u ++ v).drop 16 = v.drop (8 - cs.length) := by
      rw [List.drop_append, List.drop_of_length_le (by rw [List.length_append]; omega),
        List.nil_append, List.length_append, hu]
      congr 1
      omega
    have hlast8 : (v.drop (8 - cs.length)).length ≤ 8 := by
      rw [List.length_drop]
      omega
    have hzero : (0 : Word) = pack 64 (cs.drop 8) := by
      rw [htwo]
      rfl
    have hwords : (pack 64 ((cs ++ u ++ v).take 8), pack 64 (((cs ++ u ++ v).drop 8).take 8)) =
        (pack 64 cs ||| pack 64 u <<< (cs.length * 8),
          pack 64 u >>> ((8 - cs.length) * 8) ||| pack 64 v <<< (cs.length * 8)) := by
      rw [hfront, hmid, pack_take (by omega), pack_take (by omega), pack_append, ← straddle hu h8,
        Nat.mul_comm 8]
    obtain ⟨hk1, hk2⟩ := Prod.mk.inj hwords
    rw [hk1, hk2, hlast, List.take_of_length_le hlast8, List.drop_of_length_le hlast8]
    by_cases heq : cs.length = 8
    · refine (if_pos (by omega)).trans (assert_bind hzero ?_)
      simp [heq, hcs, htwo, BitVec.shiftLeft_eq_zero]
    · refine (if_neg (by omega)).trans ((if_pos (by omega)).trans (assert_bind hzero ?_))
      rw [hcs, htwo, Nat.mul_comm (8 - cs.length), pack_shiftRight (s := v) (by omega)]
  · have hfront : (cs ++ u ++ v).take 8 = cs.take 8 := by
      rw [hassoc, List.take_append_of_le_length (by omega)]
    have hmid : (cs ++ u ++ v).drop 8 = cs.drop 8 ++ u ++ v := by
      rw [hassoc, List.drop_append_of_le_length (by omega), List.append_assoc]
    have hlast : (cs ++ u ++ v).drop 16 = u.drop (16 - cs.length) ++ v := by
      rw [List.append_assoc, List.drop_append, List.drop_of_length_le (by omega),
        List.nil_append, List.drop_append_of_le_length (by omega)]
    have hcut : (cs.drop 8 ++ u ++ v).take 8 = (cs.drop 8 ++ u).take 8 :=
      List.take_append_of_le_length (by rw [List.length_append]; omega)
    have hcut' : (u.drop (16 - cs.length) ++ v).drop 8 = v.drop (16 - cs.length) := by
      rw [List.drop_append, List.drop_of_length_le (by rw [List.length_drop]; omega),
        List.nil_append, List.length_drop]
      congr 1
      omega
    have hword := straddle (v := v) hu (show cs.length - 8 ≤ 8 by omega)
    rw [show 8 - (cs.length - 8) = 16 - cs.length by omega] at hword
    refine (if_neg (by omega)).trans ((if_neg (by omega)).trans ?_)
    rw [hfront, hmid, hlast, hcut, hcut',
      pack_take (by omega), pack_take (by omega), pack_take (by omega), pack_append,
      List.length_drop, hword,
      Nat.mul_comm (16 - cs.length), pack_shiftRight (s := v) (by omega),
      Nat.mul_comm (cs.length - 8)]

theorem PROCESS_BYTES_eq (hc : cs.length < 16) (hn : n ≤ key.length) (h16 : n < 16) :
    PROCESS_BYTES (carrying h cs) key n = some (carried h (cs ++ key.take n)) := by
  have hlen : (n : Int) < 16 := by omega
  unfold PROCESS_BYTES
  refine assert_bind hlen ?_
  by_cases hfull : 16 ≤ cs.length + n
  · obtain ⟨fill, hfill⟩ := Nat.exists_eq_add_of_le (Nat.le_of_lt hc)
    have hpos : (16 : Int) ≤ (carrying h cs).carry_bytes + n := by
      change (16 : Int) ≤ cs.length + n
      omega
    have hcount : (16 : Int) - (carrying h cs).carry_bytes = fill := by
      change (16 : Int) - cs.length = fill
      omega
    have hrest : (n : Int) - fill = ((n - fill : Nat) : Int) := by omega
    have hkey : fill ≤ key.length := by omega
    have hblock : (cs ++ key.take fill).length = 16 := by
      rw [List.length_append, List.length_take_of_le hkey, ← hfill]
    have hcarry : (carrying h (cs ++ key.take fill)).carry_bytes = 16 := by
      change ((cs ++ key.take fill).length : Int) = 16
      rw [hblock]
      rfl
    have hsplit : cs ++ key.take n = cs ++ key.take fill ++ (key.drop fill).take (n - fill) := by
      rw [List.append_assoc, ← List.take_add, Nat.add_sub_cancel' (by omega)]
    have hshort : ((key.drop fill).take (n - fill)).length ≤ 15 := by
      rw [List.length_take]
      omega
    rw [if_pos hpos, hcount]
    dsimp only
    rw [ADD_BYTES_eq (by omega) hkey]
    refine assert_bind hcarry ?_
    have hnext : ADD_BYTES (carrying (block h (cs ++ key.take fill)) []) (key.drop fill) _ = _ :=
      ADD_BYTES_eq (n := n - fill) (by simp; omega) (by rw [List.length_drop]; omega)
    rw [hrest, Int.toNat_natCast]
    refine hnext.trans ?_
    rw [carried, hsplit, absorb_block _ (by rw [List.length_append]; omega),
      List.take_left' hblock, List.drop_left' hblock, absorb_of_le _ hshort]
    rfl
  · have hneg : ¬ (16 : Int) ≤ (carrying h cs).carry_bytes + n := by
      change ¬ (16 : Int) ≤ cs.length + n
      omega
    have hshort : (cs ++ key.take n).length ≤ 15 := by
      rw [List.length_append, List.length_take_of_le hn]
      omega
    rw [if_neg hneg, ADD_BYTES_eq (by omega) hn, carried, absorb_of_le _ hshort]

theorem ingest_loop_eq (hc : cs.length < 16) (hn : key.length / 16 = n) :
    ingest_loop n (carrying h cs) key = some (carried h (cs ++ key)) := by
  induction n generalizing h cs key with
  | zero =>
    have hlt : key.length < 16 := by omega
    rw [ingest_loop]
    split
    · have hp := PROCESS_BYTES_eq (h := h) hc (Nat.le_refl key.length) hlt
      rwa [List.take_length] at hp
    · have hnil : key = [] := List.length_eq_zero_iff.mp (by omega)
      rw [hnil, List.append_nil, carried, absorb_of_le _ (by omega)]
  | succ n ih =>
    have h16 : 16 ≤ key.length := by omega
    have hu : (key.take 8).length = 8 := List.length_take_of_le (by omega)
    have hv : ((key.drop 8).take 8).length = 8 := by
      rw [List.length_take_of_le]
      rw [List.length_drop]
      omega
    have hkey : key.take 8 ++ (key.drop 8).take 8 ++ key.drop 16 = key := by
      rw [← List.take_add]
      exact List.take_append_drop 16 key
    have hfront : cs ++ key = cs ++ key.take 8 ++ (key.drop 8).take 8 ++ key.drop 16 := by
      calc cs ++ key = cs ++ (key.take 8 ++ (key.drop 8).take 8 ++ key.drop 16) := by rw [hkey]
        _ = _ := by simp only [List.append_assoc]
    have hget := GET_BLOCK_eq (h := h) hc hu hv (key.drop 16)
    rw [hkey] at hget
    generalize hs : cs ++ key.take 8 ++ (key.drop 8).take 8 = s at hget hfront
    have hslen : s.length = cs.length + 16 := by
      rw [← hs, List.length_append, List.length_append, hu, hv]
    have hstep : ingest_loop (n + 1) (carrying h cs) key =
        ingest_loop n (carrying (block h (s.take 16)) (s.drop 16)) (key.drop 16) := by
      rw [ingest_loop, hget, block, List.take_take, List.drop_take]
      rfl
    have hrest : (s.drop 16).length < 16 := by
      rw [List.length_drop]
      omega
    have hdiv : (key.drop 16).length / 16 = n := by
      rw [List.length_drop]
      omega
    have hlong : 15 < (s ++ key.drop 16).length := by
      rw [List.length_append]
      omega
    rw [hstep, ih hrest hdiv, hfront, carried, carried, absorb_block _ hlong,
      List.take_append_of_le_length (by omega), List.drop_append_of_le_length (by omega)]

theorem ingest_eq (safe : Bool) (keyptr : Nat) (hc : cs.length < 16) :
    ydb_mmrhash_128_ingest safe (carrying h cs) keyptr key = some (carried h (cs ++ key)) := by
  unfold ydb_mmrhash_128_ingest
  by_cases hlen : 0 = key.length
  · have hnil : key = [] := List.length_eq_zero_iff.mp hlen.symm
    rw [if_pos hlen, hnil, List.append_nil, carried, absorb_of_le _ (by omega)]
  rw [if_neg hlen]
  dsimp only
  generalize hi : (if safe = true then 0 else min ((8 - keyptr % 8) % 8) key.length) = i
  have hle : i ≤ key.length ∧ i < 16 := by
    rw [← hi]
    split_ifs <;> omega
  have hrest := length_rest_le 15 block h (cs ++ key.take i)
  have hsplit : carried h (cs ++ key) = carried (absorb 15 block h (cs ++ key.take i)).1
      ((absorb 15 block h (cs ++ key.take i)).2 ++ key.drop i) := by
    rw [carried, carried, ← absorb_append, List.append_assoc, List.take_append_drop]
  rw [hsplit]
  split_ifs with hpos
  · rw [PROCESS_BYTES_eq hc hle.1 hle.2]
    exact ingest_loop_eq (by omega) rfl
  · have hnil : cs ++ key.take i = cs := by
      rw [Nat.eq_zero_of_not_pos hpos, List.take_zero, List.append_nil]
    rw [hnil, absorb_of_le _ (by omega)]
    exact ingest_loop_eq hc rfl

theorem foldlM_ingest (safe : Bool) (chunks : List (Nat × UInt8s)) (hc : cs.length < 16) :
    chunks.foldlM (fun state chunk => ydb_mmrhash_128_ingest safe state chunk.1 chunk.2)
      (carrying h cs) = some (carried h (cs ++ chunks.flatMap Prod.snd)) := by
  induction chunks generalizing h cs with
  | nil => rw [List.foldlM_nil, List.flatMap_nil, List.append_nil, carried, absorb_of_le _ (by omega)]; rfl
  | cons chunk chunks ih =>
    have hrest := length_rest_le 15 block h (cs ++ chunk.2)
    rw [List.foldlM_cons, ingest_eq safe chunk.1 hc]
    refine (ih (by omega)).trans ?_
    rw [List.flatMap_cons, ← List.append_assoc, carried, carried, absorb_append (s := cs ++ chunk.2)]

section OneShot

theorem absorb_murmur_body (hn : 16 * n ≤ key.length) :
    absorb 15 block h key = absorb 15 block (murmur_body key n h) (key.drop (16 * n)) := by
  induction n with
  | zero => rfl
  | succ n ih =>
    have hblock (h : Hash) : block h ((key.drop (16 * n)).take 16) =
        PROCESS_BLOCK (GETBLOCK64 key (n * 2)) (GETBLOCK64 key (n * 2 + 1)) h := by
      have h1 : 8 * (n * 2) = 16 * n := by omega
      have h2 : 8 * (n * 2 + 1) = 16 * n + 8 := by omega
      rw [block, GETBLOCK64, GETBLOCK64, List.take_take, List.drop_take, List.drop_drop, h1, h2]
      rfl
    have hnext : 16 * n + 16 = 16 * (n + 1) := by omega
    have hlong : 15 < (key.drop (16 * n)).length := by
      rw [List.length_drop]
      omega
    rw [ih (by omega), absorb_block _ hlong, hblock, List.drop_drop, hnext, murmur_body,
      murmur_body, List.range_succ, List.foldl_append]
    rfl

theorem murmur_tail_eq (tail : UInt8s) (base : Nat) (k : Word) (hn : base + n ≤ tail.length) :
    murmur_tail tail base n k = k ^^^ pack 64 ((tail.drop base).take n) := by
  induction n generalizing k with
  | zero => rw [murmur_tail, List.take_zero, pack, BitVec.xor_zero]
  | succ n ih =>
    have hlt : n < (tail.drop base).length := by
      rw [List.length_drop]
      omega
    have hget : tail.getD (base + n) 0 = (tail.drop base)[n] := by
      rw [List.getD_eq_getElem?_getD, List.getElem?_eq_getElem (by omega), List.getElem_drop]
      rfl
    rw [murmur_tail, ih _ (by omega), take_succ_of_lt hlt, pack_concat_xor,
      List.length_take_of_le (Nat.le_of_lt hlt), hget, BitVec.xor_assoc]
    congr 1
    exact BitVec.xor_comm _ _

theorem MurmurHash3_eq (seed : BitVec 32) (hlen : key.length < 2 ^ 31) :
    MurmurHash3_x64_128 key seed =
      ydb_mmrhash_128_result (carried ⟨seed.setWidth 64, seed.setWidth 64⟩ key)
        (BitVec.ofNat 32 key.length) := by
  have hblocks : 16 * (key.length / 16) ≤ key.length := Nat.mul_div_le key.length 16
  have hshort : (key.drop (16 * (key.length / 16))).length ≤ 15 := by
    rw [List.length_drop]
    omega
  have hbody := (absorb_murmur_body hblocks).trans
    (absorb_of_le (murmur_body key (key.length / 16) ⟨seed.setWidth 64, seed.setWidth 64⟩) hshort)
  have hsign : (BitVec.ofNat 32 key.length).signExtend 64 = (BitVec.ofNat 32 key.length).setWidth 64 := by
    apply BitVec.signExtend_eq_setWidth_of_msb_false
    rw [BitVec.msb_eq_decide, BitVec.toNat_ofNat, decide_eq_false_iff_not]
    omega
  rw [Nat.mul_comm 16] at hbody
  rw [carried, hbody, MurmurHash3_x64_128]
  dsimp only
  generalize hcs : key.drop (key.length / 16 * 16) = cs
  have hrest : cs.length = key.length % 16 := by
    rw [← hcs, List.length_drop]
    omega
  have hlt : key.length % 16 < 16 := Nat.mod_lt _ (by omega)
  have htwo : 8 < key.length % 16 → murmur_tail cs 8 (key.length % 16 - 8) 0 =
      pack 64 (cs.drop 8) := by
    intro h8
    rw [murmur_tail_eq cs 8 0 (by omega), show (0 : Word) = 0#64 from rfl, BitVec.zero_xor,
      List.take_of_length_le (by rw [List.length_drop]; omega)]
  have hone : murmur_tail cs 0 (min (key.length % 16) 8) 0 = pack 64 (cs.take 8) := by
    rw [murmur_tail_eq cs 0 0 (by omega), show (0 : Word) = 0#64 from rfl, BitVec.zero_xor,
      List.drop_zero, ← hrest, Nat.min_comm, ← List.take_take, List.take_length]
  generalize murmur_body key (key.length / 16) ⟨seed.setWidth 64, seed.setWidth 64⟩ = m
  have hh2 : (if 8 < key.length % 16 then
        INTEGRATE_K2 (murmur_tail cs 8 (key.length % 16 - 8) 0) m.two else m.two) =
      if (cs.length : Int) ≠ 0 ∧ 8 < (cs.length : Int) then
        INTEGRATE_K2 (pack 64 (cs.drop 8)) m.two else m.two := by
    by_cases h8 : 8 < key.length % 16
    · rw [if_pos h8, if_pos (by omega), htwo h8]
    · rw [if_neg h8, if_neg (by omega)]
  have hh1 : (if 0 < key.length % 16 then
        INTEGRATE_K1 (murmur_tail cs 0 (min (key.length % 16) 8) 0) m.one else m.one) =
      if (cs.length : Int) ≠ 0 then INTEGRATE_K1 (pack 64 (cs.take 8)) m.one else m.one := by
    by_cases h0 : 0 < key.length % 16
    · rw [if_pos h0, if_pos (by omega), hone]
    · rw [if_neg h0, if_neg (by omega)]
  rw [hh1, hh2, hsign]
  rfl

end OneShot

theorem HASH128_STATE_INIT_eq (seed : BitVec 32) :
    HASH128_STATE_INIT seed = carrying ⟨seed.setWidth 64, seed.setWidth 64⟩ [] := rfl

/-- However a key is cut into chunks, wherever they stand, no assertion fails and the three ways
to its hash agree. -/
theorem mmrhash_progressive (safe : Bool) (keyptr : Nat) (chunks : List (Nat × UInt8s))
    (seed : BitVec 32) (hlen : (chunks.flatMap Prod.snd).length < 2 ^ 31) :
    progressive safe chunks seed =
        some (MurmurHash3_x64_128 (chunks.flatMap Prod.snd) seed) ∧
      ydb_mmrhash_128 safe keyptr (chunks.flatMap Prod.snd) seed =
        some (MurmurHash3_x64_128 (chunks.flatMap Prod.snd) seed) := by
  have h0 : ([] : UInt8s).length < 16 := by simp
  constructor
  · unfold progressive
    rw [HASH128_STATE_INIT_eq, foldlM_ingest safe chunks h0, MurmurHash3_eq seed hlen]
    rfl
  · unfold ydb_mmrhash_128
    rw [HASH128_STATE_INIT_eq]
    refine assert_bind ⟨rfl, rfl, rfl⟩ ?_
    rw [ingest_eq safe keyptr h0, MurmurHash3_eq seed hlen]
    rfl

theorem mmrhash_progressive_three_chunks :
    progressive true [(0, [104#8, 105#8]), (7, []), (2, [33#8])] 12#32 =
        some (MurmurHash3_x64_128 [104#8, 105#8, 33#8] 12#32) ∧
      ydb_mmrhash_128 true 3 [104#8, 105#8, 33#8] 12#32 =
        some (MurmurHash3_x64_128 [104#8, 105#8, 33#8] 12#32) :=
  mmrhash_progressive true 3 [(0, [104#8, 105#8]), (7, []), (2, [33#8])] 12#32 (by decide)

end YdbTest.MmrhashProgressive
