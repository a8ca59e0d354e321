import YdbTest.LittleEndian
import YdbTest.Blockwise

namespace YdbTest.Mmrhash

open LittleEndian

abbrev UInt8s := List Byte

abbrev Word := BitVec 64

def ROTL64 (x : Word) (y : Nat) : Word := x <<< y ||| x >>> (64 - y)

def fmix64 (k : Word) : Word :=
  let k := k ^^^ k >>> 33
  let k := k * 0xff51afd7ed558ccd#64
  let k := k ^^^ k >>> 33
  let k := k * 0xc4ceb9fe1a85ec53#64
  k ^^^ k >>> 33

def C1 : Word := 0x87c37b91114253d5#64

def C2 : Word := 0x4cf5ad432745937f#64

def M1 : Word := 0x52dce729#64

def M2 : Word := 0x38495ab5#64

/-- The words `h.one` and `h.two`. -/
structure Hash where
  one : Word
  two : Word

def GETBLOCK64 (key : UInt8s) (i : Nat) : Word := pack 64 ((key.drop (8 * i)).take 8)

def INTEGRATE_K1 (k1 : Word) (h1 : Word) : Word := h1 ^^^ ROTL64 (k1 * C1) 31 * C2

def INTEGRATE_K2 (k2 : Word) (h2 : Word) : Word := h2 ^^^ ROTL64 (k2 * C2) 33 * C1

def PROCESS_BLOCK (k1 k2 : Word) (h : Hash) : Hash :=
  let h1 := INTEGRATE_K1 k1 h.one
  let h1 := ROTL64 h1 27
  let h1 := h1 + h.two
  let h1 := h1 * 5 + M1
  let h2 := INTEGRATE_K2 k2 h.two
  let h2 := ROTL64 h2 31
  let h2 := h2 + h1
  let h2 := h2 * 5 + M2
  ⟨h1, h2⟩

def finish (h : Hash) : Hash :=
  let h1 := h.one + h.two
  let h2 := h.two + h1
  let h1 := fmix64 h1
  let h2 := fmix64 h2
  let h1 := h1 + h2
  let h2 := h2 + h1
  ⟨h1, h2⟩

section OneShot

/-- The loop of `MurmurHash3_x64_128` over the blocks. -/
def murmur_body (key : UInt8s) (nblocks : Nat) (h : Hash) : Hash :=
  (List.range nblocks).foldl
    (fun h i => PROCESS_BLOCK (GETBLOCK64 key (i * 2)) (GETBLOCK64 key (i * 2 + 1)) h) h

/-- The cases of the switch that fall through to one another: the byte at `base + n` is put in
place first, the byte at `base` last. -/
def murmur_tail (tail : UInt8s) (base : Nat) : Nat → Word → Word
  | 0, k => k
  | n + 1, k => murmur_tail tail base n (k ^^^ (tail.getD (base + n) 0).setWidth 64 <<< (8 * n))

def MurmurHash3_x64_128 (key : UInt8s) (seed : BitVec 32) : Hash :=
  let nblocks := key.length / 16
  let h := murmur_body key nblocks ⟨seed.setWidth 64, seed.setWidth 64⟩
  let tail := key.drop (nblocks * 16)
  let rest := key.length % 16
  let h2 := if 8 < rest then INTEGRATE_K2 (murmur_tail tail 8 (rest - 8) 0) h.two else h.two
  let h1 := if 0 < rest then INTEGRATE_K1 (murmur_tail tail 0 (min rest 8) 0) h.one else h.one
  let len : BitVec 32 := BitVec.ofNat 32 key.length
  finish ⟨h1 ^^^ len.signExtend 64, h2 ^^^ len.signExtend 64⟩

end OneShot

/-- `hash128_state_t` -/
structure State where
  h : Hash
  one : Word
  two : Word
  carry_bytes : Int

def HASH128_STATE_INIT (seed : BitVec 32) : State :=
  ⟨⟨seed.setWidth 64, seed.setWidth 64⟩, 0, 0, 0⟩

/-- An assertion that fails stops the program. -/
def assert (p : Prop) [Decidable p] : Option Unit := if p then some () else none

/-- The second loop of `ADD_BYTES`, down to the first byte of the key. -/
def add_bytes_one (key : UInt8s) (carry : Nat) : Nat → Word → Option Word
  | 0, c1 => some c1
  | n + 1, c1 => do
    let ab_ptr ← key[n]?
    let ab_offset := carry + (n + 1)
    add_bytes_one key carry n (c1 ||| ab_ptr.setWidth 64 <<< ((ab_offset - 1) * 8))

/-- The first loop of `ADD_BYTES`, while the offset is above 8, and then the second one. -/
def add_bytes_two (key : UInt8s) (carry : Nat) : Nat → Word → Word → Option (Word × Word)
  | 0, c1, c2 => some (c1, c2)
  | n + 1, c1, c2 =>
    let ab_offset := carry + (n + 1)
    if 8 < ab_offset then do
      let ab_ptr ← key[n]?
      add_bytes_two key carry n c1 (c2 ||| ab_ptr.setWidth 64 <<< ((ab_offset - 9) * 8))
    else do
      let c1 ← add_bytes_one key carry (n + 1) c1
      some (c1, c2)

def ADD_BYTES (state : State) (key : UInt8s) (count : Int) : Option State := do
  assert (0 ≤ state.carry_bytes + count)
  assert (state.carry_bytes + count ≤ 16)
  assert (state.carry_bytes ≠ 0 ∨ state.one = 0 ∧ state.two = 0)
  let (c1, c2) ← add_bytes_two key state.carry_bytes.toNat count.toNat state.one state.two
  assert (state.carry_bytes + count ≠ 0 ∨ c1 = 0 ∧ c2 = 0)
  assert (count ≠ 0 ∨ state.one = c1 ∧ state.two = c2)
  some { state with one := c1, two := c2, carry_bytes := state.carry_bytes + count }

def GET_BLOCK (state : State) (key : UInt8s) : Option (Word × Word × State) := do
  assert (state.carry_bytes ≠ 0 ∨ state.one = 0 ∧ state.two = 0)
  assert (state.carry_bytes < 16)
  let c := state.carry_bytes.toNat
  let m1 := GETBLOCK64 key 0
  let m2 := GETBLOCK64 key 1
  if 0 = state.carry_bytes then some (m1, m2, state)
  else if 8 = state.carry_bytes then do
    assert (0 = state.two)
    some (state.one, m1, { state with one := m2 })
  else if state.carry_bytes < 8 then do
    let k1 := state.one ||| m1 <<< (c * 8)
    let k2 := m1 >>> ((8 - c) * 8) ||| m2 <<< (c * 8)
    let c1 := m2 >>> ((8 - c) * 8)
    assert (0 = state.two)
    some (k1, k2, { state with one := c1 })
  else
    let k1 := state.one
    let k2 := state.two ||| m1 <<< ((c - 8) * 8)
    let c1 := m1 >>> ((16 - c) * 8) ||| m2 <<< ((c - 8) * 8)
    let c2 := m2 >>> ((16 - c) * 8)
    some (k1, k2, { state with one := c1, two := c2 })

def PROCESS_BYTES (state : State) (key : UInt8s) (len : Int) : Option State := do
  assert (len < 16)
  if 16 ≤ state.carry_bytes + len then do
    let pb_carry_fill := 16 - state.carry_bytes
    let state ← ADD_BYTES state key pb_carry_fill
    assert (state.carry_bytes = 16)
    let state : State := ⟨PROCESS_BLOCK state.one state.two state.h, 0, 0, 0⟩
    ADD_BYTES state (key.drop pb_carry_fill.toNat) (len - pb_carry_fill)
  else ADD_BYTES state key len

/-- The loop of `ydb_mmrhash_128_ingest` over whole blocks; what is left over comes after it. -/
def ingest_loop : Nat → State → UInt8s → Option State
  | 0, state, key => if 0 < key.length then PROCESS_BYTES state key key.length else some state
  | n + 1, state, key => do
    let (k1, k2, state) ← GET_BLOCK state key
    ingest_loop n { state with h := PROCESS_BLOCK k1 k2 state.h } (key.drop 16)

/-- A key at the address `keyptr`. A machine on which unaligned words are not safe takes in the
bytes up to the next word first. -/
def ydb_mmrhash_128_ingest (unaligned_safe : Bool) (state : State) (keyptr : Nat) (key : UInt8s) :
    Option State := do
  if 0 = key.length then some state
  else
    let i := if unaligned_safe then 0 else min ((8 - keyptr % 8) % 8) key.length
    let state ← if 0 < i then PROCESS_BYTES state key i else some state
    let key := key.drop i
    ingest_loop (key.length / 16) state key

def ydb_mmrhash_128_result (state : State) (total_len : BitVec 32) : Hash :=
  let h2 := if state.carry_bytes ≠ 0 ∧ 8 < state.carry_bytes then INTEGRATE_K2 state.two state.h.two
    else state.h.two
  let h1 := if state.carry_bytes ≠ 0 then INTEGRATE_K1 state.one state.h.one else state.h.one
  finish ⟨h1 ^^^ total_len.setWidth 64, h2 ^^^ total_len.setWidth 64⟩

def ydb_mmrhash_128 (unaligned_safe : Bool) (keyptr : Nat) (key : UInt8s) (seed : BitVec 32) :
    Option Hash := do
  let state := HASH128_STATE_INIT seed
  assert (state.carry_bytes = 0 ∧ state.one = 0 ∧ state.two = 0)
  let state ← ydb_mmrhash_128_ingest unaligned_safe state keyptr key
  some (ydb_mmrhash_128_result state (BitVec.ofNat 32 key.length))

/-- The chunks of a key, each with its address, one after the other. -/
def progressive (unaligned_safe : Bool) (chunks : List (Nat × UInt8s)) (seed : BitVec 32) :
    Option Hash := do
  let state ← chunks.foldlM (fun state chunk =>
    ydb_mmrhash_128_ingest unaligned_safe state chunk.1 chunk.2) (HASH128_STATE_INIT seed)
  some (ydb_mmrhash_128_result state (BitVec.ofNat 32 (chunks.flatMap Prod.snd).length))

end YdbTest.Mmrhash
