import YdbTest.DbcargsSpec
import YdbTest.DbcargsSame

namespace YdbTest.DbcargsLegal

open MString Pieces Dbcargs DbcargsSpec

/-- What is asked for. -/
structure Request where
  regions : Spec
  key : Spec
  record : Spec
  block : Spec

structure AsksSizes (args : Args) (req : Request) : Prop where
  key : args .key_size = req.key.text
  record : args .record_size = req.record.text
  block : args .block_size = req.block.text

structure Asks (args : Args) (req : Request) : Prop extends AsksSizes args req where
  regions : args .n_regions = req.regions.text

def padB (e : Environ) : Nat := if 55000 < e.version then 40 else 16

def padR (e : Environ) : Nat := if 55000 < e.version then 0 else 4

def Legal (e : Environ) (key record block : Int) : Prop :=
  key + padB e ≤ block ∧
    (e.blockspan = false → key + padR e ≤ record ∧ record + padB e ≤ block)

/-- There are sizes that are asked for and fit together, and there is a number of regions. -/
def Feasible (e : Environ) (req : Request) : Prop :=
  req.regions.Bounded ∧ ∃ key record block : Nat, req.key.Allows 64 key ∧
    req.record.Allows 256 record ∧ req.block.Allows 1024 block ∧ Legal e key record block

/-- Whatever is drawn, there is no error, and the sizes are asked for and fit together. -/
def Yields (e : Environ) (args : Args) (req : Request) : Prop :=
  ∀ draws, ∃ args', randomize e draws args = some args' ∧ ∃ key record block : Int,
    num (valueOf args' .key_size) = key ∧ num (valueOf args' .record_size) = record ∧
    num (valueOf args' .block_size) = block ∧ req.key.Allows 64 key ∧
    req.record.Allows 256 record ∧ req.block.Allows 1024 block ∧ Legal e key record block

section Bounds

variable (e : Environ) (req : Request)

def room : Int := req.block.top 1024 - padB e

def recordMax : Int := if room e req < req.record.top 256 then room e req else req.record.top 256

def keyBound : Int :=
  let keymax := if e.blockspan then room e req else recordMax e req - padR e
  if 55000 < e.version ∧ 1019 < keymax then 1019
  else if e.version < 60000 ∧ 255 < keymax then 255
  else keymax

/-- The place of the last value that is at most `m`. -/
def lastUpTo (m : Int) (ns : List Nat) : Nat :=
  lastFit (fun i => decide ((ns.getD (i - 1) 0 : Int) ≤ m)) ns.length

/-- The place of the first value above `s` among the first `n`, or `n`. -/
def firstAbove (s : Int) (n : Nat) (ns : List Nat) : Nat :=
  firstFit (fun i => decide (s < (ns.getD (i - 1) 0 : Int))) 1 (n - 1)

def keyWindow : Window where
  lo a _ := a
  hi _ b := if keyBound e req < b then keyBound e req else b
  skip _ := 0
  last := lastUpTo (keyBound e req)

def besideWindow (key : Int) : Window where
  lo a _ := if (a : Int) < key + padR e then key + padR e else a
  hi _ b := if room e req < b then room e req else b
  skip ns := firstAbove (key + padR e) (lastUpTo (room e req) ns) ns - 1
  last := lastUpTo (room e req)

def wholeWindow : Window where
  lo a _ := a
  hi _ b := b
  skip _ := 0
  last := List.length

def recordWindow (key : Int) : Window :=
  if e.blockspan then wholeWindow else besideWindow e req key

/-- For a key or record that takes `s` bytes with the padding. -/
def blockWindow (s : Int) : Window where
  lo a _ := if s < a then (a : Int) else s
  hi _ b := b
  skip ns := firstAbove s ns.length ns - 1
  last := List.length

end Bounds

variable {e : Environ} {draws : Draws} {args args' : Args} {req : Request} {s : Spec}
  {ns : List Nat} {k : Arg} {std : Nat} {p q : Nat → Bool} {i n : Nat} {key : Int}

theorem lastFit_bounds (p : Nat → Bool) : ∀ n, 0 < n → 0 < lastFit p n ∧ lastFit p n ≤ n
  | 1, _ => ⟨Nat.one_pos, Nat.le_refl 1⟩
  | n + 2, _ => by
    rw [lastFit]
    split
    · omega
    · have := lastFit_bounds p (n + 1) (Nat.succ_pos n)
      omega

theorem lastFit_congr (h : ∀ i, 1 ≤ i → p i = q i) : ∀ n, lastFit p n = lastFit q n
  | 0 => rfl
  | 1 => rfl
  | n + 2 => by rw [lastFit, lastFit, h _ (by omega), lastFit_congr h (n + 1)]

theorem firstFit_bounds (p : Nat → Bool) (i n : Nat) :
    i ≤ firstFit p i n ∧ firstFit p i n ≤ i + n := by
  induction n generalizing i with
  | zero => exact ⟨Nat.le_refl i, Nat.le_refl i⟩
  | succ n ih =>
    rw [firstFit]
    split
    · omega
    · have := ih (i + 1)
      omega

theorem firstFit_congr (h : ∀ i, 1 ≤ i → p i = q i) (hi : 1 ≤ i) (n : Nat) :
    firstFit p i n = firstFit q i n := by
  induction n generalizing i with
  | zero => rfl
  | succ n ih => rw [firstFit, firstFit, h i hi, ih (by omega)]

theorem firstAbove_bounds (s : Int) (hn : 0 < n) (ns : List Nat) :
    0 < firstAbove s n ns ∧ firstAbove s n ns ≤ n := by
  have := firstFit_bounds (fun i => decide (s < (ns.getD (i - 1) 0 : Int))) 1 (n - 1)
  rw [firstAbove]
  omega

theorem keyWindow_open : (keyWindow e req).Open := by
  intro ns hns
  exact lastFit_bounds _ _ (by omega)

theorem wholeWindow_open : wholeWindow.Open := by
  intro ns hns
  dsimp only [wholeWindow]
  omega

theorem besideWindow_open (key : Int) : (besideWindow e req key).Open := by
  intro ns hns
  have hlast : 0 < lastUpTo (room e req) ns ∧ lastUpTo (room e req) ns ≤ ns.length :=
    lastFit_bounds _ _ (by omega)
  have hfirst := firstAbove_bounds (key + padR e) hlast.1 ns
  dsimp only [besideWindow]
  omega

theorem blockWindow_open (s : Int) : (blockWindow s).Open := by
  intro ns hns
  have hfirst := firstAbove_bounds s (show 0 < ns.length by omega) ns
  dsimp only [blockWindow]
  omega

theorem padBlock_eq (e : Environ) : padBlock e = (padB e : Int) := by
  rw [padBlock, padB]
  split <;> rfl

theorem padRecord_eq (e : Environ) : padRecord e = (padR e : Int) := by
  rw [padRecord, padR]
  split <;> rfl

theorem num_piece (ns : List Nat) (hne : ns ≠ []) (hi : 1 ≤ i) :
    num (piece ([comma].intercalate (ns.map dec)) comma i) = ((ns.getD (i - 1) 0 : Int) : Rat) := by
  obtain ⟨j, rfl⟩ : ∃ j, i = j + 1 := ⟨i - 1, by omega⟩
  have hmap : ns.map dec ≠ [] := fun h => hne (List.map_eq_nil_iff.mp h)
  rw [piece_fields (dec_list_plain (Or.inr rfl) ns) hmap, Nat.add_sub_cancel,
    List.getD_eq_getElem?_getD, List.getElem?_map, List.getD_eq_getElem?_getD]
  cases ns[j]? with
  | none => rfl
  | some n =>
    rw [Option.map_some, Option.getD_some, Option.getD_some, num_dec]
    rfl

theorem top_eq (std : Nat) (hk : getdef k = dec std) (h : args k = s.text) :
    top (valueOf args k) = ((s.top std : Int) : Rat) := by
  have hone (n : Nat) : top (dec n) = ((n : Int) : Rat) := by
    rw [top, pieces_plain (dec_no_sep n).1, pieces_plain (dec_no_sep n).2,
      if_neg (Nat.lt_irrefl 1), if_neg (Nat.lt_irrefl 1), num_dec]
    rfl
  rw [valueOf, h, hk]
  cases s with
  | unset => exact hone std
  | one n => exact hone n
  | range a b =>
    obtain ⟨htwo, -, hsecond, -⟩ := pieces_range a b
    rw [Spec.text, Option.getD_some, top, htwo, if_pos (by decide), hsecond, num_dec]
    rfl
  | list ns several =>
    obtain ⟨hlen, hno⟩ := pieces_list several
    rw [Spec.text, Option.getD_some, top, hno, if_neg (Nat.lt_irrefl 1), hlen, if_pos several,
      num_piece ns (List.ne_nil_of_length_pos (by omega)) (by omega)]
    rfl

theorem cast_ite {c : Prop} [Decidable c] (a b : Int) :
    (((if c then a else b : Int)) : Rat) = if c then (a : Rat) else (b : Rat) := by
  split <;> rfl

theorem cast_lt_ite (m n a b : Int) :
    (if (m : Rat) < (n : Rat) then (a : Rat) else (b : Rat)) =
      (((if m < n then a else b : Int)) : Rat) := by
  rw [cast_ite]
  exact if_congr Int.cast_lt rfl rfl

theorem room_eq (h : AsksSizes args req) :
    top (valueOf args .block_size) - padBlock e = (room e req : Int) := by
  rw [top_eq 1024 rfl h.block, padBlock_eq, room]
  push_cast
  rfl

theorem recMax_eq (h : AsksSizes args req) : recMax e args = (recordMax e req : Int) := by
  rw [recMax, room_eq h, top_eq 256 rfl h.record, recordMax, cast_ite]
  congr 1
  rw [Int.cast_lt]

theorem keyMax_eq (h : AsksSizes args req) : keyMax e args = (keyBound e req : Int) := by
  have hmax : (if e.blockspan then top (valueOf args .block_size) - padBlock e
      else recMax e args - padRecord e) =
      (((if e.blockspan then room e req else recordMax e req - padR e) : Int) : Rat) := by
    rw [room_eq h, recMax_eq h, padRecord_eq, cast_ite]
    push_cast
    rfl
  rw [keyMax, hmax, keyBound]
  generalize (if e.blockspan then room e req else recordMax e req - padR e) = m
  have hnew : (1019 : Rat) < (m : Rat) ↔ 1019 < m := by exact_mod_cast Iff.rfl
  have hold : (255 : Rat) < (m : Rat) ↔ 255 < m := by exact_mod_cast Iff.rfl
  rw [cast_ite, cast_ite]
  simp only [hnew, hold]
  rfl

theorem valueOf_list (several : 1 < ns.length) (h : args k = (Spec.list ns several).text) :
    valueOf args k = [comma].intercalate (ns.map dec) := by
  rw [valueOf, h]
  rfl

theorem lastFit_piece (several : 1 < ns.length) (m : Int) :
    lastFit (fun i => num (piece ([comma].intercalate (ns.map dec)) comma i) ≤ (m : Rat))
      ns.length = lastUpTo m ns := by
  refine lastFit_congr (fun i hi => ?_) _
  rw [num_piece ns (List.ne_nil_of_length_pos (by omega)) hi]
  exact decide_eq_decide.mpr Int.cast_le

theorem firstFit_piece (several : 1 < ns.length) (m : Int) (n : Nat) :
    firstFit (fun i => (m : Rat) < num (piece ([comma].intercalate (ns.map dec)) comma i)) 1
      (n - 1) = firstAbove m n ns := by
  refine firstFit_congr (fun i hi => ?_) (Nat.le_refl 1) _
  rw [num_piece ns (List.ne_nil_of_length_pos (by omega)) hi]
  exact decide_eq_decide.mpr Int.cast_lt

theorem randKey_settled (e : Environ) (draws : Draws) (h : AsksSizes args req) :
    ∃ args', randKey e draws args = some args' ∧
    Settled .key_size (req.key.drawn 64 (keyWindow e req) (draws.range .key_size)
      (draws.collection .key_size)) args args' := by
  unfold randKey
  dsimp only
  rw [field_settle 64 rfl h.key]
  refine settle_settled 64 rfl h.key keyWindow_open ?_ ?_
  · intro a b _
    have hb : ((b : Int) : Rat) = (b : Rat) := Int.cast_natCast b
    rw [keyMax_eq h, keyWindow, ← hb, cast_lt_ite]
    rfl
  · intro ns several heq
    rw [valueOf_list several (heq ▸ h.key), keyMax_eq h, lastFit_piece several]
    rfl

theorem randRec_settled (draws : Draws) {blkmax : Rat} (hmax : blkmax - padBlock e = (room e req : Int))
    (hrecord : args .record_size = req.record.text)
    (hkey : e.blockspan = false → ∃ t, args .key_size = some t ∧ num t = key) :
    ∃ args', randRec e draws blkmax args = some args' ∧
      Settled .record_size (req.record.drawn 256 (recordWindow e req key)
        (draws.range .record_size) (draws.collection .record_size)) args args' := by
  unfold randRec recordWindow
  dsimp only
  cases hspan : e.blockspan with
  | true =>
    simp only [if_true]
    rw [field_settle 256 rfl hrecord]
    refine settle_settled 256 rfl hrecord wholeWindow_open (fun a b _ => rfl) ?_
    intro ns several heq
    rw [valueOf_list several (heq ▸ hrecord)]
    rfl
  | false =>
    obtain ⟨t, ht, htkey⟩ := hkey hspan
    have hleast : num t + padRecord e = ((key + padR e : Int) : Rat) := by
      rw [htkey, padRecord_eq]
      push_cast
      rfl
    simp only [Bool.false_eq_true, if_false]
    rw [field_settle 256 rfl hrecord]
    refine settle_settled 256 rfl hrecord (besideWindow_open key) ?_ ?_
    · intro a b _
      have ha : ((a : Int) : Rat) = (a : Rat) := Int.cast_natCast a
      have hb : ((b : Int) : Rat) = (b : Rat) := Int.cast_natCast b
      rw [ht, Option.bind_some, hleast, hmax, ← ha, ← hb, cast_lt_ite, cast_lt_ite]
      rfl
    · intro ns several heq
      rw [valueOf_list several (heq ▸ hrecord), ht, Option.bind_some, hleast, hmax,
        lastFit_piece several, firstFit_piece several]
      rfl

def sizeField (e : Environ) : Arg := if e.blockspan then .key_size else .record_size

theorem randBlk_plain (hblock : args .block_size = req.block.text)
    (hplain : req.block.Plain) : randBlk e draws args = some args := by
  unfold randBlk
  dsimp only
  rw [field_settle 1024 rfl hblock]
  obtain h | ⟨n, h⟩ := hplain
  · rw [h, settle]
  · rw [h, settle]

theorem random_map {lo hi : Int} (h : lo ≤ hi) (r : Nat) :
    ((random r ((hi : Rat) - lo + 1)).map fun n => n + (lo : Rat)) = drawRange r lo hi := by
  have hpos : (0 : Rat) < (hi : Rat) - lo + 1 := by
    have hpos : 0 < hi - lo + 1 := by omega
    exact_mod_cast hpos
  rw [drawRange, if_pos hpos]

theorem random_map_none {lo hi : Int} (h : hi < lo) (r : Nat) :
    ((random r ((hi : Rat) - lo + 1)).map fun n => n + (lo : Rat)) = none := by
  have hsub : (hi : Rat) - lo + 1 = ((hi - lo + 1 : Int) : Rat) := by push_cast; rfl
  rw [hsub, random_none (by omega)]
  rfl

section Block

variable {t : Str} {size : Int}

theorem blockRange_eq (ht : num t = size) (a b : Nat) (r : Nat) :
    ((random r ((b : Rat) -
      (if num t + padBlock e < a then (a : Rat) else num t + padBlock e) + 1)).map fun n =>
      n + (if num t + padBlock e < a then (a : Rat) else num t + padBlock e)) =
    ((random r ((((blockWindow (size + padB e)).hi a b : Int) : Rat) -
      ((blockWindow (size + padB e)).lo a b : Int) + 1)).map
        fun n => n + (((blockWindow (size + padB e)).lo a b : Int) : Rat)) := by
  have hleast : num t + padBlock e = ((size + padB e : Int) : Rat) := by
    rw [ht, padBlock_eq]
    push_cast
    rfl
  have ha : ((a : Int) : Rat) = (a : Rat) := Int.cast_natCast a
  rw [hleast, ← ha, cast_lt_ite]
  rfl

theorem randBlk_settled (hblock : args .block_size = req.block.text)
    (ht : args (sizeField e) = some t) (hsize : num t = size)
    (hroom : req.block.Room (blockWindow (size + padB e))) :
    ∃ args', randBlk e draws args = some args' ∧
      Settled .block_size (req.block.drawn 1024 (blockWindow (size + padB e))
        (draws.range .block_size) (draws.collection .block_size)) args args' := by
  rw [sizeField] at ht
  unfold randBlk
  dsimp only
  rw [field_settle 1024 rfl hblock]
  refine settle_settled 1024 rfl hblock (blockWindow_open _) ?_ ?_
  · intro a b heq
    rw [heq] at hroom
    rw [ht, Option.bind_some, blockRange_eq hsize, random_map hroom]
  · intro ns several heq
    have hleast : num t + padBlock e = ((size + padB e : Int) : Rat) := by
      rw [hsize, padBlock_eq]
      push_cast
      rfl
    rw [valueOf_list several (heq ▸ hblock), ht, Option.bind_some, hleast, firstFit_piece several]
    rfl

theorem randBlk_none (hblock : args .block_size = req.block.text)
    (ht : args (sizeField e) = some t) (hsize : num t = size)
    (hroom : ¬ req.block.Room (blockWindow (size + padB e))) : randBlk e draws args = none := by
  rw [sizeField] at ht
  unfold randBlk
  dsimp only
  rw [field_settle 1024 rfl hblock]
  cases heq : req.block with
  | range a b =>
    rw [heq] at hroom
    have hlt : (blockWindow (size + padB e)).hi a b < (blockWindow (size + padB e)).lo a b :=
      Int.not_le.mp hroom
    rw [settle, ht, Option.bind_some, blockRange_eq hsize, random_map_none hlt]
    rfl
  | unset | one | list =>
    rw [heq] at hroom
    exact absurd trivial hroom

theorem randBlk_missing (hblock : args .block_size = req.block.text)
    (ht : args (sizeField e) = none) (hdrawn : ¬ req.block.Plain) :
    randBlk e draws args = none := by
  rw [sizeField] at ht
  unfold randBlk
  dsimp only
  rw [field_settle 1024 rfl hblock]
  cases heq : req.block with
  | unset => exact absurd (Or.inl heq) hdrawn
  | one n => exact absurd (Or.inr ⟨n, heq⟩) hdrawn
  | range a b => rw [settle, ht, Option.bind_none, Option.map_none]
  | list ns several => rw [settle, ht, Option.bind_none, Option.map_none]

end Block

theorem randREG_settled (draws : Draws) (h : args .n_regions = req.regions.text)
    (hb : req.regions.Bounded) :
    ∃ args', randREG draws args = some args' ∧ ∀ a, a ≠ .n_regions → args' a = args a := by
  unfold randREG
  dsimp only
  rw [field_settle 1 rfl h]
  refine Exists.imp (fun _ hsettle => ⟨hsettle.1, hsettle.2.others⟩)
    (settle_settled 1 rfl h wholeWindow_open (r := draws.range .n_regions)
      (c := draws.collection .n_regions) ?_ ?_)
  · intro a b heq
    rw [heq] at hb
    have hle : (a : Int) ≤ b := Int.ofNat_le.mpr hb
    exact random_map hle _
  · intro ns several heq
    rw [valueOf_list several (heq ▸ h)]
    rfl

def keyDrawn (e : Environ) (draws : Draws) (req : Request) : Int :=
  req.key.drawn 64 (keyWindow e req) (draws.range .key_size) (draws.collection .key_size)

def recordDrawn (e : Environ) (draws : Draws) (req : Request) : Int :=
  req.record.drawn 256 (recordWindow e req (keyDrawn e draws req)) (draws.range .record_size)
    (draws.collection .record_size)

def sizeDrawn (e : Environ) (draws : Draws) (req : Request) : Int :=
  if e.blockspan then keyDrawn e draws req else recordDrawn e draws req

def drawnWindow (e : Environ) (draws : Draws) (req : Request) : Window :=
  blockWindow (sizeDrawn e draws req + padB e)

def blockDrawn (e : Environ) (draws : Draws) (req : Request) : Int :=
  req.block.drawn 1024 (drawnWindow e draws req) (draws.range .block_size)
    (draws.collection .block_size)

def Readable (e : Environ) (req : Request) : Prop :=
  if e.blockspan then req.key = .unset → req.block.Plain
  else req.key ≠ .unset ∧ req.record ≠ .unset

/-- The sizes have been drawn. -/
structure Done (e : Environ) (draws : Draws) (req : Request) (args' : Args) : Prop where
  key : num (valueOf args' .key_size) = keyDrawn e draws req
  record : num (valueOf args' .record_size) = recordDrawn e draws req
  block : num (valueOf args' .block_size) = blockDrawn e draws req

theorem text_isSome : s.text.isSome = true ↔ s ≠ .unset := by
  cases s <;> simp [Spec.text]

theorem exists_text {z : Int} (hsome : (args k).isSome = true) (h : num (valueOf args k) = z) :
    ∃ t, args k = some t ∧ num t = z := by
  obtain ⟨t, ht⟩ := Option.isSome_iff_exists.mp hsome
  rw [valueOf, ht, Option.getD_some] at h
  exact ⟨t, ht, h⟩

theorem sizes_drawn (draws : Draws) (h : Asks args req) (hb : req.regions.Bounded)
    (hread : Readable e req) :
    ∃ args₁ args₂ args₃, randREG draws args = some args₁ ∧ randKey e draws args₁ = some args₂ ∧
      randRec e draws (top (valueOf args₁ .block_size)) args₂ = some args₃ ∧
      num (valueOf args₃ .key_size) = keyDrawn e draws req ∧
      num (valueOf args₃ .record_size) = recordDrawn e draws req ∧
      args₃ .block_size = req.block.text ∧ (args₃ .key_size).isSome = (args .key_size).isSome ∧
      (args₃ .record_size).isSome = (args .record_size).isSome := by
  obtain ⟨args₁, h₁, hothers⟩ := randREG_settled draws h.regions hb
  have hasks : AsksSizes args₁ req := {
    key := (hothers _ (by decide)).trans h.key
    record := (hothers _ (by decide)).trans h.record
    block := (hothers _ (by decide)).trans h.block }
  obtain ⟨args₂, h₂, hkey⟩ := randKey_settled e draws hasks
  have hrecord₂ : args₂ .record_size = req.record.text :=
    (hkey.others _ (by decide)).trans hasks.record
  have hgiven (hspan : e.blockspan = false) :
      ∃ t, args₂ .key_size = some t ∧ num t = keyDrawn e draws req := by
    refine exists_text ?_ hkey.value
    rw [Readable, if_neg (by rw [hspan]; decide)] at hread
    rw [hkey.isSome, hasks.key, text_isSome]
    exact hread.1
  obtain ⟨args₃, h₃, hrecord⟩ := randRec_settled draws (room_eq hasks) hrecord₂ hgiven
  refine ⟨args₁, args₂, args₃, h₁, h₂, h₃, ?_, hrecord.value, ?_, ?_, ?_⟩
  · rw [hrecord.valueOf_of_ne (by decide)]
    exact hkey.value
  · rw [hrecord.others _ (by decide), hkey.others _ (by decide), hasks.block]
  · rw [hrecord.others _ (by decide), hkey.isSome, hothers _ (by decide)]
  · rw [hrecord.isSome, hkey.others _ (by decide), hothers _ (by decide)]

theorem size_text (hread : Readable e req) (hplain : ¬ req.block.Plain) (h : Asks args req)
    {args₃ : Args} (hkey : num (valueOf args₃ .key_size) = keyDrawn e draws req)
    (hrecord : num (valueOf args₃ .record_size) = recordDrawn e draws req)
    (hkeySome : (args₃ .key_size).isSome = (args .key_size).isSome)
    (hrecordSome : (args₃ .record_size).isSome = (args .record_size).isSome) :
    ∃ t, args₃ (sizeField e) = some t ∧ num t = sizeDrawn e draws req := by
  rw [sizeField, sizeDrawn]
  rw [Readable] at hread
  split
  · next hspan =>
    rw [if_pos hspan] at hread
    refine exists_text ?_ hkey
    rw [hkeySome, h.key, text_isSome]
    exact fun hnone => hplain (hread hnone)
  · next hspan =>
    rw [if_neg hspan] at hread
    refine exists_text ?_ hrecord
    rw [hrecordSome, h.record, text_isSome]
    exact hread.2

theorem block_drawn (h : Asks args req) (hread : Readable e req) {args₃ : Args}
    (hkey : num (valueOf args₃ .key_size) = keyDrawn e draws req)
    (hrecord : num (valueOf args₃ .record_size) = recordDrawn e draws req)
    (hblock : args₃ .block_size = req.block.text)
    (hkeySome : (args₃ .key_size).isSome = (args .key_size).isSome)
    (hrecordSome : (args₃ .record_size).isSome = (args .record_size).isSome) :
    (req.block.Room (drawnWindow e draws req) → ∃ args₄, randBlk e draws args₃ = some args₄ ∧
      Settled .block_size (blockDrawn e draws req) args₃ args₄) ∧
    (¬ req.block.Room (drawnWindow e draws req) → randBlk e draws args₃ = none) := by
  by_cases hplain : req.block.Plain
  · refine ⟨fun _ => ⟨args₃, randBlk_plain hblock hplain, settled_plain rfl hblock hplain⟩, ?_⟩
    exact fun hroom => absurd (room_plain hplain) hroom
  · obtain ⟨t, ht, hsize⟩ := size_text hread hplain h hkey hrecord hkeySome hrecordSome
    exact ⟨randBlk_settled hblock ht hsize, randBlk_none hblock ht hsize⟩

theorem done_of {args₃ args₄ : Args}
    (hkey : num (valueOf args₃ .key_size) = keyDrawn e draws req)
    (hrecord : num (valueOf args₃ .record_size) = recordDrawn e draws req)
    (hblock : Settled .block_size (blockDrawn e draws req) args₃ args₄) :
    Done e draws req args₄ where
  key := by rw [hblock.valueOf_of_ne (by decide), hkey]
  record := by rw [hblock.valueOf_of_ne (by decide), hrecord]
  block := hblock.value

theorem failsafe_pass {z w : Int} (hkey : ∃ t, args .key_size = some t ∧ num t = z)
    (hrecord : ∃ t, args .record_size = some t ∧ num t = w) (hle : z ≤ w) :
    failsafe e args = some args := by
  obtain ⟨t, ht, htz⟩ := hkey
  obtain ⟨u, hu, huw⟩ := hrecord
  have hnot : ¬ num u < num t := by
    rw [htz, huw, not_lt]
    exact_mod_cast hle
  rw [failsafe]
  split
  · rfl
  · rw [ht, hu, Option.bind_some, Option.bind_some, if_neg hnot]

theorem randomize_done (h : Asks args req) (hb : req.regions.Bounded) (hread : Readable e req)
    (hroom : req.block.Room (drawnWindow e draws req))
    (hfit : e.blockspan = false → keyDrawn e draws req ≤ recordDrawn e draws req) :
    ∃ args', randomize e draws args = some args' ∧ Done e draws req args' := by
  obtain ⟨args₁, args₂, args₃, h₁, h₂, h₃, hkey, hrecord, hblock, hkeySome, hrecordSome⟩ :=
    sizes_drawn draws h hb hread
  obtain ⟨args₄, h₄, hsettled⟩ :=
    (block_drawn h hread hkey hrecord hblock hkeySome hrecordSome).1 hroom
  have hdone := done_of hkey hrecord hsettled
  have hsafe : failsafe e args₄ = some args₄ := by
    cases hspan : e.blockspan with
    | true => rw [failsafe, hspan, if_pos rfl]
    | false =>
      rw [Readable, if_neg (by rw [hspan]; decide)] at hread
      refine failsafe_pass (exists_text ?_ hdone.key) (exists_text ?_ hdone.record) (hfit hspan)
      · rw [hsettled.others _ (by decide), hkeySome, h.key, text_isSome]
        exact hread.1
      · rw [hsettled.others _ (by decide), hrecordSome, h.record, text_isSome]
        exact hread.2
  refine ⟨args₄, ?_, hdone⟩
  rw [randomize, h₁, Option.bind_some, h₂, Option.bind_some, h₃, Option.bind_some, h₄,
    Option.bind_some, hsafe]

theorem readable_of_some (h : Asks args req) (hsome : randomize e draws args = some args') :
    Readable e req := by
  have hgiven (a : Arg) : (args' a).isSome = (args a).isSome := randomize_isSome hsome a
  obtain ⟨args₁, h₁, hsome⟩ := Option.bind_eq_some_iff.mp hsome
  obtain ⟨args₂, h₂, hsome⟩ := Option.bind_eq_some_iff.mp hsome
  obtain ⟨args₃, h₃, hsome⟩ := Option.bind_eq_some_iff.mp hsome
  obtain ⟨args₄, h₄, hsome⟩ := Option.bind_eq_some_iff.mp hsome
  obtain rfl := failsafe_eq hsome
  rw [Readable]
  split
  · next hspan =>
    intro hnone
    by_contra hplain
    have hblock : args₃ .block_size = req.block.text := by
      rw [(drawn_randRec h₃).others _ (by decide), (drawn_randKey h₂).others _ (by decide),
        (drawn_randREG h₁).others _ (by decide), h.block]
    have hkey : args₃ (sizeField e) = none := by
      rw [sizeField, if_pos hspan, ← (drawn_randBlk h₄).others _ (by decide),
        ← Option.not_isSome_iff_eq_none, hgiven, h.key, hnone]
      decide
    rw [randBlk_missing hblock hkey hplain] at h₄
    cases h₄
  · next hspan =>
    rw [failsafe, if_neg hspan] at hsome
    obtain ⟨key_size, hkey, hsome⟩ := Option.bind_eq_some_iff.mp hsome
    obtain ⟨record_size, hrecord, -⟩ := Option.bind_eq_some_iff.mp hsome
    rw [← text_isSome, ← text_isSome, ← h.key, ← h.record, ← hgiven, ← hgiven, hkey, hrecord]
    exact ⟨rfl, rfl⟩

theorem done_of_some (h : Asks args req) (hb : req.regions.Bounded)
    (hsome : randomize e draws args = some args') :
    req.block.Room (drawnWindow e draws req) ∧ Done e draws req args' := by
  have hread := readable_of_some h hsome
  obtain ⟨args₁, args₂, args₃, h₁, h₂, h₃, hkey, hrecord, hblock, hkeySome, hrecordSome⟩ :=
    sizes_drawn draws h hb hread
  obtain ⟨hsettles, hnone⟩ := block_drawn h hread hkey hrecord hblock hkeySome hrecordSome
  rw [randomize, h₁, Option.bind_some, h₂, Option.bind_some, h₃, Option.bind_some] at hsome
  obtain ⟨args₄, h₄, hsome⟩ := Option.bind_eq_some_iff.mp hsome
  obtain rfl := failsafe_eq hsome
  have hroom : req.block.Room (drawnWindow e draws req) := by
    by_contra hroom
    rw [hnone hroom] at h₄
    cases h₄
  obtain ⟨args₅, h₅, hsettled⟩ := hsettles hroom
  obtain rfl := Option.some.inj (h₅.symm.trans h₄)
  exact ⟨hroom, done_of hkey hrecord hsettled⟩

theorem yields_iff (h : Asks args req) (hb : req.regions.Bounded) : Yields e args req ↔
    Readable e req ∧ ∀ draws, req.block.Room (drawnWindow e draws req) ∧
      req.key.Allows 64 (keyDrawn e draws req) ∧ req.record.Allows 256 (recordDrawn e draws req) ∧
      req.block.Allows 1024 (blockDrawn e draws req) ∧
      Legal e (keyDrawn e draws req) (recordDrawn e draws req) (blockDrawn e draws req) := by
  constructor
  · intro hyields
    refine ⟨?_, fun draws => ?_⟩
    · obtain ⟨args', hsome, -⟩ := hyields ⟨fun _ => 0, fun _ => 0⟩
      exact readable_of_some h hsome
    · obtain ⟨args', hsome, key, record, block, hkey, hrecord, hblock, hlegal⟩ := hyields draws
      obtain ⟨hroom, hdone⟩ := done_of_some h hb hsome
      obtain rfl : key = keyDrawn e draws req := Int.cast_injective (hkey.symm.trans hdone.key)
      obtain rfl : record = recordDrawn e draws req :=
        Int.cast_injective (hrecord.symm.trans hdone.record)
      obtain rfl : block = blockDrawn e draws req :=
        Int.cast_injective (hblock.symm.trans hdone.block)
      exact ⟨hroom, hlegal⟩
  · rintro ⟨hread, hall⟩ draws
    obtain ⟨hroom, hallows⟩ := hall draws
    obtain ⟨args', hsome, hdone⟩ := randomize_done h hb hread hroom fun hspan => by
      have := (hallows.2.2.2.2 hspan).1
      omega
    exact ⟨args', hsome, _, _, _, hdone.key, hdone.record, hdone.block, hallows⟩

/-- The condition for all draws: sizes that are read are given, the least key of a range is not
above the bound, and whatever key and record are drawn, there is nothing below the rest to draw. -/
def Fits (e : Environ) (req : Request) : Prop :=
  Readable e req ∧ (∀ a b, req.key = .range a b → (a : Int) ≤ keyBound e req) ∧
    ∀ key, req.key.CanDraw 64 (keyWindow e req) key →
      if e.blockspan then
        req.block.AtLeast 1024 (blockWindow (key + padB e)) (key + padB e)
      else
        req.record.AtLeast 256 (besideWindow e req key) (key + padR e) ∧
          ∀ record, req.record.CanDraw 256 (besideWindow e req key) record →
            req.block.AtLeast 1024 (blockWindow (record + padB e)) (record + padB e)

section Fits

variable {record block size : Int}

theorem key_allows (h : req.key.CanDraw 64 (keyWindow e req) key) : req.key.Allows 64 key :=
  h.allows (fun _ _ => Int.le_refl _) fun a b => by
    dsimp only [keyWindow]
    split <;> omega

theorem record_allows (h : req.record.CanDraw 256 (besideWindow e req key) record) :
    req.record.Allows 256 record := by
  refine h.allows (fun a b => ?_) fun a b => ?_
  · dsimp only [besideWindow]
    split <;> omega
  · dsimp only [besideWindow]
    split <;> omega

theorem block_allows (h : req.block.CanDraw 1024 (blockWindow size) block) :
    req.block.Allows 1024 block := by
  refine h.allows (fun a b => ?_) fun a b => Int.le_refl _
  dsimp only [blockWindow]
  split <;> omega

theorem besideWindow_lo (key : Int) (a b : Nat) :
    key + padR e ≤ (besideWindow e req key).lo a b := by
  dsimp only [besideWindow]
  split <;> omega

theorem blockWindow_lo (size : Int) (a b : Nat) : size ≤ (blockWindow size).lo a b := by
  dsimp only [blockWindow]
  split <;> omega

theorem key_room (hb : req.key.Bounded)
    (hkey : ∀ a b, req.key = .range a b → (a : Int) ≤ keyBound e req) :
    req.key.Room (keyWindow e req) := by
  cases hspec : req.key with
  | range a b =>
    rw [hspec] at hb
    have hle : a ≤ b := hb
    have hbound := hkey a b hspec
    dsimp only [Spec.Room, keyWindow]
    split <;> omega
  | unset | one | list => trivial

theorem spanning_legal (hspan : e.blockspan = true) (hrecord : req.record.Bounded)
    (hdraw : req.key.CanDraw 64 (keyWindow e req) (keyDrawn e draws req))
    (hfit : req.block.AtLeast 1024 (blockWindow (keyDrawn e draws req + padB e))
      (keyDrawn e draws req + padB e)) :
    req.block.Room (drawnWindow e draws req) ∧
      req.key.Allows 64 (keyDrawn e draws req) ∧ req.record.Allows 256 (recordDrawn e draws req) ∧
      req.block.Allows 1024 (blockDrawn e draws req) ∧
      Legal e (keyDrawn e draws req) (recordDrawn e draws req) (blockDrawn e draws req) := by
  have hwindow : drawnWindow e draws req = blockWindow (keyDrawn e draws req + padB e) := by
    rw [drawnWindow, sizeDrawn, if_pos hspan]
  have hwhole : req.record.Room wholeWindow := by
    cases hspec : req.record with
    | range a b =>
      rw [hspec] at hrecord
      exact Int.ofNat_le.mpr hrecord
    | unset | one | list => trivial
  have hr : req.record.CanDraw 256 wholeWindow (recordDrawn e draws req) := by
    rw [recordDrawn, recordWindow, if_pos hspan]
    exact drawn_mem wholeWindow_open hwhole _ _
  have hb : req.block.CanDraw 1024 (blockWindow (keyDrawn e draws req + padB e))
      (blockDrawn e draws req) := by
    rw [blockDrawn, hwindow]
    exact drawn_mem (blockWindow_open _) hfit.room _ _
  rw [hwindow]
  refine ⟨hfit.room, key_allows hdraw, hr.allows (fun _ _ => Int.le_refl _)
    (fun _ _ => Int.le_refl _), block_allows hb, hfit.le (fun a b => blockWindow_lo _ a b) hb, ?_⟩
  intro hno
  rw [hspan] at hno
  cases hno

theorem beside_legal (hspan : e.blockspan = false)
    (hdraw : req.key.CanDraw 64 (keyWindow e req) (keyDrawn e draws req))
    (hfit : req.record.AtLeast 256 (besideWindow e req (keyDrawn e draws req))
        (keyDrawn e draws req + padR e) ∧
      ∀ record, req.record.CanDraw 256 (besideWindow e req (keyDrawn e draws req)) record →
        req.block.AtLeast 1024 (blockWindow (record + padB e)) (record + padB e)) :
    req.block.Room (drawnWindow e draws req) ∧
      req.key.Allows 64 (keyDrawn e draws req) ∧ req.record.Allows 256 (recordDrawn e draws req) ∧
      req.block.Allows 1024 (blockDrawn e draws req) ∧
      Legal e (keyDrawn e draws req) (recordDrawn e draws req) (blockDrawn e draws req) := by
  have hno : ¬ e.blockspan = true := by
    rw [hspan]
    decide
  have hwindow : drawnWindow e draws req = blockWindow (recordDrawn e draws req + padB e) := by
    rw [drawnWindow, sizeDrawn, if_neg hno]
  have hr : req.record.CanDraw 256 (besideWindow e req (keyDrawn e draws req))
      (recordDrawn e draws req) := by
    rw [recordDrawn, recordWindow, if_neg hno]
    exact drawn_mem (besideWindow_open _) hfit.1.room _ _
  have hblock := hfit.2 _ hr
  have hb : req.block.CanDraw 1024 (blockWindow (recordDrawn e draws req + padB e))
      (blockDrawn e draws req) := by
    rw [blockDrawn, hwindow]
    exact drawn_mem (blockWindow_open _) hblock.room _ _
  rw [hwindow]
  have hkr := hfit.1.le (fun a b => besideWindow_lo _ a b) hr
  have hrb := hblock.le (fun a b => blockWindow_lo _ a b) hb
  refine ⟨hblock.room, key_allows hdraw, record_allows hr, block_allows hb, ?_, fun _ => ⟨hkr, hrb⟩⟩
  omega

theorem fits_yields (hf : Feasible e req) (hfits : Fits e req) (draws : Draws) :
    req.block.Room (drawnWindow e draws req) ∧
      req.key.Allows 64 (keyDrawn e draws req) ∧ req.record.Allows 256 (recordDrawn e draws req) ∧
      req.block.Allows 1024 (blockDrawn e draws req) ∧
      Legal e (keyDrawn e draws req) (recordDrawn e draws req) (blockDrawn e draws req) := by
  obtain ⟨-, k, r, b, hk, hr, -, -⟩ := hf
  obtain ⟨-, hkey, hall⟩ := hfits
  have hdraw : req.key.CanDraw 64 (keyWindow e req) (keyDrawn e draws req) :=
    drawn_mem keyWindow_open (key_room hk.bounded hkey) _ _
  have hfit := hall _ hdraw
  cases hspan : e.blockspan with
  | true =>
    rw [if_pos hspan] at hfit
    exact spanning_legal hspan hr.bounded hdraw hfit
  | false =>
    rw [if_neg (by rw [hspan]; decide)] at hfit
    exact beside_legal hspan hdraw hfit

def drawsOf (key record block : Nat × Nat) : Draws where
  range
    | .key_size => key.1
    | .record_size => record.1
    | _ => block.1
  collection
    | .key_size => key.2
    | .record_size => record.2
    | _ => block.2

def AllLegal (e : Environ) (req : Request) : Prop :=
  ∀ draws, req.block.Room (drawnWindow e draws req) ∧
    req.key.Allows 64 (keyDrawn e draws req) ∧ req.record.Allows 256 (recordDrawn e draws req) ∧
    req.block.Allows 1024 (blockDrawn e draws req) ∧
    Legal e (keyDrawn e draws req) (recordDrawn e draws req) (blockDrawn e draws req)

theorem block_atLeast (hall : AllLegal e req) {rk rr : Nat × Nat} {size : Int}
    (hsize : ∀ rb, sizeDrawn e (drawsOf rk rr rb) req = size)
    (hle : ∀ draws, Legal e (keyDrawn e draws req) (recordDrawn e draws req)
      (blockDrawn e draws req) → sizeDrawn e draws req + padB e ≤ blockDrawn e draws req) :
    req.block.AtLeast 1024 (blockWindow (size + padB e)) (size + padB e) := by
  refine atLeast_of ?_ fun z hz => ?_
  · have hroom := (hall (drawsOf rk rr (0, 0))).1
    rwa [drawnWindow, hsize] at hroom
  · obtain ⟨rb, cb, hb⟩ := drawn_onto (blockWindow_open _) hz
    have hlegal := hle _ (hall (drawsOf rk rr (rb, cb))).2.2.2.2
    rw [blockDrawn, drawnWindow, hsize] at hlegal
    exact hb ▸ hlegal

theorem record_atLeast (hall : AllLegal e req) (hspan : e.blockspan = false) {rk : Nat × Nat}
    (hkey : ∀ rr rb, keyDrawn e (drawsOf rk rr rb) req = key) :
    req.record.AtLeast 256 (besideWindow e req key) (key + padR e) := by
  have hdrawn (rr rb : Nat × Nat) : recordDrawn e (drawsOf rk rr rb) req =
      req.record.drawn 256 (besideWindow e req key) rr.1 rr.2 := by
    rw [recordDrawn, hkey, recordWindow, if_neg (by rw [hspan]; decide)]
    rfl
  have hlegal (rr : Nat × Nat) :
      req.record.Allows 256 (req.record.drawn 256 (besideWindow e req key) rr.1 rr.2) ∧
        key + padR e ≤ req.record.drawn 256 (besideWindow e req key) rr.1 rr.2 := by
    obtain ⟨-, -, hrecord, -, -, hfit⟩ := hall (drawsOf rk rr (0, 0))
    rw [hdrawn, hkey] at hfit
    rw [hdrawn] at hrecord
    exact ⟨hrecord, (hfit hspan).1⟩
  refine atLeast_of ?_ fun z hz => ?_
  · cases hspec : req.record with
    | range a b =>
      obtain ⟨hrecord, hle⟩ := hlegal (0, 0)
      rw [hspec] at hrecord hle
      dsimp only at hrecord hle
      have hhi : (Spec.range a b).drawn 256 (besideWindow e req key) 0 0 ≤ _ := drawn_le_hi a b 0 0
      have ha := hrecord.1
      dsimp only [Spec.Room]
      have hlo : (besideWindow e req key).lo a b =
        if (a : Int) < key + padR e then key + padR e else a := rfl
      rw [hlo]
      split <;> omega
    | unset | one | list => trivial
  · obtain ⟨rr, cr, hr⟩ := drawn_onto (besideWindow_open key) hz
    exact hr ▸ (hlegal (rr, cr)).2

theorem yields_fits (hall : AllLegal e req) (hread : Readable e req) : Fits e req := by
  refine ⟨hread, fun a b hspec => ?_, fun key hkey => ?_⟩
  · obtain ⟨-, hallows, -⟩ := hall (drawsOf (0, 0) (0, 0) (0, 0))
    rw [keyDrawn, hspec] at hallows
    have hle : (a : Int) ≤ (keyWindow e req).hi a b := Int.le_trans hallows.1 (drawn_le_hi a b _ _)
    dsimp only [keyWindow] at hle
    split at hle <;> omega
  · obtain ⟨rk, ck, hk⟩ := drawn_onto keyWindow_open hkey
    have hkd (rr rb : Nat × Nat) : keyDrawn e (drawsOf (rk, ck) rr rb) req = key := hk
    split
    · next hspan =>
      have hsize (rb : Nat × Nat) : sizeDrawn e (drawsOf (rk, ck) (0, 0) rb) req = key := by
        rw [sizeDrawn, if_pos hspan, hkd]
      refine block_atLeast hall hsize fun draws hlegal => ?_
      rw [sizeDrawn, if_pos hspan]
      exact hlegal.1
    · next hspan =>
      have hspan' : e.blockspan = false := Bool.eq_false_iff.mpr hspan
      refine ⟨record_atLeast hall hspan' hkd, fun record hrecord => ?_⟩
      obtain ⟨rr, cr, hr⟩ := drawn_onto (besideWindow_open key) hrecord
      have hsize (rb : Nat × Nat) :
          sizeDrawn e (drawsOf (rk, ck) (rr, cr) rb) req = record := by
        rw [sizeDrawn, if_neg hspan, recordDrawn, hkd, recordWindow, if_neg hspan]
        exact hr
      refine block_atLeast hall hsize fun draws hlegal => ?_
      rw [sizeDrawn, if_neg hspan]
      exact (hlegal.2 hspan').2

end Fits

/-- For a request that can be met, all draws meet it just if nothing too small can be drawn. -/
theorem randomize_legal_iff (e : Environ) (args : Args) (req : Request) (h : Asks args req)
    (hf : Feasible e req) : Yields e args req ↔ Fits e req := by
  rw [yields_iff h hf.1]
  constructor
  · rintro ⟨hread, hall⟩
    exact yields_fits hall hread
  · intro hfits
    exact ⟨hfits.1, fun draws => fits_yields hf hfits draws⟩

theorem firstFit_spec (p : Nat → Bool) (i n : Nat) :
    p (firstFit p i n) = true ∨ firstFit p i n = i + n := by
  induction n generalizing i with
  | zero => exact Or.inr rfl
  | succ n ih =>
    rw [firstFit]
    split
    · next hp => exact Or.inl hp
    · have := ih (i + 1)
      rwa [Nat.add_assoc, Nat.add_comm 1 n] at this

theorem window_ascending {m : Int} {last : Nat} (hns : ns.Pairwise (· ≤ ·)) (hpos : 0 < last)
    (hlast : last ≤ ns.length) :
    (∀ n ∈ (ns.take last).drop (firstAbove m last ns - 1), m ≤ (n : Int)) ↔
      m ≤ (ns.getD (last - 1) 0 : Int) := by
  obtain ⟨hfirst, hle⟩ := firstAbove_bounds m hpos ns
  have hmem (n : Nat) : n ∈ (ns.take last).drop (firstAbove m last ns - 1) ↔
      ∃ (i : Nat) (_ : i < ns.length), firstAbove m last ns - 1 ≤ i ∧ i < last ∧ ns[i] = n := by
    rw [List.mem_drop_iff_getElem]
    constructor
    · rintro ⟨i, hi, rfl⟩
      rw [List.length_take] at hi
      exact ⟨_, by omega, by omega, by omega, (List.getElem_take ..).symm⟩
    · rintro ⟨i, hi, hge, hlt, rfl⟩
      refine ⟨i - (firstAbove m last ns - 1), by rw [List.length_take]; omega, ?_⟩
      rw [List.getElem_take]
      congr 1
      omega
  have hlastValue : ns.getD (last - 1) 0 = ns[last - 1] := by
    rw [List.getD_eq_getElem?_getD, List.getElem?_eq_getElem (by omega), Option.getD_some]
  rw [hlastValue]
  constructor
  · intro hall
    exact hall _ ((hmem _).mpr ⟨last - 1, by omega, by omega, by omega, rfl⟩)
  · intro hm n hn
    obtain ⟨i, hi, hge, hlt, rfl⟩ := (hmem n).mp hn
    cases firstFit_spec (fun i => decide (m < (ns.getD (i - 1) 0 : Int))) 1 (last - 1) with
    | inl habove =>
      have hgreater : m < (ns.getD (firstAbove m last ns - 1) 0 : Int) := of_decide_eq_true habove
      rw [List.getD_eq_getElem?_getD, List.getElem?_eq_getElem (by omega),
        Option.getD_some] at hgreater
      have hle : ns[firstAbove m last ns - 1] ≤ ns[i] := by
        obtain heq | hlt := Nat.eq_or_lt_of_le hge
        · exact Nat.le_of_eq (by congr)
        · exact List.pairwise_iff_getElem.mp hns _ _ _ _ hlt
      omega
    | inr hnone =>
      have hend : firstAbove m last ns = last := by
        rw [firstAbove, hnone]
        omega
      obtain rfl : i = last - 1 := by omega
      exact hm

/-- `mumps 1 64-400 256,1000 512` -/
def wideKeys : Request where
  regions := .one 1
  key := .range 64 400
  record := .list [256, 1000] (by decide)
  block := .one 512

def wideArgs : Args :=
  parseargs [lit "mumps", lit "1", lit "64-400", lit "256,1000", lit "512"]

theorem wideKeys_feasible : Feasible plain wideKeys := by
  have hkey : wideKeys.key.Allows 64 (64 : Nat) := ⟨by decide, by decide⟩
  have hrecord : wideKeys.record.Allows 256 (256 : Nat) := ⟨256, by decide, rfl⟩
  have hlegal : Legal plain (64 : Nat) (256 : Nat) (512 : Nat) :=
    ⟨by decide, fun _ => ⟨by decide, by decide⟩⟩
  exact ⟨trivial, 64, 256, 512, hkey, hrecord, rfl, hlegal⟩

theorem wideKeys_asks : Asks wideArgs wideKeys where
  regions := by decide +kernel
  key := by decide +kernel
  record := by decide +kernel
  block := by decide +kernel

/-- The greatest key is drawn for a record of 472 bytes, but the record has to be 256 bytes long. -/
theorem keys_above_records :
    Feasible plain wideKeys ∧ Asks wideArgs wideKeys ∧ ¬ Yields plain wideArgs wideKeys := by
  refine ⟨wideKeys_feasible, wideKeys_asks, fun hyields => ?_⟩
  obtain ⟨hread, hall⟩ := (yields_iff wideKeys_asks trivial).mp hyields
  have hkey : wideKeys.key.CanDraw 64 (keyWindow plain wideKeys) 300 := by
    constructor <;> decide
  have hrecord := (yields_fits hall hread).2.2 300 hkey
  have hspan : ¬ plain.blockspan = true := by decide
  rw [if_neg hspan] at hrecord
  have hsmall := hrecord.1 256 (by decide)
  exact absurd hsmall (by decide)

theorem randomize_legal_iff_wideKeys : Yields plain wideArgs wideKeys ↔ Fits plain wideKeys :=
  randomize_legal_iff plain wideArgs wideKeys wideKeys_asks wideKeys_feasible

end YdbTest.DbcargsLegal
