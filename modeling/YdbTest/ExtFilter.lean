import YdbTest.Delimiter
import YdbTest.MString

namespace YdbTest.ExtFilter

open MString Delimiter

def zlength (s d : Str) : Nat := (split d s).length

def zpiece (s d : Str) (i j : Nat) : Str := d.intercalate (((split d s).take j).drop (i - 1))

def SET : Str := lit "05"

def backslash : Str := [92]

def equals : Str := [61]

/-- `="` occurs just before the value part of the SET. -/
def delim : Str := [61, 34]

/-- `$translate($justify(" ",spaces)," ","-")`; a number of spaces below one gives one. -/
def middle (utf8 : Bool) (spaces : Int) : Str :=
  translate (justify utf8 [space] spaces.toNat) space 45

/-- What `extfilterinflate` writes for a record. -/
def extfilterinflate (utf8 : Bool) (spaces : Int) (extrRec : Str) : Str :=
  let rectype := zpiece extrRec backslash 1 1
  if rectype ≠ SET then extrRec
  else if zlength extrRec delim ≠ 2 then extrRec
  else if zlength extrRec equals ≠ 2 then extrRec
  else
    let piece1 := zpiece extrRec delim 1 1
    let piece2 := zpiece extrRec delim 2 100
    piece1 ++ delim ++ middle utf8 spaces ++ piece2

/-- What `extfilterdeflate` writes for a record. -/
def extfilterdeflate (utf8 : Bool) (spaces : Int) (extrRec : Str) : Str :=
  let rectype := zpiece extrRec backslash 1 1
  if rectype ≠ SET then extrRec
  else if zlength extrRec delim ≠ 2 then extrRec
  else if zlength extrRec equals ≠ 2 then extrRec
  else
    let piece1 := zpiece extrRec (delim ++ middle utf8 spaces) 1 1
    if piece1 = extrRec then extrRec
    else
      let piece2 := zpiece extrRec (delim ++ middle utf8 spaces) 2 100
      piece1 ++ delim ++ piece2

structure Devices where
  principal : List Str
  log : List Str

/-- The loop of both filters: a record is read, and what becomes of it is written to both. -/
def loop (write : Str → Str) : Devices → List Str → Devices
  | devices, [] => devices
  | devices, extrRec :: input =>
    let filtrOut := write extrRec
    loop write ⟨devices.principal ++ [filtrOut], devices.log ++ [filtrOut]⟩ input

def filter (write : Str → Str) (input : List Str) : Devices := loop write ⟨[], []⟩ input

theorem loop_eq (write : Str → Str) (devices : Devices) (input : List Str) :
    loop write devices input =
      ⟨devices.principal ++ input.map write, devices.log ++ input.map write⟩ := by
  induction input generalizing devices with
  | nil => simp [loop]
  | cons extrRec input ih => rw [loop, ih]; simp

theorem filter_eq (write : Str → Str) (input : List Str) :
    filter write input = ⟨input.map write, input.map write⟩ :=
  loop_eq write ⟨[], []⟩ input

theorem middle_eq (utf8 : Bool) (spaces : Int) :
    middle utf8 spaces = List.replicate (spaces.toNat - 1 + 1) 45 := by
  have hlen : length utf8 [space] = 1 := by cases utf8 <;> rfl
  rw [middle, justify, hlen, MString.translate, List.map_append, List.map_replicate,
    List.replicate_succ']
  rfl

theorem notMem_middle (utf8 : Bool) (spaces : Int) {c : Nat} (hc : c ≠ 45) :
    c ∉ middle utf8 spaces := by
  rw [middle_eq]
  exact fun h => hc (List.eq_of_mem_replicate h)

variable {p q s : Str} {r : Str}

theorem zpiece_first (hp : 61 ∉ p) (hq : 61 ∉ q) :
    zpiece (p ++ (61 :: r ++ q)) (61 :: r) 1 1 = p := by
  rw [zpiece, split_once hp hq]
  exact List.intercalate_singleton

theorem zpiece_rest (hp : 61 ∉ p) (hq : 61 ∉ q) :
    zpiece (p ++ (61 :: r ++ q)) (61 :: r) 2 100 = q := by
  rw [zpiece, split_once hp hq]
  exact List.intercalate_singleton

/-- A record whose value is found: the only `=` is followed by a quote. -/
structure Inflatable (s p q : Str) : Prop where
  eq : s = p ++ (delim ++ q)
  left : 61 ∉ p
  right : 61 ∉ q

theorem inflatable_iff : zlength s delim = 2 ∧ zlength s equals = 2 ↔ ∃ p q, Inflatable s p q := by
  constructor
  · rintro ⟨hd, he⟩
    obtain ⟨p, t, rfl, hp, ht⟩ := eq_of_length_two he
    by_cases h : [34] <+: t
    · obtain ⟨q, rfl⟩ := h
      exact ⟨p, q, rfl, hp, fun hq => ht (List.mem_append_right _ hq)⟩
    · rw [zlength, delim, split_apart hp ht h] at hd
      cases hd
  · rintro ⟨p, q, rfl, hp, hq⟩
    have hq' : 61 ∉ 34 :: q := by
      rw [List.mem_cons, not_or]
      exact ⟨by decide, hq⟩
    rw [zlength, zlength, delim, split_once hp hq]
    exact ⟨rfl, congrArg List.length (split_once (r := []) hp hq')⟩

theorem rectype_eq_SET : zpiece (p ++ (delim ++ q)) backslash 1 1 = SET ↔
    ∃ v, p = SET ++ 92 :: v := by
  have hfirst (u w : Str) (hu : 92 ∉ u) : zpiece (u ++ 92 :: w) backslash 1 1 = u := by
    have hs : split backslash (u ++ 92 :: w) = u :: split backslash w := split_first hu w
    rw [zpiece, hs]
    exact List.intercalate_singleton
  constructor
  · intro h
    by_cases hp : 92 ∈ p
    · obtain ⟨u, v, rfl, hu⟩ := List.eq_append_cons_of_mem hp
      rw [List.append_assoc, List.cons_append, hfirst u _ hu] at h
      exact ⟨v, by rw [h]⟩
    · have hpd : 92 ∉ p ++ delim := by
        rw [List.mem_append, not_or]
        exact ⟨hp, by decide⟩
      obtain ⟨w, ws, hw⟩ := List.exists_cons_of_ne_nil (split_ne_nil backslash q)
      have hs : split backslash (p ++ (delim ++ q)) = (p ++ delim ++ w) :: ws := by
        rw [← List.append_assoc, backslash, split_append_of_notMem hpd, ← backslash, hw,
          foldr_consHead]
      have heq : p ++ delim ++ w = SET := by
        rw [← h, zpiece, hs]
        exact List.intercalate_singleton.symm
      have hmem : 61 ∈ p ++ delim ++ w := by simp [delim]
      rw [heq] at hmem
      exact absurd hmem (by decide)
  · rintro ⟨v, rfl⟩
    rw [List.append_assoc, List.cons_append]
    exact hfirst SET _ (by decide)

variable {utf8 : Bool} {spaces : Int}

theorem inflate_inflatable (h : Inflatable s p q) (hset : zpiece s backslash 1 1 = SET) :
    extfilterinflate utf8 spaces s = p ++ (delim ++ (middle utf8 spaces ++ q)) := by
  obtain ⟨hd, he⟩ := inflatable_iff.mpr ⟨p, q, h⟩
  obtain ⟨rfl, hp, hq⟩ := h
  have hq' : 61 ∉ 34 :: q := by
    rw [List.mem_cons, not_or]
    exact ⟨by decide, hq⟩
  have h1 : zpiece (p ++ (delim ++ q)) delim 1 1 = p := zpiece_first hp hq
  have h2 : zpiece (p ++ (delim ++ q)) delim 2 100 = q := zpiece_rest hp hq
  rw [extfilterinflate, if_neg (not_not.mpr hset), if_neg (not_not.mpr hd),
    if_neg (not_not.mpr he), h1, h2]
  simp only [List.append_assoc]

theorem deflate_inflated (hp : 61 ∉ p) (hq : 61 ∉ q)
    (hset : zpiece (p ++ (delim ++ (middle utf8 spaces ++ q))) backslash 1 1 = SET) :
    extfilterdeflate utf8 spaces (p ++ (delim ++ (middle utf8 spaces ++ q))) =
      p ++ (delim ++ q) := by
  have hm : 61 ∉ middle utf8 spaces ++ q := by
    rw [List.mem_append, not_or]
    exact ⟨notMem_middle utf8 spaces (by decide), hq⟩
  obtain ⟨hd, he⟩ := inflatable_iff.mpr ⟨p, middle utf8 spaces ++ q, rfl, hp, hm⟩
  have hcut : p ++ (delim ++ (middle utf8 spaces ++ q)) =
      p ++ (61 :: (34 :: middle utf8 spaces) ++ q) := by simp [delim]
  have h1 : zpiece (p ++ (delim ++ (middle utf8 spaces ++ q))) (delim ++ middle utf8 spaces) 1 1 =
      p := by
    rw [hcut]
    exact zpiece_first hp hq
  have h2 : zpiece (p ++ (delim ++ (middle utf8 spaces ++ q))) (delim ++ middle utf8 spaces) 2 100 =
      q := by
    rw [hcut]
    exact zpiece_rest hp hq
  have hne : p ≠ p ++ (delim ++ (middle utf8 spaces ++ q)) := by
    intro h
    have hlen := congrArg List.length h
    simp [delim] at hlen
  rw [extfilterdeflate, if_neg (not_not.mpr hset), if_neg (not_not.mpr hd),
    if_neg (not_not.mpr he), h1, if_neg hne, h2, List.append_assoc]

theorem deflate_inflate (utf8 : Bool) (spaces : Int) (extrRec : Str) :
    extfilterdeflate utf8 spaces (extfilterinflate utf8 spaces extrRec) = extrRec := by
  by_cases hset : zpiece extrRec backslash 1 1 = SET
  · by_cases h : zlength extrRec delim = 2 ∧ zlength extrRec equals = 2
    · obtain ⟨p, q, hinf⟩ := inflatable_iff.mp h
      rw [inflate_inflatable hinf hset]
      obtain ⟨rfl, hp, hq⟩ := hinf
      obtain hv := rectype_eq_SET.mp hset
      exact deflate_inflated hp hq (rectype_eq_SET.mpr hv)
    · have hkeep : extfilterinflate utf8 spaces extrRec = extrRec := by
        rw [extfilterinflate]
        split_ifs with _ hd he <;> first | rfl | exact absurd ⟨not_not.mp hd, not_not.mp he⟩ h
      rw [hkeep, extfilterdeflate]
      split_ifs with _ hd he <;> first | rfl | exact absurd ⟨not_not.mp hd, not_not.mp he⟩ h
  · rw [extfilterinflate, if_pos hset, extfilterdeflate, if_pos hset]

/-- Each record comes back, and the records of a stream come back one for one and in order. -/
theorem extfilter_identity (utf8 : Bool) (spaces : Int) (input : List Str) :
    (filter (extfilterdeflate utf8 spaces)
      (filter (extfilterinflate utf8 spaces) input).principal).principal = input := by
  have hid : extfilterdeflate utf8 spaces ∘ extfilterinflate utf8 spaces = id :=
    funext (deflate_inflate utf8 spaces)
  rw [filter_eq, filter_eq, List.map_map, hid, List.map_id]

end YdbTest.ExtFilter
