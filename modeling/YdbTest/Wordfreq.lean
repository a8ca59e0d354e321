import YdbTest.Decimal
import YdbTest.Fields
import YdbTest.OrderWalk
import YdbTest.TreeStore

namespace YdbTest.Wordfreq

open MString Fields OrderWalk TreeStore

def newline : Nat := 10

def blank (c : Nat) : Bool := c == space

/-- `fgets` of a buffer that has place for this many bytes, and what is left of the text. -/
def fgets : Nat → Str → Str × Str
  | 0, s => ([], s)
  | _ + 1, [] => ([], [])
  | n + 1, c :: s =>
    if c = newline then ([c], s)
    else ((c :: (fgets n s).1), (fgets n s).2)

theorem fgets_append (n : Nat) (s : Str) : (fgets n s).1 ++ (fgets n s).2 = s := by
  induction n generalizing s with
  | zero => rfl
  | succ n ih =>
    cases s with
    | nil => rfl
    | cons c s =>
      rw [fgets]
      split_ifs with hc
      · rfl
      · rw [List.cons_append, ih]

theorem fgets_length {n : Nat} {s : Str} (hs : s ≠ []) :
    (fgets (n + 1) s).2.length < s.length := by
  have h := congrArg List.length (fgets_append (n + 1) s)
  obtain ⟨c, s, rfl⟩ := List.exists_cons_of_ne_nil hs
  rw [fgets] at h ⊢
  split_ifs at h ⊢ with hc
  · exact Nat.lt_succ_self _
  · simp only [List.length_append, List.length_cons] at h ⊢
    omega

/-- `char linebuff[1024]`, with place for the null character. -/
def linebuff : Nat := 1023

def pieces (s : Str) : List Str :=
  if _h : s = [] then []
  else (fgets linebuff s).1 :: pieces (fgets linebuff s).2
termination_by s.length
decreasing_by exact fgets_length _h

def tolower (c : Nat) : Nat := if 65 ≤ c ∧ c ≤ 90 then c + 32 else c

def lower (t : Str) : Str := t.map tolower

/-- `- 1 to remove trailing newline` -/
def chop (t : Str) : Str := if t.getLast? = some newline then t.dropLast else t

/-- The words of a piece: `strtok` sees it up to a null character. -/
def tokens (p : Str) : List Str :=
  ((fields blank (p.takeWhile (· ≠ 0))).map fun t => chop (lower t)).filter (· ≠ [])

/-- The order of subscripts: numbers come by value. -/
structure Collation where
  before : Str → Str → Bool
  strict : Strict before
  number : ∀ m n, before (dec m) (dec n) = decide (m < n)

/-- `words` has the counts and `index` has no values. -/
abbrev Words := Store Unit Str Nat

abbrev Index := Store Unit Str Unit

/-- `ydb_incr_s(&words, 1, &tmp1, NULL, &value)` -/
def incr (words : Words) (w : Str) : Words :=
  TreeStore.set ((), [w]) ((get words ((), [w])).getD 0 + 1) words

def count (text : Str) : Words := ((pieces text).flatMap tokens).foldl incr []

/-- The subscripts that a loop with `ydb_subscript_next_s` finds under a node. -/
def order {ν : Type} (before : Str → Str → Bool) (s : Store Unit Str ν) (subs : List Str) : List Str :=
  walk before (subscripts s ((), subs)) s.length none

def fits (w : Str) : Bool := w.length < 64

def indexed (C : Collation) (words : Words) : Index :=
  (order C.before words []).foldl
    (fun index tmp1 => TreeStore.set
      ((), [dec ((get words ((), [tmp1])).getD 0), tmp1]) () index) []

/-- What is printed, a count and a word on a line; there is nothing to say if a buffer is too
short. -/
def main (C : Collation) (text : Str) : Option (List (Str × Str)) :=
  let words := count text
  if (order C.before words []).all fits then
    let index := indexed C words
    some ((order (fun a b => C.before b a) index []).flatMap fun tmp1 =>
      (order C.before index [tmp1]).map fun tmp2 => (tmp1, tmp2))
  else none

def sep (c : Nat) : Bool := blank c || c == newline

def wordsOf (text : Str) : List Str := (fields sep text).map lower

/-- The lines for these words: each once, with its number, and in the right order. -/
structure Right (C : Collation) (ws : List Str) (lines : List (Str × Str)) : Prop where
  counted : ∀ n w, (n, w) ∈ lines ↔ w ∈ ws ∧ n = dec (ws.count w)
  ordered : lines.Pairwise fun a b =>
    ws.count b.2 < ws.count a.2 ∨ ws.count a.2 = ws.count b.2 ∧ C.before a.2 b.2 = true

/-- After this many characters of the buffer: no word goes over its end. -/
def Whole : Nat → Str → Prop
  | _, [] => True
  | n, c :: s =>
    ¬ (n + 1 = linebuff ∧ WordCut sep [c] s) ∧
      Whole (if c = newline ∨ n + 1 = linebuff then 0 else n + 1) s

variable {n : Nat} {s p r w : Str} {ws : List Str} {C : Collation}

theorem fgets_line (n : Nat) (s : Str) :
    newline ∉ (fgets n s).1 ∨ ∃ q, newline ∉ q ∧ (fgets n s).1 = q ++ [newline] := by
  induction n generalizing s with
  | zero => exact Or.inl List.not_mem_nil
  | succ n ih =>
    cases s with
    | nil => exact Or.inl List.not_mem_nil
    | cons c s =>
      rw [fgets]
      split_ifs with hc
      · exact Or.inr ⟨[], List.not_mem_nil, by rw [hc]; rfl⟩
      · have hne : newline ≠ c := fun h => hc h.symm
        obtain h | ⟨q, hq, h⟩ := ih s
        · exact Or.inl (List.not_mem_cons_of_ne_of_not_mem hne h)
        · exact Or.inr ⟨c :: q, List.not_mem_cons_of_ne_of_not_mem hne hq, by rw [h]; rfl⟩

theorem tolower_eq_newline {c : Nat} : tolower c = newline ↔ c = newline := by
  unfold tolower newline
  split_ifs <;> omega

theorem newline_lower : newline ∈ lower w ↔ newline ∈ w := by
  rw [lower, List.mem_map]
  constructor
  · rintro ⟨c, hc, h⟩
    exact tolower_eq_newline.mp h ▸ hc
  · exact fun h => ⟨newline, h, rfl⟩

theorem chop_word (hw : newline ∉ w) : chop (lower w) = lower w := by
  rw [chop, if_neg fun h => hw (newline_lower.mp (List.mem_of_getLast? h))]

theorem chop_newline (w : Str) : chop (lower (w ++ [newline])) = lower w := by
  have h : lower (w ++ [newline]) = lower w ++ [newline] := List.map_append
  rw [h, chop, if_pos List.getLast?_concat, List.dropLast_concat]

theorem lower_ne_nil (hw : w ≠ []) : lower w ≠ [] := by
  rwa [lower, ne_eq, List.map_eq_nil_iff]

/-- The words that `strtok` finds, in lower case. -/
def found (p : Str) : List Str :=
  ((fields blank p).map fun t => chop (lower t)).filter (· ≠ [])

theorem sep_eq_false {c : Nat} : sep c = false ↔ blank c = false ∧ c ≠ newline := by
  simp [sep]

theorem found_gap (s : Str) : found (space :: s) = found s := by
  rw [found, fields_blank rfl]
  rfl

theorem found_last (hne : w ≠ []) (hw : ∀ c ∈ w, sep c = false) : found w = [lower w] := by
  have hnl : newline ∉ w := fun h => (sep_eq_false.mp (hw _ h)).2 rfl
  rw [found, fields_last hne fun c hc => (sep_eq_false.mp (hw c hc)).1, List.map_singleton,
    chop_word hnl, List.filter_cons_of_pos (by simpa using lower_ne_nil hne)]
  rfl

theorem found_word (hne : w ≠ []) (hw : ∀ c ∈ w, sep c = false) (s : Str) :
    found (w ++ space :: s) = lower w :: found s := by
  have hnl : newline ∉ w := fun h => (sep_eq_false.mp (hw _ h)).2 rfl
  rw [found, fields_word hne (fun c hc => (sep_eq_false.mp (hw c hc)).1) rfl,
    List.map_cons, chop_word hnl, List.filter_cons_of_pos (by simpa using lower_ne_nil hne)]
  rfl

theorem space_of_sep {b : Nat} (hb : sep b = true) (hne : newline ≠ b) : b = space := by
  simp only [sep, blank, Bool.or_eq_true, beq_iff_eq] at hb
  exact hb.resolve_right fun h => hne h.symm

theorem found_newline (hp : newline ∉ p) :
    found p = (fields sep p).map lower ∧ found (p ++ [newline]) = (fields sep p).map lower := by
  induction p using @line_induction _ sep with
  | nil => exact ⟨rfl, rfl⟩
  | gap b l hb ih =>
    rw [List.mem_cons, not_or] at hp
    rw [space_of_sep hb hp.1, List.cons_append, found_gap, found_gap, fields_blank rfl]
    exact ih hp.2
  | last w hne hw =>
    have hblank : ∀ c ∈ w ++ [newline], blank c = false := by
      intro c hc
      obtain hc | hc := List.mem_append.mp hc
      · exact (sep_eq_false.mp (hw c hc)).1
      · rw [List.mem_singleton.mp hc]
        rfl
    rw [found_last hne hw, fields_last hne hw]
    refine ⟨rfl, ?_⟩
    rw [found, fields_last (by simp) hblank, List.map_singleton, chop_newline,
      List.filter_cons_of_pos (by simpa using lower_ne_nil hne)]
    rfl
  | word w b l hne hw hb ih =>
    rw [List.mem_append, List.mem_cons, not_or, not_or] at hp
    rw [space_of_sep hb hp.2.1, List.append_assoc, List.cons_append, found_word hne hw,
      found_word hne hw, fields_word hne hw rfl, (ih hp.2.2).1, (ih hp.2.2).2]
    exact ⟨rfl, rfl⟩

theorem tokens_piece (n : Nat) (h0 : 0 ∉ s) :
    tokens (fgets n s).1 = (fields sep (fgets n s).1).map lower := by
  have hall : ∀ c ∈ (fgets n s).1, decide (c ≠ 0) = true := by
    intro c hc
    have hmem : c ∈ s := fgets_append n s ▸ List.mem_append_left _ hc
    exact decide_eq_true fun h => h0 (h ▸ hmem)
  have hfound : tokens (fgets n s).1 = found (fgets n s).1 := by
    rw [tokens, ← List.append_nil (fgets n s).1, List.takeWhile_append_of_pos hall]
    rfl
  rw [hfound]
  obtain h | ⟨q, hq, h⟩ := fgets_line n s
  · exact (found_newline h).1
  · have hlast : ¬ WordCut sep q [newline] := fun hj => by
      obtain ⟨c, l, hc, hb⟩ := hj.right
      rw [← (List.cons.inj hc).1] at hb
      exact nomatch hb
    rw [h, (found_newline hq).2, (fields_append q [newline]).1 hlast]
    exact congrArg _ (List.append_nil _).symm

theorem whole_fgets {m : Nat} (hm : n + (m + 1) = linebuff) (s : Str) :
    Whole n s ↔ ¬ WordCut sep (fgets (m + 1) s).1 (fgets (m + 1) s).2 ∧
      Whole 0 (fgets (m + 1) s).2 := by
  have hnil : ∀ s, ¬ WordCut sep [] s := fun s ⟨⟨c, hc, _⟩, _⟩ => nomatch hc
  induction m generalizing n s with
  | zero =>
    cases s with
    | nil => exact iff_of_true trivial ⟨hnil [], trivial⟩
    | cons c s =>
      have hfull : n + 1 = linebuff := hm
      have hone : fgets 1 (c :: s) = ([c], s) := by
        rw [fgets]
        split_ifs <;> rfl
      rw [hone, Whole, if_pos (Or.inr hfull), and_iff_right hfull]
  | succ m ih =>
    cases s with
    | nil => exact iff_of_true trivial ⟨hnil [], trivial⟩
    | cons c s =>
      have hpart : ¬ n + 1 = linebuff := by omega
      rw [fgets, Whole]
      by_cases hc : c = newline
      · have hend : ¬ WordCut sep [c] s := fun h => by
          obtain ⟨⟨d, hd, hb⟩, _⟩ := h
          rw [← Option.some.inj hd, hc] at hb
          exact nomatch hb
        rw [if_pos hc, if_pos (Or.inl hc)]
        exact ⟨fun h => ⟨hend, h.2⟩, fun h => ⟨fun hj => hend hj.2, h.2⟩⟩
      · have hlast : WordCut sep (c :: (fgets (m + 1) s).1) (fgets (m + 1) s).2 ↔
            WordCut sep (fgets (m + 1) s).1 (fgets (m + 1) s).2 := by
          cases s with
          | nil =>
            refine iff_of_false (fun h => ?_) (hnil [])
            obtain ⟨d, l, hd, _⟩ := h.right
            exact nomatch hd
          | cons d s =>
            rw [fgets]
            split_ifs <;> simp [WordCut]
        have hrest := ih (n := n + 1) (by omega) s
        rw [if_neg hc, if_neg (not_or.mpr ⟨hc, hpart⟩), hlast]
        exact ⟨fun h => hrest.mp h.2, fun h => ⟨fun hj => hpart hj.1, hrest.mpr h⟩⟩

theorem pieces_words (h0 : 0 ∉ s) :
    (Whole 0 s → (pieces s).flatMap tokens = wordsOf s) ∧
      (¬ Whole 0 s → (wordsOf s).length < ((pieces s).flatMap tokens).length) := by
  induction s using pieces.induct with
  | case1 => 
    rw [pieces, dif_pos rfl]
    exact ⟨fun _ => rfl, fun h => absurd trivial h⟩
  | case2 s hs ih =>
    have hmem : 0 ∉ (fgets linebuff s).2 := fun h =>
      h0 (fgets_append linebuff s ▸ List.mem_append_right _ h)
    obtain ⟨hwhole, hcut⟩ := ih hmem
    obtain ⟨happ, hjoin⟩ := @fields_append _ sep (fgets linebuff s).1 (fgets linebuff s).2
    have hiff := whole_fgets (n := 0) (m := 1022) rfl s
    have htext : fgets (1022 + 1) s = fgets linebuff s := rfl
    rw [pieces, dif_neg hs, List.flatMap_cons, tokens_piece linebuff h0, hiff, htext]
    rw [fgets_append] at happ hjoin
    have hmore : (wordsOf (fgets linebuff s).2).length ≤
        ((pieces (fgets linebuff s).2).flatMap tokens).length := by
      by_cases h : Whole 0 (fgets linebuff s).2
      · rw [hwhole h]
      · exact (hcut h).le
    constructor
    · rintro ⟨hnot, hrest⟩
      rw [hwhole hrest, wordsOf, wordsOf, happ hnot, List.map_append]
    · intro h
      rw [not_and_or, not_not] at h
      simp only [wordsOf, List.length_append, List.length_map] at hmore hcut ⊢
      by_cases hj : WordCut sep (fgets linebuff s).1 (fgets linebuff s).2
      · have := hjoin hj
        omega
      · have := hcut (h.resolve_left hj)
        rw [happ hj, List.length_append]
        omega

theorem get_count (ts : List Str) (w : Str) :
    get (ts.foldl incr []) ((), [w]) = if w ∈ ts then some (ts.count w) else none := by
  induction ts using List.reverseRecOn with
  | nil => rfl
  | append_singleton ts t ih =>
    rw [List.foldl_append, List.foldl_cons, List.foldl_nil, incr, get_set]
    by_cases ht : t = w
    · subst ht
      have hmem : t ∈ ts ++ [t] := by simp
      rw [if_pos rfl, ih, if_pos hmem, List.count_append, List.count_singleton_self]
      split_ifs with hold
      · rfl
      · rw [List.count_eq_zero_of_not_mem hold]
        rfl
    · have hne : ((), [t]) ≠ ((), [w]) := fun h => ht (by simpa using h)
      have hmem : w ∈ ts ++ [t] ↔ w ∈ ts := by simp [Ne.symm ht]
      rw [if_neg hne, ih, List.count_append, List.count_singleton, beq_false_of_ne ht]
      simp only [hmem]
      rfl

theorem get_count_other (ts : List Str) {subs : List Str} (h : ∀ w, subs ≠ [w]) :
    get (ts.foldl incr []) ((), subs) = none := by
  induction ts using List.reverseRecOn with
  | nil => rfl
  | append_singleton ts t ih =>
    rw [List.foldl_append, List.foldl_cons, List.foldl_nil, incr, get_set, if_neg, ih]
    exact fun he => h t (congrArg Prod.snd he).symm

theorem get_index (f : Str → Str) (ks subs : List Str) :
    get (ks.foldl (fun index k => TreeStore.set ((), [f k, k]) () index) ([] : Index)) ((), subs) =
      some () ↔ ∃ k ∈ ks, subs = [f k, k] := by
  induction ks using List.reverseRecOn with
  | nil => simp [get_nil]
  | append_singleton ks k ih =>
    rw [List.foldl_append, List.foldl_cons, List.foldl_nil, get_set]
    split_ifs with h
    · refine iff_of_true rfl ⟨k, by simp, (congrArg Prod.snd h).symm⟩
    · rw [ih]
      simp only [List.mem_append, List.mem_singleton]
      constructor
      · rintro ⟨a, ha, hs⟩
        exact ⟨a, Or.inl ha, hs⟩
      · rintro ⟨a, ha | rfl, hs⟩
        · exact ⟨a, ha, hs⟩
        · exact absurd (by rw [hs]) h

theorem mem_order {ν : Type} {before : Str → Str → Bool} (hb : Strict before)
    (st : Store Unit Str ν) (subs : List Str) (k : Str) :
    k ∈ order before st subs ↔ ∃ rest v, get st ((), subs ++ k :: rest) = some v := by
  have hlen : (subscripts st ((), subs)).length ≤ st.length := List.length_filterMap_le _ _
  rw [order, mem_walk_all hb hlen, mem_subscripts]

theorem mem_order_count (hb : Strict C.before) (ts : List Str) (w : Str) :
    w ∈ order C.before (ts.foldl incr []) [] ↔ w ∈ ts := by
  rw [mem_order hb]
  constructor
  · rintro ⟨rest, v, hv⟩
    cases rest with
    | nil =>
      rw [List.nil_append, get_count] at hv
      split_ifs at hv with hw
      exact hw
    | cons a rest =>
      rw [get_count_other ts (fun w h => by simp at h)] at hv
      exact nomatch hv
  · exact fun hw => ⟨[], ts.count w, by rw [List.nil_append, get_count, if_pos hw]⟩

theorem get_indexed (ts subs : List Str) :
    get (indexed C (ts.foldl incr [])) ((), subs) = some () ↔
      ∃ w ∈ ts, subs = [dec (ts.count w), w] := by
  rw [indexed, get_index]
  constructor
  · rintro ⟨w, hw, hs⟩
    rw [mem_order_count C.strict] at hw
    rw [get_count, if_pos hw] at hs
    exact ⟨w, hw, hs⟩
  · rintro ⟨w, hw, hs⟩
    refine ⟨w, (mem_order_count C.strict ts w).mpr hw, ?_⟩
    rw [get_count, if_pos hw]
    exact hs

/-- What is printed of the index of some words. -/
def lines (C : Collation) (ts : List Str) : List (Str × Str) :=
  (order (fun a b => C.before b a) (indexed C (ts.foldl incr [])) []).flatMap fun tmp1 =>
    (order C.before (indexed C (ts.foldl incr [])) [tmp1]).map fun tmp2 => (tmp1, tmp2)

theorem mem_counts (ts : List Str) (n : Str) :
    n ∈ order (fun a b => C.before b a) (indexed C (ts.foldl incr [])) [] ↔
      ∃ w ∈ ts, n = dec (ts.count w) := by
  rw [mem_order C.strict.flip]
  constructor
  · rintro ⟨rest, v, hv⟩
    obtain ⟨w, hw, hs⟩ := (get_indexed ts _).mp hv
    exact ⟨w, hw, (List.cons.inj hs).1⟩
  · rintro ⟨w, hw, rfl⟩
    exact ⟨[w], (), (get_indexed ts _).mpr ⟨w, hw, rfl⟩⟩

theorem mem_same_count (ts : List Str) (n w : Str) :
    w ∈ order C.before (indexed C (ts.foldl incr [])) [n] ↔ w ∈ ts ∧ n = dec (ts.count w) := by
  rw [mem_order C.strict]
  constructor
  · rintro ⟨rest, v, hv⟩
    obtain ⟨a, ha, hs⟩ := (get_indexed ts _).mp hv
    simp only [List.cons_append, List.nil_append, List.cons.injEq] at hs
    obtain ⟨rfl, rfl, _⟩ := hs
    exact ⟨ha, rfl⟩
  · rintro ⟨hw, rfl⟩
    exact ⟨[], (), (get_indexed ts _).mpr ⟨w, hw, rfl⟩⟩

theorem lines_right (C : Collation) (ts : List Str) : Right C ts (lines C ts) := by
  constructor
  · intro n w
    simp only [lines, List.mem_flatMap, List.mem_map, mem_counts, mem_same_count, Prod.mk.injEq]
    constructor
    · rintro ⟨_, _, _, hw, rfl, rfl⟩
      exact hw
    · rintro ⟨hw, rfl⟩
      exact ⟨_, ⟨w, hw, rfl⟩, w, ⟨hw, rfl⟩, rfl, rfl⟩
  · rw [lines, List.pairwise_flatMap]
    constructor
    · intro n _
      rw [List.pairwise_map]
      refine List.Pairwise.imp_of_mem ?_ (walk_pairwise C.strict)
      intro a b ha hb hab
      have hcount := ((mem_same_count ts n a).mp ha).2.symm.trans ((mem_same_count ts n b).mp hb).2
      exact Or.inr ⟨Decimal.dec_injective hcount, hab⟩
    · refine List.Pairwise.imp_of_mem ?_ (walk_pairwise C.strict.flip)
      intro m n hm hn hmn x hx y hy
      obtain ⟨a, ha, rfl⟩ := List.mem_map.mp hx
      obtain ⟨b, hb, rfl⟩ := List.mem_map.mp hy
      rw [mem_same_count] at ha hb
      rw [ha.2, hb.2, C.number, decide_eq_true_eq] at hmn
      exact Or.inl hmn

theorem right_length {ts : List Str} {out : List (Str × Str)} (ht : Right C ts out)
    (hw : Right C ws out) : ts.length = ws.length := by
  refine (List.perm_iff_count.mpr fun w => ?_).length_eq
  by_cases hmem : w ∈ ts
  · have hline := (hw.counted _ w).mp ((ht.counted _ w).mpr ⟨hmem, rfl⟩)
    exact Decimal.dec_injective hline.2
  · have hnot : w ∉ ws := fun h =>
      hmem ((ht.counted _ w).mp ((hw.counted _ w).mpr ⟨h, rfl⟩)).1
    rw [List.count_eq_zero_of_not_mem hmem, List.count_eq_zero_of_not_mem hnot]

theorem main_eq (C : Collation) (text : Str) :
    main C text = if ∀ w ∈ (pieces text).flatMap tokens, w.length < 64 then
      some (lines C ((pieces text).flatMap tokens)) else none := by
  have hall : (order C.before (count text) []).all fits = true ↔
      ∀ w ∈ (pieces text).flatMap tokens, w.length < 64 := by
    rw [List.all_eq_true]
    simp only [count, mem_order_count C.strict, fits, decide_eq_true_eq]
  simp only [main, hall]
  rfl

theorem main_wrong (C : Collation) (h0 : 0 ∉ s) (h : ¬ Whole 0 s) :
    ¬ ∃ out, main C s = some out ∧ Right C (wordsOf s) out := by
  rintro ⟨out, hout, hright⟩
  have hlt := (pieces_words h0).2 h
  rw [main_eq] at hout
  split_ifs at hout with hfits
  have hsame := right_length (Option.some.inj hout ▸ lines_right C _) hright
  omega

/-- Words of at most 63 bytes are counted exactly if none of them goes over a place of its line that
is a multiple of 1023 bytes away from the beginning. -/
theorem main_iff (C : Collation) (text : Str) (h0 : 0 ∉ text)
    (hword : ∀ w ∈ wordsOf text, w.length ≤ 63) :
    (∃ out, main C text = some out ∧ Right C (wordsOf text) out) ↔ Whole 0 text := by
  constructor
  · intro h
    by_contra hnot
    exact main_wrong C h0 hnot h
  · intro h
    rw [main_eq, (pieces_words h0).1 h, if_pos fun w hw => Nat.lt_succ_of_le (hword w hw)]
    exact ⟨_, rfl, lines_right C _⟩

def numberFirst (a b : Str) : Bool :=
  if dec (toNat a) = a then (if dec (toNat b) = b then toNat a < toNat b else true)
  else dec (toNat b) ≠ b && decide (a < b)

theorem numberFirst_iff (a b : Str) : numberFirst a b = true ↔
    (dec (toNat a) = a ∧ (dec (toNat b) = b → toNat a < toNat b)) ∨
      (dec (toNat a) ≠ a ∧ dec (toNat b) ≠ b ∧ a < b) := by
  rw [numberFirst]
  split_ifs with ha hb
  · simp [ha, hb]
  · simp [ha, hb]
  · simp [ha]

def numbersFirst : Collation where
  before := numberFirst
  strict := by
    refine ⟨fun a => ?_, fun a b c hab hbc => ?_, fun a b hne => ?_⟩
    · rw [← Bool.not_eq_true, numberFirst_iff]
      rintro (⟨ha, h⟩ | ⟨_, _, h⟩)
      · exact lt_irrefl _ (h ha)
      · exact lt_irrefl _ h
    · rw [numberFirst_iff] at hab hbc ⊢
      rcases hab with ⟨ha, hlt⟩ | ⟨ha, hb, hlt⟩
      · refine Or.inl ⟨ha, fun hc => ?_⟩
        rcases hbc with ⟨hb, hlt'⟩ | ⟨_, hc', _⟩
        · exact (hlt hb).trans (hlt' hc)
        · exact absurd hc hc'
      · rcases hbc with ⟨hb', _⟩ | ⟨_, hc, hlt'⟩
        · exact absurd hb' hb
        · exact Or.inr ⟨ha, hc, hlt.trans hlt'⟩
    · rw [numberFirst_iff, numberFirst_iff]
      by_cases ha : dec (toNat a) = a <;> by_cases hb : dec (toNat b) = b
      · have hval : toNat a ≠ toNat b := fun h => hne (by rw [← ha, h, hb])
        obtain h | h := lt_or_gt_of_ne hval
        · exact Or.inl (Or.inl ⟨ha, fun _ => h⟩)
        · exact Or.inr (Or.inl ⟨hb, fun _ => h⟩)
      · exact Or.inl (Or.inl ⟨ha, fun h => absurd h hb⟩)
      · exact Or.inr (Or.inl ⟨hb, fun h => absurd h ha⟩)
      · obtain h | h := lt_or_gt_of_ne hne
        · exact Or.inl (Or.inr ⟨ha, hb, h⟩)
        · exact Or.inr (Or.inr ⟨hb, ha, h⟩)
  number m n := by
    rw [Bool.eq_iff_iff, numberFirst_iff, Decimal.toNat_dec, Decimal.toNat_dec]
    simp

theorem main_iff_line : (∃ out, main numbersFirst (lit "A b a\n") = some out ∧
    Right numbersFirst (wordsOf (lit "A b a\n")) out) ↔ Whole 0 (lit "A b a\n") :=
  main_iff numbersFirst (lit "A b a\n") (by decide) (by decide)

theorem whole_spaces {k : Nat} (hk : n + k < linebuff) (s : Str) :
    Whole n (List.replicate k space ++ s) ↔ Whole (n + k) s := by
  induction k generalizing n with
  | zero => rfl
  | succ k ih =>
    have hpart : ¬ n + 1 = linebuff := by omega
    have hline : ¬ (space = newline ∨ n + 1 = linebuff) := not_or.mpr ⟨by decide, hpart⟩
    have hrest : n + 1 + k = n + (k + 1) := by omega
    rw [List.replicate_succ, List.cons_append, Whole, if_neg hline, ih (by omega), hrest]
    exact and_iff_right fun h => hpart h.1

/-- The word begins in the last byte of the buffer. -/
def longLine : Str := List.replicate 1022 space ++ lit "ab"

theorem longLine_wrong : (0 ∉ longLine ∧ ∀ w ∈ wordsOf longLine, w.length ≤ 63) ∧
    ¬ ∃ out, main numbersFirst longLine = some out ∧
      Right numbersFirst (wordsOf longLine) out := by
  have h0 : 0 ∉ longLine := by
    rw [longLine, List.mem_append, List.mem_replicate]
    decide
  have hwords : wordsOf longLine = [lit "ab"] := by
    rw [wordsOf, longLine, fields_replicate rfl, fields_last (by decide) (by decide)]
    rfl
  have hcut : WordCut sep [97] [98] := ⟨⟨97, rfl, rfl⟩, 98, rfl, rfl⟩
  have hwhole : ¬ Whole 0 longLine := by
    rw [longLine, whole_spaces (by decide)]
    exact fun h => h.1 ⟨rfl, hcut⟩
  refine ⟨⟨h0, ?_⟩, main_wrong numbersFirst h0 hwhole⟩
  rw [hwords]
  decide

end YdbTest.Wordfreq
