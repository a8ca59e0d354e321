import YdbTest.Dbcargs
import YdbTest.Decimal
import YdbTest.Pieces
import YdbTest.Separated

namespace YdbTest.DbcargsSpec

open MString Decimal Pieces Separated Dbcargs

inductive Spec where
  | unset
  | one (n : Nat)
  | range (least greatest : Nat)
  | list (ns : List Nat) (several : 1 < ns.length)

def Spec.text : Spec → Option Str
  | .unset => none
  | .one n => some (dec n)
  | .range a b => some (dec a ++ hyphen :: dec b)
  | .list ns _ => some ([comma].intercalate (ns.map dec))

/-- What is asked for, where `std` is the default. -/
def Spec.Allows (std : Nat) : Spec → Int → Prop
  | .unset, z => z = std
  | .one n, z => z = n
  | .range a b, z => a ≤ z ∧ z ≤ b
  | .list ns _, z => ∃ n ∈ ns, z = n

def Spec.Plain (s : Spec) : Prop := s = .unset ∨ ∃ n, s = .one n

def Spec.Bounded : Spec → Prop
  | .range a b => a ≤ b
  | _ => True

/-- The greatest value of a range, and the last one of a list. -/
def Spec.top (std : Nat) : Spec → Nat
  | .unset => std
  | .one n => n
  | .range _ b => b
  | .list ns _ => ns.getD (ns.length - 1) 0

variable {a b n : Nat} {ns : List Nat} {z : Int} {c : Nat}

theorem dec_no_sep (n : Nat) : hyphen ∉ dec n ∧ comma ∉ dec n := by
  refine ⟨fun h => ?_, fun h => ?_⟩
  · have := (dec_digit h).1
    exact absurd this (by decide)
  · have := (dec_digit h).1
    exact absurd this (by decide)

theorem num_digits {t : Str} (h : ∃ c s, t = c :: s ∧ (c = 46 ∨ 48 ≤ c ∧ c ≤ 57)) :
    num t = ofDecimal (readNumber false 0 0 t) := by
  obtain ⟨c, s, rfl, hc⟩ := h
  have hhyphen : c ≠ hyphen := by
    rintro rfl
    revert hc
    decide
  have hplus : c ≠ 43 := by
    rintro rfl
    revert hc
    decide
  rw [num, if_neg hhyphen, if_neg hplus]

theorem num_dec (n : Nat) : num (dec n) = n := by
  have hhead := decimal_head n 0
  rw [← dec_eq_decimal] at hhead
  rw [num_digits hhead, readNumber_dec, ofDecimal]
  simp

theorem decimal_whole (n : Nat) : decimal (n * 10 ^ 18) 18 = dec n := by
  have hnil : fracDigits 18 (n * 10 ^ 18) = [] := by
    rw [fracDigits, lastDigits_mul_pow]
    rfl
  rw [decimal, if_pos hnil, Nat.mul_div_cancel _ (by positivity)]

theorem canon_nat (n : Nat) : canon (n : Rat) = dec n := by
  have hfloor : ⌊|(n : Rat)| * (10 ^ 18 : Nat)⌋₊ = n * 10 ^ 18 := by
    rw [abs_of_nonneg (Nat.cast_nonneg n), ← Nat.cast_mul, Nat.floor_natCast]
  rw [canon, hfloor, decimal_whole, if_neg (not_lt.mpr (Nat.cast_nonneg n))]

theorem num_canon (z : Int) : num (canon (z : Rat)) = z := by
  obtain ⟨n, rfl | rfl⟩ := z.eq_nat_or_neg
  · rw [Int.cast_natCast, canon_nat, num_dec]
  · cases n with
    | zero =>
      have hzero : ((-((0 : Nat) : Int) : Int) : Rat) = ((0 : Nat) : Rat) := by simp
      rw [hzero, canon_nat, num_dec]
    | succ n =>
      have hfloor : ⌊|((-((n + 1 : Nat) : Int) : Int) : Rat)| * (10 ^ 18 : Nat)⌋₊ =
          (n + 1) * 10 ^ 18 := by
        rw [Int.cast_neg, abs_neg, Int.cast_natCast, abs_of_nonneg (Nat.cast_nonneg _),
          ← Nat.cast_mul, Nat.floor_natCast]
      have hneg : ((-((n + 1 : Nat) : Int) : Int) : Rat) < 0 := by
        have hneg : -((n + 1 : Nat) : Int) < 0 := by omega
        exact_mod_cast hneg
      rw [canon, hfloor, if_pos hneg, neg_decimal (by positivity), decimal_whole, num,
        if_pos (show (45 : Nat) = hyphen from rfl), num_dec]
      simp

theorem pieces_plain {t : Str} (h : c ∉ t) : pieces t c = 1 := by
  rw [pieces, List.splitOn_eq_singleton h]
  rfl

theorem dec_list_plain {d : Nat} (hd : d = hyphen ∨ d = comma) (ns : List Nat) :
    ∀ w ∈ ns.map dec, d ∉ w := by
  intro w hw
  obtain ⟨n, -, rfl⟩ := List.mem_map.mp hw
  cases hd with
  | inl h => exact h ▸ (dec_no_sep n).1
  | inr h => exact h ▸ (dec_no_sep n).2

theorem range_text (a b : Nat) :
    dec a ++ hyphen :: dec b = [hyphen].intercalate ([a, b].map dec) := by
  simp [List.intercalate_cons_cons]

theorem pieces_range (a b : Nat) : pieces (dec a ++ hyphen :: dec b) hyphen = 2 ∧
    piece (dec a ++ hyphen :: dec b) hyphen 1 = dec a ∧
    piece (dec a ++ hyphen :: dec b) hyphen 2 = dec b ∧
    pieces (dec a ++ hyphen :: dec b) comma = 1 := by
  have hplain := dec_list_plain (Or.inl rfl) [a, b]
  have hcomma : comma ∉ dec a ++ hyphen :: dec b := by
    rw [List.mem_append, List.mem_cons]
    rintro (h | h | h)
    · exact (dec_no_sep a).2 h
    · exact absurd h (by decide)
    · exact (dec_no_sep b).2 h
  refine ⟨?_, ?_, ?_, pieces_plain hcomma⟩
  · rw [range_text, pieces, List.splitOn_intercalate _ hplain (by simp)]
    rfl
  · rw [range_text]
    exact piece_fields hplain (by simp) 0
  · rw [range_text]
    exact piece_fields hplain (by simp) 1

theorem pieces_list (h : 1 < ns.length) :
    pieces ([comma].intercalate (ns.map dec)) comma = ns.length ∧
      pieces ([comma].intercalate (ns.map dec)) hyphen = 1 := by
  have hne : ns.map dec ≠ [] := by
    rw [Ne, List.map_eq_nil_iff]
    exact List.ne_nil_of_length_pos (by omega)
  refine ⟨?_, pieces_plain fun hmem => ?_⟩
  · rw [pieces, List.splitOn_intercalate _ (dec_list_plain (Or.inr rfl) ns) hne, List.length_map]
  · have hinfix : [hyphen] <:+: [comma].intercalate (ns.map dec) :=
      List.singleton_infix_iff _ _ |>.mpr hmem
    obtain ⟨w, hw, hin⟩ := (infix_intercalate (List.cons_ne_nil _ _) (by decide)).mp hinfix
    exact dec_list_plain (Or.inl rfl) ns w hw ((List.singleton_infix_iff _ _).mp hin)

theorem piece_list {i : Nat} (hi : i < ns.length) :
    piece ([comma].intercalate (ns.map dec)) comma (i + 1) = dec ns[i] := by
  rw [piece_intercalate (dec_list_plain (Or.inr rfl) ns) (by rwa [List.length_map]),
    List.getElem_map]

def settle (s : Spec) (args : Args) (k : Arg) (ofRange : Nat → Nat → Option Rat)
    (ofList : Nat → Option Str) : Option Args :=
  match s with
  | .unset => some args
  | .one _ => some args
  | .range a b => (ofRange a b).map fun q => Function.update args k (some (canon q))
  | .list ns _ => (ofList ns.length).map fun v => Function.update args k (some v)

variable {args args' : Args} {k : Arg} {std : Nat} {s : Spec}

theorem field_settle (std : Nat) (hk : getdef k = dec std) (h : args k = s.text)
    (d : Rat → Rat → Option Rat) (d' : Args → Nat → Option Str) :
    ((setRange args k (valueOf args k) d).bind fun args' =>
      setCollection args' k (valueOf args k) (d' args')) =
      settle s args k (fun a b => d a b) (d' args) := by
  have hvalue : valueOf args k = s.text.getD (dec std) := by rw [valueOf, h, hk]
  rw [hvalue]
  have hplain (n : Nat) : ¬ 1 < pieces (dec n) hyphen ∧ ¬ 1 < pieces (dec n) comma := by
    rw [pieces_plain (dec_no_sep n).1, pieces_plain (dec_no_sep n).2]
    exact ⟨Nat.lt_irrefl 1, Nat.lt_irrefl 1⟩
  cases s with
  | unset =>
    rw [Spec.text, Option.getD_none, setRange, if_neg (hplain std).1, Option.bind_some,
      setCollection, if_neg (hplain std).2]
    rfl
  | one n =>
    rw [Spec.text, Option.getD_some, setRange, if_neg (hplain n).1, Option.bind_some,
      setCollection, if_neg (hplain n).2]
    rfl
  | range a b =>
    obtain ⟨htwo, hfirst, hsecond, hone⟩ := pieces_range a b
    rw [Spec.text, Option.getD_some, setRange, htwo, if_pos (by decide), hfirst, hsecond, num_dec,
      num_dec]
    have hnone (args : Args) (f : Nat → Option Str) :
        setCollection args k (dec a ++ hyphen :: dec b) f = some args := by
      rw [setCollection, hone, if_neg (Nat.lt_irrefl 1)]
    simp only [hnone, Option.bind_fun_some]
    rfl
  | list ns several =>
    obtain ⟨hlen, hone⟩ := pieces_list several
    rw [Spec.text, Option.getD_some, setRange, hone, if_neg (Nat.lt_irrefl 1), Option.bind_some,
      setCollection, hlen, if_pos several]
    rfl

theorem random_int {n : Int} (h : 1 ≤ n) (r : Nat) :
    random r (n : Rat) = some (r % n.toNat) := by
  obtain ⟨m, rfl⟩ := Int.eq_ofNat_of_zero_le (by omega : 0 ≤ n)
  have hnot : ¬ ((m : Int) : Rat) < 1 := by
    rw [not_lt]
    exact_mod_cast h
  rw [random, if_neg hnot, Int.cast_natCast, Nat.floor_natCast, Int.toNat_natCast]

theorem random_none {n : Int} (h : n < 1) (r : Nat) : random r (n : Rat) = none := by
  rw [random, if_pos (by exact_mod_cast h)]

section Draws

variable {lo hi : Int}

theorem drawRange_eq (lo hi : Int) (r : Nat) : drawRange r lo hi =
    some (((if lo ≤ hi then (r % (hi - lo + 1).toNat : Nat) + lo else hi : Int)) : Rat) := by
  have hsub : (hi : Rat) - lo + 1 = ((hi - lo + 1 : Int) : Rat) := by push_cast; rfl
  rw [drawRange, hsub]
  by_cases h : lo ≤ hi
  · have hpos : (0 : Rat) < ((hi - lo + 1 : Int) : Rat) := by
      have hpos : 0 < hi - lo + 1 := by omega
      exact_mod_cast hpos
    rw [if_pos hpos, random_int (by omega), if_pos h]
    push_cast
    rfl
  · have hneg : ¬ (0 : Rat) < ((hi - lo + 1 : Int) : Rat) := by
      have hneg : ¬ 0 < hi - lo + 1 := by omega
      exact_mod_cast hneg
    rw [if_neg hneg, if_neg h]

theorem drawPiece_eq {skip last : Nat} (hskip : skip < last) (hlast : last ≤ ns.length) (r : Nat) :
    drawPiece r ([comma].intercalate (ns.map dec)) skip last =
      some (dec (ns.getD (skip + r % (last - skip)) 0)) := by
  have hlt := Nat.mod_lt r (show 0 < last - skip by omega)
  have hbound : ((last - skip : Int) : Rat) = (((last - skip : Nat) : Int) : Rat) := by
    congr 1
    omega
  have hplace : 1 + r % (last - skip) + skip = skip + r % (last - skip) + 1 := by omega
  rw [drawPiece, hbound, random_int (by omega), Int.toNat_natCast, Option.map_some, hplace,
    piece_list (by omega), List.getD_eq_getElem?_getD, List.getElem?_eq_getElem (by omega)]
  rfl

end Draws

structure Window where
  lo : Nat → Nat → Int
  hi : Nat → Nat → Int
  skip : List Nat → Nat
  last : List Nat → Nat

def Spec.drawn (std : Nat) (w : Window) (r c : Nat) : Spec → Int
  | .unset => std
  | .one n => n
  | .range a b =>
    if w.lo a b ≤ w.hi a b then (r % (w.hi a b - w.lo a b + 1).toNat : Nat) + w.lo a b else w.hi a b
  | .list ns _ => ns.getD (w.skip ns + c % (w.last ns - w.skip ns)) 0

def Window.Open (w : Window) : Prop :=
  ∀ ns, 1 < ns.length → w.skip ns < w.last ns ∧ w.last ns ≤ ns.length

/-- Nothing but the size has changed, which is there if it was, and is `z`. -/
structure Settled (k : Arg) (z : Int) (args args' : Args) : Prop where
  others : ∀ a, a ≠ k → args' a = args a
  isSome : (args' k).isSome = (args k).isSome
  value : num (valueOf args' k) = z

theorem Settled.update {t : Str} (hsome : (args k).isSome = true) (ht : num t = z) :
    Settled k z args (Function.update args k (some t)) where
  others := fun _ ha => Function.update_of_ne ha _ _
  isSome := by rw [Function.update_self, hsome, Option.isSome_some]
  value := by rw [valueOf, Function.update_self, Option.getD_some, ht]

theorem settled_plain {w : Window} {r c : Nat} (hk : getdef k = dec std) (h : args k = s.text)
    (hplain : s.Plain) : Settled k (s.drawn std w r c) args args := by
  refine ⟨fun _ _ => rfl, rfl, ?_⟩
  rw [valueOf, h]
  obtain rfl | ⟨n, rfl⟩ := hplain
  · rw [Spec.text, Option.getD_none, hk, num_dec]
    rfl
  · rw [Spec.text, Option.getD_some, num_dec]
    rfl

theorem settle_settled (std : Nat) (hk : getdef k = dec std) (h : args k = s.text) {w : Window}
    (hw : w.Open) {r c : Nat} {ofRange : Nat → Nat → Option Rat} {ofList : Nat → Option Str}
    (hrange : ∀ a b, s = .range a b → ofRange a b = drawRange r (w.lo a b) (w.hi a b))
    (hlist : ∀ ns several, s = .list ns several → ofList ns.length =
      drawPiece c ([comma].intercalate (ns.map dec)) (w.skip ns) (w.last ns)) :
    ∃ args', settle s args k ofRange ofList = some args' ∧
      Settled k (s.drawn std w r c) args args' := by
  cases s with
  | unset => exact ⟨args, rfl, settled_plain hk h (Or.inl rfl)⟩
  | one n => exact ⟨args, rfl, settled_plain hk h (Or.inr ⟨n, rfl⟩)⟩
  | range a b =>
    rw [settle, hrange a b rfl, drawRange_eq]
    exact ⟨_, rfl, Settled.update (by rw [h]; rfl) (num_canon _)⟩
  | list ns several =>
    obtain ⟨hskip, hlast⟩ := hw ns several
    rw [settle, hlist ns several rfl, drawPiece_eq hskip hlast]
    exact ⟨_, rfl, Settled.update (by rw [h]; rfl) (num_dec _)⟩

theorem Settled.valueOf_of_ne {z : Int} {a : Arg} (h : Settled k z args args') (ha : a ≠ k) :
    valueOf args' a = valueOf args a := by
  rw [valueOf, valueOf, h.others a ha]

def Spec.CanDraw (std : Nat) (w : Window) : Spec → Int → Prop
  | .unset, z => z = std
  | .one n, z => z = n
  | .range a b, z => w.lo a b ≤ z ∧ z ≤ w.hi a b
  | .list ns _, z => ∃ n ∈ (ns.take (w.last ns)).drop (w.skip ns), z = n

def Spec.Room (w : Window) : Spec → Prop
  | .range a b => w.lo a b ≤ w.hi a b
  | _ => True

theorem room_plain {w : Window} (h : s.Plain) : s.Room w := by
  obtain rfl | ⟨n, rfl⟩ := h <;> trivial

theorem drawn_mem {w : Window} (hw : w.Open) (hroom : s.Room w) (r c : Nat) :
    s.CanDraw std w (s.drawn std w r c) := by
  cases s with
  | unset => rfl
  | one n => rfl
  | range a b =>
    have hle : w.lo a b ≤ w.hi a b := hroom
    have hlt := Nat.mod_lt r (show 0 < (w.hi a b - w.lo a b + 1).toNat by omega)
    rw [Spec.CanDraw, Spec.drawn, if_pos hle]
    omega
  | list ns several =>
    obtain ⟨hskip, hlast⟩ := hw ns several
    have hlt := Nat.mod_lt c (show 0 < w.last ns - w.skip ns by omega)
    refine ⟨_, ?_, rfl⟩
    rw [List.getD_eq_getElem?_getD, List.getElem?_eq_getElem (by omega), Option.getD_some,
      List.mem_iff_getElem]
    refine ⟨c % (w.last ns - w.skip ns), by rw [List.length_drop, List.length_take]; omega, ?_⟩
    rw [List.getElem_drop, List.getElem_take]

theorem drawn_onto {w : Window} (hw : w.Open) (h : s.CanDraw std w z) :
    ∃ r c, s.drawn std w r c = z := by
  cases s with
  | unset => exact ⟨0, 0, h.symm⟩
  | one n => exact ⟨0, 0, h.symm⟩
  | range a b =>
    obtain ⟨hlo, hhi⟩ := h
    refine ⟨(z - w.lo a b).toNat, 0, ?_⟩
    rw [Spec.drawn, if_pos (by omega), Nat.mod_eq_of_lt (by omega),
      Int.toNat_of_nonneg (by omega), Int.sub_add_cancel]
  | list ns several =>
    obtain ⟨n, hmem, rfl⟩ := h
    obtain ⟨hskip, hlast⟩ := hw ns several
    obtain ⟨j, hj, rfl⟩ := List.mem_iff_getElem.mp hmem
    rw [List.length_drop, List.length_take] at hj
    refine ⟨0, j, ?_⟩
    rw [Spec.drawn, Nat.mod_eq_of_lt (by omega), List.getD_eq_getElem?_getD,
      List.getElem?_eq_getElem (by omega), Option.getD_some, List.getElem_drop, List.getElem_take]

theorem drawn_le_hi {w : Window} (a b r c : Nat) :
    (Spec.range a b).drawn std w r c ≤ w.hi a b := by
  rw [Spec.drawn]
  split
  · have hlt := Nat.mod_lt r (show 0 < (w.hi a b - w.lo a b + 1).toNat by omega)
    omega
  · exact Int.le_refl _

/-- All that can be drawn is at least `n`; the lower bound of a range is. -/
def Spec.AtLeast (std : Nat) (w : Window) (n : Int) : Spec → Prop
  | .unset => n ≤ std
  | .one m => n ≤ m
  | .range a b => w.lo a b ≤ w.hi a b
  | .list ns _ => ∀ m ∈ (ns.take (w.last ns)).drop (w.skip ns), n ≤ (m : Int)

theorem Spec.AtLeast.room {w : Window} {m : Int} (h : s.AtLeast std w m) : s.Room w := by
  cases s with
  | range a b => exact h
  | unset | one | list => trivial

theorem Spec.AtLeast.le {w : Window} {m : Int} (h : s.AtLeast std w m) (hlo : ∀ a b, m ≤ w.lo a b)
    (hz : s.CanDraw std w z) : m ≤ z := by
  cases s with
  | unset => exact hz ▸ h
  | one n => exact hz ▸ h
  | range a b => exact Int.le_trans (hlo a b) hz.1
  | list ns several =>
    obtain ⟨n, hn, rfl⟩ := hz
    exact h n hn

theorem atLeast_of {w : Window} {m : Int} (hroom : s.Room w)
    (hall : ∀ z, s.CanDraw std w z → m ≤ z) : s.AtLeast std w m := by
  cases s with
  | unset => exact hall _ rfl
  | one n => exact hall _ rfl
  | range a b => exact hroom
  | list ns several => exact fun n hn => hall n ⟨n, hn, rfl⟩

theorem Spec.CanDraw.allows {w : Window} (hlo : ∀ a b : Nat, (a : Int) ≤ w.lo a b)
    (hhi : ∀ a b : Nat, w.hi a b ≤ b) (h : s.CanDraw std w z) : s.Allows std z := by
  cases s with
  | unset => exact h
  | one n => exact h
  | range a b => exact ⟨Int.le_trans (hlo a b) h.1, Int.le_trans h.2 (hhi a b)⟩
  | list ns several =>
    obtain ⟨n, hn, rfl⟩ := h
    exact ⟨n, List.mem_of_mem_take (List.mem_of_mem_drop hn), rfl⟩

theorem Spec.Allows.bounded (h : s.Allows std z) : s.Bounded := by
  cases s with
  | range a b => exact Int.ofNat_le.mp (Int.le_trans h.1 h.2)
  | unset | one | list => trivial

end YdbTest.DbcargsSpec
