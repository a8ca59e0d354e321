import YdbTest.Genmsgs

namespace YdbTest.Genmsgs

open MString Fields MsgDirective

variable {w : Nat} {s t : Str}

theorem rjust_short {c : Nat} (h : w ≤ s.length) : rjust w c s = s := by
  rw [rjust, Nat.sub_eq_zero_of_le h]
  rfl

theorem rjust_length {c : Nat} (h : s.length ≤ w) : (rjust w c s).length = w := by
  rw [rjust, List.length_append, List.length_replicate]
  omega

theorem rjust_rjust {c k : Nat} (hk : s.length ≤ k) (hw : k ≤ w) :
    rjust w c (rjust k c s) = rjust w c s := by
  have hlen : w - k + (k - s.length) = w - s.length := by omega
  rw [rjust, rjust_length hk, rjust, rjust, ← List.append_assoc, List.replicate_append_replicate,
    hlen]

theorem pad_length {c : Nat} (hw : w ≠ 0) (s : Str) : (pad w c s).length = w := by
  rw [pad, if_neg hw]
  split_ifs with h
  · exact List.length_replicate
  · exact rjust_length (by omega)

def Plain (s : Str) : Prop := 84 ∉ s

theorem inflate_plain (h : Plain s) (f : Str) :
    inflate f w s = pad w (if f = lit "X" ∨ f = lit "Z" then 48 else 32) s := by
  have hnot : ¬ lit "TYPE NOT IMPLEMENTED" <:+: s := fun hi =>
    h (hi.subset (by decide : 84 ∈ lit "TYPE NOT IMPLEMENTED"))
  rw [inflate, pad]
  by_cases hw : w = 0
  · rw [if_pos hw, if_neg fun hp => absurd hp.2 (by omega)]
  · rw [if_neg hw, if_pos ⟨hnot, by omega⟩]

theorem inflate_found (h : lit "TYPE NOT IMPLEMENTED" <:+: s) (f : Str) (w : Nat) :
    inflate f w s = s := by
  rw [inflate, if_neg fun hp => hp.1 h]

theorem inflate_notImplemented (f t : Str) (w : Nat) :
    inflate f w (notImplemented t) = notImplemented t :=
  inflate_found ⟨[], lit ": " ++ t, rfl⟩ f w

theorem inflate_zero (f s : Str) : inflate f 0 s = s := by
  rw [inflate, if_neg fun hp => absurd hp.2 (Nat.lt_irrefl 0)]

theorem dec_plain (n : Nat) : Plain (dec n) := fun h => by
  have := Decimal.dec_digit h
  omega

theorem signed_plain (k : Nat) (x : Int) : Plain (signed k x) := by
  rw [signed]
  split_ifs
  · exact dec_plain _
  · exact List.not_mem_cons_of_ne_of_not_mem (by decide) (dec_plain _)

theorem write_plain (n : Nat) : Plain ((Numeral.write 16 n).map digitChar) := by
  intro h
  obtain ⟨d, hd, hc⟩ := List.mem_map.mp h
  have hlt := Numeral.write_lt (by decide) hd
  interval_cases d <;> exact absurd hc (by decide)

theorem rjust_plain {c : Nat} (hc : c ≠ 84) (h : Plain s) : Plain (rjust w c s) := by
  intro hmem
  obtain hr | hs := List.mem_append.mp hmem
  · exact hc (List.eq_of_mem_replicate hr).symm
  · exact h hs

theorem reduced_lt (k : Nat) (x : Int) : reduced k x < 2 ^ k := by
  have hpos : (0 : Int) < 2 ^ k := by positivity
  have hlt := Int.emod_lt_of_pos x hpos
  have hge := Int.emod_nonneg x hpos.ne'
  rw [reduced]
  zify
  rwa [Int.toNat_of_nonneg hge]

theorem inflate_hex (k : Nat) (x : Int) :
    inflate (lit "X") w
      (if lit "X" = lit "X" ∧ (convert (signedBinary x (4 * k)) 2 16).length < k then
        rjust k 48 (convert (signedBinary x (4 * k)) 2 16)
      else convert (signedBinary x (4 * k)) 2 16) = pad w 48 (hex k (reduced (4 * k) x)) := by
  have hfull : (if lit "X" = lit "X" ∧ (convert (signedBinary x (4 * k)) 2 16).length < k then
        rjust k 48 (convert (signedBinary x (4 * k)) 2 16)
      else convert (signedBinary x (4 * k)) 2 16) = hex k (reduced (4 * k) x) := by
    rw [convert_hex_signed, hex]
    split_ifs with h
    · rfl
    · rw [rjust_short (Nat.le_of_not_lt fun hlt => h ⟨rfl, hlt⟩)]
  rw [hfull, hex, inflate_plain (rjust_plain (by decide) (write_plain _)), if_pos (Or.inl rfl)]

def number (s : Str) : Nat := Numeral.value 10 (s.map (· - 48))

theorem isDigit_iff {c : Nat} : isDigit c = true ↔ 48 ≤ c ∧ c ≤ 57 := by
  simp [isDigit]

theorem readNumber_digits (hs : ∀ c ∈ s, isDigit c = true)
    (ht : ∀ c, t.head? = some c → isDigit c = false ∧ c ≠ 46) (m : Nat) :
    readNumber false m 0 (s ++ t) = (m * 10 ^ s.length + number s, 0) := by
  induction s generalizing m with
  | nil =>
    have hstop : readNumber false m 0 t = (m, 0) := by
      cases t with
      | nil => rfl
      | cons c t =>
        obtain ⟨hc, hp⟩ := ht c rfl
        simp [readNumber, hc, hp]
    rw [List.nil_append, hstop]
    simp [number, Numeral.value]
  | cons c s ih =>
    rw [List.forall_mem_cons] at hs
    rw [List.cons_append, readNumber, if_pos hs.1, if_neg Bool.false_ne_true, ih hs.2, number,
      number, List.map_cons, Numeral.value_cons, List.length_map, List.length_cons, pow_succ]
    congr 1
    ring

theorem toNat_digits (hs : ∀ c ∈ s, isDigit c = true) (hne : s ≠ [])
    (ht : ∀ c, t.head? = some c → isDigit c = false ∧ c ≠ 46) : toNat (s ++ t) = number s := by
  have hread := readNumber_digits hs ht 0
  obtain ⟨c, s, rfl⟩ := List.exists_cons_of_ne_nil hne
  have hc := isDigit_iff.mp (hs c List.mem_cons_self)
  have hsign : MString.number (c :: s ++ t) = (false, readNumber false 0 0 (c :: s ++ t)) := by
    unfold MString.number
    split
    · rename_i heq
      have := (List.cons.inj heq).1
      omega
    · rfl
  rw [MString.toNat, hsign, hread, Nat.zero_mul, Nat.zero_add]

theorem dec_eq_write (n : Nat) : dec n = (Numeral.write 10 n).map (48 + ·) := by
  rw [dec, Numeral.write]
  split_ifs
  · rfl
  · rfl

theorem dec_number (hs : ∀ c ∈ s, isDigit c = true) (hne : s ≠ []) :
    dec (number s) = s ∨ (dec (number s)).length < s.length := by
  have hdigit : ∀ d ∈ s.map (· - 48), d < 10 := by
    intro d hd
    obtain ⟨c, hc, rfl⟩ := List.mem_map.mp hd
    have := isDigit_iff.mp (hs c hc)
    omega
  have hback : (s.map (· - 48)).map (48 + ·) = s := by
    rw [List.map_map]
    refine (List.map_congr_left fun c hc => ?_).trans s.map_id
    have := isDigit_iff.mp (hs c hc)
    simp only [Function.comp, id]
    omega
  have hnil : s.map (· - 48) ≠ [] := by rwa [ne_eq, List.map_eq_nil_iff]
  rw [dec_eq_write, number]
  refine (Numeral.write_value (by decide) hnil hdigit).imp (fun h => ?_) fun h => ?_
  · rw [h, hback]
  · simpa using h

variable {d : Directive} {k : Kind}

theorem type_head (k : Kind) :
    ∃ c s, k.type = c :: s ∧ isDigit c = false ∧ c ≠ 46 ∧ c ≠ 110 ∧ c ∉ lit "BWLJ" ∧ s.length ≤ 2 := by
  cases k with
  | str a => cases a <;> exact ⟨_, _, rfl, by decide⟩
  | num a b => cases a <;> cases b <;> exact ⟨_, _, rfl, by decide⟩
  | hex a => cases a <;> exact ⟨_, _, rfl, by decide⟩
  | far a b => cases a <;> cases b <;> exact ⟨_, _, rfl, by decide⟩
  | star a => exact ⟨_, _, rfl, by decide⟩

theorem extract_width (s : Str) (j : Nat) : extract (110 :: s) (2 + j) 10 = (s.take 9).drop j := by
  have h : 2 + j - 1 = j + 1 := by omega
  rw [extract, h]
  rfl

structure Unknown (t : Str) : Prop where
  indirect : extract t 1 1 ≠ lit "@"
  string : extract t 1 1 ≠ lit "A"
  size : ∀ c ∈ lit "BWLJ", extract t 2 2 ≠ [c]

theorem unknown_nil : Unknown [] := ⟨by decide, by decide, by decide⟩

theorem unknown_digit {c : Nat} (hc : isDigit c = true)
    (ht : ∀ a, t.head? = some a → a ∉ lit "BWLJ") : Unknown (c :: t) := by
  rw [isDigit_iff] at hc
  have hfirst : extract (c :: t) 1 1 = [c] := rfl
  have hsecond : extract (c :: t) 2 2 = t.take 1 := rfl
  refine ⟨fun h => ?_, fun h => ?_, fun a ha h => ?_⟩
  · rw [hfirst, show lit "@" = [64] from rfl, List.cons.injEq] at h
    omega
  · rw [hfirst, show lit "A" = [65] from rfl, List.cons.injEq] at h
    omega
  · rw [hsecond] at h
    cases t with
    | nil => exact nomatch h
    | cons b t =>
      have hab : b = a := (List.cons.inj h).1
      exact ht b rfl (hab ▸ ha)

theorem take_type (k : Kind) (n : Nat) :
    ∀ c, (k.type.take n).head? = some c → (isDigit c = false ∧ c ≠ 46) ∧ c ∉ lit "BWLJ" := by
  obtain ⟨c, s, hk, hc, hp, _, hb, _⟩ := type_head k
  intro a ha
  cases n with
  | zero => exact nomatch ha
  | succ n =>
    rw [hk] at ha
    exact Option.some.inj ha ▸ ⟨⟨hc, hp⟩, hb⟩

theorem take_nine (d : Directive) : (d.digits ++ d.kind.type).take 9 =
    d.digits.take 9 ++ d.kind.type.take (9 - d.digits.length) := List.take_append

theorem type_of_width (hne : d.digits ≠ []) : d.type = 110 :: (d.digits ++ d.kind.type) := by
  rw [Directive.type, if_neg hne]
  rfl

theorem requestedWidth_digits (d : Directive) (hne : d.digits ≠ []) :
    requestedWidth d.type = (number (d.digits.take 9),
      (d.digits.take 9 ++ d.kind.type.take (9 - d.digits.length)).drop
        (dec (number (d.digits.take 9))).length) := by
  have hnil : d.digits.take 9 ≠ [] := by
    rw [ne_eq, List.take_eq_nil_iff]
    simp [hne]
  have hread := toNat_digits (fun c hc => d.digit c (List.mem_of_mem_take hc)) hnil
    fun c hc => (take_type d.kind (9 - d.digits.length) c hc).1
  have hfirst : extract (110 :: (d.digits ++ d.kind.type)) 1 1 = lit "n" := rfl
  have hvalue : extract (110 :: (d.digits ++ d.kind.type)) 2 10 =
      (d.digits ++ d.kind.type).take 9 := rfl
  rw [type_of_width hne, requestedWidth, if_pos hfirst]
  simp only [hvalue, extract_width, take_nine, hread]

theorem width_eq (hne : d.digits ≠ []) : width d = number d.digits := by
  have h := toNat_digits (t := []) d.digit hne (by simp)
  rwa [List.append_nil] at h

theorem requestedWidth_eq (d : Directive) (hlen : d.digits.length ≤ 9)
    (h : d.digits = [] ∨ dec (width d) = d.digits) :
    requestedWidth d.type = (width d, d.kind.type.take (9 - d.digits.length)) := by
  by_cases hne : d.digits = []
  · obtain ⟨c, s, hk, _, _, hn, _, hs⟩ := type_head d.kind
    have hfirst : extract (c :: s) 1 1 ≠ lit "n" := fun h => hn (List.cons.inj h).1
    have htake : (c :: s).take 9 = c :: s := List.take_of_length_le (by simp; omega)
    rw [Directive.type, if_pos hne, List.nil_append, width, hne, hk, requestedWidth, if_neg hfirst,
      List.length_nil, htake]
    rfl
  · have htake : d.digits.take 9 = d.digits := List.take_of_length_le hlen
    have hdec := h.resolve_left hne
    rw [width_eq hne] at hdec ⊢
    rw [requestedWidth_digits d hne, htake, hdec, List.drop_left]

theorem requestedWidth_unknown (d : Directive) (hne : d.digits ≠ [])
    (h : 9 < d.digits.length ∨ dec (width d) ≠ d.digits) :
    Unknown (requestedWidth d.type).2 := by
  have hdigit : ∀ c ∈ d.digits.take 9, isDigit c = true :=
    fun c hc => d.digit c (List.mem_of_mem_take hc)
  have hnil : d.digits.take 9 ≠ [] := by
    rw [ne_eq, List.take_eq_nil_iff]
    simp [hne]
  rw [requestedWidth_digits d hne]
  obtain hdec | hlt := dec_number hdigit hnil
  · have hlong : 9 < d.digits.length := by
      by_contra hle
      have htake : d.digits.take 9 = d.digits := List.take_of_length_le (by omega)
      rw [htake, ← width_eq hne] at hdec
      exact h.elim hle fun hcanon => hcanon hdec
    rw [hdec, List.drop_left, Nat.sub_eq_zero_of_le hlong.le]
    exact unknown_nil
  · rw [List.drop_append_of_le_length hlt.le]
    cases hrest : (d.digits.take 9).drop (dec (number (d.digits.take 9))).length with
    | nil =>
      rw [List.drop_eq_nil_iff] at hrest
      omega
    | cons c s =>
      have hmem : ∀ a ∈ c :: s, isDigit a = true := fun a ha =>
        hdigit a (List.mem_of_mem_drop (hrest ▸ ha))
      refine unknown_digit (hmem c List.mem_cons_self) fun a ha => ?_
      cases s with
      | nil => exact (take_type d.kind _ a ha).2
      | cons b s =>
        have hletter : ∀ c ∈ lit "BWLJ", isDigit c = false := by decide
        have hb := hmem b (by simp)
        rw [← Option.some.inj ha]
        intro hin
        rw [hletter b hin] at hb
        exact nomatch hb

theorem argument_unknown (h : Unknown t) (is64Bit : Bool) (x : Int) (str full prev : Str) (w : Nat) :
    argument is64Bit x str full prev w t =
      (.number (signOf x * x), inflate (extract t 1 1) w prev) := by
  have hB : extract t 2 2 ≠ lit "B" := h.size 66 (by decide)
  have hW : extract t 2 2 ≠ lit "W" := h.size 87 (by decide)
  have hL : extract t 2 2 ≠ lit "L" := h.size 76 (by decide)
  have hJ : extract t 2 2 ≠ lit "J" := h.size 74 (by decide)
  simp only [argument, integerArg, h.indirect, h.string, hB, hW, hL, hJ, if_false, Nat.not_lt_zero,
    and_false]

theorem not_right_of_unknown (h : Unknown (requestedWidth d.type).2) : ¬ Right d := by
  intro hright
  have hkeep : ∀ prev, lit "TYPE NOT IMPLEMENTED" <:+: prev →
      generateArg true 0 [] d.type prev = (.number 0, prev) := by
    intro prev hprev
    rw [generateArg, argument_unknown h, inflate_found hprev]
    rfl
  have hone := hright true 0 [] (lit "TYPE NOT IMPLEMENTED") (by decide)
  have htwo := hright true 0 [] (lit "TYPE NOT IMPLEMENTED!") (by decide)
  rw [hkeep (lit "TYPE NOT IMPLEMENTED") ⟨[], [], rfl⟩] at hone
  rw [hkeep (lit "TYPE NOT IMPLEMENTED!") ⟨[], lit "!", rfl⟩] at htwo
  exact absurd (hone.trans htwo.symm) (by decide)

section Argument

variable (is64Bit : Bool) (x : Int) (str full prev : Str) (w : Nat)

def drawn (x n : Int) : Int := signOf x * (signOf x * x % n)

theorem argument_str (a : StrType) : argument is64Bit x str full prev w [65, a.char] =
    (.text str, inflate (lit "A") w (if w = 0 then str else notImplemented full)) := by
  cases a <;> rfl

theorem argument_B (a : Sign) : argument is64Bit x str full prev w [a.char, 66] =
    (.number (drawn x 300), inflate [a.char] w (notImplemented full)) := by
  cases a <;> rfl

theorem argument_W (a : Sign) : argument is64Bit x str full prev w [a.char, 87] =
    (.number (drawn x 70000), inflate [a.char] w (notImplemented full)) := by
  cases a <;> rfl

theorem argument_SL : argument is64Bit x str full prev w (lit "SL") =
    (.number (drawn x 4300000000),
      inflate (lit "S") w (signedDecimal (signedBinary (drawn x 4300000000) 32))) := rfl

theorem argument_UL : argument is64Bit x str full prev w (lit "UL") =
    (.number (drawn x 4300000000),
      inflate (lit "U") w (convert (signedBinary (drawn x 4300000000) 32) 2 10)) := rfl

theorem argument_ZL : argument is64Bit x str full prev w (lit "ZL") =
    (.number (drawn x 4300000000), inflate (lit "Z") w (notImplemented full)) := rfl

def quad (is64Bit : Bool) (x : Int) : Int := if is64Bit then signOf x * x else drawn x 4300000000

theorem argument_UJ : argument is64Bit x str full prev w (lit "UJ") =
    (.number (quad is64Bit x), inflate (lit "U") w
      (convert (signedBinary (quad is64Bit x) (if is64Bit then 64 else 32)) 2 10)) := rfl

theorem argument_SJ : argument is64Bit x str full prev w (lit "SJ") =
    (.number (quad is64Bit x), inflate (lit "S") w (notImplemented full)) := rfl

theorem argument_ZJ : argument is64Bit x str full prev w (lit "ZJ") =
    (.number (quad is64Bit x), inflate (lit "Z") w (notImplemented full)) := rfl

theorem argument_far_J (a : FarSign) : ∃ f, argument is64Bit x str full prev w [64, a.char, 74] =
    (.number (signOf x * x), inflate f w (notImplemented full)) := by
  cases a <;> exact ⟨_, rfl⟩

theorem argument_XQ : argument is64Bit x str full prev w (lit "@XQ") =
    (.number (signOf x * x),
      inflate (lit "X") w (convert (signedBinary (signOf x * x) 64) 2 16)) := rfl

theorem argument_UQ : argument is64Bit x str full prev w (lit "@UQ") =
    (.number (signOf x * x),
      inflate (lit "U") w (convert (signedBinary (signOf x * x) 64) 2 10)) := rfl

theorem argument_ZQ : argument is64Bit x str full prev w (lit "@ZQ") =
    (.number (signOf x * x),
      inflate (lit "Z") w (convert (signedBinary (signOf x * x) 64) 2 10)) := rfl

theorem argument_hex (z : HexSize) : ∃ k y, argument is64Bit x str full prev w [88, z.char] =
    (.number y, pad w 48 (hex k (reduced (4 * k) y))) ∧
      (∀ d : Directive, d.kind = .hex z → width d = w →
        shown is64Bit d (.number y) = pad w 48 (hex k (reduced (4 * k) y))) := by
  cases z with
  | B =>
    refine ⟨2, drawn x 300, ?_, fun d hk hw => ?_⟩
    · rw [← inflate_hex]
      rfl
    · simp only [shown, hk, hw]
  | W =>
    refine ⟨4, drawn x 70000, ?_, fun d hk hw => ?_⟩
    · rw [← inflate_hex]
      rfl
    · simp only [shown, hk, hw]
  | L =>
    refine ⟨8, drawn x 4300000000, ?_, fun d hk hw => ?_⟩
    · rw [← inflate_hex]
      rfl
    · simp only [shown, hk, hw]
  | J =>
    refine ⟨if is64Bit then 16 else 8, quad is64Bit x, ?_, fun d hk hw => ?_⟩
    · rw [← inflate_hex]
      cases is64Bit <;> rfl
    · cases is64Bit <;> simp only [shown, hk, hw] <;> rfl

end Argument

theorem settle {is64Bit : Bool} {x : Int} {str prev : Str} {v : Value} {e : Str}
    (harg : argument is64Bit x str d.type prev (width d) t = (v, e))
    (he : e = shown is64Bit d v) :
    (argument is64Bit x str d.type prev (width d) t).2 =
      shown is64Bit d (argument is64Bit x str d.type prev (width d) t).1 := by
  rw [harg]
  exact he

theorem right_str {a : StrType} (hk : d.kind = .str a)
    (hreq : requestedWidth d.type = (width d, [65, a.char]) ∨
      requestedWidth d.type = (width d, [65])) : Right d := by
  intro is64Bit x str prev _
  have hshown : inflate (lit "A") (width d)
      (if width d = 0 then str else notImplemented d.type) = shown is64Bit d (.text str) := by
    simp only [shown, hk]
    split_ifs with hw
    · rw [hw, inflate_zero]
    · exact inflate_notImplemented _ _ _
  rw [generateArg]
  obtain hreq | hreq := hreq
  · rw [hreq]
    exact settle (argument_str is64Bit x str d.type prev (width d) a) hshown
  · rw [hreq]
    exact settle (v := .text str) rfl hshown

theorem right_num {a : Sign} {z : Size} (hk : d.kind = .num a z) (hz : z ≠ .Q)
    (hreq : requestedWidth d.type = (width d, [a.char, z.char])) : Right d := by
  intro is64Bit x str prev _
  rw [generateArg, hreq]
  cases z with
  | B =>
    refine settle (argument_B is64Bit x str d.type prev (width d) a) ?_
    simp only [shown, hk]
    exact inflate_notImplemented _ _ _
  | W =>
    refine settle (argument_W is64Bit x str d.type prev (width d) a) ?_
    simp only [shown, hk]
    exact inflate_notImplemented _ _ _
  | L =>
    cases a with
    | S =>
      refine settle (argument_SL is64Bit x str d.type prev (width d)) ?_
      simp only [shown, hk]
      rw [signedDecimal_eq _ (by decide), inflate_plain (signed_plain _ _)]
      rfl
    | U =>
      refine settle (argument_UL is64Bit x str d.type prev (width d)) ?_
      simp only [shown, hk]
      rw [convert_dec_signed, inflate_plain (dec_plain _)]
      rfl
    | Z =>
      refine settle (argument_ZL is64Bit x str d.type prev (width d)) ?_
      simp only [shown, hk]
      exact inflate_notImplemented _ _ _
  | J =>
    cases a with
    | S =>
      refine settle (argument_SJ is64Bit x str d.type prev (width d)) ?_
      simp only [shown, hk]
      exact inflate_notImplemented _ _ _
    | U =>
      refine settle (argument_UJ is64Bit x str d.type prev (width d)) ?_
      simp only [shown, hk]
      rw [convert_dec_signed, inflate_plain (dec_plain _)]
      rfl
    | Z =>
      refine settle (argument_ZJ is64Bit x str d.type prev (width d)) ?_
      simp only [shown, hk]
      exact inflate_notImplemented _ _ _
  | Q => exact absurd rfl hz

theorem right_hex {z : HexSize} (hk : d.kind = .hex z)
    (hreq : requestedWidth d.type = (width d, [88, z.char])) : Right d := by
  intro is64Bit x str prev _
  obtain ⟨k, y, harg, hshown⟩ := argument_hex is64Bit x str d.type prev (width d) z
  rw [generateArg, hreq]
  exact settle harg (hshown d hk rfl).symm

theorem inflate_XQ (x : Int) (hw : 16 ≤ w) :
    inflate (lit "X") w (convert (signedBinary (signOf x * x) 64) 2 16) =
      pad w 48 (hex 16 (reduced 64 (signOf x * x))) := by
  have hsmall : reduced 64 (signOf x * x) < 16 ^ 16 := reduced_lt 64 _
  have hlen : ((Numeral.write 16 (reduced 64 (signOf x * x))).map digitChar).length ≤ 16 := by
    rw [List.length_map]
    exact Numeral.write_length (by decide) (by decide) hsmall
  have hfull := rjust_length (c := 48) hlen
  rw [convert_hex_signed, inflate_plain (write_plain _), if_pos (Or.inl rfl), pad, pad,
    if_neg (by omega), if_neg (by omega), hex, hfull, if_neg (by omega), if_neg (by omega),
    rjust_rjust hlen hw]

theorem right_far {a : FarSign} {z : FarSize} (hk : d.kind = .far a z)
    (hz : z = .Q → a = .X → 16 ≤ width d)
    (hreq : requestedWidth d.type = (width d, [64, a.char, z.char])) : Right d := by
  intro is64Bit x str prev _
  rw [generateArg, hreq]
  cases z with
  | J =>
    obtain ⟨f, harg⟩ := argument_far_J is64Bit x str d.type prev (width d) a
    refine settle harg ?_
    simp only [shown, hk]
    exact inflate_notImplemented _ _ _
  | Q =>
    cases a with
    | X =>
      refine settle (argument_XQ is64Bit x str d.type prev (width d)) ?_
      simp only [shown, hk]
      exact inflate_XQ x (hz rfl rfl)
    | U =>
      refine settle (argument_UQ is64Bit x str d.type prev (width d)) ?_
      simp only [shown, hk]
      rw [convert_dec_signed, inflate_plain (dec_plain _)]
      rfl
    | Z =>
      refine settle (argument_ZQ is64Bit x str d.type prev (width d)) ?_
      simp only [shown, hk]
      rw [convert_dec_signed, inflate_plain (dec_plain _)]
      rfl

theorem argument_far_cut (a : FarSign) {n : Nat} (hn : n = 1 ∨ n = 2) (is64Bit : Bool) (x : Int)
    (str full prev : Str) (w : Nat) :
    ∃ f, argument is64Bit x str full prev w ([64, a.char, 74].take n) =
      (.number (signOf x * x), inflate f w (notImplemented full)) ∧
    argument is64Bit x str full prev w ([64, a.char, 81].take n) =
      (.number (signOf x * x), inflate f w (notImplemented full)) := by
  obtain rfl | rfl := hn
  · exact ⟨_, rfl, rfl⟩
  · cases a <;> exact ⟨_, rfl, rfl⟩

theorem right_of_predicted (h : Predicted d) : Right d := by
  obtain ⟨hdigits, hlen, hkind⟩ := h
  have hreq : ∀ {t}, d.kind.type = t → t.length + d.digits.length ≤ 9 →
      requestedWidth d.type = (width d, t) := by
    rintro _ rfl ht
    rw [requestedWidth_eq d (by omega) hdigits, List.take_of_length_le (by omega)]
  cases hk : d.kind with
  | str a =>
    rw [hk, place] at hlen
    by_cases hshort : d.digits.length ≤ 7
    · exact right_str hk (Or.inl (hreq (by rw [hk, type_str]) (Nat.add_le_add_left hshort 2)))
    · have hcut : 9 - d.digits.length = 1 := by omega
      refine right_str hk (Or.inr ?_)
      rw [requestedWidth_eq d (by omega) hdigits, hcut, hk]
      rfl
  | num a z =>
    rw [hk, place] at hlen
    have hz : z ≠ .Q := by
      rintro rfl
      rw [hk] at hkind
      exact hkind
    exact right_num hk hz (hreq (by rw [hk, type_num]) (Nat.add_le_add_left hlen 2))
  | hex z =>
    rw [hk, place] at hlen
    exact right_hex hk (hreq (by rw [hk, type_hex]) (Nat.add_le_add_left hlen 2))
  | far a z =>
    rw [hk] at hkind hlen
    cases z with
    | J =>
      rw [place] at hlen
      by_cases hshort : d.digits.length ≤ 6
      · exact right_far hk nofun (hreq (by rw [hk, type_far]) (Nat.add_le_add_left hshort 3))
      · intro is64Bit x str prev _
        have hcut : 9 - d.digits.length = 1 ∨ 9 - d.digits.length = 2 := by omega
        obtain ⟨f, harg, _⟩ :=
          argument_far_cut a hcut is64Bit x str d.type prev (width d)
        rw [generateArg, requestedWidth_eq d (by omega) hdigits, hk, type_far]
        refine settle harg ?_
        simp only [shown, hk]
        exact inflate_notImplemented _ _ _
    | Q =>
      rw [place] at hlen
      refine right_far hk ?_ (hreq (by rw [hk, type_far]) (Nat.add_le_add_left hlen 3))
      rintro - rfl
      exact hkind
  | star c =>
    rw [hk] at hkind
    exact hkind.elim

theorem unknown_num (a : Sign) (z : Size) {n : Nat} (hn : n ≤ 1) :
    Unknown ([a.char, z.char].take n) := by
  have hone : Unknown [a.char] := by cases a <;> exact ⟨by decide, by decide, by decide⟩
  interval_cases n
  · exact unknown_nil
  · exact hone

theorem unknown_hex (z : HexSize) {n : Nat} (hn : n ≤ 1) : Unknown ([88, z.char].take n) := by
  have hone : Unknown [88] := ⟨by decide, by decide, by decide⟩
  interval_cases n
  · exact unknown_nil
  · exact hone

theorem unknown_Q (a : Sign) (n : Nat) : Unknown ([a.char, Size.Q.char].take n) := by
  by_cases hn : n ≤ 1
  · exact unknown_num a .Q hn
  · have htwo : 2 ≤ n := by omega
    rw [List.take_of_length_le htwo]
    cases a <;> exact ⟨by decide, by decide, by decide⟩

theorem unknown_star (n : Nat) : Unknown ((lit "*c").take n) := by
  have hone : Unknown [42] := ⟨by decide, by decide, by decide⟩
  match n with
  | 0 => exact unknown_nil
  | 1 => exact hone
  | n + 2 =>
    have htwo : 2 ≤ n + 2 := by omega
    rw [List.take_of_length_le htwo]
    exact ⟨by decide, by decide, by decide⟩

theorem not_right_XQ (hk : d.kind = .far .X .Q) (hw : width d < 16)
    (hreq : requestedWidth d.type = (width d, lit "@XQ")) : ¬ Right d := by
  intro hright
  have h := hright true 0 [] [] (by decide)
  rw [generateArg, hreq, argument_XQ] at h
  simp only [shown, hk] at h
  rw [convert_hex_signed, inflate_plain (write_plain _), show reduced 64 (signOf 0 * 0) = 0 from rfl]
    at h
  generalize width d = w at h hw
  interval_cases w <;> exact absurd h (by decide)

theorem not_right_far_cut {a : FarSign} (hk : d.kind = .far a .Q)
    (hlen : d.digits.length = 7 ∨ d.digits.length = 8) (hcanon : dec (width d) = d.digits) :
    ¬ Right d := by
  intro hright
  have h := hright true 0 [] [] (by decide)
  have hcut : 9 - d.digits.length = 1 ∨ 9 - d.digits.length = 2 := by omega
  obtain ⟨f, _, harg⟩ := argument_far_cut a hcut true 0 [] d.type [] (width d)
  rw [generateArg, requestedWidth_eq d (by omega) (Or.inr hcanon), hk, type_far, FarSize.char, harg]
    at h
  have hwide : 10 ^ 6 ≤ width d := by
    by_contra hlt
    have := Numeral.write_length (b := 10) (k := 6) (by decide) (by decide) (Nat.lt_of_not_le hlt)
    have hdec := congrArg List.length hcanon
    rw [dec_eq_write, List.length_map] at hdec
    omega
  have htext : (notImplemented d.type).length ≤ 40 := by
    have hne : d.digits ≠ [] := by
      rintro h0
      rw [h0] at hlen
      exact absurd hlen (by decide)
    rw [notImplemented, type_of_width hne, hk, type_far]
    simp [lit]
    omega
  have hpad : (notImplemented d.type).length = width d := by
    simp only [inflate_notImplemented] at h
    rw [h]
    cases a <;> simp only [shown, hk] <;> exact pad_length (by omega) _
  omega

/-- The types that are predicted, whatever comes before them. -/
theorem right_iff (d : Directive) : Right d ↔ Predicted d := by
  refine ⟨fun hright => ?_, right_of_predicted⟩
  have hcanon : d.digits = [] ∨ dec (width d) = d.digits := by
    by_contra h
    rw [not_or] at h
    exact not_right_of_unknown (requestedWidth_unknown d h.1 (Or.inr h.2)) hright
  have hnine : d.digits.length ≤ 9 := by
    by_contra h
    have hne : d.digits ≠ [] := by
      rintro h0
      rw [h0] at h
      exact h (Nat.zero_le 9)
    exact not_right_of_unknown (requestedWidth_unknown d hne (Or.inl (by omega))) hright
  have hreq := requestedWidth_eq d hnine hcanon
  have hknown : ¬ Unknown (d.kind.type.take (9 - d.digits.length)) := fun h =>
    not_right_of_unknown (by rw [hreq]; exact h) hright
  have hpos : 0 < 9 - d.digits.length := by
    by_contra h
    rw [Nat.eq_zero_of_not_pos h, List.take_zero] at hknown
    exact hknown unknown_nil
  cases hk : d.kind with
  | str a =>
    rw [Predicted, hk]
    exact ⟨hcanon, Nat.le_of_lt_succ (Nat.lt_of_sub_pos hpos), trivial⟩
  | num a z =>
    rw [hk, type_num] at hknown
    have hz : z ≠ .Q := by
      rintro rfl
      exact hknown (unknown_Q a _)
    have hlen : ¬ 9 - d.digits.length ≤ 1 := fun h => hknown (unknown_num a z h)
    rw [Predicted, hk]
    refine ⟨hcanon, by rw [place]; omega, ?_⟩
    cases z <;> trivial
  | hex z =>
    rw [hk, type_hex] at hknown
    have hlen : ¬ 9 - d.digits.length ≤ 1 := fun h => hknown (unknown_hex z h)
    rw [Predicted, hk]
    exact ⟨hcanon, by rw [place]; omega, trivial⟩
  | far a z =>
    cases z with
    | J =>
      rw [Predicted, hk]
      refine ⟨hcanon, by rw [place]; omega, ?_⟩
      cases a <;> trivial
    | Q =>
      have hlen : d.digits.length ≤ 6 := by
        by_contra hlong
        have hne : d.digits ≠ [] := by
          rintro h0
          rw [h0] at hlong
          exact hlong (Nat.zero_le 6)
        exact not_right_far_cut hk (by omega) (hcanon.resolve_left hne) hright
      rw [Predicted, hk]
      refine ⟨hcanon, hlen, ?_⟩
      cases a with
      | U | Z => trivial
      | X =>
        by_contra hsmall
        refine not_right_XQ hk (Nat.lt_of_not_le hsmall) ?_ hright
        rw [hreq, hk, type_far, List.take_of_length_le (by simp; omega)]
        rfl
  | star c =>
    rw [hk] at hknown
    exact absurd (unknown_star _) hknown

def unsignedQuad : Directive where
  digits := []
  kind := .num .U .Q
  digit := by decide
  width_of_star := nofun

theorem unsignedQuad_keeps : ¬ Right unsignedQuad := by
  intro hright
  exact absurd (hright true 5 [] (lit "old") (by decide)) (by decide)

end YdbTest.Genmsgs
