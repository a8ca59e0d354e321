import YdbTest.Getmsginfo

namespace YdbTest.Getmsginfo

open MString MsgDirective

variable {inSyslog : Bool} {s : Str} {ts : List Token}

def untab (c : Nat) : Str := if c = 9 then lit "!_" else [c]

theorem detab_eq (msg : Str) : detab msg = msg.flatMap untab := by
  induction msg with
  | nil => rfl
  | cons c msg ih =>
    rw [detab, List.splitOn_cons_eq_if_modifyHead, List.flatMap_cons, ← ih, detab, untab]
    cases hs : msg.splitOn 9 with
    | nil => exact absurd hs (List.splitOn_ne_nil 9 msg)
    | cons p ps =>
      by_cases hc : c = 9
      · rw [if_pos (beq_iff_eq.mpr hc), if_pos hc, List.intercalate_cons_cons]
        rfl
      · rw [if_neg fun h => hc (beq_iff_eq.mp h), if_neg hc, List.modifyHead_cons]
        cases ps with
        | nil => simp [List.intercalate_singleton]
        | cons q ps => simp [List.intercalate_cons_cons]

theorem flatMap_untab (h : 9 ∉ s) : s.flatMap untab = s := by
  have hself : ∀ c ∈ s, untab c = [c] := fun c hc => if_neg fun (heq : c = 9) => h (heq ▸ hc)
  rw [List.flatMap_congr hself]
  exact List.flatMap_singleton' s

def Token.scanned (t : Token) : Str := t.source.flatMap untab

theorem detab_source (ts : List Token) : detab (source ts) = ts.flatMap Token.scanned := by
  rw [detab_eq, source, List.flatMap_assoc]
  rfl

theorem isDigit_le {c : Nat} (h : isDigit c = true) : 48 ≤ c ∧ c ≤ 57 := by
  simpa [isDigit] using h

theorem digits_untab {d : Directive} : 9 ∉ d.digits := fun h => by
  have := isDigit_le (d.digit 9 h)
  omega

theorem takeWhile_digits {ds : Str} (hds : ∀ c ∈ ds, isDigit c = true) {c : Nat}
    (hc : isDigit c = false) (r : Str) : (ds ++ c :: r).takeWhile isDigit = ds := by
  rw [List.takeWhile_append_of_pos hds, List.takeWhile_cons_of_neg (by simp [hc]),
    List.append_nil]

theorem dropWhile_digits {ds : Str} (hds : ∀ c ∈ ds, isDigit c = true) {c : Nat}
    (hc : isDigit c = false) (r : Str) : (ds ++ c :: r).dropWhile isDigit = c :: r := by
  rw [List.dropWhile_append_of_pos hds, List.dropWhile_cons_of_neg (by simp [hc])]

def width (d : Directive) : Str := if d.digits = [] then [] else 110 :: d.digits

theorem type_eq (d : Directive) : d.type = width d ++ d.kind.type := rfl

theorem getMsgArgLength_digits (d : Directive) {c : Nat} (hc : isDigit c = false) (r : Str) :
    getMsgArgLength (d.digits ++ c :: r) =
      if d.digits ≠ [] ∧ c = 42 then
        match r with
        | [] => none
        | _ :: _ => some (d.digits.length + 2, width d ++ lit "*c")
      else if c = 64 then
        match r with
        | u :: z :: _ =>
          if u ∈ lit "UXZ" ∧ z ∈ lit "JQ" then
            some (d.digits.length + 3, width d ++ [64, u, z])
          else none
        | _ => none
      else if c = 65 then twoChars d.digits.length (width d) c r (lit "CDFSZ")
      else if c ∈ lit "SUZ" then twoChars d.digits.length (width d) c r (lit "BWLJQ")
      else if c = 88 then twoChars d.digits.length (width d) c r (lit "BWLJ")
      else none := by
  simp only [getMsgArgLength, takeWhile_digits d.digit hc, dropWhile_digits d.digit hc]
  rfl

theorem getMsgArgLength_source (d : Directive) (s : Str) :
    getMsgArgLength (d.source ++ s) = some (d.source.length, d.type) := by
  rw [Directive.source, type_eq, List.append_assoc]
  cases hk : d.kind with
  | str t =>
    have hfind := getMsgArgLength_digits d (c := 65) rfl (t.char :: s)
    cases t <;> simpa [Kind.source, twoChars, StrType.char, lit, Kind.type] using hfind
  | num n z =>
    have hfind := getMsgArgLength_digits d (c := n.char) (by cases n <;> rfl) (z.char :: s)
    cases n <;> cases z <;>
      simpa [Kind.source, twoChars, Sign.char, Size.char, lit, Kind.type] using hfind
  | hex z =>
    have hfind := getMsgArgLength_digits d (c := 88) rfl (z.char :: s)
    cases z <;> simpa [Kind.source, twoChars, HexSize.char, lit, Kind.type] using hfind
  | far n z =>
    have hfind := getMsgArgLength_digits d (c := 64) rfl (n.char :: z.char :: s)
    cases n <;> cases z <;>
      simpa [Kind.source, FarSign.char, FarSize.char, lit, Kind.type] using hfind
  | star c =>
    have hfind := getMsgArgLength_digits d (c := 42) rfl (c :: s)
    rw [if_pos ⟨d.width_of_star c hk, rfl⟩] at hfind
    simpa [Kind.source, Kind.type] using hfind

/-- What is left of `!n*c` as literal text: the second character for a tab. -/
def rest (d : Directive) : Str :=
  match d.kind with
  | .star 9 => [95]
  | _ => []

theorem rest_eq_nil {d : Directive} : rest d = [] ↔ d.kind ≠ .star 9 := by
  rw [rest]
  split
  · next h => simp [h]
  · next h => exact ⟨fun _ hk => h hk, fun _ => rfl⟩

def front (d : Directive) : Directive :=
  if h : rest d = [] then d
  else
    ⟨d.digits, .star 33, d.digit, fun _ _ =>
      d.width_of_star 9 (not_not.mp fun hk => h (rest_eq_nil.mpr hk))⟩

theorem front_type (d : Directive) : (front d).type = d.type := by
  rw [front]
  split_ifs with h
  · rfl
  · have hk : d.kind = .star 9 := not_not.mp fun hk => h (rest_eq_nil.mpr hk)
    rw [type_eq, type_eq, hk]
    rfl

theorem kind_untab {k : Kind} (h : k ≠ .star 9) : 9 ∉ k.source := by
  cases k with
  | str t => cases t <;> simp [Kind.source, StrType.char]
  | num n z => cases n <;> cases z <;> simp [Kind.source, Sign.char, Size.char]
  | hex z => cases z <;> simp [Kind.source, HexSize.char]
  | far n z => cases n <;> cases z <;> simp [Kind.source, FarSign.char, FarSize.char]
  | star c =>
    have hc : c ≠ 9 := fun hc => h (hc ▸ rfl)
    simpa [Kind.source] using hc.symm

theorem scanned_arg (d : Directive) :
    (Token.arg d).scanned = 33 :: ((front d).source ++ rest d) := by
  have hdigits : d.digits.flatMap untab = d.digits := flatMap_untab digits_untab
  rw [Token.scanned, Token.source, List.flatMap_cons, Directive.source, List.flatMap_append,
    hdigits, front]
  split_ifs with h
  · rw [h, flatMap_untab (kind_untab (rest_eq_nil.mp h)), List.append_nil]
    rfl
  · have hk : d.kind = .star 9 := not_not.mp fun hk => h (rest_eq_nil.mpr hk)
    simp [hk, rest, untab, Kind.source, Directive.source, lit]

def State.step (inSyslog : Bool) (st : State) : Token → State
  | .arg d =>
    (rest d).foldl (fun st c => st.char [c]) (st.argument inSyslog d.type)
  | .slash => if inSyslog then st.char NEWLINE else st.newline
  | t => st.char t.text

theorem scan_nil (st : State) : scan inSyslog st [] = st := by
  rw [scan]

theorem scan_char (st : State) {c : Nat} (hc : c ≠ 33) (s : Str) :
    scan inSyslog st (c :: s) = scan inSyslog (st.char [c]) s := by
  rw [scan.eq_def]
  exact if_neg hc

theorem scan_arg (st : State) (d : Directive) (s : Str) :
    scan inSyslog st (33 :: (d.source ++ s)) =
      scan inSyslog (st.argument inSyslog d.type) s := by
  rw [scan.eq_def]
  simp only [if_pos, getMsgArgLength_source, List.drop_left]

theorem scan_bang (st : State) {c : Nat} (hnone : getMsgArgLength (c :: s) = none) :
    scan inSyslog st (33 :: c :: s) =
      if c = 33 then scan inSyslog (st.char [33]) s
      else if c = 95 then scan inSyslog (st.char TAB) s
      else if c = 47 then
        if inSyslog then scan inSyslog (st.char NEWLINE) s else scan inSyslog st.newline s
      else scan inSyslog (st.char [33]) (c :: s) := by
  rw [scan, if_pos rfl, hnone]

theorem scan_token (st : State) (t : Token) (s : Str) :
    scan inSyslog st (t.scanned ++ s) = scan inSyslog (st.step inSyslog t) s := by
  cases t with
  | char c hb ht =>
    have h : (Token.char c hb ht).scanned = [c] := by simp [Token.scanned, Token.source, untab, ht]
    rw [h]
    exact scan_char st hb s
  | tab => exact scan_bang st (c := 95) rfl
  | bang => exact scan_bang st (c := 33) rfl
  | under => exact scan_bang st (c := 95) rfl
  | slash =>
    cases inSyslog <;> exact scan_bang st (c := 47) rfl
  | arg d =>
    rw [scanned_arg, List.cons_append, List.append_assoc, scan_arg, front_type, State.step]
    by_cases h : d.kind = .star 9
    · have hrest : rest d = [95] := by simp [rest, h]
      rw [hrest]
      exact scan_char _ (by decide) s
    · rw [rest_eq_nil.mpr h]
      rfl

theorem scan_source (st : State) (ts : List Token) :
    scan inSyslog st (detab (source ts)) = ts.foldl (State.step inSyslog) st := by
  rw [detab_source]
  induction ts generalizing st with
  | nil => exact scan_nil st
  | cons t ts ih => rw [List.flatMap_cons, scan_token, ih, List.foldl_cons]

end YdbTest.Getmsginfo
