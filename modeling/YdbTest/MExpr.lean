import YdbTest.Dbcargs

namespace YdbTest.MExpr

open MString

abbrev Text := List Char

inductive Op where
  | eq | gt | lt | ge | le | contains | follows | sortsAfter | and | or
  deriving DecidableEq

mutual

/-- Expressions, with the operands as they are grouped from left to right. A pattern is a number
of times that a string occurs. -/
inductive Expr where
  | num (n : Nat)
  | var (name : Text)
  | test
  | not (e : Expr)
  | bin (neg : Bool) (o : Op) (l r : Expr)
  | pat (neg : Bool) (l : Expr) (n : Nat) (s : Text)
  | select (ts : Terms)

/-- The conditions and values of `$select`. -/
inductive Terms where
  | last (c v : Expr)
  | more (c v : Expr) (ts : Terms)

end

def truth (s : Str) : Bool := Dbcargs.num s ≠ 0

def bit (b : Bool) : Str := if b then [49] else [48]

def isNumber (s : Str) : Bool := Dbcargs.canon (Dbcargs.num s) = s

/-- `a]]b`: numbers come before other strings, and the empty string before all. -/
def collatesAfter (a b : Str) : Bool :=
  if isNumber a then (if isNumber b then Dbcargs.num b < Dbcargs.num a else b = [])
  else if isNumber b then a ≠ []
  else b < a

def Op.holds : Op → Str → Str → Bool
  | .eq, a, b => a = b
  | .gt, a, b => Dbcargs.num b < Dbcargs.num a
  | .lt, a, b => Dbcargs.num a < Dbcargs.num b
  | .ge, a, b => Dbcargs.num b ≤ Dbcargs.num a
  | .le, a, b => Dbcargs.num a ≤ Dbcargs.num b
  | .contains, a, b => decide (b <:+: a)
  | .follows, a, b => b < a
  | .sortsAfter, a, b => collatesAfter a b
  | .and, a, b => truth a && truth b
  | .or, a, b => truth a || truth b

/-- The variables that are defined, and `$test`. -/
structure Env where
  var : Text → Option Str
  test : Bool

section Eval

variable (env : Env)

mutual

/-- The value, if there is one: an undefined variable is an error, and so is a `$select` without
a true condition. -/
def Expr.eval : Expr → Option Str
  | .num n => some (dec n)
  | .var name => env.var name
  | .test => some (bit env.test)
  | .not e => e.eval.map fun v => bit (!truth v)
  | .bin neg o l r => l.eval.bind fun a => r.eval.map fun b => bit (o.holds a b ^^ neg)
  | .pat neg l n s => l.eval.map fun a =>
      bit (decide (a = (List.replicate n (s.map Char.toNat)).flatten) ^^ neg)
  | .select ts => ts.eval

def Terms.eval : Terms → Option Str
  | .last c v => c.eval.bind fun b => if truth b then v.eval else none
  | .more c v ts => c.eval.bind fun b => if truth b then v.eval else ts.eval

end

def Expr.Holds (e : Expr) : Prop := ∃ v, e.eval env = some v ∧ truth v = true

def Terms.Hit : Terms → Prop
  | .last c _ => c.Holds env
  | .more c _ ts => c.Holds env ∨ ts.Hit

mutual

/-- Every `$select` in the expression reaches a true condition. -/
def Expr.Reaches : Expr → Prop
  | .num _ => True
  | .var _ => True
  | .test => True
  | .not e => e.Reaches
  | .bin _ _ l r => l.Reaches ∧ r.Reaches
  | .pat _ l _ _ => l.Reaches
  | .select ts => ts.Hit env ∧ ts.Reaches

def Terms.Reaches : Terms → Prop
  | .last c v => c.Reaches ∧ v.Reaches
  | .more c v ts => c.Reaches ∧ v.Reaches ∧ ts.Reaches

end

end Eval

def parsePlain : Text → Option (Option Op × Text)
  | '=' :: s => some (some .eq, s)
  | '>' :: '=' :: s => some (some .ge, s)
  | '>' :: s => some (some .gt, s)
  | '<' :: '=' :: s => some (some .le, s)
  | '<' :: s => some (some .lt, s)
  | '[' :: s => some (some .contains, s)
  | ']' :: ']' :: s => some (some .sortsAfter, s)
  | ']' :: s => some (some .follows, s)
  | '&' :: s => some (some .and, s)
  | '!' :: s => some (some .or, s)
  | '?' :: s => some (none, s)
  | _ => none

def parseOp : Text → Option (Bool × Option Op × Text)
  | '\'' :: s => (parsePlain s).map fun p => (true, p)
  | s => (parsePlain s).map fun p => (false, p)

def parsePattern (s : Text) : Option (Nat × Text × Text) :=
  match s.takeWhile Char.isDigit, s.dropWhile Char.isDigit with
  | d :: ds, '"' :: r =>
    match r.dropWhile (· ≠ '"') with
    | '"' :: r' => some (Nat.ofDigitChars 10 (d :: ds) 0, r.takeWhile (· ≠ '"'), r')
    | _ => none
  | _, _ => none

mutual

/-- An operand: a literal, a variable, `$test`, `$select`, an operand after a quote, or an
expression in parentheses. -/
def parseAtom : Nat → Text → Option (Expr × Text)
  | 0, _ => none
  | _ + 1, [] => none
  | n + 1, c :: s =>
    if c = '\'' then (parseAtom n s).map fun p => (.not p.1, p.2)
    else if c = '(' then
      match parseExpr n s with
      | some (e, ')' :: r) => some (e, r)
      | _ => none
    else if c = '$' then
      if s.takeWhile Char.isAlpha = "test".toList then some (.test, s.dropWhile Char.isAlpha)
      else if s.takeWhile Char.isAlpha = "select".toList then
        match s.dropWhile Char.isAlpha with
        | '(' :: r => (parseTerms n r).map fun p => (.select p.1, p.2)
        | _ => none
      else none
    else if c.isDigit then
      some (.num (Nat.ofDigitChars 10 ((c :: s).takeWhile Char.isDigit) 0),
        (c :: s).dropWhile Char.isDigit)
    else if c.isAlpha then
      some (.var ((c :: s).takeWhile Char.isAlphanum), (c :: s).dropWhile Char.isAlphanum)
    else none

def parseExpr : Nat → Text → Option (Expr × Text)
  | 0, _ => none
  | n + 1, s => (parseAtom n s).bind fun p => parseTail n p.1 p.2

def parseTail : Nat → Expr → Text → Option (Expr × Text)
  | 0, _, _ => none
  | n + 1, e, s =>
    match parseOp s with
    | none => some (e, s)
    | some (neg, none, r) =>
      (parsePattern r).bind fun p => parseTail n (.pat neg e p.1 p.2.1) p.2.2
    | some (neg, some o, r) =>
      (parseAtom n r).bind fun p => parseTail n (.bin neg o e p.1) p.2

/-- The terms of `$select` up to its closing parenthesis. -/
def parseTerms : Nat → Text → Option (Terms × Text)
  | 0, _ => none
  | n + 1, s =>
    match parseExpr n s with
    | some (c, ':' :: r) =>
      match parseExpr n r with
      | some (v, ',' :: r') => (parseTerms n r').map fun p => (.more c v p.1, p.2)
      | some (v, ')' :: r') => some (.last c v, r')
      | _ => none
    | _ => none

end

/-- The text as one expression: no step is taken more than three times for a sign. -/
def parse (s : Text) : Option Expr :=
  match parseExpr (3 * s.length + 3) s with
  | some (e, []) => some e
  | _ => none

def Op.text : Op → Text
  | .eq => ['=']
  | .gt => ['>']
  | .lt => ['<']
  | .ge => ['>', '=']
  | .le => ['<', '=']
  | .contains => ['[']
  | .follows => [']']
  | .sortsAfter => [']', ']']
  | .and => ['&']
  | .or => ['!']

def opText (neg : Bool) (o : Op) : Text := if neg then '\'' :: o.text else o.text

def Stop (s : Text) : Prop := ∀ c, s.head? = some c → c.isAlphanum = false

def End (s : Text) : Prop := s.head? = some ')' ∨ s.head? = some ':' ∨ s.head? = some ',' ∨ s = []

def Operand (s : Text) : Prop := ∃ c t, s = c :: t ∧ c ≠ '=' ∧ c ≠ ']'

structure Reads (s : Text) (e : Expr) : Prop where
  operand : Operand s
  atom : ∀ fuel rest, 3 * s.length ≤ fuel → Stop rest → parseAtom fuel (s ++ rest) = some (e, rest)

variable {s t l r : Text} {e el er : Expr} {ts : Terms} {neg : Bool} {o : Op} {fuel n : Nat}

theorem Operand.append (h : Operand s) (t : Text) : Operand (s ++ t) := by
  obtain ⟨c, u, rfl, h⟩ := h
  exact ⟨c, u ++ t, rfl, h⟩

theorem Operand.length_pos (h : Operand s) : 1 ≤ s.length := by
  obtain ⟨c, u, rfl, -⟩ := h
  exact Nat.succ_pos _

theorem End.stop (h : End s) : Stop s := by
  intro c hc
  obtain h | h | h | rfl := h
  · rw [h] at hc
    exact Option.some.inj hc ▸ rfl
  · rw [h] at hc
    exact Option.some.inj hc ▸ rfl
  · rw [h] at hc
    exact Option.some.inj hc ▸ rfl
  · exact absurd hc (Option.some_ne_none c).symm

theorem End.parseOp (h : End s) : parseOp s = none := by
  cases s with
  | nil => rfl
  | cons c s =>
    obtain h | h | h | h := h
    · obtain rfl := Option.some.inj h
      rfl
    · obtain rfl := Option.some.inj h
      rfl
    · obtain rfl := Option.some.inj h
      rfl
    · exact absurd h (List.cons_ne_nil c s)

theorem parseOp_opText (hs : Operand s) : parseOp (opText neg o ++ s) = some (neg, some o, s) := by
  obtain ⟨c, t, rfl, heq, hbr⟩ := hs
  have hgt : parsePlain ('>' :: c :: t) = some (some .gt, c :: t) := by
    rw [parsePlain]
    rintro u ⟨rfl, -⟩
    exact heq rfl
  have hlt : parsePlain ('<' :: c :: t) = some (some .lt, c :: t) := by
    rw [parsePlain]
    rintro u ⟨rfl, -⟩
    exact heq rfl
  have hfollows : parsePlain (']' :: c :: t) = some (some .follows, c :: t) := by
    rw [parsePlain]
    rintro u ⟨rfl, -⟩
    exact hbr rfl
  have hplain : parsePlain (o.text ++ c :: t) = some (some o, c :: t) := by
    cases o with
    | gt => exact hgt
    | lt => exact hlt
    | follows => exact hfollows
    | _ => rfl
  cases neg with
  | true =>
    change (parsePlain (o.text ++ c :: t)).map _ = _
    rw [hplain]
    rfl
  | false =>
    have hplain' : MExpr.parseOp (o.text ++ c :: t) = (parsePlain (o.text ++ c :: t)).map
        fun p => (false, p) := by cases o <;> rfl
    change MExpr.parseOp (o.text ++ c :: t) = _
    rw [hplain', hplain]
    rfl

theorem stop_opText (neg : Bool) (o : Op) (s : Text) : Stop (opText neg o ++ s) := by
  intro c hc
  cases neg <;> cases o <;> exact Option.some.inj hc ▸ rfl

theorem parseTail_end (h : End s) (hf : 1 ≤ fuel) (e : Expr) :
    parseTail fuel e s = some (e, s) := by
  obtain ⟨n, rfl⟩ := Nat.exists_eq_add_of_le' hf
  rw [parseTail, h.parseOp]

theorem Reads.expr (h : Reads s e) (ht : End t) (hf : 3 * s.length + 1 ≤ fuel) :
    parseExpr fuel (s ++ t) = some (e, t) := by
  have hlen := h.operand.length_pos
  obtain ⟨n, rfl⟩ := Nat.exists_eq_add_of_le' (show 1 ≤ fuel by omega)
  rw [parseExpr, h.atom n t (by omega) ht.stop, Option.bind_some, parseTail_end ht (by omega)]

theorem reads_paren (h : ∀ fuel t, End t → 3 * s.length + 4 ≤ fuel →
    parseExpr fuel (s ++ t) = some (e, t)) : Reads ('(' :: s ++ [')']) e := by
  refine ⟨⟨'(', s ++ [')'], rfl, by decide, by decide⟩, fun fuel rest hf _ => ?_⟩
  rw [List.length_append, List.length_cons, List.length_singleton] at hf
  obtain ⟨n, rfl⟩ := Nat.exists_eq_add_of_le' (show 1 ≤ fuel by omega)
  have hinner := h n (')' :: rest) (Or.inl rfl) (by omega)
  rw [List.append_assoc, List.cons_append, parseAtom, if_neg (by decide), if_pos rfl,
    List.singleton_append, hinner]
  rfl

theorem Reads.paren (h : Reads s e) : Reads ('(' :: s ++ [')']) e :=
  reads_paren fun _ _ ht hf => h.expr ht (by omega)

theorem Stop.takeWhile {p : Char → Bool} (h : Stop t) (hp : ∀ c, p c = true → c.isAlphanum = true)
    (hs : ∀ c ∈ s, p c = true) : (s ++ t).takeWhile p = s ∧ (s ++ t).dropWhile p = t := by
  have hnot : ∀ c, t.head? = some c → p c = false := fun c hc =>
    Bool.eq_false_iff.mpr fun hpc => Bool.noConfusion ((h c hc).symm.trans (hp c hpc))
  rw [List.takeWhile_append_of_pos hs, List.dropWhile_append_of_pos hs]
  cases t with
  | nil => simp
  | cons c t => simp [hnot c rfl]

theorem reads_digit {d : Char} (hd : d.isDigit = true) : Reads [d] (.num (d.toNat - 48)) := by
  have hne : ∀ c, c.isDigit = false → d ≠ c := fun c hc h => by
    rw [← h, hd] at hc
    exact Bool.noConfusion hc
  refine ⟨⟨d, [], rfl, hne _ rfl, hne _ rfl⟩, fun fuel rest hf hrest => ?_⟩
  rw [List.length_singleton] at hf
  obtain ⟨n, rfl⟩ := Nat.exists_eq_add_of_le' (show 1 ≤ fuel by omega)
  obtain ⟨htake, hdrop⟩ := hrest.takeWhile (p := Char.isDigit) (s := [d])
    (fun c hc => by simp [Char.isAlphanum, hc]) (by simpa using hd)
  rw [List.singleton_append] at htake hdrop ⊢
  rw [parseAtom, if_neg (hne _ rfl), if_neg (hne _ rfl), if_neg (hne _ rfl), if_pos hd, htake,
    hdrop]
  simp [Nat.ofDigitChars]

theorem isDigit_of_isAlpha {d : Char} (h : d.isAlpha = true) : ¬ d.isDigit = true := by
  intro hdig
  change (decide (d.val ≥ 65 ∧ d.val ≤ 90) || (d.val ≥ 97 && d.val ≤ 122)) = true at h
  change (d.val ≥ 48 && d.val ≤ 57) = true at hdig
  simp only [Bool.or_eq_true, Bool.and_eq_true, decide_eq_true_eq, UInt32.le_iff_toNat_le,
    ge_iff_le] at h hdig
  change (65 ≤ d.val.toNat ∧ d.val.toNat ≤ 90) ∨ 97 ≤ d.val.toNat ∧ d.val.toNat ≤ 122 at h
  change 48 ≤ d.val.toNat ∧ d.val.toNat ≤ 57 at hdig
  omega

theorem reads_name (hne : s ≠ []) (hs : ∀ c ∈ s, c.isAlpha = true) : Reads s (.var s) := by
  cases s with
  | nil => exact absurd rfl hne
  | cons d s =>
    have hd : d.isAlpha = true := hs d List.mem_cons_self
    have hneq : ∀ c, c.isAlpha = false → d ≠ c := fun c hc h => by
      rw [← h, hd] at hc
      exact Bool.noConfusion hc
    refine ⟨⟨d, s, rfl, hneq _ rfl, hneq _ rfl⟩, fun fuel rest hf hrest => ?_⟩
    rw [List.length_cons] at hf
    obtain ⟨n, rfl⟩ := Nat.exists_eq_add_of_le' (show 1 ≤ fuel by omega)
    obtain ⟨htake, hdrop⟩ := hrest.takeWhile (p := Char.isAlphanum) (s := d :: s)
      (fun c hc => hc) (fun c hc => by simp [Char.isAlphanum, hs c hc])
    have hdig : ¬ d.isDigit = true := isDigit_of_isAlpha hd
    rw [List.cons_append] at htake hdrop ⊢
    rw [parseAtom, if_neg (hneq _ rfl), if_neg (hneq _ rfl), if_neg (hneq _ rfl), if_neg hdig,
      if_pos hd, htake, hdrop]

theorem reads_test : Reads "$test".toList .test := by
  refine ⟨⟨'$', "test".toList, rfl, by decide, by decide⟩, fun fuel rest hf hrest => ?_⟩
  obtain ⟨n, rfl⟩ := Nat.exists_eq_add_of_le' (show 1 ≤ fuel from le_trans (by decide) hf)
  obtain ⟨htake, hdrop⟩ := hrest.takeWhile (p := Char.isAlpha) (s := "test".toList)
    (fun c hc => by simp [Char.isAlphanum, hc]) (List.all_eq_true.mp rfl)
  have htext : "$test".toList ++ rest = '$' :: ("test".toList ++ rest) := rfl
  rw [htext, parseAtom, if_neg (by decide), if_neg (by decide), if_pos rfl, htake, if_pos rfl,
    hdrop]

theorem reads_not (h : Reads s e) : Reads ('\'' :: s) (.not e) := by
  refine ⟨⟨'\'', s, rfl, by decide, by decide⟩, fun fuel rest hf hrest => ?_⟩
  rw [List.length_cons] at hf
  obtain ⟨n, rfl⟩ := Nat.exists_eq_add_of_le' (show 1 ≤ fuel by omega)
  rw [List.cons_append, parseAtom, if_pos rfl, h.atom n rest (by omega) hrest, Option.map_some]

theorem reads_bin (hl : Reads l el) (hr : Reads r er) :
    Reads ('(' :: (l ++ opText neg o ++ r) ++ [')']) (.bin neg o el er) := by
  refine reads_paren fun fuel t ht hf => ?_
  rw [List.length_append, List.length_append] at hf
  obtain ⟨n, rfl⟩ := Nat.exists_eq_add_of_le' (show 2 ≤ fuel by omega)
  have hlen : 1 ≤ (opText neg o).length := by cases neg <;> cases o <;> decide
  have hatom := hl.atom (n + 1) (opText neg o ++ (r ++ t)) (by omega) (stop_opText neg o _)
  rw [List.append_assoc, List.append_assoc, parseExpr, hatom, Option.bind_some, parseTail,
    parseOp_opText (hr.operand.append t)]
  simp only
  rw [hr.atom n t (by omega) ht.stop, Option.bind_some, parseTail_end ht (by omega)]

theorem parsePattern_eq {d : Char} (hd : d.isDigit = true) (hs : '"' ∉ s) (t : Text) :
    parsePattern (d :: '"' :: s ++ '"' :: t) = some (d.toNat - 48, s, t) := by
  have hall : ∀ c ∈ s, decide (c ≠ '"') = true := fun c hc =>
    decide_eq_true fun h => hs (h ▸ hc)
  have htake : (d :: '"' :: s ++ '"' :: t).takeWhile Char.isDigit = [d] := by
    rw [List.cons_append, List.takeWhile_cons_of_pos hd]
    rfl
  have hdrop : (d :: '"' :: s ++ '"' :: t).dropWhile Char.isDigit = '"' :: (s ++ '"' :: t) := by
    rw [List.cons_append, List.dropWhile_cons_of_pos hd]
    rfl
  rw [parsePattern, htake, hdrop]
  have hrest : (s ++ '"' :: t).dropWhile (· ≠ '"') = '"' :: t := by
    rw [List.dropWhile_append_of_pos hall]
    rfl
  have hstr : (s ++ '"' :: t).takeWhile (· ≠ '"') = s := by
    rw [List.takeWhile_append_of_pos hall]
    exact List.append_nil s
  simp only [hrest, hstr]
  simp [Nat.ofDigitChars]

theorem reads_pat {d : Char} (hl : Reads l el) (hd : d.isDigit = true) (hs : '"' ∉ s) :
    Reads ('(' :: (l ++ ((if neg then ['\'', '?'] else ['?']) ++ d :: '"' :: s ++ ['"'])) ++ [')'])
      (.pat neg el (d.toNat - 48) s) := by
  refine reads_paren fun fuel t ht hf => ?_
  simp only [List.length_append, List.length_cons, List.length_nil] at hf
  obtain ⟨n, rfl⟩ := Nat.exists_eq_add_of_le' (show 2 ≤ fuel by omega)
  have hstop : ∀ u, Stop ((if neg then ['\'', '?'] else ['?']) ++ u) := by
    intro u c hc
    cases neg <;> exact Option.some.inj hc ▸ rfl
  have hop : ∀ u, parseOp ((if neg then ['\'', '?'] else ['?']) ++ u) = some (neg, none, u) := by
    intro u
    cases neg <;> rfl
  have hatom := hl.atom (n + 1) ((if neg then ['\'', '?'] else ['?']) ++
    (d :: '"' :: s ++ '"' :: t)) (by omega) (hstop _)
  have htext : l ++ ((if neg then ['\'', '?'] else ['?']) ++ d :: '"' :: s ++ ['"']) ++ t =
      l ++ ((if neg then ['\'', '?'] else ['?']) ++ (d :: '"' :: s ++ '"' :: t)) := by simp
  rw [htext, parseExpr, hatom, Option.bind_some, parseTail, hop]
  simp only
  rw [parsePattern_eq hd hs, Option.bind_some, parseTail_end ht (by omega)]

/-- The terms of a `$select`, up to the parenthesis that ends it. -/
def ReadsTerms (s : Text) (ts : Terms) : Prop :=
  ∀ fuel rest, 3 * s.length ≤ fuel → parseTerms fuel (s ++ ')' :: rest) = some (ts, rest)

theorem readsTerms_last (hl : Reads l el) (hr : Reads r er) :
    ReadsTerms (l ++ ':' :: r) (.last el er) := by
  intro fuel rest hf
  rw [List.length_append, List.length_cons] at hf
  have hlen := hl.operand.length_pos
  obtain ⟨n, rfl⟩ := Nat.exists_eq_add_of_le' (show 1 ≤ fuel by omega)
  have hc := hl.expr (t := ':' :: (r ++ ')' :: rest)) (Or.inr (Or.inl rfl))
    (show 3 * l.length + 1 ≤ n by omega)
  have hv := hr.expr (t := ')' :: rest) (Or.inl rfl) (show 3 * r.length + 1 ≤ n by omega)
  rw [List.append_assoc, List.cons_append, parseTerms, hc]
  simp only [hv]

theorem readsTerms_more (hl : Reads l el) (hr : Reads r er) (ht : ReadsTerms t ts) :
    ReadsTerms (l ++ ':' :: r ++ ',' :: t) (.more el er ts) := by
  intro fuel rest hf
  simp only [List.length_append, List.length_cons] at hf
  have hlen := hl.operand.length_pos
  obtain ⟨n, rfl⟩ := Nat.exists_eq_add_of_le' (show 1 ≤ fuel by omega)
  have hc := hl.expr (t := ':' :: (r ++ ',' :: (t ++ ')' :: rest))) (Or.inr (Or.inl rfl))
    (show 3 * l.length + 1 ≤ n by omega)
  have hv := hr.expr (t := ',' :: (t ++ ')' :: rest)) (Or.inr (Or.inr (Or.inl rfl)))
    (show 3 * r.length + 1 ≤ n by omega)
  have htext : l ++ ':' :: r ++ ',' :: t ++ ')' :: rest =
      l ++ ':' :: (r ++ ',' :: (t ++ ')' :: rest)) := by simp
  rw [htext, parseTerms, hc]
  simp only [hv, ht n rest (by omega), Option.map_some]

theorem reads_select (ht : ReadsTerms t ts) :
    Reads ('(' :: ("$select(".toList ++ t ++ [')']) ++ [')']) (.select ts) := by
  refine reads_paren fun fuel u hu hf => ?_
  simp only [List.length_append, List.length_cons, List.length_nil] at hf
  obtain ⟨n, rfl⟩ := Nat.exists_eq_add_of_le' (show 3 ≤ fuel by omega)
  have htext : "$select(".toList ++ t ++ [')'] ++ u =
      '$' :: ("select".toList ++ '(' :: (t ++ ')' :: u)) := by simp
  have htake : ("select".toList ++ '(' :: (t ++ ')' :: u)).takeWhile Char.isAlpha =
      "select".toList := rfl
  have hdrop : ("select".toList ++ '(' :: (t ++ ')' :: u)).dropWhile Char.isAlpha =
      '(' :: (t ++ ')' :: u) := rfl
  have hatom : parseAtom (n + 2) ('$' :: ("select".toList ++ '(' :: (t ++ ')' :: u))) =
      some (.select ts, u) := by
    rw [parseAtom, if_neg (by decide), if_neg (by decide), if_pos rfl, htake,
      if_neg (by decide), if_pos rfl, hdrop]
    simp only [ht (n + 1) u (by omega), Option.map_some]
  rw [htext, parseExpr, hatom, Option.bind_some, parseTail_end hu (by omega)]

theorem parse_of_reads (h : Reads s e) : parse s = some e := by
  have hs : parseExpr (3 * s.length + 3) (s ++ []) = some (e, []) :=
    h.expr (Or.inr (Or.inr (Or.inr rfl))) (by omega)
  rw [List.append_nil] at hs
  rw [parse, hs]

end YdbTest.MExpr
