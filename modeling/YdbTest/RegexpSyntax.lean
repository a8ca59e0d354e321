import YdbTest.Regexp

namespace YdbTest.RegexpSyntax

open Regexp

abbrev Text := List Char

abbrev Expr := Ere Char

/-- The alternatives of a group that are complete, the last one first, and what has been read of
the one that is not, also from the end. -/
structure Group where
  alts : List Expr
  seq : List Expr

/-- A bracket expression: the characters it has so far, the last one, which may begin a range, and
whether a hyphen, a backslash, or a bracket that may begin the name of a class, has been read. -/
structure Bracket where
  neg : Bool
  start : Bool
  set : Char → Bool
  last : Option Char
  hyphen : Bool
  escape : Bool
  bracket : Bool

inductive Mode where
  | plain
  | escape
  /-- The digits of a character code: how many may follow, and whether there has been one. -/
  | code (base rest value : Nat) (digits : Bool)
  | bracket (b : Bracket)
  | className (b : Bracket) (name : Text)
  | interval (text : Text)

structure State where
  outer : List Group
  group : Group
  mode : Mode

def anchor : Expr → Bool
  | .look _ => true
  | _ => false

def wordChar (c : Char) : Bool := c.isAlphanum || c == '_'

def blankChar (c : Char) : Bool :=
  c == ' ' || c == '\t' || c == '\n' || c == '\r' || c == '\x0b' || c == '\x0c'

def opens (a b : Option Char) : Bool := !a.any wordChar && b.any wordChar

def closes (a b : Option Char) : Bool := a.any wordChar && !b.any wordChar

def Group.close (g : Group) : Expr := g.alts.foldl (fun r q => .alt q r) (sequence g.seq.reverse)

def State.push (st : State) (r : Expr) : State :=
  { st with group := { st.group with seq := r :: st.group.seq }, mode := .plain }

def State.repeatable (st : State) : Bool := (st.group.seq.head?).any fun r => !anchor r

def State.again (st : State) (f : Expr → Expr) : State :=
  { st with group := { st.group with seq := st.group.seq.modifyHead f }, mode := .plain }

/-- A sign of repetition stands for itself where there is nothing to repeat, and so does a closing
parenthesis that has not been opened. -/
def plain (st : State) (c : Char) : State :=
  match c with
  | '\\' => { st with mode := .escape }
  | '[' => { st with mode := .bracket ⟨false, true, fun _ => false, none, false, false, false⟩ }
  | '(' => { st with outer := st.group :: st.outer, group := ⟨[], []⟩ }
  | ')' =>
    match st.outer with
    | [] => st.push (char ')')
    | g :: outer => { st with outer := outer, group := { g with seq := st.group.close :: g.seq } }
  | '|' => { st with group := ⟨sequence st.group.seq.reverse :: st.group.alts, []⟩ }
  | '*' => if st.repeatable then st.again .star else st.push (char '*')
  | '+' => if st.repeatable then st.again fun r => .cat r (.star r) else st.push (char '+')
  | '?' => if st.repeatable then st.again fun r => .alt r .eps else st.push (char '?')
  | '\x7b' => if st.repeatable then { st with mode := .interval [] } else st.push (char '\x7b')
  | '.' => st.push (.sym fun _ => true)
  | '^' => st.push (.look fun a _ => a.isNone)
  | '$' => st.push (.look fun _ b => b.isNone)
  | c => st.push (char c)

def control (c : Char) : Char :=
  match c with
  | 'a' => '\x07'
  | 'b' => '\x08'
  | 'f' => '\x0c'
  | 'n' => '\n'
  | 'r' => '\r'
  | 't' => '\t'
  | 'v' => '\x0b'
  | c => c

def escape (st : State) (c : Char) : State :=
  match c with
  | 'x' => { st with mode := .code 16 2 0 false }
  | 'y' => st.push (.look fun a b => opens a b || closes a b)
  | 'B' => st.push (.look fun a b => !(opens a b || closes a b))
  | '<' => st.push (.look opens)
  | '>' => st.push (.look closes)
  | '\x60' => st.push (.look fun a _ => a.isNone)
  | '\x27' => st.push (.look fun _ b => b.isNone)
  | 'w' => st.push (.sym wordChar)
  | 'W' => st.push (.sym fun d => !wordChar d)
  | 's' => st.push (.sym blankChar)
  | 'S' => st.push (.sym fun d => !blankChar d)
  | c =>
    if '0' ≤ c ∧ c ≤ '7' then { st with mode := .code 8 2 (c.toNat - 48) true }
    else st.push (char (control c))

def digit (base : Nat) (c : Char) : Option Nat :=
  if c.isDigit ∧ c.toNat - 48 < base then some (c.toNat - 48)
  else if base = 16 ∧ 'a' ≤ c ∧ c ≤ 'f' then some (c.toNat - 87)
  else if base = 16 ∧ 'A' ≤ c ∧ c ≤ 'F' then some (c.toNat - 55)
  else none

def State.pushCode (st : State) (value : Nat) (digits : Bool) : State :=
  st.push (char (if digits then Char.ofNat value else 'x'))

def Bracket.add (b : Bracket) (c : Char) : Option Bracket :=
  match b.hyphen, b.last with
  | true, some a =>
    if a ≤ c then
      some { b with start := false, set := fun d => b.set d || (a ≤ d && d ≤ c), last := none,
                    hyphen := false, escape := false, bracket := false }
    else none
  | _, _ =>
    some { b with start := false, set := fun d => b.set d || d == c, last := some c,
                  hyphen := false, escape := false, bracket := false }

def Bracket.close (b : Bracket) : Expr :=
  .sym fun d => (b.set d || (b.hyphen && d == '-')) != b.neg

def classOf (name : Text) : Option (Char → Bool) :=
  match String.ofList name with
  | "alpha" => some Char.isAlpha
  | "digit" => some Char.isDigit
  | "alnum" => some Char.isAlphanum
  | "upper" => some Char.isUpper
  | "lower" => some Char.isLower
  | "space" => some blankChar
  | "blank" => some fun c => c == ' ' || c == '\t'
  | "punct" => some fun c => '!' ≤ c && c ≤ '~' && !c.isAlphanum
  | "print" => some fun c => ' ' ≤ c && c ≤ '~'
  | "graph" => some fun c => '!' ≤ c && c ≤ '~'
  | "cntrl" => some fun c => c < ' ' || c == '\x7f'
  | "xdigit" => some fun c => (digit 16 c).isSome
  | _ => none

def inBracket (st : State) (b : Bracket) (c : Char) : Option State :=
  let goto (b : Bracket) : State := { st with mode := .bracket b }
  if b.escape then
    (b.add (control c)).map goto
  else if b.bracket ∧ c = ':' then some { st with mode := .className { b with bracket := false } [] }
  else do
    let b ← if b.bracket then b.add '[' else some b
    if c = '[' then some (goto { b with bracket := true })
    else if c = '\\' then some (goto { b with escape := true })
    else if c = '^' ∧ b.start ∧ !b.neg then some (goto { b with neg := true })
    else if c = ']' ∧ !b.start then some (st.push b.close)
    else if c = '-' ∧ b.last.isSome ∧ !b.hyphen then some (goto { b with hyphen := true })
    else (b.add c).map goto

def inClass (st : State) (b : Bracket) (name : Text) (c : Char) : Option State :=
  if c = ']' ∧ name.getLast? = some ':' then
    (classOf name.dropLast).map fun p =>
      { st with mode := .bracket { b with start := false, set := fun d => b.set d || p d,
                                          last := none } }
  else some { st with mode := .className b (name ++ [c]) }

def number (s : Text) : Nat := s.foldl (fun n c => 10 * n + (c.toNat - 48)) 0

def repeated (r : Expr) (n : Nat) : Expr := sequence (List.replicate n r)

/-- `{m}`, `{m,}` and `{m,n}`, where `m` may be left out before the comma. -/
def bounds (text : Text) : Option (Nat × Option Nat) :=
  match text.splitOn ',' with
  | [m] => if m = [] then none else some (number m, some (number m))
  | [m, n] => if m ++ n = [] then none else some (number m, if n = [] then none else number n)
  | _ => none

/-- At least `m` times, and at most `n` times if there is such a bound. -/
def between (m : Nat) (n : Option Nat) (r : Expr) : Expr :=
  .cat (repeated r m) (match n with | none => .star r | some n => repeated (.alt r .eps) (n - m))

def State.interval (st : State) (text : Text) : Option State :=
  match bounds text with
  | none => some ((('\x7b' :: text).foldl (fun st c => st.push (char c)) st).push (char '\x7d'))
  | some (m, n) =>
    if m ≤ n.getD m ∧ n.getD m ≤ 32767 then some (st.again (between m n)) else none

/-- One character is read; `none` is an error. -/
def step (st : State) (c : Char) : Option State :=
  match st.mode with
  | .plain => some (plain st c)
  | .escape => some (escape st c)
  | .code base rest value digits =>
    match rest, digit base c with
    | rest + 1, some d => some { st with mode := .code base rest (base * value + d) true }
    | _, _ => some (plain (st.pushCode value digits) c)
  | .bracket b => inBracket st b c
  | .className b name => inClass st b name c
  | .interval text =>
    if c.isDigit ∨ c = ',' then some { st with mode := .interval (text ++ [c]) }
    else if c = '\x7d' then st.interval text
    else some (plain (('\x7b' :: text).foldl (fun st c => st.push (char c)) st) c)

def start : State := ⟨[], ⟨[], []⟩, .plain⟩

def finish (st : State) : Option Expr :=
  let st :=
    match st.mode with
    | .code _ _ value digits => st.pushCode value digits
    | .interval text => ('\x7b' :: text).foldl (fun st c => st.push (char c)) st
    | _ => st
  match st.mode, st.outer with
  | .plain, [] => some st.group.close
  | _, _ => none

def parse (s : Text) : Option Expr := (s.foldlM step start).bind finish

end YdbTest.RegexpSyntax
