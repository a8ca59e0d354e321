import Mathlib.Data.List.Forall2
import Mathlib.Tactic.Common
import YdbTest.MsgDirective

namespace YdbTest.Getmsginfo

open MString MsgDirective

/-- What is recorded of an argument; a line only when the messages are not for the syslog. -/
structure Arg where
  type : Str
  line : Option Nat
  preChars : Str
  postChars : Str

def START : Str := lit "<START>"

def END : Str := lit "<END>"

def TAB : Str := lit "<TAB>"

def NEWLINE : Str := lit "<NEWLINE>"

def twoChars (n : Nat) (type : Str) (c : Nat) (r second : Str) : Option (Nat × Str) :=
  match r with
  | [] => none
  | t :: _ => if t ∈ second then some (n + 2, type ++ [c, t]) else none

/-- Check whether we have an argument encoding at the front of what follows an exclamation mark. -/
def getMsgArgLength (s : Str) : Option (Nat × Str) :=
  let digits := s.takeWhile isDigit
  let n := digits.length
  let type := if digits = [] then [] else 110 :: digits
  match s.dropWhile isDigit with
  | [] => none
  | c :: r =>
    if digits ≠ [] ∧ c = 42 then
      match r with
      | [] => none
      | _ :: _ => some (n + 2, type ++ lit "*c")
    else if c = 64 then
      match r with
      | u :: z :: _ =>
        if u ∈ lit "UXZ" ∧ z ∈ lit "JQ" then some (n + 3, type ++ [64, u, z]) else none
      | _ => none
    else if c = 65 then twoChars n type c r (lit "CDFSZ")
    else if c ∈ lit "SUZ" then twoChars n type c r (lit "BWLJQ")
    else if c = 88 then twoChars n type c r (lit "BWLJ")
    else none

/-- The variables of the loop, and the arguments found so far. -/
structure State where
  args : List Arg
  line : Nat
  preChars : Str
  postChars : Str
  postCharsFlushed : Bool

def start : State := ⟨[], 1, START, [], false⟩

def setPost (post : Str) : List Arg → List Arg
  | [] => []
  | [a] => [{ a with postChars := post }]
  | a :: b :: as => a :: setPost post (b :: as)

def addPre (preChars char : Str) : Str := if preChars = START then char else preChars ++ char

def State.char (st : State) (char : Str) : State :=
  { st with
    preChars := addPre st.preChars char
    postChars := if st.postCharsFlushed then st.postChars else st.postChars ++ char }

def State.argument (inSyslog : Bool) (st : State) (type : Str) : State :=
  { args := setPost st.postChars st.args ++
      [⟨type, if inSyslog then none else some st.line, st.preChars, []⟩]
    line := st.line
    preChars := []
    postChars := []
    postCharsFlushed := false }

/-- `!/`, a newline, if the messages are not for the syslog. -/
def State.newline (st : State) : State :=
  { st with
    line := st.line + 1
    preChars := START
    postChars := if st.postChars = [] then END else st.postChars
    postCharsFlushed := true }

def scan (inSyslog : Bool) (st : State) : Str → State
  | [] => st
  | c :: s =>
    if c = 33 then
      match getMsgArgLength s with
      | some (n, type) => scan inSyslog (st.argument inSyslog type) (s.drop n)
      | none =>
        match s with
        | [] => scan inSyslog (st.char [33]) []
        | e :: r =>
          if e = 33 then scan inSyslog (st.char [33]) r
          else if e = 95 then scan inSyslog (st.char TAB) r
          else if e = 47 then
            if inSyslog then scan inSyslog (st.char NEWLINE) r else scan inSyslog st.newline r
          else scan inSyslog (st.char [33]) (e :: r)
    else scan inSyslog (st.char [c]) s
termination_by s => s.length

def detab (msg : Str) : Str := (lit "!_").intercalate (msg.splitOn 9)

/-- The arguments of a message, in the order of their numbers. -/
def getMsgArgCount (inSyslog : Bool) (msg : Str) : List Arg :=
  let st := scan inSyslog start (detab msg)
  setPost (if st.postChars = [] then END else st.postChars) st.args

/-- What the text of a message is made of. -/
inductive Token where
  | char (c : Nat) (notBang : c ≠ 33) (notTab : c ≠ 9)
  | tab
  | bang
  | under
  | slash
  | arg (d : Directive)

def Token.source : Token → Str
  | .char c _ _ => [c]
  | .tab => [9]
  | .bang => lit "!!"
  | .under => lit "!_"
  | .slash => lit "!/"
  | .arg d => 33 :: d.source

def source (ts : List Token) : Str := ts.flatMap Token.source

def Token.text : Token → Str
  | .char c _ _ => [c]
  | .tab | .under => TAB
  | .bang => [33]
  | .slash => NEWLINE
  | .arg _ => []

def text (ts : List Token) : Str := ts.flatMap Token.text

/-- Literal text that ends neither at a directive nor at the end of a line. -/
def literal (inSyslog : Bool) : Token → Bool
  | .arg _ => false
  | .slash => inSyslog
  | _ => true

/-- A directive with the literal text on both sides, and whether the line begins before it or ends
after it. -/
structure Place where
  directive : Directive
  line : Nat
  first : Bool
  before : List Token
  after : List Token
  last : Bool

def endsLine (inSyslog : Bool) (ts : List Token) : Bool :=
  match ts.dropWhile (literal inSyslog) with
  | .arg _ :: _ => false
  | _ => true

/-- The directives of a text, from left to right. -/
def places (inSyslog : Bool) : Nat → Bool → List Token → List Token → List Place
  | _, _, _, [] => []
  | line, first, before, .arg d :: ts =>
    ⟨d, line, first, before, ts.takeWhile (literal inSyslog), endsLine inSyslog ts⟩ ::
      places inSyslog line false [] ts
  | line, first, before, .slash :: ts =>
    if inSyslog then places inSyslog line first (before ++ [.slash]) ts
    else places inSyslog (line + 1) true [] ts
  | line, first, before, t :: ts => places inSyslog line first (before ++ [t]) ts

/-- What is recorded of a directive is what it is and where it stands. -/
structure Records (inSyslog : Bool) (p : Place) (a : Arg) : Prop where
  type : a.type = p.directive.type
  line : inSyslog = false → a.line = some p.line
  start : a.preChars = START ↔ p.first = true ∧ p.before = []
  pre : ¬ (p.first = true ∧ p.before = []) → a.preChars = text p.before
  ends : a.postChars = END ↔ p.last = true ∧ p.after = []
  post : ¬ (p.last = true ∧ p.after = []) → a.postChars = text p.after

structure Right (inSyslog : Bool) (ts : List Token) (args : List Arg) : Prop where
  records : List.Forall₂ (Records inSyslog) (places inSyslog 1 true [] ts) args
  /-- On one line the text behind an argument is the text before the next one. -/
  joined : ((places inSyslog 1 true [] ts).zip args).IsChain fun x y =>
    y.1.first = false → x.2.postChars = y.2.preChars

/-- No text around a directive looks like a mark, and no tab is repeated. -/
structure Clear (p : Place) : Prop where
  star : p.directive.kind ≠ .star 9
  start : ¬ START <+: text p.before
  ends : text p.after ≠ END

end YdbTest.Getmsginfo
