import Mathlib.Data.Nat.Digits.Lemmas
import Mathlib.Tactic

namespace YdbTest.MString

abbrev Str := List Nat

def lit (s : String) : Str := s.toList.map Char.toNat

def space : Nat := 32

def bar : Nat := 124

def isTail (b : Nat) : Bool := 128 ≤ b && b ≤ 191

/-- Whether `b` may follow the lead byte `a`: no overlong form, no surrogate,
nothing past the last code point. -/
def second (a b : Nat) : Bool :=
  isTail b && !(a == 224 && b < 160) && !(a == 237 && 160 ≤ b) && !(a == 240 && b < 144) &&
    !(a == 244 && 144 ≤ b)

/-- How many bytes the character at the front takes in UTF-8 mode. A byte that
starts no well-formed sequence is a character of its own. -/
def charLen : Str → Nat
  | a :: b :: c :: d :: _ =>
    if 194 ≤ a && a ≤ 223 && isTail b then 2
    else if 224 ≤ a && a ≤ 239 && second a b && isTail c then 3
    else if 240 ≤ a && a ≤ 244 && second a b && isTail c && isTail d then 4
    else 1
  | [a, b, c] =>
    if 194 ≤ a && a ≤ 223 && isTail b then 2
    else if 224 ≤ a && a ≤ 239 && second a b && isTail c then 3
    else 1
  | [a, b] => if 194 ≤ a && a ≤ 223 && isTail b then 2 else 1
  | _ => 1

def charsAux (utf8 : Bool) : Nat → Str → List Str
  | _, [] => []
  | 0, _ => []
  | n + 1, a :: s =>
    let k := if utf8 then charLen (a :: s) else 1
    (a :: s).take k :: charsAux utf8 n ((a :: s).drop k)

def chars (utf8 : Bool) (s : Str) : List Str := charsAux utf8 s.length s

/-- `$length(s)` and `$zlength(s)`. -/
def length (utf8 : Bool) (s : Str) : Nat := (chars utf8 s).length

def zlength (s : Str) : Nat := List.length s

def extract (utf8 : Bool) (s : Str) (i j : Nat) : Str :=
  (((chars utf8 s).take j).drop (i - 1)).flatten

/-- `set $extract(s,i)=v` for a position within the string. -/
def setExtract (utf8 : Bool) (s : Str) (i : Nat) (v : Str) : Str :=
  ((chars utf8 s).set (i - 1) v).flatten

def justify (utf8 : Bool) (s : Str) (n : Nat) : Str :=
  List.replicate (n - length utf8 s) space ++ s

/-- `$length(s,d)` for a one-byte delimiter. -/
def pieces (s : Str) (d : Nat) : Nat := (s.splitOn d).length

def piece (s : Str) (d n : Nat) : Str := if n = 0 then [] else (s.splitOn d).getD (n - 1) []

/-- `set $piece(s,d,n)=v`, which fills up with empty pieces; piece 0 changes nothing. -/
def setPiece (s : Str) (d n : Nat) (v : Str) : Str :=
  if n = 0 then s
  else
    let ps := s.splitOn d
    [d].intercalate ((ps ++ List.replicate (n - ps.length) []).set (n - 1) v)

/-- `$translate(s,a,"")` and `$translate(s,a,b)` for single bytes. -/
def translateOut (s : Str) (a : Nat) : Str := s.filter (· != a)

def translate (s : Str) (a b : Nat) : Str := s.map (fun c => if c = a then b else c)

/-- `$zchar(c)` is the byte `c`, `$char(c)` in UTF-8 mode the encoding of the code point `c`. -/
def utf8Char (c : Nat) : Str :=
  if c < 128 then [c]
  else if c < 2048 then [192 + c / 64, 128 + c % 64]
  else if c < 65536 then [224 + c / 4096, 128 + c / 64 % 64, 128 + c % 64]
  else [240 + c / 262144, 128 + c / 4096 % 64, 128 + c / 64 % 64, 128 + c % 64]

def char (utf8 : Bool) (c : Nat) : Str := if utf8 then utf8Char c else [c]

def zchar (c : Nat) : Str := [c]

def digitsStr (ds : List Nat) : Str := ds.reverse.map (48 + ·)

def digits (n : Nat) : Str := digitsStr (Nat.digits 10 n)

/-- The canonical string of a natural number. -/
def dec (n : Nat) : Str := if n = 0 then [48] else digits n

/-- The last `scale` decimal digits, the lowest first. -/
def lastDigits : Nat → Nat → List Nat
  | 0, _ => []
  | scale + 1, m => m % 10 :: lastDigits scale (m / 10)

/-- The digits of `m / 10^scale` after the point, without trailing zeros. -/
def fracDigits (scale m : Nat) : Str := digitsStr ((lastDigits scale m).dropWhile (· == 0))

/-- The canonical string of the number `m / 10^scale`. -/
def decimal (m scale : Nat) : Str :=
  if fracDigits scale m = [] then dec (m / 10 ^ scale)
  else digits (m / 10 ^ scale) ++ 46 :: fracDigits scale m

def neg (s : Str) : Str := if s = [48] then s else 45 :: s

def isDigit (c : Nat) : Bool := 48 ≤ c && c ≤ 57

def readNumber : Bool → Nat → Nat → Str → Nat × Nat
  | _, m, scale, [] => (m, scale)
  | dot, m, scale, c :: s =>
    if isDigit c then readNumber dot (10 * m + (c - 48)) (if dot then scale + 1 else scale) s
    else if c == 46 && !dot then readNumber true m scale s
    else (m, scale)

/-- The numeric value M gives a string that starts like a decimal number: the
sign, and the digits as a fraction. -/
def number : Str → Bool × Nat × Nat
  | 45 :: s => (true, readNumber false 0 0 s)
  | s => (false, readNumber false 0 0 s)

/-- The value of a string as a natural number, as `+s` gives it for one. -/
def toNat (s : Str) : Nat := (number s).2.1

end YdbTest.MString
