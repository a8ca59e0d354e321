import YdbTest.MString

namespace YdbTest.MsgDirective

open MString

inductive StrType where
  | C | D | F | S | Z

inductive Sign where
  | S | U | Z

inductive Size where
  | B | W | L | J | Q

inductive HexSize where
  | B | W | L | J

inductive FarSign where
  | U | X | Z

inductive FarSize where
  | J | Q

def StrType.char : StrType → Nat
  | .C => 67
  | .D => 68
  | .F => 70
  | .S => 83
  | .Z => 90

def Sign.char : Sign → Nat
  | .S => 83
  | .U => 85
  | .Z => 90

def Size.char : Size → Nat
  | .B => 66
  | .W => 87
  | .L => 76
  | .J => 74
  | .Q => 81

def HexSize.char : HexSize → Nat
  | .B => 66
  | .W => 87
  | .L => 76
  | .J => 74

def FarSign.char : FarSign → Nat
  | .U => 85
  | .X => 88
  | .Z => 90

def FarSize.char : FarSize → Nat
  | .J => 74
  | .Q => 81

/-- What an argument is: `A...`, `S...`, `U...` or `Z...`, `X...`, `@...` and `*c`. -/
inductive Kind where
  | str (t : StrType)
  | num (s : Sign) (z : Size)
  | hex (z : HexSize)
  | far (s : FarSign) (z : FarSize)
  | star (c : Nat)

def Kind.source : Kind → Str
  | .str t => [65, t.char]
  | .num s z => [s.char, z.char]
  | .hex z => [88, z.char]
  | .far s z => [64, s.char, z.char]
  | .star c => [42, c]

/-- How its type is recorded: the character that is repeated is not. -/
def Kind.type : Kind → Str
  | .star _ => lit "*c"
  | k => k.source

theorem type_str (t : StrType) : (Kind.str t).type = [65, t.char] := rfl

theorem type_num (s : Sign) (z : Size) : (Kind.num s z).type = [s.char, z.char] := rfl

theorem type_hex (z : HexSize) : (Kind.hex z).type = [88, z.char] := rfl

theorem type_far (s : FarSign) (z : FarSize) : (Kind.far s z).type = [64, s.char, z.char] := rfl

/-- An argument of a message with its width; only `!n*c` has to have one. -/
structure Directive where
  digits : Str
  kind : Kind
  digit : ∀ c ∈ digits, isDigit c = true
  width_of_star : ∀ c, kind = .star c → digits ≠ []

def Directive.source (d : Directive) : Str := d.digits ++ d.kind.source

def Directive.type (d : Directive) : Str :=
  (if d.digits = [] then [] else 110 :: d.digits) ++ d.kind.type

end YdbTest.MsgDirective
