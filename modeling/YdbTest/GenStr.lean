import YdbTest.MString

namespace YdbTest.GenStr

open MString

/-- What the generators read of their process: `gtm_chset`, the release number
in `gtm_exe`, and `$zversion["VMS"`. -/
structure Env where
  utf8 : Bool
  flag : Nat
  vms : Bool

/-- The character `genstr` appends, `$ZCH` or `$C` by release. -/
def genstrChar (env : Env) (c : Nat) : Str :=
  if !env.vms && 51 < env.flag then zchar c else char env.utf8 c

/-- The loop of `genstr`: `num` in base `radix`, the lowest digit first. -/
def genstrLoop (env : Env) (radix offset num : Nat) (str : Str) : Str :=
  (Nat.digits radix num).foldl (fun str temp => str ++ genstrChar env (offset + temp)) str

def genstr (env : Env) (int : Nat) : Str :=
  match int % 8 with
  | 0 => decimal (314 * int) 2
  | 1 => neg (decimal (314 * int) 2)
  | 2 => dec int
  | 3 => neg (dec int)
  | 4 => genstrLoop env 256 0 int [0, 1, 2, 3, 4, 5, 6, 7, 8, 9, 10, 0]
  | 5 => genstrLoop env 26 65 int (lit "ABCDEFGHIJKLMNOPQRSTUVWXYZ")
  | 6 => genstrLoop env 26 97 int (lit "abcdefghijklmnopqrstuvwxyz")
  | _ => genstrLoop env 26 65 int (lit "%")

def template : Str := lit "ABCDEFGHIJKLMNOPQRSTUVWXYZ0123456789abcdefghijklmnopqrstuvwxyz"

/-- `$ZCHAR(127,128,129,130,254,255)`, or the same of `$CHAR` without illegal bytes. -/
def marker (env : Env) (type : Nat) : Str :=
  [127, 128, 129, 130, 254, 255].flatMap (if type = 0 then zchar else char env.utf8)

def offset (dint : Nat) : Nat :=
  match dint with
  | 1 => 0
  | 2 => 48
  | 3 => 128
  | 4 => 2048
  | 5 => 65536
  | 6 => 196608
  | 7 => 983040
  | _ => 1113856

/-- The loop of `ugenstr`: `num` in base ten, the highest digit first. -/
def ugenstrLoop (env : Env) (offset num : Nat) : Str :=
  (Nat.digits 10 num).foldl (fun str temp => char env.utf8 (offset + temp) ++ str) []

def ugenstr (env : Env) (int type : Nat) : Str :=
  let type := if env.utf8 then type else 2
  if type = 2 then genstr env int
  else
    match int % 13 with
    | 0 => dec int
    | 1 => neg (dec int)
    | 2 => decimal (31415692 * int) 7
    | 3 => neg (decimal (31415692 * int) 7)
    | 4 => extract env.utf8 template (int % 13) (int % 61) ++ marker env type ++ dec int
    | itemno => ugenstrLoop env (offset (itemno - 4)) int

end YdbTest.GenStr
