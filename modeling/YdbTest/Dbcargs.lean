import YdbTest.MString
import Mathlib.Data.Rat.Floor

namespace YdbTest.Dbcargs

open MString

/-- The subscripts of `args`, those of `defargs` first. -/
inductive Arg where
  | file_name | n_regions | key_size | record_size | block_size | allocation | global_buffer_count
  | extension_count | reserved_bytes | collation_default | null_subscripts | access_method
  | acc_meth_env | journal | test_collation | test_stdnull_collation | test_gtcm | qdbrundown
  | freeze | name_override | different_gld | gld_has_db_fullpath | acces_meth_env | acces_method
  | template | test_stats | null
  deriving DecidableEq

def defargs : List (Arg × Str) :=
  [(.file_name, lit "file_name"), (.n_regions, lit "n_regions"), (.key_size, lit "key_size"),
   (.record_size, lit "record_size"), (.block_size, lit "block_size"),
   (.allocation, lit "allocation"), (.global_buffer_count, lit "global_buffer_count"),
   (.extension_count, lit "extension_count"), (.reserved_bytes, lit "reserved_bytes"),
   (.collation_default, lit "collation_default"), (.null_subscripts, lit "null_subscripts"),
   (.access_method, lit "access_method"), (.acc_meth_env, lit "acc_meth_env"),
   (.journal, lit "journal"), (.test_collation, lit "test_collation"),
   (.test_stdnull_collation, lit "test_stdnull_collation"), (.test_gtcm, lit "test_gtcm"),
   (.qdbrundown, lit "qdbrundown"), (.freeze, lit "freeze")]

abbrev Args := Arg → Option Str

def hyphen : Nat := 45

def comma : Nat := 44

def equals : Nat := 61

def upper (s : Str) : Str := s.map fun c => if 97 ≤ c ∧ c ≤ 122 then c - 32 else c

def lower (s : Str) : Str := s.map fun c => if 65 ≤ c ∧ c ≤ 90 then c + 32 else c

/-- The number `m / 10^scale`. -/
def ofDecimal (d : Nat × Nat) : Rat := (d.1 : Rat) / (10 ^ d.2 : Nat)

/-- `+s` for a string without upper-case letters, and so without an exponent. -/
def num : Str → Rat
  | [] => 0
  | c :: s =>
    if c = hyphen then -num s
    else if c = 43 then num s
    else ofDecimal (readNumber false 0 0 (c :: s))

def canon (q : Rat) : Str :=
  let s := decimal ⌊|q| * (10 ^ 18 : Nat)⌋₊ 18
  if q < 0 then neg s else s

/-- What `$random(n)` gives for the drawn number `r`; an argument below one is an error. -/
def random (r : Nat) (n : Rat) : Option Nat := if n < 1 then none else some (r % ⌊n⌋₊)

/-- The patterns `key?1"s".e` and `key="s"`. -/
inductive Test where
  | front (s : String)
  | whole (s : String)

def Test.fits : Test → Str → Bool
  | .front s, key => (lit s).isPrefixOf key
  | .whole s, key => decide (key = lit s)

def tests (value : Str) : List (Test × Bool × Option (Arg × Str)) :=
  [(.front "imptp", false, none),
   (.front "f", true, some (.name_override, value)),
   (.whole "name_override", true, some (.name_override, value)),
   (.whole "different_gld", false, some (.different_gld, lit "1")),
   (.whole "gld_has_db_fullpath", false, some (.gld_has_db_fullpath, lit "1")),
   (.whole "n_regions", true, some (.n_regions, value)),
   (.front "k", true, some (.key_size, value)),
   (.front "rec", true, some (.record_size, value)),
   (.front "bl", true, some (.block_size, value)),
   (.front "al", true, some (.allocation, value)),
   (.front "glo", true, some (.global_buffer_count, value)),
   (.front "e", true, some (.extension_count, value)),
   (.front "res", true, some (.reserved_bytes, value)),
   (.front "c", true, some (.collation_default, value)),
   (.front "acc_meth_env", true, some (.acces_meth_env, upper value)),
   (.front "acc_meth", true, some (.acces_method, upper value)),
   (.front "freeze", false, some (.freeze, lit "-inst_freeze_on_error")),
   (.front "nofreeze", false, some (.freeze, lit "-noinst_freeze_on_error")),
   (.front "qdbr", false, some (.qdbrundown, lit "-qdbrundown")),
   (.front "noqdbr", false, some (.qdbrundown, lit "-noqdbrundown")),
   (.front "test_gtcm", true, some (.test_gtcm, value)),
   (.front "tem", true, some (.template, value)),
   (.front "test_collation", true, some (.test_collation, value)),
   (.front "stats", false, some (.test_stats, lit "-stats")),
   (.front "nostats", false, some (.test_stats, lit "-nostats")),
   (.front "stdnull", false, some (.test_stdnull_collation, lit "-stdnull")),
   (.front "nostdnull", false, some (.test_stdnull_collation, lit "-nostdnull")),
   (.front "n", false, some (.null_subscripts, if value = [] then lit "NOVAL" else value))]

/-- What the word `KV` sets at place `i`; a place after the last of `defargs` has the empty name. -/
def argOf (i : Nat) (KV : Str) : Option (Arg × Str) :=
  if KV.head? ≠ some hyphen then
    some ((defargs[i - 1]?).elim .null Prod.fst, KV)
  else
    let key := (piece KV equals 1).drop 1
    let value := piece KV equals 2
    ((tests value).find? fun r => r.1.fits key && (!r.2.1 || value ≠ [])).bind fun r => r.2.2

def setArg (args : Args) : Option (Arg × Str) → Args
  | none => args
  | some (k, v) => Function.update args k (some v)

/-- The loop of `parseargs` from the word `i` on. -/
def parseFrom (args : Args) (i : Nat) : List Str → Args
  | [] => args
  | KV :: words => parseFrom (setArg args (argOf i KV)) (i + 1) words

def parseargs ( zcmdline : List Str) : Args :=
  parseFrom (fun _ => none) 1 (zcmdline.map lower)

/-- The environment: whether nodes span blocks, and the version as a number. -/
structure Environ where
  spannode : Bool
  verno : Nat

def Environ.version (e : Environ) : Nat := if e.verno < 1000 then e.verno * 100 else e.verno

def Environ.blockspan (e : Environ) : Bool := if e.version < 60000 then false else e.spannode

/-- What is drawn for a field, from a range or from a collection. -/
structure Draws where
  range : Arg → Nat
  collection : Arg → Nat

def padBlock (e : Environ) : Rat := if 55000 < e.version then 40 else 16

def padRecord (e : Environ) : Rat := if 55000 < e.version then 0 else 4

def getdef : Arg → Str
  | .n_regions => lit "1"
  | .key_size => lit "64"
  | .record_size => lit "256"
  | .block_size => lit "1024"
  | _ => lit "-1"

/-- `$get(args(key),$$getdef(key))` -/
def valueOf (args : Args) (k : Arg) : Str := (args k).getD (getdef k)

/-- The largest value that a field can have. -/
def top (value : Str) : Rat :=
  if 1 < pieces value hyphen then num (piece value hyphen 2)
  else if 1 < pieces value comma then num (piece value comma (pieces value comma))
  else num value

/-- `for i=n:-1:1 quit:p(i)` -/
def lastFit (p : Nat → Bool) : Nat → Nat
  | 0 => 0
  | 1 => 1
  | n + 2 => if p (n + 2) then n + 2 else lastFit p (n + 1)

/-- `for i=i:1:i+n quit:p(i)` -/
def firstFit (p : Nat → Bool) (i : Nat) : Nat → Nat
  | 0 => i
  | n + 1 => if p i then i else firstFit p (i + 1) n

/-- A number at least `min` and at most `max`, or `max` when there is none. -/
def drawRange (r : Nat) (min max : Rat) : Option Rat :=
  if 0 < max - min + 1 then (random r (max - min + 1)).map fun n => n + min else some max

/-- One of the pieces after the first `skip` up to the piece `last`. -/
def drawPiece (r : Nat) (value : Str) (skip last : Nat) : Option Str :=
  (random r ((last - skip : Int) : Rat)).map fun n => piece value comma (1 + n + skip)

section Fields

variable (e : Environ) (draws : Draws)

def setRange (args : Args) (k : Arg) (value : Str) (draw : Rat → Rat → Option Rat) :
    Option Args :=
  if 1 < pieces value hyphen then
    (draw (num (piece value hyphen 1)) (num (piece value hyphen 2))).map fun n =>
      Function.update args k (some (canon n))
  else some args

def setCollection (args : Args) (k : Arg) (value : Str) (draw : Nat → Option Str) :
    Option Args :=
  if 1 < pieces value comma then
    (draw (pieces value comma)).map fun v => Function.update args k (some v)
  else some args

def randREG (args : Args) : Option Args :=
  let value := valueOf args .n_regions
  (setRange args .n_regions value fun min max =>
      (random (draws.range .n_regions) (max - min + 1)).map fun n => n + min).bind fun args =>
    setCollection args .n_regions value fun n =>
      drawPiece (draws.collection .n_regions) value 0 n

/-- `rec("max")`, which leaves room for the padding of the block. -/
def recMax (args : Args) : Rat :=
  let recmax := top (valueOf args .record_size)
  let blkmax := top (valueOf args .block_size)
  if blkmax - padBlock e < recmax then blkmax - padBlock e else recmax

def keyMax (args : Args) : Rat :=
  let keymax :=
    if e.blockspan then top (valueOf args .block_size) - padBlock e
    else recMax e args - padRecord e
  if 55000 < e.version ∧ 1019 < keymax then 1019
  else if e.version < 60000 ∧ 255 < keymax then 255
  else keymax

def randKey (args : Args) : Option Args :=
  let value := valueOf args .key_size
  let keymax := keyMax e args
  (setRange args .key_size value fun min max =>
      drawRange (draws.range .key_size) min (if keymax < max then keymax else max)).bind fun args =>
    setCollection args .key_size value fun n =>
      drawPiece (draws.collection .key_size) value 0
        (lastFit (fun i => num (piece value comma i) ≤ keymax) n)

/-- `blkmax` is `blk("max")`. -/
def randRec (blkmax : Rat) (args : Args) : Option Args :=
  let value := valueOf args .record_size
  (setRange args .record_size value fun min max =>
      if e.blockspan then drawRange (draws.range .record_size) min max
      else (args .key_size).bind fun key_size =>
        let recmin := num key_size + padRecord e
        let recmax := blkmax - padBlock e
        drawRange (draws.range .record_size) (if min < recmin then recmin else min)
          (if recmax < max then recmax else max)).bind fun args =>
    setCollection args .record_size value fun n =>
      if e.blockspan then drawPiece (draws.collection .record_size) value 0 n
      else (args .key_size).bind fun key_size =>
        let last := lastFit (fun i => num (piece value comma i) ≤ blkmax - padBlock e) n
        let i := firstFit (fun i => num key_size + padRecord e < num (piece value comma i)) 1
          (last - 1)
        drawPiece (draws.collection .record_size) value (i - 1) last

def randBlk (args : Args) : Option Args :=
  let value := valueOf args .block_size
  let field := if e.blockspan then Arg.key_size else Arg.record_size
  (setRange args .block_size value fun min max => (args field).bind fun size =>
      let least := num size + padBlock e
      (random (draws.range .block_size) (max - (if least < min then min else least) + 1)).map
        fun n => n + (if least < min then min else least)).bind fun args =>
    setCollection args .block_size value fun n => (args field).bind fun size =>
      let i := firstFit (fun i => num size + padBlock e < num (piece value comma i)) 1 (n - 1)
      drawPiece (draws.collection .block_size) value (i - 1) n

/-- Without spanning a key size above the record size is an error, and so is a size that is not
there. -/
def failsafe (args : Args) : Option Args :=
  if e.blockspan then some args
  else (args .key_size).bind fun key_size => (args .record_size).bind fun record_size =>
    if num record_size < num key_size then none else some args

/-- `none` is the way through `error`. -/
def randomize (args : Args) : Option Args :=
  (randREG draws args).bind fun args =>
    (randKey e draws args).bind fun args' =>
      (randRec e draws (top (valueOf args .block_size)) args').bind fun args =>
        (randBlk e draws args).bind (failsafe e)

end Fields

/-- The piece `argc` for the name `i` of `defargs`. -/
def word (k : Arg × Str) (i argc : Nat) (arg : Str) : Str :=
  if k.1 = .test_stdnull_collation then arg
  else if argc ≠ i then hyphen :: k.2 ++ (if arg = [] then [] else equals :: arg)
  else arg

/-- The loop of `writeargs`, after `argc` pieces. -/
def writeFrom (args : Args) : List (Arg × Str) → Nat → Nat → List Str
  | [], _, _ => []
  | k :: ks, i, argc =>
    match args k.1 with
    | none => writeFrom args ks (i + 1) argc
    | some arg => word k i (argc + 1) arg :: writeFrom args ks (i + 1) (argc + 1)

/-- The pieces of the line; with none `args` is undefined. -/
def writeargs (args : Args) : Option (List Str) :=
  let ws := writeFrom args defargs 1 0
  if ws = [] then none else some ws

def sep (c : Nat) : Bool := c = hyphen || c = comma

/-- `s?.e1(1N1"-"1N,1N1","1N).e` -/
def ranged : Str → Bool
  | a :: b :: c :: s => (isDigit a && sep b && isDigit c) || ranged (b :: c :: s)
  | _ => false

def cutValue (s : Str) : Bool :=
  s.takeWhile isDigit ≠ [] && (s.dropWhile isDigit).head?.any sep

def isLower (c : Nat) : Bool := 97 ≤ c && c ≤ 122

/-- `KV?1"-"1.L1"="1.N1(1"-",1",").E` -/
def cutPair : Str → Bool
  | c :: s =>
    c = hyphen && s.takeWhile isLower ≠ [] && (s.dropWhile isLower).head? = some equals &&
      cutValue ((s.dropWhile isLower).drop 1)
  | [] => false

/-- What `norandom` makes of a word. -/
def cut (KV : Str) : Str :=
  let KV := if cutPair KV then setPiece KV equals 2 (canon (num (piece KV equals 2))) else KV
  if cutValue KV then canon (num KV) else KV

def norandom ( zcmdline : List Str) : List Str := zcmdline.map fun KV => cut (lower KV)

/-- The pieces that `dbcargs` writes without a replay, for the words of `$zcmdline`. -/
def dbcargs (e : Environ) (draws : Draws) ( zcmdline : List Str) : List Str :=
  if zcmdline.any ranged then
    (((randomize e draws (parseargs zcmdline)).bind writeargs)).getD (norandom zcmdline)
  else zcmdline

end YdbTest.Dbcargs
