import YdbTest.TreeStore
import YdbTest.Decimal

namespace YdbTest.Globals

open MString Decimal

inductive Gbl
  | arandom | brandomv | crandomva | drandomvariable | erandomvariableimptp
  | frandomvariableinimptp | grandomvariableinimptpfill | hrandomvariableinimptpfilling
  | irandomvariableinimptpfillprgrm | jrandomvariableinimptpfillprogram
  | antp | bntp | cntp | dntp | entp | fntp | gntp | hntp | intp
  | aspan | bspan | espan
  | andxarr | bndxarr | cndxarr | dndxarr | endxarr | fndxarr | gndxarr | hndxarr | indxarr
  | lasti | cntloop | cntseq | dummy | zdummy
  deriving DecidableEq

abbrev Node := TreeStore.Node Gbl Str

abbrev Db := TreeStore.Store Gbl Str Str

abbrev Upd := TreeStore.Upd Gbl Str Str

def get (db : Db) (n : Node) : Str := (TreeStore.get db n).getD []

theorem get_set (db : Db) (m n : Node) (v : Str) :
    get (TreeStore.set m v db) n = if m = n then v else get db n := by
  rw [get, TreeStore.get_set]
  split <;> rfl

def isNumber (s : Str) : Bool :=
  let (sign, m, scale) := number s
  s == (if sign then neg (decimal m scale) else decimal m scale)

def collates (a b : Str) : Bool :=
  if isNumber a then
    if isNumber b then
      let (sa, ma, ka) := number a
      let (sb, mb, kb) := number b
      let x : Int := ma * 10 ^ kb
      let y : Int := mb * 10 ^ ka
      decide ((if sa then -x else x) < (if sb then -y else y))
    else true
  else !isNumber b && decide (a < b)

/-- `$zprevious(n(""))`, the empty string where `n` has no descendants. -/
def zprevious (db : Db) (n : Node) : Str := (TreeStore.zprevious collates db n).getD []

theorem number_dec (n : Nat) : number (dec n) = (false, n, 0) := by
  obtain ⟨c, s, hs, hc⟩ := decimal_head n 0
  rw [← dec_eq_decimal] at hs
  have hr := readNumber_dec n
  rw [hs] at hr ⊢
  unfold number
  split
  · rename_i heq
    have := (List.cons.inj heq).1
    omega
  · rw [hr]

end YdbTest.Globals
