import YdbTest.CInt
import YdbTest.Decimal
import Mathlib.Data.Nat.Log

namespace YdbTest.PseudoBank

open MString CInt

/-- `sprintf(buf, "%d", n)` -/
def sprintd (n : Int) : Str := if n < 0 then 45 :: dec n.natAbs else dec n.natAbs

/-- `atoi(s)`: a sign, and digits up to the first character that is none. -/
def atoi : Str → Option Int
  | 45 :: s => int (-((readNumber true 0 0 s).1 : Int))
  | s => int (readNumber true 0 0 s).1

/-- `strtok(s, "|")`: the token, and where the next call begins. -/
def strtok (s : Str) : Option (Str × Str) :=
  let s := s.dropWhile (· = bar)
  if s = [] then none else some (s.takeWhile (· ≠ bar), (s.dropWhile (· ≠ bar)).drop 1)

def START_CID : Int := 100001

def ACC_NEEDED : Nat := 1000

def TRAN_AMT : Int := 1

structure tpArgs where
  ref : Int
  from_ : Int
  to_ : Int
  amt : Int
  user : Int

structure Account where
  cid : Int
  bal : Int
  histSeq : Int

structure HistRecord where
  cid : Int
  histSeq : Int
  comment : Str
  amt : Int
  endBal : Int
  user : Int

/-- Without the comment and the time, which are set and not saved. -/
structure TrnLog where
  guid : Int
  tSeq : Int
  cid : Int
  amt : Int
  endBal : Int
  user : Int

/-- `^ZACN`, `^ZHIST` and `^ZTRNLOG`. -/
structure Database where
  acn : Int → Option Str
  hist : Int → Int → Option Str
  trnlog : Int → Int → Option Str

/-- `ydb_set_s` with two subscripts. -/
def set (g : Int → Int → Option Str) (sub1 sub2 : Int) (value : Str) : Int → Int → Option Str :=
  Function.update g sub1 (Function.update (g sub1) sub2 (some value))

def Account.value (a : Account) : Str := [bar].intercalate [sprintd a.histSeq, sprintd a.bal]

def HistRecord.value (h : HistRecord) : Str :=
  [bar].intercalate [h.comment, sprintd h.amt, sprintd h.endBal, sprintd h.user]

/-- `"%d|%ld|%d|%d|%d|%d"` -/
def TrnLog.value (t : TrnLog) (now : Int) : Str :=
  [bar].intercalate
    [sprintd t.guid, sprintd now, sprintd t.cid, sprintd t.amt, sprintd t.endBal, sprintd t.user]

def Account_Load (db : Database) (cid : Int) : Option Account := do
  let data ← db.acn cid
  let (value, rest) ← strtok data
  let histSeq ← atoi value
  let (value, _) ← strtok rest
  let bal ← atoi value
  some ⟨cid, bal, histSeq⟩

def Account_Save (db : Database) (a : Account) : Database :=
  { db with acn := Function.update db.acn a.cid (some a.value) }

def Hist_Save (db : Database) (h : HistRecord) : Database :=
  { db with hist := set db.hist h.cid h.histSeq h.value }

def Trn_Save (db : Database) (t : TrnLog) (now : Int) : Database :=
  { db with trnlog := set db.trnlog t.guid t.tSeq (t.value now) }

/-- The transaction as it is committed, at the time `now`. Both log records take the account and
the balance of the debited side. -/
def postTransfer (now : Int) (args : tpArgs) (db : Database) : Option Database := do
  let accountFrom ← Account_Load db args.from_
  let accountTo ← Account_Load db args.to_
  let fromSeq ← add accountFrom.histSeq 1
  let fromBal ← int (accountFrom.bal - args.amt)
  let toSeq ← add accountTo.histSeq 1
  let toBal ← add accountTo.bal args.amt
  let accountFrom := { accountFrom with histSeq := fromSeq, bal := fromBal }
  let accountTo := { accountTo with histSeq := toSeq, bal := toBal }
  let db := Account_Save db accountFrom
  let db := Account_Save db accountTo
  let minusAmt ← int (-args.amt)
  let histFrom : HistRecord := ⟨args.from_, accountFrom.histSeq, lit "Transfer to " ++ sprintd args.to_,
    minusAmt, accountFrom.bal, args.ref⟩
  let db := Hist_Save db histFrom
  let histTo : HistRecord := ⟨args.to_, accountTo.histSeq, lit "Transfer from " ++ sprintd args.from_,
    args.amt, accountTo.bal, args.ref⟩
  let db := Hist_Save db histTo
  let trnLogFrom : TrnLog := ⟨args.ref, 1, args.from_, minusAmt, accountFrom.bal, args.user⟩
  let db := Trn_Save db trnLogFrom now
  let trnLogTo : TrnLog := ⟨args.ref, 2, args.from_, args.amt, accountFrom.bal, args.user⟩
  some (Trn_Save db trnLogTo now)

/-- `ceil(log10(NUM_THREADS))` for `n` processes. -/
def idShift (n : Nat) : Nat := Nat.clog 10 n

/-- The arguments process `guid` passes on its next run, from two values of `rand()`. -/
def childThread (n guid numRuns rand1 rand2 : Nat) (user : Int) : Option tpArgs := do
  let ref ← int ((guid : Int) + numRuns * 10 ^ idShift n)
  let from_ := START_CID + (rand1 % (ACC_NEEDED - 0) + 0 : Nat)
  let to_ := START_CID + (rand2 % (ACC_NEEDED - 1 - 0) + 0 : Nat)
  let to_ := if from_ = to_ then to_ + 1 else to_
  some ⟨ref, from_, to_, TRAN_AMT, user⟩

/-- The body of the loop of `initData`. -/
def initAccount (db : Database) (i : Nat) : Database :=
  let cid := START_CID + i
  { db with
    acn := Function.update db.acn cid (some (lit "1|10000000"))
    hist := set db.hist cid 1 (lit "Account Create||10000000") }

def initData (db : Database) : Database := (List.range ACC_NEEDED).foldl initAccount db

def balance (db : Database) (cid : Int) : Int :=
  ((db.acn cid).bind fun v => atoi (piece v bar 2)).getD 0

def histSeq (db : Database) (cid : Int) : Int :=
  ((db.acn cid).bind fun v => atoi (piece v bar 1)).getD 0

/-- The amount in a history record; the one written at the start has none. -/
def amount (db : Database) (cid s : Int) : Int :=
  ((db.hist cid s).bind fun v => atoi (piece v bar 2)).getD 0

/-- A transfer that has been committed, with the numbers of its history records and the balances
it left. -/
structure Transfer where
  args : tpArgs
  fromSeq : Int
  toSeq : Int
  fromBal : Int
  toBal : Int

structure State where
  db : Database
  numRuns : Nat → Nat
  posted : List Transfer

def empty : Database := ⟨fun _ => none, fun _ _ => none, fun _ _ => none⟩

def initial : State := ⟨initData empty, fun _ => 0, []⟩

/-- A transaction of one of `n` processes is restarted or committed. -/
inductive Step (n : Nat) (user : Int) : State → State → Prop
  | restart (σ : State) : Step n user σ σ
  | commit (σ : State) (guid rand1 rand2 : Nat) (now : Int) (args : tpArgs) (db : Database)
      (hg : guid < n) (ha : childThread n guid (σ.numRuns guid) rand1 rand2 user = some args)
      (hp : postTransfer now args σ.db = some db) :
      Step n user σ ⟨db, Function.update σ.numRuns guid (σ.numRuns guid + 1),
        σ.posted ++ [⟨args, histSeq db args.from_, histSeq db args.to_, balance db args.from_,
          balance db args.to_⟩]⟩

/-- The states that any interleaving of the processes reaches. -/
inductive Reaches (n : Nat) (user : Int) : State → Prop
  | initial : Reaches n user initial
  | step {σ σ' : State} (h : Reaches n user σ) (hs : Step n user σ σ') : Reaches n user σ'

end YdbTest.PseudoBank
