import YdbTest.PseudoBankTransfer
import YdbTest.Stress

namespace YdbTest.Stress

open MString TreeStore Checked CInt
open PseudoBank (sprintd atoi)

/-- The buffers that the calls share, the count of errors, and what has been written. -/
structure Port where
  db : Db
  writes : List (Upd Gbl Str Str)
  subscr : Nat → Str
  value : Str
  tmp1 : Str
  tmp2 : Str
  err : Int

namespace Port

/-- The node that the first `n` subscripts name. -/
def node (s : Port) (g : Gbl) (n : Nat) : Node Gbl Str := (g, (List.range n).map s.subscr)

def copy (i : Nat) (v : Str) (s : Port) : Port :=
  { s with subscr := Function.update s.subscr i v }

def ydb_set_s (g : Gbl) (n : Nat) (v : Str) (s : Port) : Port :=
  { s with db := set (s.node g n) v s.db, writes := s.writes ++ [.set (s.node g n) v] }

def ydb_delete_s (g : Gbl) (n : Nat) (s : Port) : Port :=
  { s with db := kill (s.node g n) s.db, writes := s.writes ++ [.kill (s.node g n)] }

def ydb_get_s (g : Gbl) (n : Nat) (s : Port) : Option Port :=
  (get s.db (s.node g n)).map fun v => { s with tmp2 := v }

def m_EXAM_randfill (s : Port) : Port :=
  if s.tmp1 = s.tmp2 then s else { s with err := s.err + 1 }

def addPrime (prime : Int) (g : Gbl) (s : Port) : Option Port := do
  let tmp ← match get s.db (s.node g 4) with
    | none => some 0
    | some value => atoi value
  let tmp ← add tmp prime
  let s := { s with value := sprintd tmp }
  some (s.ydb_set_s g 4 s.value)

def exam (g : Gbl) (n : Nat) (s : Port) : Option Port := do
  let s ← s.ydb_get_s g n
  some s.m_EXAM_randfill

end Port

def shared : List Gbl := [.afill, .e, .cfill, .dfill, .ffill]

def own : List Gbl := [.efill, .pct1, .b, .bbbbbbbbbbbbbbbbbbbbbbbbbbbbbbb]

namespace Cfg

variable (c : Cfg)

/-- `SET obj=^cust(ndx,^instance)`, after which the subscripts are `ndx`, `obj` and `iter`. -/
def subscripts (iter ndx : Int) (s : Port) : Port :=
  let s := s.copy 0 (sprintd ndx)
  let s := { s with tmp1 := s.subscr 0 }
  let s := s.copy 1 c.instance_
  let s := { s with value := c.cust ndx.toNat }
  let s := s.copy 1 s.value
  s.copy 2 (sprintd iter)

def shift (child : Nat) (s : Port) : Port :=
  let s := s.copy 3 (s.subscr 2)
  s.copy 2 (sprintd (c.pid child))

def m_turn (child : Nat) (act : Act) (prime iter ndx : Int) (s : Port) : Option Port :=
  let s := c.subscripts iter ndx s
  match act with
  | .set =>
    let s := shared.foldl (fun s g => s.ydb_set_s g 3 (s.subscr 0)) s
    own.foldlM (fun s g => s.addPrime prime g) (c.shift child s)
  | .kill =>
    let s := shared.foldl (fun s g => s.ydb_delete_s g 3) s
    some (own.foldl (fun s g => s.ydb_delete_s g 4) (c.shift child s))
  | .ver => do
    let s ← shared.foldlM (fun s g => s.exam g 3) s
    let s := { c.shift child s with tmp1 := sprintd prime }
    own.foldlM (fun s g => s.exam g 4) s

/-- `for (i = 0; i < prime - 1; i++)`, with the turns that are left. -/
def m_turns (child : Nat) (act : Act) (prime root iter : Int) : Nat → Int → Port → Option Port
  | 0, _, s => some s
  | k + 1, ndx, s => do
    let s ← c.m_turn child act prime iter ndx s
    let ndx ← mod (← mul ndx root) prime
    if s.err > MAXERR then some s else m_turns child act prime root iter k ndx s

def m_filling_randfill (child : Nat) (act : Act) (prime root iter : Int) (s : Port) :
    Option Port :=
  c.m_turns child act prime root iter (prime - 1).toNat 1 { s with err := 0 }

def m_randfill (child : Nat) (act : Act) (pno iter : Int) (s : Port) : Option Port := do
  let s := s.copy 0 (sprintd pno)
  let root ← atoi (dec (c.root pno.toNat))
  let prime ← atoi (dec c.prime)
  c.m_filling_randfill child act prime root iter s

/-- The three calls of `job_stress_tpfn`. -/
def m_calls (child : Nat) (pno loop : Int) (s : Port) : Option Port := do
  let s ← c.m_randfill child .kill pno loop s
  let s ← c.m_randfill child .set pno loop s
  c.m_randfill child .ver pno loop s

end Cfg

inductive Status where
  | YDB_OK | YDB_TP_ROLLBACK
  deriving DecidableEq

namespace Cfg

variable (c : Cfg)

/-- `tpflag` of a child, with `TPRJ` for the number of the last job that rolls back. -/
def m_tpflag (child : Nat) : Tpflag :=
  if 1 ≥ child then .NTP else if c.tprj ≥ child then .TPR else .TPC

def job_stress_tpfn (child : Nat) (loop : Int) (s : Port) : Option (Port × Status) := do
  let pno ← add (← mod (← mul 2 loop) 10) 1
  let s ← c.m_calls child pno loop s
  if c.m_tpflag child = .TPR then some (s, .YDB_TP_ROLLBACK) else some (s, .YDB_OK)

/-- One turn of the loop of `m_job_stress`: the transaction, if there is one, with whether it is
committed, what it writes, and the write that follows it. -/
structure Turn where
  transaction : Option Bool
  writes : List (Upd Gbl Str Str)
  lasti : Upd Gbl Str Str

def m_job_stress (child : Nat) (loop : Int) (s : Port) : Option Turn := do
  let (s', status) ← c.job_stress_tpfn child loop { s with writes := [] }
  some ⟨if c.m_tpflag child ≠ .NTP then some (status = .YDB_OK) else none, s'.writes,
    .set (.lasti, [sprintd child, c.instance_]) (sprintd loop)⟩

def SameWrites (us vs : List (Upd Gbl Str Str)) : Prop :=
  ∀ g, us.filter (fun u => u.var = g) = vs.filter (fun u => u.var = g)

/-- For every entry that iterations use the calls of the port write what those of the M program
write, and so do the transactions of every iteration. -/
def SamePort : Prop :=
  (∀ jobno pno loop : Nat, ∀ s : Port, 1 ≤ jobno → jobno ≤ c.tpcj → Used pno →
    loop ≤ 2147483647 → ∃ s', c.m_calls jobno pno loop { s with writes := [] } = some s' ∧
      SameWrites s'.writes (writes (c.calls jobno pno loop) s.db none)) ∧
  ∀ jobno loop : Nat, ∀ s : Port, 1 ≤ jobno → jobno ≤ c.tpcj → 1 ≤ loop → loop ≤ c.iterate →
    ∃ t, c.m_job_stress jobno loop s = some t ∧
      t.transaction = (c.tpflag jobno).transaction ∧
      SameWrites t.writes (writes (c.calls jobno (pno loop) loop) s.db none) ∧
      t.lasti = c.lasti jobno loop

end Cfg

end YdbTest.Stress
