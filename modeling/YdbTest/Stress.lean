import YdbTest.Checked
import YdbTest.Dbcargs
import YdbTest.ThreeEn1
import YdbTest.ModWalk

namespace YdbTest.Stress

open MString TreeStore Checked
open Dbcargs (num canon)
open ThreeEn1 (mnum)

inductive Gbl where
  | afill | e | cfill | dfill | efill | ffill | pct1 | b | bbbbbbbbbbbbbbbbbbbbbbbbbbbbbbb | lasti
  deriving DecidableEq

def Gbl.own : Gbl → Bool
  | .efill | .pct1 | .b | .bbbbbbbbbbbbbbbbbbbbbbbbbbbbbbb => true
  | _ => false

inductive Act where
  | set | kill | ver
  deriving DecidableEq

inductive Tpflag where
  | NTP | TPR | TPC
  deriving DecidableEq

abbrev Db := Store Gbl Str Str

abbrev Ops := List (Checked.Op Gbl Str Str)

/-- A prime and ten of its primitive roots. -/
structure Table where
  prime : Nat
  root : Nat → Nat
  prime_prime : prime.Prime
  primitive : ∀ i, 1 ≤ i → i ≤ 10 → orderOf (root i : ZMod prime) = prime - 1

namespace Table

def lsmallRoots : List Nat := [2, 3, 5, 8, 12, 14, 18, 19, 20, 21]

theorem lsmall_powers : ∀ r ∈ lsmallRoots,
    (r : ZMod 53) ^ 52 = 1 ∧ (r : ZMod 53) ^ 26 ≠ 1 ∧ (r : ZMod 53) ^ 4 ≠ 1 := by
  decide

theorem orderOf_lsmall {r : Nat} (hr : r ∈ lsmallRoots) : orderOf (r : ZMod 53) = 53 - 1 := by
  obtain ⟨h52, h26, h4⟩ := lsmall_powers r hr
  refine orderOf_eq_of_pow_and_pow_div_prime (by omega) h52 fun q hq hdvd => ?_
  have hq' : q = 2 ∨ q = 13 := by
    rw [show 53 - 1 = 2 ^ 2 * 13 by rfl, hq.dvd_mul] at hdvd
    obtain h | h := hdvd
    · exact Or.inl ((Nat.prime_dvd_prime_iff_eq hq Nat.prime_two).mp (hq.dvd_of_dvd_pow h))
    · exact Or.inr ((Nat.prime_dvd_prime_iff_eq hq (by norm_num)).mp h)
  obtain rfl | rfl := hq'
  · exact h26
  · exact h4

/-- The table at the label `lsmall`. -/
def lsmall : Table where
  prime := 53
  root i := lsmallRoots.getD (i - 1) 0
  prime_prime := by norm_num
  primitive i h1 h10 := by
    have hall : ∀ k < 10, lsmallRoots.getD k 0 ∈ lsmallRoots := by decide
    exact orderOf_lsmall (hall (i - 1) (by omega))

end Table

/-- A call of `stress`, with the values of `^cust` for the instance and of `^PID`. There is one job
without transactions, `ntpj` is 1. -/
structure Cfg extends Table where
  instance_ : Str
  cust : Nat → Str
  pid : Nat → Nat
  tprj : Nat
  tpcj : Nat
  iterate : Nat
  one_le : 1 ≤ tprj
  le : tprj ≤ tpcj
  pid_inj : ∀ i j, 1 ≤ i → i ≤ tpcj → 1 ≤ j → j ≤ tpcj → pid i = pid j → i = j

def globals : List Gbl :=
  [.afill, .e, .cfill, .dfill, .efill, .ffill, .pct1, .b, .bbbbbbbbbbbbbbbbbbbbbbbbbbbbbbb]

def MAXERR : Nat := 10

/-- `ndx` in the turns of a loop. -/
def indices (prime root : Nat) : Nat → Nat → List Nat
  | 0, _ => []
  | k + 1, ndx => ndx :: indices prime root k (mnum (ndx * root) % prime)

namespace Cfg

variable (c : Cfg)

/-- `(ndx,obj,iter)`, or `(ndx,obj,^PID(jobno,^instance),iter)` -/
def node (jobno iter ndx : Nat) (g : Gbl) : Node Gbl Str :=
  if g.own then (g, [dec ndx, c.cust ndx, dec (c.pid jobno), dec iter])
  else (g, [dec ndx, c.cust ndx, dec iter])

/-- The value of a local variable that has been set with `$GET`, plus the prime. -/
def plus (r : Option Str) : Str := canon (num (r.getD []) + (c.prime : Rat))

def update (jobno iter ndx : Nat) (act : Act) (g : Gbl) : Ops :=
  match act with
  | .set =>
    if g.own then [.fetch (c.node jobno iter ndx g), .put (c.node jobno iter ndx g) c.plus]
    else [.upd (.set (c.node jobno iter ndx g) (dec ndx))]
  | .kill => [.upd (.kill (c.node jobno iter ndx g))]
  | .ver => [.exam (c.node jobno iter ndx g) (if g.own then dec c.prime else dec ndx)]

def turn (jobno iter : Nat) (act : Act) (ndx : Nat) : Ops :=
  globals.flatMap (c.update jobno iter ndx act)

def filling (jobno : Nat) (act : Act) (root iter : Nat) : Ops :=
  .begin :: pass ((indices c.prime root (c.prime - 1) 1).map (c.turn jobno iter act))

def randfill (jobno : Nat) (act : Act) (pno iter : Nat) : Ops :=
  c.filling jobno act (c.root pno) iter

/-- The three calls of an iteration of `job`. -/
def calls (jobno pno loop : Nat) : Ops :=
  c.randfill jobno .kill pno loop ++ c.randfill jobno .set pno loop ++
    c.randfill jobno .ver pno loop

end Cfg

def pno (loop : Nat) : Nat := mnum (loop + loop) % 10 + 1

/-- The entries of the table that iterations use. -/
def Used (i : Nat) : Prop := i < 10 ∧ i % 2 = 1

instance (i : Nat) : Decidable (Used i) := inferInstanceAs (Decidable (_ ∧ _))

theorem Used.one_le {i : Nat} (h : Used i) : 1 ≤ i := by
  have := h.2
  omega

theorem Used.le {i : Nat} (h : Used i) : i ≤ 10 := h.1.le

/-- Whether there is a transaction, and whether it is committed. -/
def Tpflag.transaction : Tpflag → Option Bool
  | .NTP => none
  | .TPR => some false
  | .TPC => some true

namespace Cfg

variable (c : Cfg)

/-- `tpflag` after the turn `I` of the loop that starts the jobs. -/
def tpflagAfter : Nat → Tpflag
  | 0 => .NTP
  | I + 1 => if I + 1 = c.tprj then .TPC else if I + 1 = 1 then .TPR else tpflagAfter I

def tpflag (jobno : Nat) : Tpflag := c.tpflagAfter (jobno - 1)

/-- `S ^lasti(jobno,localinstance)=loop` -/
def lasti (jobno loop : Nat) : Upd Gbl Str Str :=
  .set (.lasti, [dec jobno, c.instance_]) (dec loop)

def iteration (jobno loop : Nat) : List (Atom Gbl Str Str) :=
  (match (c.tpflag jobno).transaction with
    | none => (c.calls jobno (pno loop) loop).map .op
    | some commit => [.tp commit (c.calls jobno (pno loop) loop)]) ++
    [.op (.upd (c.lasti jobno loop))]

def job (jobno : Nat) : List (Atom Gbl Str Str) :=
  if 1 ≤ jobno ∧ jobno ≤ c.tpcj then
    (List.range' 1 c.iterate).flatMap (c.iteration jobno)
  else []

abbrev step := Checked.step MAXERR c.job

/-- No look of a job goes wrong. When all jobs have ended, the check with the first root looks at
each node that an iteration has left, and nothing goes wrong in it either. -/
def Verifies : Prop :=
  ∀ (db : Db) (acts : List (Checked.Act Nat)),
    let σ := Schedule.run c.step (Checked.initial db) acts
    Clean σ ∧ ((∀ jobno, (c.job jobno).length ≤ σ.pos jobno) →
      ∀ jobno veriter, 1 ≤ jobno → jobno ≤ c.tpcj → c.tpflag jobno ≠ .TPR →
        1 ≤ veriter → veriter ≤ c.iterate →
        (∀ x v, .exam x v ∈ c.randfill jobno .ver (pno veriter) veriter →
          .exam x v ∈ c.randfill jobno .ver 1 veriter) ∧
        ∃ r, execAll MAXERR (σ.db, clean none) (c.randfill jobno .ver 1 veriter) =
          (σ.db, clean r))

end Cfg

end YdbTest.Stress
