import YdbTest.Globals

namespace YdbTest.Command

open MString Globals

/-- The values a command writes: a string, a function of a node read when the
command runs, or the local `subpiece`. -/
inductive Val
  | str (v : Str)
  | node (n : Node) (f : Str → Str)
  | subpiece

/-- The helper routines whose own updates are outside the fill globals. -/
inductive Call
  | pauseifneeded
  | imptpdztrig (trigno : Nat) (canusetp : Bool)
  | ztriggerItem (rndm : Nat)
  | noop
  | hang (seconds : Nat)
  deriving DecidableEq

inductive Cmd
  | set (n : Node) (v : Val)
  | kill (n : Node)
  | zkill (n : Node)
  | incr (n : Node) (k : Nat)
  | setPiece (n : Node) (i : Nat) (v : Val)
  | setSubpiece (n : Node) (f : Str → Str)
  | setZtwormhole (v : Str)
  | ztrigger (n : Node)
  | call (c : Call)

structure Proc where
  subpiece : Str
  ztwormhole : Str

structure St where
  db : Db
  proc : Proc

inductive Fence
  | none
  | tp
  | ztp
  deriving DecidableEq

/-- Commands between one `tstart` and its `tcommit`, or outside any. -/
structure Block where
  fence : Fence
  cmds : List Cmd

def Val.eval (s : St) : Val → Str
  | .str v => v
  | .node n f => f (get s.db n)
  | .subpiece => s.proc.subpiece

def increment (k : Nat) (r : Option Str) : Str := dec (toNat (r.getD []) + k)

/-- The update a command makes to the database. A piece before the first is none. -/
def Cmd.upd (s : St) : Cmd → List Upd
  | .set n v => [.set n (v.eval s)]
  | .kill n => [.kill n]
  | .zkill n => [.zkill n]
  | .incr n k => [.modify n (increment k)]
  | .setPiece n i v => if i = 0 then [] else
      [.modify n (fun r => MString.setPiece (r.getD []) bar i (v.eval s))]
  | _ => []

def Cmd.local (s : St) : Cmd → Proc
  | .setSubpiece n f => { s.proc with subpiece := f (get s.db n) }
  | .setZtwormhole v => { s.proc with ztwormhole := v }
  | _ => s.proc

def Cmd.exec (s : St) (c : Cmd) : St := ⟨TreeStore.applyAll (c.upd s) s.db, c.local s⟩

/-- The steps of a block that other processes see: a transaction is one, and
outside a transaction every command is. -/
def Block.atoms (b : Block) : List (List Cmd) :=
  match b.fence with
  | .tp => [b.cmds]
  | _ => b.cmds.map ([·])

end YdbTest.Command
