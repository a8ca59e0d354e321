import YdbTest.EnvXlateTable

namespace YdbTest.EnvXlate

open MString SearchTree

variable {env : Env} {records : List Str} {db db' : Database} {ls : List Line} {l : Line}
  {n m d g : Str} {host t : Nat} {s : State} {q : Query}

/-- The states that calls lead to. -/
inductive Reaches (env : Env) (records : List Str) : State → Prop
  | start : Reaches env records .start
  | call {s : State} (h : Reaches env records s) (q : Query) :
      Reaches env records (gtm_env_xlate env records s q).1

def Query.name (env : Env) (q : Query) : Str := if q.host = [] then chop env.hostname else q.host

def Known (ls : List Line) (q : Query) : Prop :=
  q.host = [] ∨ lower q.host = lit "localhost" ∨ ∃ l ∈ ls, lower l.host = lower q.host

/-- The line has the directory for a host with this address. -/
def Matches (env : Env) (q : Query) (l : Line) : Prop :=
  ¬ l.dummy ∧ address env l.host = address env (q.name env) ∧ strip l.dir = q.path env

section Cases

variable (hcase : ∀ a b, lower a = lower b → env.get_ip_addr a = env.get_ip_addr b)

include hcase

end Cases

end YdbTest.EnvXlate
