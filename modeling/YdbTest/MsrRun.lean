import YdbTest.Awk
import YdbTest.Fields
import YdbTest.RegexpSyntax

namespace YdbTest.MsrRun

open Awk Fields Regexp RegexpSyntax

abbrev Text := List Char

def blank (c : Char) : Bool := c == ' ' || c == '\t' || c == '\n'

/-- `sub(p,"",s)`; an expression that cannot be read ends the program. -/
def sub (p s : Text) : Option Text := (parse p).map fun r => delete r s

def routes (w : Text) : Bool :=
  index w "SRC".toList ≠ 0 || index w "RCV".toList ≠ 0 || index w "INST".toList ≠ 0

def strip : List Text → Text → Option Text
  | [], command => some command
  | w :: ws, command =>
    if routes w then (sub w command).bind (strip ws) else sub "RUN".toList command

def get_command (arguments : Text) : Option Text :=
  strip ((fields blank arguments).drop 1) arguments

/-- What `sub` puts for the text that is matched. -/
def expand (matched : Text) : Text → Text
  | '\\' :: '\\' :: '\\' :: '&' :: value => '\\' :: '&' :: expand matched value
  | '\\' :: '\\' :: '\\' :: '\\' :: value => '\\' :: '\\' :: expand matched value
  | '\\' :: '\\' :: '&' :: value => '\\' :: (matched ++ expand matched value)
  | '\\' :: '&' :: value => '&' :: expand matched value
  | '&' :: value => matched ++ expand matched value
  | c :: value => c :: expand matched value
  | [] => []

/-- `sub(p,value,s)` for a pattern of letters and underscores. -/
def replace (p value : Text) : Text → Text
  | [] => []
  | c :: s =>
    if p <+: c :: s then expand p value ++ (c :: s).drop p.length else c :: replace p value s

/-- What the configuration says of the instances and the hosts. -/
structure Config where
  instinfo_host : Text → Text
  instinfo_dbdir : Text → Text
  instinfo_jnldir : Text → Text
  instinfo_bakdir : Text → Text
  instinfo_instname : Text → Text
  instinfo_portno : Text → Text
  instinfo_version : Text → Text
  instinfo_image : Text → Text
  hostinfo_name : Text → Text
  hostinfo_getenv : Text → Text
  hostinfo_shell : Text → Text
  host_ipv6_support : Text → Bool

def print_or_set (setstr value action command : Text) : Text :=
  if value = [] ∨ action ≠ "setvar".toList then command else replace setstr value command

def Config.instinfo_getenv (conf : Config) (inst : Text) : Text :=
  replace "CUR_DIR".toList (conf.instinfo_dbdir inst)
    (conf.hostinfo_getenv (conf.instinfo_host inst))

def Config.constants (conf : Config) (srcstr rcvstr : Text) : List (String × Text) :=
  let srchost := conf.instinfo_host srcstr
  let rcvhost := conf.instinfo_host rcvstr
  let srchostname := conf.hostinfo_name srchost
  let rcvhostname := conf.hostinfo_name rcvhost
  let srchostname_short := srchostname.takeWhile (· ≠ '.')
  let rcvhostname_short := rcvhostname.takeWhile (· ≠ '.')
  -- the support of one host decides over the name of the other
  let rcvhostname :=
    if conf.host_ipv6_support srchostname_short then rcvhostname else rcvhostname_short
  let srchostname :=
    if conf.host_ipv6_support rcvhostname_short then srchostname else srchostname_short
  [("__SRC_DIR__", conf.instinfo_dbdir srcstr),
    ("__SRC_JNLDIR__", conf.instinfo_jnldir srcstr),
    ("__SRC_BAKDIR__", conf.instinfo_bakdir srcstr),
    ("__SRC_INSTNAME__", conf.instinfo_instname srcstr),
    ("__SRC_PORTNO__", conf.instinfo_portno srcstr),
    ("__SRC_HOST__", srchostname),
    ("__SRC_VERSION__", conf.instinfo_version srcstr),
    ("__SRC_VERSION__", conf.instinfo_image srcstr),
    ("__RCV_DIR__", conf.instinfo_dbdir rcvstr),
    ("__RCV_JNLDIR__", conf.instinfo_jnldir rcvstr),
    ("__RCV_BAKDIR__", conf.instinfo_bakdir rcvstr),
    ("__RCV_INSTNAME__", conf.instinfo_instname rcvstr),
    ("__RCV_PORTNO__", conf.instinfo_portno rcvstr),
    ("__RCV_HOST__", rcvhostname),
    ("__RCV_VERSION__", conf.instinfo_version rcvstr),
    ("__RCV_VERSION__", conf.instinfo_image rcvstr),
    ("DUMMY", conf.hostinfo_shell srchost),
    ("DUMMY",
      if index (conf.instinfo_getenv srcstr) "remote_getenv.csh".toList ≠ 0 then
        conf.instinfo_getenv srcstr
      else "source $gtm_tst/com/pri_getenv.csh $pri_ver $pri_image".toList),
    ("DUMMY", conf.hostinfo_shell rcvhost),
    ("DUMMY",
      if index (conf.instinfo_getenv rcvstr) "pri_getenv.csh".toList ≠ 0 then
        "source $gtm_tst/com/getenv.csh".toList
      else conf.instinfo_getenv rcvstr)]

/-- The command after the calls of `print_or_set`. -/
def REPLIC_ENVIRON (conf : Config) (srcstr rcvstr actstr command : Text) : Text :=
  (conf.constants srcstr rcvstr).foldl (fun cmdstr p => print_or_set p.1.toList p.2 actstr cmdstr)
    command

def substr (s : Text) (m n : Nat) : Text := (s.drop (m - 1)).take n

structure Places where
  at_inst : Text
  pass_src : Text
  pass_rcvr : Text

def Places.second (arg2 : Text) : Places :=
  let p : Places := ⟨[], [], []⟩
  let p := if substr arg2 1 3 = "SRC".toList then
    { p with at_inst := substr arg2 5 10, pass_src := substr arg2 5 10 } else p
  let p := if substr arg2 1 3 = "RCV".toList then
    { p with at_inst := substr arg2 5 10, pass_rcvr := substr arg2 5 10 } else p
  let p := if substr arg2 1 5 = "INST=".toList then
    { p with at_inst := substr arg2 6 10, pass_src := substr arg2 6 10 } else p
  if substr arg2 1 4 = "INST".toList ∧ index arg2 "=".toList = 0 then
    { p with at_inst := arg2, pass_src := arg2 } else p

def Places.third (p : Places) (arg3 : Text) : Places :=
  let p := if substr arg3 1 3 = "SRC".toList then { p with pass_src := substr arg3 5 10 } else p
  if substr arg3 1 3 = "RCV".toList then { p with pass_rcvr := substr arg3 5 10 } else p

def Places.suspect (p : Places) : Prop :=
  p.at_inst = [] ∨ p.pass_src = [] ∧ p.pass_rcvr = []

instance (p : Places) : Decidable p.suspect :=
  inferInstanceAs (Decidable (p.at_inst = [] ∨ p.pass_src = [] ∧ p.pass_rcvr = []))

/-- What the function leaves: the instance, the command for it, and what it has reported. -/
structure Run where
  at_inst : Text
  command : Text
  error_reports : List Text

def run_multisite_action (conf : Config) (arguments : Text) : Option Run :=
  (get_command arguments).map fun command =>
    let arg_list := fields blank arguments
    let pass_action := if index command "__".toList ≠ 0 then "setvar".toList else []
    let p := (Places.second (arg_list.getD 1 [])).third (arg_list.getD 2 [])
    let command' := REPLIC_ENVIRON conf p.pass_src p.pass_rcvr pass_action command
    ⟨p.at_inst, command',
      (if p.suspect then
        [("arguments supplied to RUN are suspect, cannot decide on the instance and " ++
          "action").toList]
      else []) ++
      if index command' "__".toList ≠ 0 then
        [("RUN command still has some un-filtered values.Pls. check config files,the command " ++
          "still is ").toList ++ command']
      else []⟩

/-- The script is not executed if anything has been reported. -/
def Run.handed (r : Run) : Option Text := if r.error_reports = [] then some r.command else none

/-- The command that is handed to an instance. -/
def handed (conf : Config) (arguments : Text) : Option Text :=
  (run_multisite_action conf arguments).bind Run.handed

def nameChar (c : Char) : Bool := wordChar c || c == '='

abbrev Name := { t : Text // ∀ c ∈ t, nameChar c = true }

inductive Routing where
  | src (i : Name)
  | rcv (i : Name)
  | inst (i : Name)

def Routing.text : Routing → Text
  | .src i => "SRC=".toList ++ i
  | .rcv i => "RCV=".toList ++ i
  | .inst i => "INST".toList ++ i

abbrev Gap := { t : Text // t ≠ [] ∧ ∀ c ∈ t, blank c = true }

/-- The routing words, each behind a gap, and the rest, which is empty or begins with a blank. -/
structure Action where
  routing : List (Gap × Routing)
  routed : routing ≠ []
  rest : Text
  separate : ∀ c, rest.head? = some c → blank c = true

def Action.text (a : Action) : Text :=
  "RUN".toList ++ (a.routing.flatMap fun p => p.1.val ++ p.2.text) ++ a.rest

/-- The text without the keyword and the routing words. -/
def Action.handed (a : Action) : Text := (a.routing.flatMap fun p => p.1.val) ++ a.rest

def Action.words (a : Action) : List Text := fields blank a.rest

/-- The words at the front of the command that are taken for routing words. -/
def Action.lead (a : Action) : List Text := a.words.takeWhile routes

def Routing.Named : Routing → Prop
  | .src i => i.val ≠ []
  | .rcv i => i.val ≠ []
  | .inst i => if i.val.head? = some '=' then 2 ≤ i.val.length else '=' ∉ i.val

def Routing.side : Routing → Text
  | .src _ => "SRC".toList
  | .rcv _ => "RCV".toList
  | .inst _ => "SRC".toList

def Action.first (a : Action) : Routing := (a.routing.head a.routed).2

def Action.next (a : Action) : Text := (a.routing.tail.map (·.2.text) ++ a.words).headD []

/-- The first routing word names an instance, and the word behind it does not stand for that name
with an empty one. -/
def Action.Placed (a : Action) : Prop :=
  a.first.Named ∧ (a.first.side <+: a.next → 5 ≤ a.next.length)

/-- The words at the front of the command, as expressions, take nothing away. -/
def Action.Quiet (a : Action) : Prop :=
  ∀ w ∈ a.lead, sub w ("RUN".toList ++ a.handed) = some ("RUN".toList ++ a.handed)

/-- The action names an instance, the command has no constants, some word of it is not taken for a
routing word, and those that are take nothing away. -/
structure Action.Passed (a : Action) : Prop where
  placed : a.Placed
  plain : ¬ "__".toList <:+: a.handed
  word : ∃ w ∈ a.words, routes w = false
  quiet : a.Quiet

variable {s t p : Text} {ws : List Text}

variable {conf : Config} {command : Text}

end YdbTest.MsrRun
