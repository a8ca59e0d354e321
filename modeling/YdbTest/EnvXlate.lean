import YdbTest.MString
import YdbTest.SearchTree
import Mathlib.Logic.Function.Basic

namespace YdbTest.EnvXlate

open MString SearchTree

/-- `strncmp` of strings of one length. -/
def strncmp : Str → Str → Int
  | [], _ => 0
  | _, [] => 0
  | a :: s, b :: t => if a = b then strncmp s t else (a : Int) - b

def tolower (c : Nat) : Nat := if 65 ≤ c ∧ c ≤ 90 then c + 32 else c

def lower (s : Str) : Str := s.map tolower

def stringcmp (s1 s2 : Str) : Int :=
  if s1.length = s2.length then strncmp s1 s2 else (s1.length : Int) - s2.length

def stringcasecmp (s1 s2 : Str) : Int := stringcmp (lower s1) (lower s2)

/-- `strtok`: the token, and the rest after the delimiter that ends it. -/
def strtok (s : Str) (delim : Str) : Option (Str × Str) :=
  let s := s.dropWhile (· ∈ delim)
  if s = [] then none
  else some (s.takeWhile (· ∉ delim), (s.dropWhile (· ∉ delim)).drop 1)

/-- What is asked of the system: the name of the host, the addresses of names (0 where there is
none), which paths are files, and the current directory. -/
structure Env where
  hostname : Str
  get_ip_addr : Str → Nat
  is_file : Str → Bool
  curdir : Str

/-- An entry of `host_tree`; `dirtable` points to a directory tree. -/
structure Host where
  hostname : Str
  ipaddr : Nat
  dirtable : Option Nat

/-- The in-core database. A host is pointed to by its number, and `our_host` is the first one. -/
structure Database where
  nhosts : Nat
  hosts : Nat → Host
  host_tree : Bst Str Nat
  ntables : Nat
  tables : Nat → Bst Str Str

def our_host : Nat := 0

def MSGBUFSIZE : Nat := 4096

def msg (s : Str) : Str := lit "gtm_env_xlate:  " ++ s

def lookup_host (hostname : Str) (db : Database) : Option Nat :=
  db.host_tree.find stringcasecmp hostname

def find_host_by_ip (addr : Nat) (db : Database) : Option Nat :=
  db.host_tree.first fun id => (db.hosts id).ipaddr = addr

def dir_tree_search (db : Database) (dirtable : Option Nat) (directory : Str) : Option Str :=
  match dirtable with
  | none => none
  | some t => (db.tables t).find stringcmp directory

def strip (dir : Str) : Str :=
  if 1 < dir.length ∧ dir.getLast? = some 47 then dir.dropLast else dir

def save_host (hostname : Str) (ipaddr : Nat) (dirtable : Option Nat) (db : Database) :
    Except Str (Database × Nat) :=
  match db.host_tree.insert stringcasecmp (fun _ _ => false) hostname db.nhosts with
  | some host_tree => .ok ({ db with
      nhosts := db.nhosts + 1
      hosts := Function.update db.hosts db.nhosts ⟨hostname, ipaddr, dirtable⟩
      host_tree := host_tree }, db.nhosts)
  | none => .error (msg (lit "Impossible duplicate host " ++ hostname ++ lit " in host tree"))

def host_for (hostname : Str) (ip_addr : Nat) (db : Database) : Except Str (Database × Nat) :=
  match lookup_host hostname db with
  | some host => .ok (db, host)
  | none =>
    let dirtable := (find_host_by_ip ip_addr db).bind fun althost => (db.hosts althost).dirtable
    save_host hostname ip_addr dirtable db

def save_entry (hostname : Str) (host : Nat) (dir gblpath : Str) (db : Database) :
    Except Str Database :=
  match (db.hosts host).dirtable with
  | none => .ok { db with
      hosts := Function.update db.hosts host { db.hosts host with dirtable := some db.ntables }
      ntables := db.ntables + 1
      tables := Function.update db.tables db.ntables (.node .leaf dir gblpath .leaf) }
  | some t =>
    match (db.tables t).insert stringcmp (fun g g' => stringcmp g g' = 0) dir gblpath with
    | some tree => .ok { db with tables := Function.update db.tables t tree }
    | none =>
      .error (msg (lit "Conflicting entry " ++ hostname ++ lit ":" ++ dir ++
        lit " in translation file"))

def save_table_entry (hostname : Str) (ip_addr : Nat) (dir gblpath : Str) (db : Database) :
    Except Str Database :=
  let hostname := if lower hostname = lit "localhost" then (db.hosts our_host).hostname else hostname
  match host_for hostname ip_addr db with
  | .error e => .error e
  | .ok (db, host) =>
    if lower dir = lit "dummy" then .ok db else save_entry hostname host (strip dir) gblpath db

/-- A line of the translation file with all its fields. -/
structure Line where
  host : Str
  dir : Str
  gblpath : Str

def read_record (env : Env) (tblbuf : Str) : Except Str (Option Line) :=
  if tblbuf.head? = some 35 then .ok none
  else
    match strtok tblbuf (lit " \t\n") with
    | none => .ok none
    | some (dir, rest) =>
      let recbuf := tblbuf.takeWhile (· ∈ lit " \t\n") ++ dir
      match strtok rest (lit " \t") with
      | none => .error (msg (lit "No host in translation table record " ++ recbuf))
      | some (host, rest) =>
        if env.get_ip_addr host = 0 then
          .error (msg (lit "Can't get IP address for host in " ++ recbuf))
        else
          match strtok rest (lit " \t\n") with
          | none =>
            .error (msg (lit "No global directory file in translation table record " ++ recbuf))
          | some (gblpath, _) => .ok (some ⟨host, dir, gblpath⟩)

/-- The records are what `fgets` gives, one after the other. -/
def read_dir_table (env : Env) : List Str → Database → Except Str Database
  | [], db => .ok db
  | tblbuf :: records, db =>
    match read_record env tblbuf with
    | .error e => .error e
    | .ok none => read_dir_table env records db
    | .ok (some l) =>
      match save_table_entry l.host (env.get_ip_addr l.host) l.dir l.gblpath db with
      | .error e => .error e
      | .ok db => read_dir_table env records db

/-- `(void)strtok(hostname, ".")` -/
def chop (hostname : Str) : Str :=
  let dots := hostname.takeWhile (· = 46)
  dots ++ (hostname.drop dots.length).takeWhile (· ≠ 46)

def initialize_table (env : Env) (records : List Str) : Except Str Database :=
  let host_ipaddr := env.get_ip_addr env.hostname
  if host_ipaddr = 0 then
    .error (msg (lit "Failed to get our IP address for our host name " ++ env.hostname))
  else
    match save_host (chop env.hostname) host_ipaddr none ⟨0, fun _ => ⟨[], 0, none⟩, .leaf, 0,
        fun _ => .leaf⟩ with
    | .error e => .error e
    | .ok (db, _) => read_dir_table env records db

/-- A directory, empty for the current one, and a host name, empty for our host. -/
structure Query where
  dir : Str
  host : Str

def Query.path (env : Env) (q : Query) : Str := strip (if q.dir = [] then env.curdir else q.dir)

def Query.hoststr (db : Database) (q : Query) : Option Nat :=
  if q.host = [] then some our_host
  else
    let host := if lower q.host = lit "localhost" then (db.hosts our_host).hostname else q.host
    lookup_host host db

/-- `gtm_env_xlate`, once the table has been read. -/
def translate (env : Env) (db : Database) (q : Query) : Except Str Str :=
  let dir := q.path env
  match q.hoststr db with
  | none => .error (msg (lit "No translation available"))
  | some host =>
    let our_host_flag := (db.hosts host).ipaddr = (db.hosts our_host).ipaddr
    if our_host_flag ∧ env.is_file dir then .ok (dir.take MSGBUFSIZE)
    else if our_host_flag ∧ (db.hosts our_host).dirtable = none then
      .error (msg (lit "No local host translation available"))
    else
      match dir_tree_search db (db.hosts host).dirtable dir with
      | some gbldir => .ok (gbldir.take MSGBUFSIZE)
      | none => .error (msg (lit "No translation available"))

/-- Before the first call, after it, or after a first call that failed. -/
inductive State
  | start
  | ready (db : Database)
  | broken

def gtm_env_xlate (env : Env) (records : List Str) (s : State) (q : Query) :
    State × Except Str Str :=
  match s with
  | .broken => (.broken, .error (msg (lit "Environment translation service is broken")))
  | .ready db => (.ready db, translate env db q)
  | .start =>
    match initialize_table env records with
    | .error e => (.broken, .error e)
    | .ok db => (.ready db, translate env db q)

end YdbTest.EnvXlate
