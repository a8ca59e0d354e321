import YdbTest.EnvXlate

namespace YdbTest.EnvXlate

open MString SearchTree

variable {env : Env} {db db' : Database} {ls : List Line} {l : Line} {n m d g : Str} {host t a ip : Nat}
  {tab : Option Nat}

theorem strncmp_eq_zero {s s' : Str} (h : s.length = s'.length) : strncmp s s' = 0 ↔ s = s' := by
  induction s generalizing s' with
  | nil => simp [strncmp, List.eq_nil_of_length_eq_zero h.symm]
  | cons c s ih =>
    cases s' with
    | nil => exact absurd h (Nat.succ_ne_zero _)
    | cons c' s' =>
      rw [strncmp]
      split
      · rename_i heq
        rw [ih (Nat.succ.inj h), heq, List.cons_inj_right]
      · rename_i hne
        refine iff_of_false (by omega) fun h => hne (List.cons.inj h).1

theorem stringcmp_eq_zero (s s' : Str) : stringcmp s s' = 0 ↔ s = s' := by
  unfold stringcmp
  split
  · rename_i h
    exact strncmp_eq_zero h
  · rename_i h
    exact iff_of_false (by omega) fun he => h (congrArg List.length he)

theorem stringcasecmp_eq_zero (s s' : Str) : stringcasecmp s s' = 0 ↔ lower s = lower s' :=
  stringcmp_eq_zero (lower s) (lower s')

theorem stringcasecmp_congr (r s s' : Str) (h : lower s = lower s') :
    stringcasecmp r s = stringcasecmp r s' := by
  rw [stringcasecmp, stringcasecmp, h]

theorem lookup_congr (h : lower n = lower m) : lookup_host n db = lookup_host m db :=
  Bst.find_congr stringcasecmp_congr h

def canon (env : Env) (host : Str) : Str :=
  if lower host = lit "localhost" then chop env.hostname else host

def address (env : Env) (host : Str) : Nat :=
  if lower (canon env host) = lower (chop env.hostname) then env.get_ip_addr env.hostname
  else env.get_ip_addr host

def Line.dummy (l : Line) : Prop := lower l.dir = lit "dummy"

def tableOf (db : Database) (n : Str) : Option Nat :=
  (lookup_host n db).bind fun id => (db.hosts id).dirtable

def Entered (env : Env) (ls : List Line) (db : Database) (t : Nat) (d g : Str) : Prop :=
  ∃ l ∈ ls, ¬ l.dummy ∧ tableOf db (canon env l.host) = some t ∧ strip l.dir = d ∧ l.gblpath = g

structure Built (env : Env) (ls : List Line) (db : Database) : Prop where
  ours : (db.hosts our_host).hostname = chop env.hostname ∧
    lookup_host (chop env.hostname) db = some our_host
  placed : ∀ id < db.nhosts, lookup_host (db.hosts id).hostname db = some id
  found : ∀ n id, lookup_host n db = some id →
    id < db.nhosts ∧ lower (db.hosts id).hostname = lower n
  ids : ∀ id ∈ db.host_tree.values, id < db.nhosts
  names : ∀ l ∈ ls, (lookup_host (canon env l.host) db).isSome
  ip : ∀ id < db.nhosts, (db.hosts id).ipaddr = address env (db.hosts id).hostname
  bound : ∀ id < db.nhosts, ∀ t, (db.hosts id).dirtable = some t → t < db.ntables
  shared : ∀ a < db.nhosts, ∀ b < db.nhosts, ∀ t, (db.hosts a).dirtable = some t →
    (db.hosts b).dirtable = some t → (db.hosts a).ipaddr = (db.hosts b).ipaddr
  contents : ∀ t < db.ntables, ∀ d g,
    (db.tables t).find stringcmp d = some g ↔ Entered env ls db t d g
  entered : ∀ l ∈ ls, ¬ l.dummy → (tableOf db (canon env l.host)).isSome

theorem tableOf_eq (h : lookup_host n db = some host) :
    tableOf db n = (db.hosts host).dirtable := by
  rw [tableOf, h, Option.bind_some]

theorem address_congr (hcase : ∀ a b, lower a = lower b → env.get_ip_addr a = env.get_ip_addr b)
    (h : lower n = lower m) : address env n = address env m := by
  have hc : lower (canon env n) = lower (canon env m) := by
    unfold canon
    rw [h]
    split
    · rfl
    · exact h
  unfold address
  rw [hc, hcase n m h]

/-- What `save_host` does. -/
structure Added (n : Str) (ip : Nat) (tab : Option Nat) (db db' : Database) : Prop where
  count : db'.nhosts = db.nhosts + 1
  self : db'.hosts db.nhosts = ⟨n, ip, tab⟩
  other : ∀ id < db.nhosts, db'.hosts id = db.hosts id
  lookup : ∀ m, lookup_host m db' =
    if lower m = lower n then some db.nhosts else lookup_host m db
  values : ∀ id ∈ db'.host_tree.values, id = db.nhosts ∨ id ∈ db.host_tree.values
  ntables : db'.ntables = db.ntables
  tables : db'.tables = db.tables

theorem save_host_spec (h : save_host n ip tab db = .ok (db', host))
    (hnew : lookup_host n db = none) : host = db.nhosts ∧ Added n ip tab db db' := by
  unfold save_host at h
  split at h
  · rename_i tree htree
    obtain ⟨rfl, rfl⟩ := Prod.mk.inj (Except.ok.inj h)
    refine ⟨rfl, rfl, Function.update_self _ _ _, ?_, ?_, Bst.values_insert htree, rfl, rfl⟩
    · exact fun id hid => Function.update_of_ne (Nat.ne_of_lt hid) _ _
    · intro m
      have hf : tree.find stringcasecmp m = _ :=
        Bst.find_insert stringcasecmp_eq_zero stringcasecmp_congr htree
      rw [← lookup_host, hnew, Option.getD_none] at hf
      exact hf
  · exact absurd h (by simp)

theorem Added.lookup_old (ha : Added n ip tab db db') (hnew : lookup_host n db = none)
    (h : lookup_host m db = some host) : lookup_host m db' = some host := by
  rw [ha.lookup, if_neg fun he => ?_]
  · exact h
  · rw [lookup_congr he, hnew] at h
    exact Option.some_ne_none host h.symm

theorem Added.table_old (hb : Built env ls db) (ha : Added n ip tab db db')
    (hnew : lookup_host n db = none) (h : (lookup_host m db).isSome) :
    tableOf db' m = tableOf db m := by
  obtain ⟨id, hid⟩ := Option.isSome_iff_exists.mp h
  rw [tableOf_eq hid, tableOf_eq (ha.lookup_old hnew hid), ha.other id (hb.found m id hid).1]

theorem Added.built (hb : Built env ls db) (ha : Added n ip tab db db')
    (hnew : lookup_host n db = none) (hip : ip = address env n)
    (htab : ∀ t, tab = some t → ∃ a < db.nhosts, (db.hosts a).dirtable = some t ∧
      (db.hosts a).ipaddr = ip) : Built env ls db' := by
  have hsplit : ∀ id < db'.nhosts, id < db.nhosts ∨ id = db.nhosts := by
    intro id hid
    rw [ha.count] at hid
    exact Nat.lt_succ_iff_lt_or_eq.mp hid
  have hlt : ∀ id < db.nhosts, id < db'.nhosts := by
    intro id hid
    rw [ha.count]
    exact Nat.lt_succ_of_lt hid
  constructor
  · rw [ha.other _ (hb.found _ _ hb.ours.2).1]
    exact ⟨hb.ours.1, ha.lookup_old hnew hb.ours.2⟩
  · intro id hid
    obtain hid | rfl := hsplit id hid
    · rw [ha.other id hid]
      exact ha.lookup_old hnew (hb.placed id hid)
    · rw [ha.self, ha.lookup, if_pos rfl]
  · intro m id hid
    rw [ha.lookup] at hid
    split at hid
    · rename_i he
      obtain rfl := Option.some.inj hid
      rw [ha.self, ha.count]
      exact ⟨Nat.lt_succ_self _, he.symm⟩
    · obtain ⟨h1, h2⟩ := hb.found m id hid
      rw [ha.other id h1]
      exact ⟨hlt id h1, h2⟩
  · intro id hid
    obtain rfl | hid := ha.values id hid
    · rw [ha.count]
      exact Nat.lt_succ_self _
    · exact hlt id (hb.ids id hid)
  · intro l hl
    obtain ⟨id, hid⟩ := Option.isSome_iff_exists.mp (hb.names l hl)
    rw [ha.lookup_old hnew hid]
    rfl
  · intro id hid
    obtain hid | rfl := hsplit id hid
    · rw [ha.other id hid]
      exact hb.ip id hid
    · rw [ha.self]
      exact hip
  · intro id hid t ht
    rw [ha.ntables]
    obtain hid | rfl := hsplit id hid
    · rw [ha.other id hid] at ht
      exact hb.bound id hid t ht
    · rw [ha.self] at ht
      obtain ⟨a, ha, hat, -⟩ := htab t ht
      exact hb.bound a ha t hat
  · have hrep : ∀ a < db'.nhosts, ∀ t, (db'.hosts a).dirtable = some t → ∃ a' < db.nhosts,
        (db.hosts a').dirtable = some t ∧ (db.hosts a').ipaddr = (db'.hosts a).ipaddr := by
      intro a ha' t ht
      obtain hlt | rfl := hsplit a ha'
      · rw [ha.other a hlt] at ht ⊢
        exact ⟨a, hlt, ht, rfl⟩
      · rw [ha.self] at ht ⊢
        exact htab t ht
    intro a ha' b hb' t hat hbt
    obtain ⟨c, hc, hct, hci⟩ := hrep a ha' t hat
    obtain ⟨d, hd, hdt, hdi⟩ := hrep b hb' t hbt
    rw [← hci, ← hdi]
    exact hb.shared c hc d hd t hct hdt
  · intro t ht d g
    rw [ha.ntables] at ht
    rw [ha.tables, hb.contents t ht d g]
    constructor
    · rintro ⟨l, hl, h1, h2, h3, h4⟩
      exact ⟨l, hl, h1, (ha.table_old hb hnew (hb.names l hl)).trans h2, h3, h4⟩
    · rintro ⟨l, hl, h1, h2, h3, h4⟩
      exact ⟨l, hl, h1, (ha.table_old hb hnew (hb.names l hl)).symm.trans h2, h3, h4⟩
  · intro l hl hd
    rw [ha.table_old hb hnew (hb.names l hl)]
    exact hb.entered l hl hd

theorem address_new (hb : Built env ls db) (hnew : lookup_host (canon env l.host) db = none) :
    env.get_ip_addr l.host = address env (canon env l.host) := by
  have hcanon : lower (canon env l.host) ≠ lower (chop env.hostname) := by
    intro he
    rw [lookup_congr he, hb.ours.2] at hnew
    exact Option.some_ne_none _ hnew
  have hlocal : canon env l.host = l.host := by
    unfold canon at hcanon ⊢
    split
    · rename_i hl
      rw [if_pos hl] at hcanon
      exact absurd rfl hcanon
    · rfl
  rw [hlocal, address, if_neg hcanon]

theorem host_for_built (hb : Built env ls db)
    (h : host_for (canon env l.host) (env.get_ip_addr l.host) db = .ok (db', host)) :
    Built env ls db' ∧ lookup_host (canon env l.host) db' = some host := by
  unfold host_for at h
  split at h
  · rename_i id hid
    obtain ⟨rfl, rfl⟩ := Prod.mk.inj (Except.ok.inj h)
    exact ⟨hb, hid⟩
  · rename_i hnew
    obtain ⟨rfl, ha⟩ := save_host_spec h hnew
    refine ⟨ha.built hb hnew (address_new hb hnew) ?_, ?_⟩
    · intro t ht
      obtain ⟨a, hfirst, hat⟩ := Option.bind_eq_some_iff.mp ht
      obtain ⟨hia, hmem⟩ := Bst.first_some hfirst
      exact ⟨a, hb.ids a hmem, hat, of_decide_eq_true hia⟩
    · rw [ha.lookup, if_pos rfl]

theorem Built.dummy (hb : Built env ls db) (h : lookup_host (canon env l.host) db = some host)
    (hd : l.dummy) : Built env (ls ++ [l]) db := by
  refine { hb with names := ?_, contents := ?_, entered := ?_ }
  · intro k hk
    obtain hk | hk := List.mem_append.mp hk
    · exact hb.names k hk
    · rw [List.mem_singleton.mp hk, h]
      rfl
  · intro t ht d g
    rw [hb.contents t ht d g]
    constructor
    · rintro ⟨k, hk, hrest⟩
      exact ⟨k, List.mem_append_left _ hk, hrest⟩
    · rintro ⟨k, hk, h1, hrest⟩
      obtain hk | hk := List.mem_append.mp hk
      · exact ⟨k, hk, h1, hrest⟩
      · exact absurd (List.mem_singleton.mp hk ▸ hd) h1
  · intro k hk h1
    obtain hk | hk := List.mem_append.mp hk
    · exact hb.entered k hk h1
    · exact absurd (List.mem_singleton.mp hk ▸ hd) h1

end YdbTest.EnvXlate
