import YdbTest.EnvXlateQuery

namespace YdbTest.EnvXlate

open MString SearchTree Function

variable {env : Env} {records : List Str} {db db' : Database} {ls rs : List Line} {l : Line}
  {n m c : Str} {ns : List Str} {f : Str → Option Str} {host ip : Nat} {s : State} {q : Query}

def key (env : Env) (host : Str) : Str := lower (canon env host)

/-- The names in the order of their first lines, behind our own. Of the lines the last one comes
first. -/
def named (env : Env) : List Line → List Str
  | [] => [lower (chop env.hostname)]
  | l :: ls =>
    if (named env ls).contains (key env l.host) then named env ls
    else named env ls ++ [key env l.host]

/-- The name whose entries another name has too: a new name joins the foremost one of its address
if that has entries by then, and otherwise it stays on its own from its first entry on. -/
def keeper (env : Env) : List Line → Str → Option Str
  | [], _ => none
  | l :: ls, n =>
    if n = key env l.host then
      let joined := if (named env ls).contains n then keeper env ls n
        else (Bst.foremost stringcmp (fun m => address env m = address env n) (named env ls)).bind
          (keeper env ls)
      joined.or (if lower l.dir = lit "dummy" then none else some n)
    else keeper env ls n

/-- Each line that matches has its global directory, which fits into the buffer, in an entry of a
name that is kept where the query's host name is; our own host name has to have an entry. -/
def Shared (env : Env) (ls : List Line) (q : Query) : Prop :=
  ∀ l ∈ ls, Matches env q l → l.gblpath.length ≤ MSGBUFSIZE ∧
    (address env (q.name env) = env.get_ip_addr env.hostname →
      ∃ k ∈ ls, ¬ k.dummy ∧ key env k.host = lower (chop env.hostname)) ∧
    ∃ k ∈ ls, ¬ k.dummy ∧ strip k.dir = strip l.dir ∧ k.gblpath = l.gblpath ∧
      keeper env ls.reverse (key env k.host) = keeper env ls.reverse (key env (q.name env))

section Names

theorem lower_lower (n : Str) : lower (lower n) = lower n := by
  have htolower (c : Nat) : tolower (tolower c) = tolower c := by
    unfold tolower
    split_ifs <;> omega
  rw [lower, lower, List.map_map]
  exact List.map_congr_left fun c _ => htolower c

theorem address_lower (hcase : ∀ a b, lower a = lower b → env.get_ip_addr a = env.get_ip_addr b)
    (n : Str) : address env (lower n) = address env n :=
  address_congr hcase (lower_lower n)

end Names

section Tied

/-- The hosts of the database are the names, and two hosts have one table if and only if one name
keeps the entries of both. -/
structure Tied (ns : List Str) (f : Str → Option Str) (db : Database) : Prop where
  names : ns = (List.range db.nhosts).map fun id => lower (db.hosts id).hostname
  grown : Bst.Grown stringcasecmp
    ((List.range db.nhosts).map fun id => ((db.hosts id).hostname, id)) db.host_tree
  bare : ∀ a < db.nhosts, (db.hosts a).dirtable = none ↔ f (lower (db.hosts a).hostname) = none
  same : ∀ a < db.nhosts, ∀ b < db.nhosts, (db.hosts a).dirtable = (db.hosts b).dirtable ↔
    f (lower (db.hosts a).hostname) = f (lower (db.hosts b).hostname)
  known : ∀ n c, f n = some c → n ∈ ns ∧ f c = some c

theorem Tied.foremost (hcase : ∀ a b, lower a = lower b → env.get_ip_addr a = env.get_ip_addr b)
    (hb : Built env ls db) (ht : Tied ns f db) (ip : Nat) :
    Bst.foremost stringcmp (fun m => address env m = ip) ns =
      (find_host_by_ip ip db).map fun id => lower (db.hosts id).hostname := by
  have haddress : ∀ id ∈ List.range db.nhosts,
      decide (address env (lower (db.hosts id).hostname) = ip) =
        decide ((db.hosts id).ipaddr = ip) := by
    intro id hid
    rw [address_lower hcase, hb.ip id (List.mem_range.mp hid)]
  rw [find_host_by_ip, ht.grown.first, Bst.foremost_map, Option.map_map, ht.names,
    Bst.foremost_map, Bst.foremost_congr haddress, Option.map_map]
  rfl

theorem Tied.not_mem (ht : Tied ns f db) (hb : Built env ls db) (hnew : lookup_host n db = none) :
    lower n ∉ ns := by
  rw [ht.names]
  intro hmem
  obtain ⟨id, hid, hname⟩ := List.mem_map.mp hmem
  have hplaced := hb.placed id (List.mem_range.mp hid)
  rw [lookup_congr hname, hnew] at hplaced
  exact Option.some_ne_none id hplaced.symm

theorem Tied.mem (ht : Tied ns f db) {a : Nat} (ha : a < db.nhosts) :
    lower (db.hosts a).hostname ∈ ns := by
  rw [ht.names]
  exact List.mem_map_of_mem (List.mem_range.mpr ha)

theorem Tied.grown_added (ht : Tied ns f db) {tab : Option Nat}
    (h : save_host n ip tab db = .ok (db', host)) (hnew : lookup_host n db = none) :
    Bst.Grown stringcasecmp
      ((List.range db'.nhosts).map fun id => ((db'.hosts id).hostname, id)) db'.host_tree := by
  obtain ⟨-, ha⟩ := save_host_spec h hnew
  have hold : (List.range db.nhosts).map (fun id => ((db'.hosts id).hostname, id)) =
      (List.range db.nhosts).map fun id => ((db.hosts id).hostname, id) := by
    refine List.map_congr_left fun id hid => ?_
    rw [ha.other id (List.mem_range.mp hid)]
  rw [ha.count, List.range_succ, List.map_append, List.map_singleton, hold, ha.self]
  unfold save_host at h
  split at h
  · rename_i tree htree
    obtain ⟨rfl, -⟩ := Prod.mk.inj (Except.ok.inj h)
    exact ht.grown.insert hnew htree
  · exact absurd h (by simp)

theorem Tied.added (ht : Tied ns f db) (hb : Built env ls db) (hnew : lookup_host n db = none)
    {althost tab : Option Nat} (ha : Added n ip tab db db')
    (hgrown : Bst.Grown stringcasecmp
      ((List.range db'.nhosts).map fun id => ((db'.hosts id).hostname, id)) db'.host_tree)
    (halt : ∀ a, althost = some a → a < db.nhosts)
    (htab : tab = althost.bind fun a => (db.hosts a).dirtable) :
    Tied (ns ++ [lower n]) (update f (lower n)
      ((althost.map fun a => lower (db.hosts a).hostname).bind f)) db' := by
  have hnot := ht.not_mem hb hnew
  -- the host whose table and whose name's entries a host has
  have hrep : ∀ id < db'.nhosts, ∃ r : Option Nat, (∀ a, r = some a → a < db.nhosts) ∧
      (db'.hosts id).dirtable = r.bind (fun a => (db.hosts a).dirtable) ∧
      update f (lower n) ((althost.map fun a => lower (db.hosts a).hostname).bind f)
        (lower (db'.hosts id).hostname) = r.bind fun a => f (lower (db.hosts a).hostname) := by
    intro id hid
    rw [ha.count] at hid
    obtain hlt | rfl := Nat.lt_succ_iff_lt_or_eq.mp hid
    · refine ⟨some id, fun a h => Option.some.inj h ▸ hlt, ?_, ?_⟩
      · rw [ha.other id hlt, Option.bind_some]
      · have hne : lower (db.hosts id).hostname ≠ lower n := fun h => hnot (h ▸ ht.mem hlt)
        rw [ha.other id hlt, update_of_ne hne, Option.bind_some]
    · refine ⟨althost, halt, ?_, ?_⟩
      · rw [ha.self, htab]
      · rw [ha.self, update_self, Option.bind_map]
        rfl
  constructor
  · rw [ha.count, List.range_succ, List.map_append, ht.names, List.map_singleton, ha.self]
    congr 1
    refine List.map_congr_left fun id hid => ?_
    rw [ha.other id (List.mem_range.mp hid)]
  · exact hgrown
  · intro a hlt
    obtain ⟨r, hr, htable, hname⟩ := hrep a hlt
    rw [htable, hname]
    cases r with
    | none => exact iff_of_true rfl rfl
    | some r => exact ht.bare r (hr r rfl)
  · intro a ha' b hb'
    obtain ⟨r, hr, htable, hname⟩ := hrep a ha'
    obtain ⟨r', hr', htable', hname'⟩ := hrep b hb'
    rw [htable, hname, htable', hname']
    cases r with
    | none =>
      cases r' with
      | none => exact iff_of_true rfl rfl
      | some r' => exact eq_comm.trans ((ht.bare r' (hr' r' rfl)).trans eq_comm)
    | some r =>
      cases r' with
      | none => exact ht.bare r (hr r rfl)
      | some r' => exact ht.same r (hr r rfl) r' (hr' r' rfl)
  · have hkeep : ∀ m c, f m = some c → update f (lower n)
        ((althost.map fun a => lower (db.hosts a).hostname).bind f) c = some c := by
      intro m c hc
      have hroot := (ht.known m c hc).2
      have hne : c ≠ lower n := fun h => hnot (h ▸ (ht.known c c hroot).1)
      rw [update_of_ne hne, hroot]
    intro m c hc
    by_cases hm : m = lower n
    · rw [hm, update_self] at hc
      obtain ⟨k, -, hk⟩ := Option.bind_eq_some_iff.mp hc
      exact ⟨List.mem_append_right _ (List.mem_singleton.mpr hm), hkeep k c hk⟩
    · rw [update_of_ne hm] at hc
      exact ⟨List.mem_append_left _ (ht.known m c hc).1, hkeep m c hc⟩

theorem Tied.root_ne (ht : Tied ns f db) (hn : f n = none) (m : Str) : f m ≠ some n := by
  intro hm
  have hroot := (ht.known m n hm).2
  rw [hn] at hroot
  exact Option.some_ne_none n hroot.symm

theorem lower_hostname_ne (hb : Built env ls db) {a : Nat} (ha : a < db.nhosts)
    (hlt : host < db.nhosts) (hne : a ≠ host) :
    lower (db.hosts a).hostname ≠ lower (db.hosts host).hostname := by
  intro heq
  have hfound := hb.placed a ha
  rw [lookup_congr heq, hb.placed host hlt] at hfound
  exact hne (Option.some.inj hfound).symm

theorem hostname_update (hosts : Nat → Host) (t : Option Nat) (a : Nat) :
    (update hosts host { hosts host with dirtable := t } a).hostname = (hosts a).hostname := by
  rw [update_apply]
  split
  · rename_i h
    rw [h]
  · rfl

/-- A host that gets a table of its own keeps its own entries. -/
theorem Tied.entered_new (ht : Tied ns f db) (hb : Built env ls db) (hlt : host < db.nhosts)
    (hnone : (db.hosts host).dirtable = none) (hhosts : db'.hosts =
      update db.hosts host { db.hosts host with dirtable := some db.ntables })
    (hcount : db'.nhosts = db.nhosts) (htree : db'.host_tree = db.host_tree) :
    Tied ns (update f (lower (db.hosts host).hostname)
      (some (lower (db.hosts host).hostname))) db' := by
  generalize hk : lower (db.hosts host).hostname = k
  have hfk : f k = none := hk ▸ (ht.bare host hlt).mp hnone
  have hfresh : ∀ a < db.nhosts, (db.hosts a).dirtable ≠ some db.ntables :=
    fun a ha h => Nat.lt_irrefl _ (hb.bound a ha _ h)
  have hroot := ht.root_ne hfk
  have hname : ∀ a, (db'.hosts a).hostname = (db.hosts a).hostname := fun a => by
    rw [hhosts, hostname_update]
  have hcases : ∀ a < db.nhosts, ((db'.hosts a).dirtable = some db.ntables ∧
        update f k (some k) (lower (db.hosts a).hostname) = some k) ∨
      ((db'.hosts a).dirtable = (db.hosts a).dirtable ∧
        update f k (some k) (lower (db.hosts a).hostname) = f (lower (db.hosts a).hostname)) := by
    intro a ha
    by_cases hah : a = host
    · rw [hhosts, hah, update_self, hk, update_self]
      exact Or.inl ⟨rfl, rfl⟩
    · have hne := hk ▸ lower_hostname_ne hb ha hlt hah
      rw [hhosts, update_of_ne hah, update_of_ne hne]
      exact Or.inr ⟨rfl, rfl⟩
  constructor
  · rw [hcount]
    simp only [hname]
    exact ht.names
  · rw [hcount, htree]
    simp only [hname]
    exact ht.grown
  · intro a ha
    rw [hcount] at ha
    rw [hname]
    obtain ⟨h1, h2⟩ | ⟨h1, h2⟩ := hcases a ha
    · rw [h1, h2]
      exact iff_of_false (Option.some_ne_none _) (Option.some_ne_none _)
    · rw [h1, h2]
      exact ht.bare a ha
  · intro a ha b hb'
    rw [hcount] at ha hb'
    rw [hname, hname]
    obtain ⟨h1, h2⟩ | ⟨h1, h2⟩ := hcases a ha <;> obtain ⟨h3, h4⟩ | ⟨h3, h4⟩ := hcases b hb' <;>
      rw [h1, h2, h3, h4]
    · exact iff_of_true rfl rfl
    · exact iff_of_false (hfresh b hb').symm (hroot _).symm
    · exact iff_of_false (hfresh a ha) (hroot _)
    · exact ht.same a ha b hb'
  · intro m c hc
    by_cases hm : m = k
    · rw [hm, update_self] at hc
      obtain rfl := Option.some.inj hc
      rw [hm, update_self, ← hk]
      exact ⟨ht.mem hlt, rfl⟩
    · rw [update_of_ne hm] at hc
      obtain ⟨h1, h2⟩ := ht.known m c hc
      refine ⟨h1, ?_⟩
      have hne : c ≠ k := fun hck => hroot m (hck ▸ hc)
      rw [update_of_ne hne]
      exact h2

theorem Tied.entered (ht : Tied ns f db) (hb : Built env ls db) {dir g : Str}
    (hlt : host < db.nhosts) (h : save_entry n host dir g db = .ok db') :
    Tied ns (update f (lower (db.hosts host).hostname) ((f (lower (db.hosts host).hostname)).or
      (some (lower (db.hosts host).hostname)))) db' := by
  unfold save_entry at h
  split at h
  · rename_i hnone
    obtain rfl := Except.ok.inj h
    rw [(ht.bare host hlt).mp hnone, Option.none_or]
    exact ht.entered_new hb hlt hnone rfl rfl rfl
  · rename_i t hsome
    have hkept : (f (lower (db.hosts host).hostname)).isSome := by
      rw [Option.isSome_iff_ne_none, Ne, ← ht.bare host hlt, hsome]
      exact Option.some_ne_none t
    obtain ⟨c, hc⟩ := Option.isSome_iff_exists.mp hkept
    rw [hc, Option.some_or, ← hc, update_eq_self]
    split at h
    · obtain rfl := Except.ok.inj h
      exact ⟨ht.names, ht.grown, ht.bare, ht.same, ht.known⟩
    · exact absurd h (by simp)

/-- The name of the line is there, or it joins another one. -/
theorem Tied.joined (hcase : ∀ a b, lower a = lower b → env.get_ip_addr a = env.get_ip_addr b)
    (hb : Built env ls db) (ht : Tied (named env rs) (keeper env rs) db)
    (h : host_for (canon env l.host) (env.get_ip_addr l.host) db = .ok (db', host)) :
    Tied (named env (l :: rs)) (update (keeper env rs) (key env l.host)
      (if (named env rs).contains (key env l.host) then keeper env rs (key env l.host)
        else (Bst.foremost stringcmp (fun m => address env m = address env (key env l.host))
          (named env rs)).bind (keeper env rs))) db' := by
  obtain ⟨hb', hh⟩ := host_for_built hb h
  have hkey : lower (db'.hosts host).hostname = key env l.host := (hb'.found _ _ hh).2
  unfold host_for at h
  split at h
  · obtain ⟨rfl, rfl⟩ := Prod.mk.inj (Except.ok.inj h)
    have hmem : (named env rs).contains (key env l.host) = true :=
      List.contains_iff_mem.mpr (hkey ▸ ht.mem (hb'.found _ _ hh).1)
    rw [if_pos hmem, update_eq_self, named, if_pos hmem]
    exact ht
  · rename_i hnew
    have hnot : ¬ (named env rs).contains (key env l.host) = true := fun hmem =>
      ht.not_mem hb hnew (List.contains_iff_mem.mp hmem)
    obtain ⟨-, ha⟩ := save_host_spec h hnew
    have hip : address env (key env l.host) = env.get_ip_addr l.host := by
      rw [address_new hb hnew, key, address_lower hcase]
    rw [if_neg hnot, named, if_neg hnot, hip, ht.foremost hcase hb]
    refine ht.added hb hnew ha (ht.grown_added h hnew) (fun a hfirst => ?_) rfl
    exact hb.ids a (Bst.first_some hfirst).2

theorem Tied.tables {n' : Str} {f : Str → Option Str} (ht : Tied ns f db) (hb : Built env ls db)
    (hn : (lookup_host n db).isSome) (hn' : (lookup_host n' db).isSome) :
    tableOf db n = tableOf db n' ↔ f (lower n) = f (lower n') := by
  obtain ⟨a, ha⟩ := Option.isSome_iff_exists.mp hn
  obtain ⟨b, hb'⟩ := Option.isSome_iff_exists.mp hn'
  obtain ⟨hlt, hname⟩ := hb.found n a ha
  obtain ⟨hlt', hname'⟩ := hb.found n' b hb'
  rw [tableOf_eq ha, tableOf_eq hb', ht.same a hlt b hlt', hname, hname']

end Tied

section Answers

variable (hcase : ∀ a b, lower a = lower b → env.get_ip_addr a = env.get_ip_addr b)

include hcase

end Answers

end YdbTest.EnvXlate
