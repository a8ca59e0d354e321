import YdbTest.DbcreateMulti
import YdbTest.Dbcargs
import YdbTest.Pieces

namespace YdbTest.Dbcargs

open MString Pieces
open DbcreateMulti (Opt Opts Entry argmnts entry test tmp)

def opt : Arg → Opt
  | .file_name => .file_name
  | .n_regions => .n_regions
  | .key_size => .key_size
  | .record_size => .record_size
  | .block_size => .block_size
  | .allocation => .allocation
  | .global_buffer_count => .global_buffer_count
  | .extension_count => .extension_count
  | .reserved_bytes => .reserved_bytes
  | .collation_default => .collation_default
  | .null_subscripts => .null_subscripts
  | .access_method => .access_method
  | .acc_meth_env => .acc_meth_env
  | .journal => .journal
  | .test_collation => .test_collation
  | .test_stdnull_collation => .test_stdnull_collation
  | .test_gtcm => .test_gtcm
  | .qdbrundown => .qdbrundown
  | .freeze => .freeze
  | .name_override => .filename_override
  | .different_gld => .different_gld
  | .gld_has_db_fullpath => .gld_has_db_fullpath
  | .acces_meth_env => .acc_meth_env
  | .acces_method => .access_method
  | .template => .template
  | .test_stats => .test_stats
  | .null => .move

theorem opt_injective : ∀ k ∈ defargs, ∀ j ∈ defargs, opt k.1 = opt j.1 → k = j := by decide

/-- Up to `test_collation` both tables have the same names at the same places. -/
theorem same_place : ∀ i < 15, (defargs[i]?).map (fun k => opt k.1) = argmnts[i]? := by decide

def sizes : List Arg := [.n_regions, .key_size, .record_size, .block_size]

/-- The names under which `dbcreate_multi.awk` reads back a value. -/
def named : List (Arg × Str) :=
  (defargs.drop 1).take 10 ++
    [(.test_collation, lit "test_collation"), (.test_gtcm, lit "test_gtcm")]

def known : List (Str × Arg) :=
  [(lit "k", .key_size), (lit "rec", .record_size), (lit "bl", .block_size),
   (lit "al", .allocation), (lit "glo", .global_buffer_count), (lit "e", .extension_count),
   (lit "res", .reserved_bytes), (lit "c", .collation_default), (lit "nu", .null_subscripts),
   (lit "test_collation", .test_collation), (lit "test_gtcm", .test_gtcm)]

def knownWhole : List (Str × Arg) :=
  [(lit "n_regions", .n_regions), (lit "n", .null_subscripts)]

variable {full : Arg → Prop} {k : Arg × Str} {a : Arg} {p r w x y z : Str} {i : Nat}

/-- What may be written for a field: with the names before it all given it stands alone, and must
not look like an option; a list of sizes is written as one of its pieces. -/
def Writable (full : Arg → Prop) (a : Arg) (y : Str) : Prop :=
  ∀ z ∈ if a ∈ sizes then y.splitOn comma else [y], z ≠ [] ∧ (full a → test z = none)

/-- The words that keep their meaning; `full a` says that all names before `a` are given too. -/
inductive Kept (full : Arg → Prop) : Nat → Str → Prop
  | first {w : Str} (hw : w.head? ≠ some hyphen) (hl : lower w = w) (hne : w ≠ []) : Kept full 1 w
  | place {i : Nat} {k : Arg × Str} {w : Str} (hi : 1 ≤ i) (hk : (defargs.take 15)[i - 1]? = some k)
      (hw : w.head? ≠ some hyphen) (hl : lower w = w) (hf : ¬ lit "-f" <:+: w)
      (hb : full k.1 ∨ k ∈ named ∧ equals ∉ w) (hwrite : Writable full k.1 w) : Kept full i w
  | value {i : Nat} {p r y : Str} {a : Arg}
      (hp : (p, a) ∈ known ∨ (p, a) ∈ knownWhole ∧ r = []) (hr : equals ∉ r)
      (hy : equals ∉ y) (hne : y ≠ [])
      (hl : lower (hyphen :: (p ++ r) ++ equals :: y) = hyphen :: (p ++ r) ++ equals :: y)
      (hf : ¬ lit "-f" <:+: hyphen :: (p ++ r) ++ equals :: y)
      (hg : a = .test_gtcm → ¬ full a) (hwrite : Writable full a y) :
      Kept full i (hyphen :: (p ++ r) ++ equals :: y)
  | noval {i : Nat} : Kept full i (lit "-n")
  | stdnull {i : Nat} {r : Str} (hf : ¬ lit "-f" <:+: lit "-stdnull" ++ r) :
      Kept full i (lit "-stdnull" ++ r)
  | nostdnull {i : Nat} {r : Str} (hf : ¬ lit "-f" <:+: lit "-nostdnull" ++ r) :
      Kept full i (lit "-nostdnull" ++ r)
  | qdbrundown {i : Nat} {r : Str} (hf : ¬ lit "-f" <:+: lit "-qdbrundown" ++ r) :
      Kept full i (lit "-qdbrundown" ++ r)
  | noqdbrundown {i : Nat} {r : Str} (hf : ¬ lit "-f" <:+: lit "-noqdbrundown" ++ r)
      (hb : full .qdbrundown) :
      Kept full i (lit "-noqdbrundown" ++ r)

/-- The word written for `y` is read back as the value `x` of the option of the same name. -/
def Carried (full : Arg → Prop) (k : Arg × Str) (y x : Str) : Prop :=
  ∀ i argc, 1 ≤ i → defargs[i - 1]? = some k → 1 ≤ argc → (argc = i ↔ full k.1) →
    word k i argc y ≠ [] ∧ entry argc (word k i argc y) = some (.value (opt k.1) x)

def Fit (full : Arg → Prop) (k : Arg × Str) (y x : Str) : Prop :=
  if k.1 ∈ sizes then x = y ∧ ∀ z ∈ y.splitOn comma, Carried full k z z else Carried full k y x

def Alike (full : Arg → Prop) (i : Nat) (w : Str) : Prop :=
  ∃ k ∈ defargs, ∃ y x, argOf i (lower w) = some (k.1, y) ∧
    entry i w = some (.value (opt k.1) x) ∧ Fit full k y x

theorem named_mem : ∀ k ∈ named, k ∈ defargs := by decide

theorem infix_named (y : Str) : ∀ k ∈ named,
    (lit "-f" <:+: hyphen :: k.2 ++ equals :: y ↔ lit "-f" <:+: y) := by
  simp [named, defargs, lit, hyphen, equals, List.infix_cons_iff]

theorem test_named (hy : equals ∉ y) (hf : ¬ lit "-f" <:+: y) : ∀ k ∈ named,
    test (hyphen :: k.2 ++ equals :: y) = some (.value (opt k.1) y) := by
  have htmp : ∀ k ∈ named, tmp (hyphen :: k.2 ++ equals :: y) = y :=
    fun k _ => DbcreateMulti.tmp_append hy _
  have htest : ∀ k ∈ named, test (hyphen :: k.2 ++ equals :: y) =
      some (.value (opt k.1) (tmp (hyphen :: k.2 ++ equals :: y))) := by
    have heq : ∀ k ∈ named, test (hyphen :: k.2 ++ equals :: y) = _ :=
      fun k hk => DbcreateMulti.test_eq fun h => hf ((infix_named y k hk).mp h)
    intro k hk
    rw [heq k hk]
    revert k
    simp only [named, defargs, List.drop, List.take, List.cons_append, List.nil_append,
      List.forall_mem_cons]
    exact ⟨rfl, rfl, rfl, rfl, rfl, rfl, rfl, rfl, rfl, rfl, rfl, rfl,
      fun _ h => absurd h List.not_mem_nil⟩
  intro k hk
  rw [htest k hk, htmp k hk]

theorem place_argmnts (hk : k ∈ defargs.take 15) (hi : defargs[i - 1]? = some k) :
    argmnts[i - 1]? = some (opt k.1) := by
  have hlt : ∀ n < 19, ∀ k ∈ defargs.take 15, defargs[n]? = some k → n < 15 := by decide
  obtain ⟨hn, -⟩ := List.getElem?_eq_some_iff.mp hi
  have hsame := same_place (i - 1) (hlt _ hn k hk hi)
  rw [hi] at hsame
  exact hsame.symm

theorem carried_of (hk : k.1 ≠ .test_stdnull_collation) (hne : y ≠ [])
    (hbare : ∀ i, full k.1 → defargs[i - 1]? = some k → entry i y = some (.value (opt k.1) x))
    (hpair : ¬ full k.1 → ∀ argc, entry argc (hyphen :: k.2 ++ equals :: y) =
      some (.value (opt k.1) x)) : Carried full k y x := by
  intro i argc hi hplace hargc hiff
  rw [word, if_neg hk]
  by_cases hfull : full k.1
  · rw [if_neg (not_not.mpr (hiff.mpr hfull)), hiff.mpr hfull]
    exact ⟨hne, hbare i hfull hplace⟩
  · rw [if_pos fun h => hfull (hiff.mp h), if_neg hne]
    exact ⟨List.cons_ne_nil _ _, hpair hfull argc⟩

theorem entry_alone (hk : k ∈ defargs.take 15) (ht : test y = none)
    (hi : defargs[i - 1]? = some k) : entry i y = some (.value (opt k.1) y) := by
  rw [DbcreateMulti.entry_place ht, place_argmnts hk hi, Option.map_some]

theorem stdnull_notMem : ∀ k ∈ named, k.1 ≠ .test_stdnull_collation := by decide

theorem carried_named (hk : k ∈ named) (hne : y ≠ []) (hy : equals ∉ y)
    (hf : ¬ lit "-f" <:+: y) (hbare : full k.1 → k ∈ defargs.take 15 ∧ test y = none) :
    Carried full k y y := by
  refine carried_of (stdnull_notMem k hk) hne (fun i hfull hi => ?_) fun _ argc => ?_
  · exact entry_alone (hbare hfull).1 (hbare hfull).2 hi
  · exact DbcreateMulti.entry_of_test (test_named hy hf k hk) argc

theorem carried_full (hk : k ∈ defargs.take 15) (hfull : full k.1) (hne : y ≠ [])
    (ht : test y = none) : Carried full k y y := by
  have hnot : ∀ k ∈ defargs.take 15, k.1 ≠ .test_stdnull_collation := by decide
  exact carried_of (hnot k hk) hne (fun i _ hi => entry_alone hk ht hi) fun h => absurd hfull h

theorem carried_stdnull (hy : y = lit "-stdnull" ∨ y = lit "-nostdnull") :
    Carried full (.test_stdnull_collation, lit "test_stdnull_collation") y y := by
  intro i argc _ _ _ _
  rw [word, if_pos rfl]
  obtain rfl | rfl := hy
  · exact ⟨by decide, DbcreateMulti.entry_of_test (by decide) argc⟩
  · exact ⟨by decide, DbcreateMulti.entry_of_test (by decide) argc⟩

theorem carried_qdbrundown :
    Carried full (.qdbrundown, lit "qdbrundown") (lit "-qdbrundown") (lit "-qdbrundown") :=
  carried_of (by decide) (by decide) (fun i _ _ => DbcreateMulti.entry_of_test (by decide) i)
    fun _ argc => DbcreateMulti.entry_of_test (by decide) argc

theorem carried_noqdbrundown (hfull : full .qdbrundown) :
    Carried full (.qdbrundown, lit "qdbrundown") (lit "-noqdbrundown") (lit "-noqdbrundown") :=
  carried_of (by decide) (by decide) (fun i _ _ => DbcreateMulti.entry_of_test (by decide) i)
    fun h => absurd hfull h

theorem piece_second {c : Nat} (hp : c ∉ p) (hy : c ∉ y) : piece (p ++ c :: y) c 2 = y := by
  rw [piece, if_neg (by decide), List.splitOn_append_cons_self_of_not_mem hp,
    List.splitOn_eq_singleton hy]
  rfl

theorem argOf_pair (hp : equals ∉ p) (hy : equals ∉ y) (i : Nat) :
    argOf i (hyphen :: p ++ equals :: y) =
      ((tests y).find? fun r => r.1.fits p && (!r.2.1 || y ≠ [])).bind fun r => r.2.2 := by
  have hp' : equals ∉ hyphen :: p := by
    rw [List.mem_cons, not_or]
    exact ⟨by decide, hp⟩
  rw [argOf, if_neg (by simp), piece_first hp', piece_second hp' hy]
  rfl

theorem piece_one_append {c : Nat} (hp : c ∉ p) (r : Str) :
    piece (p ++ r) c 1 = p ++ piece r c 1 := by
  induction p with
  | nil => rfl
  | cons a p ih =>
    rw [List.mem_cons, not_or] at hp
    have hne : (a == c) = false := beq_eq_false_iff_ne.mpr (Ne.symm hp.1)
    have ih := ih hp.2
    rw [piece, if_neg (by decide)] at ih ⊢
    rw [List.cons_append, List.splitOn_cons_eq_if_modifyHead, hne]
    cases hs : (p ++ r).splitOn c with
    | nil => exact absurd hs (List.splitOn_ne_nil c _)
    | cons x xs =>
      rw [hs] at ih
      exact congrArg (a :: ·) ih

/-- A flag, as `dbcargs` takes it apart: only the beginning of its name counts. -/
theorem argOf_flag (hp : equals ∉ p) (r : Str) (i : Nat) : ∃ r' v,
    argOf i (hyphen :: p ++ r) =
      ((tests v).find? fun t => t.1.fits (p ++ r') && (!t.2.1 || v ≠ [])).bind fun t => t.2.2 := by
  have hp' : equals ∉ hyphen :: p := by
    rw [List.mem_cons, not_or]
    exact ⟨by decide, hp⟩
  refine ⟨piece r equals 1, piece (hyphen :: p ++ r) equals 2, ?_⟩
  rw [argOf, if_neg (by simp), piece_one_append hp']
  rfl

theorem argOf_known (hp : (p, a) ∈ known ∨ (p, a) ∈ knownWhole ∧ r = []) (hr : equals ∉ r)
    (hy : equals ∉ y) (hne : y ≠ []) (i : Nat) :
    argOf i (hyphen :: (p ++ r) ++ equals :: y) = some (a, y) := by
  have hmem : ∀ q ∈ known ++ knownWhole, equals ∉ q.1 := by decide
  have hpr : equals ∉ p ++ r := by
    rw [List.mem_append, not_or]
    refine ⟨?_, hr⟩
    obtain hp | ⟨hp, -⟩ := hp
    · exact hmem _ (List.mem_append_left _ hp)
    · exact hmem _ (List.mem_append_right _ hp)
  rw [argOf_pair hpr hy]
  cases y with
  | nil => exact absurd rfl hne
  | cons c y =>
    obtain hp | ⟨hp, rfl⟩ := hp
    · have hall : ∀ q ∈ known, ((tests (c :: y)).find? fun t => t.1.fits (q.1 ++ r) &&
          (!t.2.1 || c :: y ≠ [])).bind (fun t => t.2.2) = some (q.2, c :: y) := by
        simp only [known, List.forall_mem_cons]
        exact ⟨rfl, rfl, rfl, rfl, rfl, rfl, rfl, rfl, rfl, rfl, rfl,
          fun _ h => absurd h List.not_mem_nil⟩
      exact hall _ hp
    · have hall : ∀ q ∈ knownWhole, ((tests (c :: y)).find? fun t => t.1.fits (q.1 ++ []) &&
          (!t.2.1 || c :: y ≠ [])).bind (fun t => t.2.2) = some (q.2, c :: y) := by
        simp only [knownWhole, List.forall_mem_cons]
        exact ⟨rfl, rfl, fun _ h => absurd h List.not_mem_nil⟩
      exact hall _ hp

theorem test_known (hp : (p, a) ∈ known ∨ (p, a) ∈ knownWhole ∧ r = []) (hy : equals ∉ y)
    (hf : ¬ lit "-f" <:+: hyphen :: (p ++ r) ++ equals :: y) :
    test (hyphen :: (p ++ r) ++ equals :: y) = some (.value (opt a) y) := by
  have htmp : tmp (hyphen :: (p ++ r) ++ equals :: y) = y := DbcreateMulti.tmp_append hy _
  rw [DbcreateMulti.test_eq hf, htmp]
  obtain hp | ⟨hp, rfl⟩ := hp
  · have hall : ∀ q ∈ known, (((DbcreateMulti.tests y).tail).find? fun t =>
        t.1.fits (hyphen :: (q.1 ++ r) ++ equals :: y)).map Prod.snd =
          some (.value (opt q.2) y) := by
      simp only [known, List.forall_mem_cons]
      exact ⟨rfl, rfl, rfl, rfl, rfl, rfl, rfl, rfl, rfl, rfl, rfl,
        fun _ h => absurd h List.not_mem_nil⟩
    exact hall _ hp
  · have hall : ∀ q ∈ knownWhole, (((DbcreateMulti.tests y).tail).find? fun t =>
        t.1.fits (hyphen :: (q.1 ++ []) ++ equals :: y)).map Prod.snd =
          some (.value (opt q.2) y) := by
      simp only [knownWhole, List.forall_mem_cons]
      exact ⟨rfl, rfl, fun _ h => absurd h List.not_mem_nil⟩
    exact hall _ hp

theorem fit_of_carried (hk : k.1 ∉ sizes) (h : Carried full k y x) : Fit full k y x := by
  rw [Fit, if_neg hk]
  exact h

theorem head_splitOn_prefix {c : Nat} {x : Str} {xs : List Str} (h : y.splitOn c = x :: xs) :
    x <+: y := by
  induction y generalizing x xs with
  | nil =>
    rw [List.splitOn_nil] at h
    exact (List.cons.inj h).1 ▸ List.nil_prefix
  | cons a y ih =>
    rw [List.splitOn_cons_eq_if_modifyHead] at h
    split at h
    · exact (List.cons.inj h).1 ▸ List.nil_prefix
    · cases hs : y.splitOn c with
      | nil => exact absurd hs (List.splitOn_ne_nil c y)
      | cons z zs =>
        rw [hs] at h
        obtain rfl := (List.cons.inj h).1
        exact List.cons_prefix_cons.mpr ⟨rfl, ih hs⟩

theorem infix_of_mem_splitOn {c : Nat} (hz : z ∈ y.splitOn c) : z <:+: y := by
  induction y with
  | nil =>
    rw [List.splitOn_nil, List.mem_singleton] at hz
    exact hz ▸ List.infix_rfl
  | cons a y ih =>
    cases hs : (a :: y).splitOn c with
    | nil => exact absurd hs (List.splitOn_ne_nil c _)
    | cons x xs =>
      have hx := head_splitOn_prefix hs
      rw [hs, List.mem_cons] at hz
      obtain rfl | hz := hz
      · exact hx.isInfix
      · -- a piece after the first one is one of the rest
        rw [List.splitOn_cons_eq_if_modifyHead] at hs
        split at hs
        · exact (ih ((List.cons.inj hs).2 ▸ hz)).trans (List.suffix_cons a y).isInfix
        · cases hy : y.splitOn c with
          | nil => exact absurd hy (List.splitOn_ne_nil c y)
          | cons u us =>
            rw [hy] at hs
            have hmem : z ∈ y.splitOn c := by
              rw [hy, (List.cons.inj hs).2]
              exact List.mem_cons_of_mem _ hz
            exact (ih hmem).trans (List.suffix_cons a y).isInfix

theorem fit_writable (hwrite : Writable full k.1 y)
    (h : ∀ z, z <:+: y → z ≠ [] → (full k.1 → test z = none) → Carried full k z z) :
    Fit full k y y := by
  rw [Fit]
  rw [Writable] at hwrite
  split_ifs at hwrite ⊢ with hk
  · refine ⟨rfl, fun z hz => ?_⟩
    exact h z (infix_of_mem_splitOn hz) (hwrite z hz).1 (hwrite z hz).2
  · obtain ⟨hne, ht⟩ := hwrite y List.mem_cons_self
    exact h y List.infix_rfl hne ht

theorem carried_infix (hk : k ∈ named) (hy : equals ∉ y) (hf : ¬ lit "-f" <:+: y)
    (hplace : full k.1 → k ∈ defargs.take 15) (hz : z <:+: y) (hne : z ≠ [])
    (ht : full k.1 → test z = none) : Carried full k z z :=
  carried_named hk hne (fun h => hy (hz.subset h)) (fun h => hf (h.trans hz))
    fun hfull => ⟨hplace hfull, ht hfull⟩

theorem alike_first (hw : w.head? ≠ some hyphen) (hl : lower w = w) (hne : w ≠ [])
    (hfirst : full .file_name) : Alike full 1 w := by
  -- the first word is written at its place and read there as before, whatever it is
  obtain ⟨x, hx⟩ : ∃ x, entry 1 w = some (.value .file_name x) := by
    by_cases hf : lit "-f" <:+: w
    · refine ⟨tmp w, DbcreateMulti.entry_of_test ?_ 1⟩
      rw [test, DbcreateMulti.tests,
        List.find?_cons_of_pos (by simpa [DbcreateMulti.Pat.fits] using hf)]
      rfl
    · refine ⟨w, ?_⟩
      rw [DbcreateMulti.entry_place (DbcreateMulti.test_plain hw hf)]
      rfl
  have hplace : ∀ n < 19, defargs[n]? = some (Arg.file_name, lit "file_name") → n = 0 := by decide
  refine ⟨(.file_name, lit "file_name"), by decide, w, x, ?_, hx, fit_of_carried (by decide) ?_⟩
  · rw [hl, argOf, if_pos hw]
    rfl
  · refine carried_of (by decide) hne (fun i _ hi => ?_) fun h => absurd hfirst h
    obtain ⟨hn, -⟩ := List.getElem?_eq_some_iff.mp hi
    have h0 : i - 1 = 0 := hplace _ hn hi
    rw [entry, h0]
    exact hx

theorem alike_place (hk : (defargs.take 15)[i - 1]? = some k) (hw : w.head? ≠ some hyphen)
    (hl : lower w = w) (hf : ¬ lit "-f" <:+: w) (hb : full k.1 ∨ k ∈ named ∧ equals ∉ w)
    (hwrite : Writable full k.1 w) : Alike full i w := by
  have hmem : k ∈ defargs.take 15 := List.mem_of_getElem? hk
  have hi : defargs[i - 1]? = some k := by
    rw [List.getElem?_take] at hk
    split_ifs at hk
    exact hk
  refine ⟨k, List.mem_of_getElem? hi, w, w, ?_, ?_, fit_writable hwrite fun z hz hne ht => ?_⟩
  · rw [hl, argOf, if_pos hw, hi]
    rfl
  · exact entry_alone hmem (DbcreateMulti.test_plain hw hf) hi
  · obtain hfull | ⟨hnamed, hy⟩ := hb
    · exact carried_full hmem hfull hne (ht hfull)
    · exact carried_infix hnamed hy hf (fun _ => hmem) hz hne ht

theorem alike_value (hp : (p, a) ∈ known ∨ (p, a) ∈ knownWhole ∧ r = []) (hr : equals ∉ r)
    (hy : equals ∉ y) (hne : y ≠ [])
    (hl : lower (hyphen :: (p ++ r) ++ equals :: y) = hyphen :: (p ++ r) ++ equals :: y)
    (hf : ¬ lit "-f" <:+: hyphen :: (p ++ r) ++ equals :: y)
    (hg : a = .test_gtcm → ¬ full a) (hwrite : Writable full a y) :
    Alike full i (hyphen :: (p ++ r) ++ equals :: y) := by
  have hnames : ∀ q ∈ known ++ knownWhole, ∃ k ∈ named, k.1 = q.2 := by decide
  have hplaces : ∀ k ∈ named, k.1 ≠ .test_gtcm → k ∈ defargs.take 15 := by decide
  have hmem : (p, a) ∈ known ++ knownWhole := List.mem_append.mpr (hp.imp_right And.left)
  obtain ⟨k, hk, hka⟩ := hnames _ hmem
  obtain rfl : k.1 = a := hka
  have hfy : ¬ lit "-f" <:+: y := fun h =>
    hf (h.trans ((List.suffix_cons equals y).trans (List.suffix_append _ _)).isInfix)
  refine ⟨k, named_mem k hk, y, y, ?_, ?_, fit_writable hwrite fun z hz hne ht => ?_⟩
  · rw [hl]
    exact argOf_known hp hr hy hne i
  · exact DbcreateMulti.entry_of_test (test_known hp hy hf) i
  · refine carried_infix hk hy hfy (fun hfull => hplaces k hk fun h => ?_) hz hne ht
    exact hg h hfull

theorem alike_flag (hk : k ∈ defargs) (hs : k.1 ∉ sizes)
    (harg : argOf i (lower w) = some (k.1, y)) (ht : test w = some (.value (opt k.1) y))
    (hc : Carried full k y y) : Alike full i w :=
  ⟨k, hk, y, y, harg, DbcreateMulti.entry_of_test ht i, fit_of_carried hs hc⟩

theorem alike_of_kept (h : Kept full i w) (hfirst : full .file_name) : Alike full i w := by
  cases h with
  | first hw hl hne => exact alike_first hw hl hne hfirst
  | place hi hk hw hl hf hb hwrite => exact alike_place hk hw hl hf hb hwrite
  | value hp hr hy hne hl hf hg hwrite => exact alike_value hp hr hy hne hl hf hg hwrite
  | noval =>
    exact alike_flag (k := (.null_subscripts, lit "null_subscripts")) (by decide) (by decide) rfl
      (by decide) (carried_named (by decide) (by decide) (by decide) (by decide)
        fun _ => ⟨by decide, by decide⟩)
  | stdnull hf =>
    refine alike_flag (y := lit "-stdnull") (by decide) (by decide) ?_ ?_
      (carried_stdnull (Or.inl rfl))
    · obtain ⟨r', v, heq⟩ := argOf_flag (p := lit "stdnull") (by decide) (lower _) i
      exact heq
    · rw [DbcreateMulti.test_eq hf]
      rfl
  | nostdnull hf =>
    refine alike_flag (y := lit "-nostdnull") (by decide) (by decide) ?_ ?_
      (carried_stdnull (Or.inr rfl))
    · obtain ⟨r', v, heq⟩ := argOf_flag (p := lit "nostdnull") (by decide) (lower _) i
      exact heq
    · rw [DbcreateMulti.test_eq hf]
      rfl
  | qdbrundown hf =>
    refine alike_flag (y := lit "-qdbrundown") (by decide) (by decide) ?_ ?_ carried_qdbrundown
    · obtain ⟨r', v, heq⟩ := argOf_flag (p := lit "qdbrundown") (by decide) (lower _) i
      exact heq
    · rw [DbcreateMulti.test_eq hf]
      rfl
  | noqdbrundown hf hb =>
    refine alike_flag (y := lit "-noqdbrundown") (by decide) (by decide) ?_ ?_
      (carried_noqdbrundown hb)
    · obtain ⟨r', v, heq⟩ := argOf_flag (p := lit "noqdbrundown") (by decide) (lower _) i
      exact heq
    · rw [DbcreateMulti.test_eq hf]
      rfl

end YdbTest.Dbcargs
