import Mathlib.Data.List.Forall2
import Mathlib.Data.List.Nodup
import Mathlib.Data.Option.Basic
import YdbTest.Awk
import YdbTest.Fields
import YdbTest.Printf

namespace YdbTest.Applic

open Awk Fields Separated Printf

def blank (c : Char) : Bool := c == ' ' || c == '\t'

def upper (s : Text) : Text := s.map Char.toUpper

def vars : List (String × String) :=
  [("BG", "acc_meth"), ("MM", "acc_meth"), ("REPLIC", "test_repl"), ("NON_REPLIC", "test_repl"),
   ("MULTISITE", "test_repl"), ("SUPPLEMENTARY_AB", "test_replic_suppl_type"),
   ("SUPPLEMENTARY_AP", "test_replic_suppl_type"), ("SUPPLEMENTARY_PQ", "test_replic_suppl_type"),
   ("BIG_ENDIAN", "gtm_endian"), ("LITTLE_ENDIAN", "gtm_endian"), ("UNICODE_MODE", "gtm_chset"),
   ("NONUNICODE_MODE", "gtm_chset"), ("REORG", "test_reorg"), ("NON_REORG", "test_reorg"),
   ("SINGLE_REG", "test_region"), ("MULTI_REG", "test_region"), ("GT.M", "test_gtm_gtcm"),
   ("GT.CM", "test_gtm_gtcm"), ("TP", "gtm_test_tp"), ("NON_TP", "gtm_test_tp"), ("L", "LFE"),
   ("F", "LFE"), ("E", "LFE"), ("UNNICE", "test_nice"), ("NICE", "test_nice"),
   ("COLLATION", "test_collation"), ("NON_COLLATION", "test_collation"),
   ("SETJNL", "gtm_test_jnl"), ("NON_SETJNL", "gtm_test_jnl"),
   ("NON_NOLINE", "gtm_test_nolineentry"), ("NOLINE", "gtm_test_nolineentry"),
   ("DBG", "tst_image"), ("PRO", "tst_image"), ("BTA", "tst_image"),
   ("UTF8", "gtm_test_unicode_support"), ("NON_UTF8", "gtm_test_unicode_support"),
   ("JNL_BEFORE", "gtm_test_jnl_nobefore"), ("JNL_NOBEFORE", "gtm_test_jnl_nobefore"),
   ("64BIT_GTM", "gtm_platform_size"), ("32BIT_GTM", "gtm_platform_size"),
   ("PLATFORM_NO_PRIORGTM", "gtm_test_nopriorgtmver"),
   ("PLATFORM_NO_COMPRESS_VER", "gtm_platform_no_compress_ver"),
   ("PLATFORM_NO_GGTOOLSDIR", "gtm_test_noggtoolsdir"),
   ("PLATFORM_NO_GGUSERS", "gtm_test_noggusers"),
   ("PLATFORM_NO_GGBUILDDIR", "gtm_test_noggbuilddir"), ("PLATFORM_NO_IGS", "gtm_test_noIGS"),
   ("PLATFORM_NO_4BYTE_UTF8", "gtm_platform_no_4byte_utf8"),
   ("PLATFORM_JAVA", "gtm_test_java_support"), ("PLATFORM_NOJAVA", "gtm_test_java_support"),
   ("MM_FILE_EXT", "gtm_platform_mmfile_ext"), ("MM_FILE_NO_EXT", "gtm_platform_mmfile_ext"),
   ("ENCRYPT", "test_encryption"), ("NON_ENCRYPT", "test_encryption"),
   ("TRIGGER", "gtm_test_trigger"), ("NOTRIGGER", "gtm_test_trigger"), ("TLS", "gtm_test_tls"),
   ("NOTLS", "gtm_test_tls"), ("SPANNING_REGIONS", "gtm_test_spanreg"),
   ("NONSPANNING_REGIONS", "gtm_test_spanreg")]

/-- `process(option,"option_name")` -/
def option_name (option : Text) : Text :=
  match vars.find? fun p => p.1.toList = upper option with
  | some p => p.2.toList
  | none => "NULL".toList

/-- The environment. The options are the words of `tst_options_all`, where `LFE` is left out. -/
structure Env where
  option_names : List Text
  var : Text → Text
  test_default_applicable : Text
  LFE : Text
  nodup : option_names.Nodup
  noLFE : "LFE".toList ∉ option_names

/-- The arrays that live across the lines; an index that has not been set is the empty text. -/
structure State where
  list : Text → Option Text
  reverse_option_names : Text → Option Nat
  option : Option Nat → Text

inductive Output where
  | canceled (test_name eliminate_reason : Text)
  | printed (text : Text)
  /-- Not enough arguments for a format. -/
  | stopped
  deriving DecidableEq

def start : State := ⟨fun _ => none, fun _ => none, fun _ => []⟩

def field (l : Text) (n : Nat) : Text := (fields blank l).getD (n - 1) []

def words (l : Text) : List Text := (fields blank l).drop 2

def key (a b : Text) : Text := a ++ '_' :: b

def comment (l : Text) : Bool := (l.dropWhile blank).head? == some '#'

def applicLine (E : Env) (st : State) (l : Text) : State :=
  { st with
    list := Function.update st.list (key (field l 1) (field l 2))
      (some (E.test_default_applicable ++ (words l).flatMap fun w => '#' :: upper w)) }

/-- `test_applic`, which is processed first. -/
def applic (E : Env) (apps : List Text) : State :=
  (apps.filter fun l => !comment l).foldl (applicLine E) start

def Env.numbered (E : Env) : List (Text × Nat) := E.option_names.zipIdx 1

def resetOption (E : Env) (st : State) (p : Text × Nat) : State :=
  { st with
    reverse_option_names := Function.update st.reverse_option_names p.1 (some p.2)
    option := Function.update st.option (some p.2) ('#' :: upper (E.var p.1)) }

def override (p : State × Text) (w : Text) : State × Text :=
  if option_name (upper w) = "LFE".toList then (p.1, upper w)
  else
    ({ p.1 with
        option := Function.update p.1.option (p.1.reverse_option_names (option_name (upper w)))
          ('#' :: upper w) }, p.2)

/-- `gsub("#","",option[ni])` -/
def gsub (st : State) (p : Text × Nat) : State :=
  { st with
    option := Function.update st.option (some p.2) ((st.option (some p.2)).filter (· ≠ '#')) }

def pieces (E : Env) (l : Text) (value : Text × Nat → Text) (LFE : Text) : List Text :=
  (field l 1 ++ ' ' :: field l 2 ++ [' ']) ::
    ((E.numbered.filter (·.1 ≠ "LFE".toList)).map fun p => ' ' :: value p) ++
      [' ' :: (LFE ++ ['\n'])]

def missing (E : Env) (st : State) (test_name : Text) : List (Text × Nat) :=
  match st.list test_name with
  | none => []
  | some t => E.numbered.filter fun p => index t (st.option (some p.2)) = 0

def printInstance (E : Env) (st : State) (l LFE : Text) : State × Output :=
  let st := E.numbered.foldl gsub st
  match (pieces E l (fun p => st.option (some p.2)) LFE).mapM printf with
  | none => (st, .stopped)
  | some ts => (st, .printed ts.flatten)

def instanceLine (E : Env) (st : State) (l : Text) : State × Output :=
  let (st, LFE) := (words l).foldl override (E.numbered.foldl (resetOption E) st, E.LFE)
  let test_name := key (field l 2) LFE
  if missing E st test_name ≠ [] then
    (st, .canceled test_name ((missing E st test_name).flatMap fun p => st.option (some p.2)))
  else printInstance E st l LFE

def live (l : Text) : Bool := !comment l && l ≠ []

def run (E : Env) : State → List Text → List Output
  | _, [] => []
  | st, l :: ls =>
    if live l then
      match instanceLine E st l with
      | (_, .stopped) => [.stopped]
      | (st, out) => out :: run E st ls
    else run E st ls

def own (ws : List Text) (n : Text) : Option Text :=
  ((ws.map upper).filter fun w => option_name w = n).getLast?

def Env.effective (E : Env) (l n : Text) : Text := (own (words l) n).getD (upper (E.var n))

def Env.bucket (E : Env) (l : Text) : Text := (own (words l) "LFE".toList).getD E.LFE

def Env.shown (E : Env) (l : Text) : List Text :=
  pieces E l (fun p => E.effective l p.1) (E.bucket l)

def Env.listed (E : Env) (apps : List Text) (l : Text) : Option Text :=
  (apps.filter fun a =>
    key (field a 1) (field a 2) = key (field l 2) (E.bucket l) && !comment a).getLast?

/-- The entries of a test: the defaults, each behind a number sign, and the words of its line. -/
def Env.entries (E : Env) (a : Text) : List Text :=
  (E.test_default_applicable.splitOn '#').tail ++ (words a).map upper

def Env.applicable (E : Env) (a : Text) : Text :=
  E.test_default_applicable ++ (words a).flatMap fun w => '#' :: upper w

/-- Each value in effect is an entry of the test, if it is listed. -/
def Allowed (E : Env) (apps : List Text) (l : Text) : Prop :=
  ∀ a ∈ E.listed apps l, ∀ n ∈ E.option_names, E.effective l n ∈ E.entries a

def Found (E : Env) (apps : List Text) (l : Text) : Prop :=
  ∀ a ∈ E.listed apps l, ∀ n ∈ E.option_names, '#' :: E.effective l n <:+: E.applicable a

def Printable (E : Env) (l : Text) : Prop :=
  (∀ n ∈ E.option_names, '#' ∉ E.effective l n) ∧ ∀ s ∈ E.shown l, printf s = some s

/-- The answer for an instance is the one that is meant. -/
def Right (E : Env) (apps : List Text) (l : Text) : Output → Prop
  | .canceled _ _ => ¬ Allowed E apps l
  | .printed s => Allowed E apps l ∧ s = (E.shown l).flatten
  | .stopped => False

/-- The values that are found are entries, and those that are entries can be printed. -/
structure Clear (E : Env) (apps : List Text) (l : Text) : Prop where
  allowed : Found E apps l → Allowed E apps l
  printable : Allowed E apps l → Printable E l

variable {E : Env} {st : State} {apps : List Text} {l n s r t v w : Text} {i : Nat}

theorem filter_short (p : Char → Bool) (s : Text) : Short (s.filter p) s :=
  ⟨List.length_filter_le p s, fun h => List.filter_eq_self.mpr (List.length_filter_eq_length_iff.mp h)⟩

theorem flatten_short {rs ss : List Text} (h : List.Forall₂ Short rs ss) :
    Short rs.flatten ss.flatten ∧ (rs.flatten = ss.flatten → rs = ss) := by
  induction h with
  | nil => exact ⟨⟨le_rfl, fun _ => rfl⟩, fun _ => rfl⟩
  | @cons r s rs ss hrs _ ih =>
    rw [List.flatten_cons, List.flatten_cons]
    refine ⟨hrs.append ih.1, fun heq => ?_⟩
    have hlen := congrArg List.length heq
    have hle := ih.1.1
    have hle' := hrs.1
    rw [List.length_append, List.length_append] at hlen
    have hr : r = s := hrs.2 (by omega)
    subst hr
    rw [ih.2 (List.append_cancel_left heq)]

theorem forall₂_of_mapM {f : Text → Option Text} {xs ts : List Text} (h : xs.mapM f = some ts) :
    List.Forall₂ (fun x t => f x = some t) xs ts := by
  induction xs generalizing ts with
  | nil =>
    rw [← Option.some.inj h]
    exact .nil
  | cons x xs ih =>
    rw [List.mapM_cons] at h
    obtain ⟨t, ht, h⟩ := Option.bind_eq_some_iff.mp h
    obtain ⟨ts, hts, h⟩ := Option.bind_eq_some_iff.mp h
    rw [← Option.some.inj h]
    exact .cons ht (ih hts)

theorem mapM_of_forall {f : Text → Option Text} {xs : List Text} (h : ∀ x ∈ xs, f x = some x) :
    xs.mapM f = some xs := by
  induction xs with
  | nil => rfl
  | cons x xs ih =>
    rw [List.forall_mem_cons] at h
    rw [List.mapM_cons, h.1, ih h.2]
    rfl

theorem not_lfe {p : Text × Nat} (hp : p ∈ E.numbered) : p.1 ≠ "LFE".toList := by
  have hmem := List.mem_map_of_mem (f := Prod.fst) hp
  rw [Env.numbered, List.zipIdx_map_fst] at hmem
  exact fun h => E.noLFE (h ▸ hmem)

theorem pieces_eq (E : Env) (l : Text) (value : Text × Nat → Text) (v : Text) :
    pieces E l value v = (field l 1 ++ ' ' :: field l 2 ++ [' ']) ::
      (E.numbered.map (fun p => ' ' :: value p) ++ [' ' :: (v ++ ['\n'])]) := by
  rw [pieces, List.filter_eq_self.mpr fun p hp => by simpa using not_lfe hp]
  rfl

theorem mem_option_names : n ∈ E.option_names ↔ ∃ p ∈ E.numbered, p.1 = n := by
  rw [← List.mem_map, Env.numbered, List.zipIdx_map_fst]

theorem printable_iff (E : Env) (l : Text) :
    Printable E l ↔ ∃ ts, (pieces E l (fun p => (E.effective l p.1).filter (· ≠ '#'))
      (E.bucket l)).mapM printf = some ts ∧ ts.flatten = (E.shown l).flatten := by
  have hshort : List.Forall₂ Short
      (pieces E l (fun p => (E.effective l p.1).filter (· ≠ '#')) (E.bucket l)) (E.shown l) := by
    rw [Env.shown, pieces_eq, pieces_eq]
    refine .cons (Short.refl _) (List.rel_append ?_ (.cons (Short.refl _) .nil))
    rw [List.forall₂_map_left_iff, List.forall₂_map_right_iff, List.forall₂_same]
    exact fun p _ => (filter_short _ _).cons ' '
  have heq : pieces E l (fun p => (E.effective l p.1).filter (· ≠ '#')) (E.bucket l) = E.shown l ↔
      ∀ n ∈ E.option_names, '#' ∉ E.effective l n := by
    rw [Env.shown, pieces_eq, pieces_eq, List.cons_inj_right, List.append_left_inj,
      List.map_inj_left]
    simp only [List.cons_inj_right, List.filter_eq_self, decide_eq_true_eq]
    constructor
    · intro h n hn hmark
      obtain ⟨p, hp, rfl⟩ := mem_option_names.mp hn
      exact h p hp '#' hmark rfl
    · rintro h p hp c hc rfl
      exact h p.1 (mem_option_names.mpr ⟨p, hp, rfl⟩) hc
  constructor
  · rintro ⟨hplain, hprint⟩
    refine ⟨E.shown l, ?_, rfl⟩
    rw [heq.mpr hplain]
    exact mapM_of_forall hprint
  · rintro ⟨ts, hts, hflat⟩
    have hprint := forall₂_of_mapM hts
    have hle : List.Forall₂ Short ts _ := hprint.flip.imp fun _ _ h => printf_short h
    have hwhole := (flatten_short hle).1.antisymm (hflat ▸ (flatten_short hshort).1)
    have hsame := (flatten_short hle).2 hwhole
    have hshown := (flatten_short hshort).2 (hwhole ▸ hflat)
    refine ⟨heq.mp hshown, ?_⟩
    rw [hsame, hshown] at hprint
    exact List.forall₂_same.mp hprint

/-- A name that is not an option has no number. -/
def Known (E : Env) (st : State) : Prop :=
  ∀ n, n ∉ E.option_names → st.reverse_option_names n = none

structure Options (E : Env) (value : Text → Text) (st : State) : Prop where
  number : ∀ n i, st.reverse_option_names n = some i ↔ (n, i) ∈ E.numbered
  option : ∀ p ∈ E.numbered, st.option (some p.2) = '#' :: value p.1

theorem Options.known {value : Text → Text} (h : Options E value st) : Known E st := by
  intro n hn
  cases hi : st.reverse_option_names n with
  | none => rfl
  | some i => exact absurd (mem_option_names.mpr ⟨_, (h.number n i).mp hi, rfl⟩) hn

section Reset

variable {ps : List (Text × Nat)}

theorem reset_reverse (hn : n ∉ ps.map Prod.fst) :
    (ps.foldl (resetOption E) st).reverse_option_names n = st.reverse_option_names n := by
  induction ps generalizing st with
  | nil => rfl
  | cons p ps ih =>
    rw [List.map_cons, List.mem_cons, not_or] at hn
    rw [List.foldl_cons, ih hn.2]
    exact Function.update_of_ne hn.1 _ _

theorem reset_option (hi : i ∉ ps.map Prod.snd) :
    (ps.foldl (resetOption E) st).option (some i) = st.option (some i) := by
  induction ps generalizing st with
  | nil => rfl
  | cons p ps ih =>
    rw [List.map_cons, List.mem_cons, not_or] at hi
    rw [List.foldl_cons, ih hi.2]
    exact Function.update_of_ne (fun h => hi.1 (Option.some.inj h)) _ _

theorem reset_mem (hnames : (ps.map Prod.fst).Nodup) (hnumbers : (ps.map Prod.snd).Nodup)
    (hp : (n, i) ∈ ps) :
    (ps.foldl (resetOption E) st).reverse_option_names n = some i ∧
      (ps.foldl (resetOption E) st).option (some i) = '#' :: upper (E.var n) := by
  induction ps generalizing st with
  | nil => cases hp
  | cons p ps ih =>
    rw [List.map_cons, List.nodup_cons] at hnames hnumbers
    rw [List.foldl_cons]
    obtain rfl | hp := List.mem_cons.mp hp
    · rw [reset_reverse hnames.1, reset_option hnumbers.1]
      exact ⟨Function.update_self _ _ _, Function.update_self _ _ _⟩
    · exact ih hnames.2 hnumbers.2 hp

theorem reset_list : (ps.foldl (resetOption E) st).list = st.list := by
  induction ps generalizing st with
  | nil => rfl
  | cons p ps ih =>
    rw [List.foldl_cons, ih]
    rfl

end Reset

theorem numbered_names (E : Env) : (E.numbered.map Prod.fst).Nodup := by
  rw [Env.numbered, List.zipIdx_map_fst]
  exact E.nodup

theorem numbered_numbers (E : Env) : (E.numbered.map Prod.snd).Nodup := by
  rw [Env.numbered, List.zipIdx_map_snd]
  exact List.nodup_range'

theorem reset_options (h : Known E st) :
    Options E (fun n => upper (E.var n)) (E.numbered.foldl (resetOption E) st) := by
  have hmem : ∀ p ∈ E.numbered, _ := fun p hp =>
    @reset_mem E st p.1 p.2 _ (numbered_names E) (numbered_numbers E) hp
  refine ⟨fun n i => ⟨fun hi => ?_, fun hp => (hmem _ hp).1⟩, fun p hp => (hmem p hp).2⟩
  by_cases hn : n ∈ E.option_names
  · obtain ⟨⟨n, j⟩, hp, rfl⟩ := mem_option_names.mp hn
    rw [(hmem _ hp).1, Option.some.injEq] at hi
    exact hi ▸ hp
  · have hnot : n ∉ E.numbered.map Prod.fst := by rwa [Env.numbered, List.zipIdx_map_fst]
    rw [reset_reverse hnot, h n hn] at hi
    exact nomatch hi

theorem own_concat (ws : List Text) (w n : Text) :
    own (ws ++ [w]) n = if option_name (upper w) = n then some (upper w) else own ws n := by
  rw [own, own, List.map_append, List.filter_append, List.map_singleton, List.filter_singleton]
  split_ifs with h
  · simp [h]
  · simp [h]

theorem override_options (h : Known E st) (ws : List Text) :
    Options E (fun n => (own ws n).getD (upper (E.var n)))
      (ws.foldl override (E.numbered.foldl (resetOption E) st, E.LFE)).1 ∧
    (ws.foldl override (E.numbered.foldl (resetOption E) st, E.LFE)).2 =
      (own ws "LFE".toList).getD E.LFE ∧
    (ws.foldl override (E.numbered.foldl (resetOption E) st, E.LFE)).1.list = st.list := by
  induction ws using List.reverseRecOn with
  | nil => exact ⟨reset_options h, rfl, reset_list⟩
  | append_singleton ws w ih =>
    obtain ⟨hopts, hlfe, hlist⟩ := ih
    rw [List.foldl_append, List.foldl_cons, List.foldl_nil, override]
    split_ifs with hw
    · refine ⟨⟨hopts.number, fun p hp => ?_⟩, ?_, hlist⟩
      · have hne : option_name (upper w) ≠ p.1 := fun he => not_lfe hp (he.symm.trans hw)
        rw [hopts.option p hp, own_concat, if_neg hne]
      · rw [own_concat, if_pos hw]
        rfl
    · refine ⟨⟨hopts.number, fun p hp => ?_⟩, ?_, hlist⟩
      · rw [own_concat]
        by_cases hn : option_name (upper w) = p.1
        · have hi := (hopts.number p.1 p.2).mpr hp
          rw [if_pos hn, hn, hi]
          exact Function.update_self _ _ _
        · have hi : some p.2 ≠ (ws.foldl override (E.numbered.foldl (resetOption E) st,
              E.LFE)).1.reverse_option_names (option_name (upper w)) := by
            intro he
            have hmem := (hopts.number _ p.2).mp he.symm
            have hinj := List.inj_on_of_nodup_map (numbered_numbers E) hmem hp rfl
            exact hn (congrArg Prod.fst hinj)
          rw [if_neg hn, ← hopts.option p hp]
          exact Function.update_of_ne hi _ _
      · rw [own_concat, if_neg hw, hlfe]

theorem gsub_option (ps : List (Text × Nat)) (st : State) (i : Nat) :
    (ps.foldl gsub st).option (some i) =
      if i ∈ ps.map Prod.snd then (st.option (some i)).filter (· ≠ '#')
      else st.option (some i) := by
  induction ps generalizing st with
  | nil => rfl
  | cons p ps ih =>
    have hstep : (gsub st p).option (some i) =
        if i = p.2 then (st.option (some i)).filter (· ≠ '#') else st.option (some i) := by
      simp only [gsub, Function.update_apply, Option.some.injEq]
      split_ifs with h
      · rw [h]
      · rfl
    rw [List.foldl_cons, ih, hstep]
    by_cases hi : i = p.2
    · simp [hi]
    · simp only [List.map_cons, List.mem_cons, hi, false_or, if_false]

theorem gsub_same (ps : List (Text × Nat)) (st : State) :
    (ps.foldl gsub st).list = st.list ∧
      (ps.foldl gsub st).reverse_option_names = st.reverse_option_names := by
  induction ps generalizing st with
  | nil => exact ⟨rfl, rfl⟩
  | cons p ps ih => exact ih (gsub st p)

theorem printInstance_state (E : Env) (st : State) (l v : Text) :
    (printInstance E st l v).1 = E.numbered.foldl gsub st := by
  rw [printInstance]
  split <;> rfl

theorem infix_of_splitOn (h : v ∈ (t.splitOn '#').tail) : '#' :: v <:+: t := by
  have hjoin : ['#'].intercalate (t.splitOn '#') = t := List.intercalate_splitOn '#'
  rw [← hjoin]
  cases hparts : t.splitOn '#' with
  | nil => exact absurd hparts (List.splitOn_ne_nil _ _)
  | cons u us =>
    rw [hparts, List.tail_cons] at h
    rw [intercalate_cons]
    obtain ⟨as, bs, rfl⟩ := List.append_of_mem h
    refine ⟨u ++ after '#' as, after '#' bs, ?_⟩
    simp [after]

theorem infix_of_entry {a : Text} (h : v ∈ E.entries a) : '#' :: v <:+: E.applicable a := by
  rw [Env.applicable]
  obtain h | h := List.mem_append.mp h
  · exact (infix_of_splitOn h).trans (List.prefix_append _ _).isInfix
  · obtain ⟨w, hw, rfl⟩ := List.mem_map.mp h
    have hinfix : '#' :: upper w <:+: (words a).flatMap fun w => '#' :: upper w := by
      obtain ⟨as, bs, heq⟩ := List.append_of_mem hw
      rw [heq, List.flatMap_append, List.flatMap_cons]
      exact ⟨_, _, List.append_assoc _ _ _⟩
    exact hinfix.trans (List.suffix_append _ _).isInfix

theorem Allowed.found (h : Allowed E apps l) : Found E apps l :=
  fun a ha n hn => infix_of_entry (h a ha n hn)

theorem applic_list (E : Env) (apps : List Text) (l : Text) :
    (applic E apps).list (key (field l 2) (E.bucket l)) = (E.listed apps l).map E.applicable := by
  rw [applic, Env.listed, ← List.filter_filter]
  induction apps.filter (fun a => !comment a) using List.reverseRecOn with
  | nil => rfl
  | append_singleton ls a ih =>
    rw [List.foldl_append, List.foldl_cons, List.foldl_nil, List.filter_append]
    refine (Function.update_apply _ _ _ _).trans ?_
    by_cases hkey : key (field a 1) (field a 2) = key (field l 2) (E.bucket l)
    · rw [if_pos hkey.symm, List.filter_cons_of_pos (by simpa using hkey), List.filter_nil,
        List.getLast?_concat]
      rfl
    · rw [if_neg (Ne.symm hkey), List.filter_cons_of_neg (by simpa using hkey), List.filter_nil,
        List.append_nil, ih]

theorem missing_eq_nil {value : Text → Text} (h : Options E value st) (a : Text) :
    missing E st a = [] ↔ ∀ t ∈ st.list a, ∀ n ∈ E.option_names, '#' :: value n <:+: t := by
  rw [missing]
  cases st.list a with
  | none => simp
  | some t =>
    simp only [List.filter_eq_nil_iff, decide_eq_true_eq, Option.mem_some_iff, forall_eq']
    constructor
    · intro hfound n hn
      obtain ⟨p, hp, rfl⟩ := mem_option_names.mp hn
      rw [← h.option p hp, ← index_ne_zero]
      exact hfound p hp
    · intro hfound p hp
      rw [h.option p hp, ← ne_eq, index_ne_zero]
      exact hfound p.1 (mem_option_names.mpr ⟨p, hp, rfl⟩)

theorem printInstance_right (hopts : Options E (E.effective l) st) :
    Right E apps l (printInstance E st l (E.bucket l)).2 ↔ Allowed E apps l ∧ Printable E l := by
  have hvalues : pieces E l (fun p => (E.numbered.foldl gsub st).option (some p.2)) (E.bucket l) =
      pieces E l (fun p => (E.effective l p.1).filter (· ≠ '#')) (E.bucket l) := by
    rw [pieces_eq, pieces_eq]
    congr 2
    refine List.map_congr_left fun p hp => ?_
    rw [gsub_option, if_pos (List.mem_map_of_mem hp), hopts.option p hp]
    rfl
  rw [printable_iff, printInstance, hvalues]
  split
  · rename_i hnone
    refine iff_of_false not_false ?_
    rintro ⟨_, ts, hts, _⟩
    exact nomatch hnone.symm.trans hts
  · rename_i ts hts
    constructor
    · exact fun h => ⟨h.1, ts, hts, h.2⟩
    · rintro ⟨hallowed, ts', hts', hflat⟩
      rw [Option.some.inj (hts.symm.trans hts')]
      exact ⟨hallowed, hflat⟩

theorem instanceLine_spec (h : Known E st) (hlist : st.list = (applic E apps).list) (l : Text) :
    Known E (instanceLine E st l).1 ∧ (instanceLine E st l).1.list = (applic E apps).list ∧
      (Right E apps l (instanceLine E st l).2 ↔ Clear E apps l) := by
  obtain ⟨hopts, hlfe, hkeep⟩ := override_options h (words l)
  rw [instanceLine]
  generalize (words l).foldl override (E.numbered.foldl (resetOption E) st, E.LFE) = p at *
  obtain ⟨st', LFE⟩ := p
  dsimp only at *
  have hfound : missing E st' (key (field l 2) LFE) = [] ↔ Found E apps l := by
    rw [missing_eq_nil hopts, hkeep, hlist, hlfe]
    exact (applic_list E apps l ▸ Option.forall_mem_map)
  split_ifs with hmissing
  · rw [ne_eq, hfound] at hmissing
    have hno : ¬ Allowed E apps l := fun h => hmissing h.found
    exact ⟨hopts.known, hkeep.trans hlist, iff_of_true hno
      ⟨fun h => absurd h hmissing, fun h => absurd h hno⟩⟩
  · rw [not_not, hfound] at hmissing
    have hsame := gsub_same E.numbered st'
    rw [printInstance_state, hlfe]
    refine ⟨?_, hsame.1.trans (hkeep.trans hlist), (printInstance_right hopts).trans ?_⟩
    · intro n hn
      rw [hsame.2]
      exact hopts.known n hn
    · constructor
      · exact fun h => ⟨fun _ => h.1, fun _ => h.2⟩
      · exact fun h => ⟨h.allowed hmissing, h.printable (h.allowed hmissing)⟩

theorem applic_known (E : Env) (apps : List Text) : Known E (applic E apps) := by
  rw [applic]
  induction apps.filter (fun l => !comment l) using List.reverseRecOn with
  | nil => exact fun _ _ => rfl
  | append_singleton ls l ih =>
    rw [List.foldl_append]
    exact ih

theorem run_right (h : Known E st) (hlist : st.list = (applic E apps).list) (ls : List Text) :
    List.Forall₂ (Right E apps) (ls.filter live) (run E st ls) ↔
      ∀ l ∈ ls.filter live, Clear E apps l := by
  induction ls generalizing st with
  | nil => simp [run]
  | cons l ls ih =>
    rw [run, List.filter_cons]
    split_ifs with hl
    · obtain ⟨hknown, hkept, hright⟩ := instanceLine_spec h hlist l
      have hrest := ih hknown hkept
      rw [List.forall_mem_cons]
      split
      · rename_i st' hout
        rw [hout] at hright
        rw [List.forall₂_cons]
        exact iff_of_false (fun h => h.1) fun h => hright.mpr h.1
      · rename_i st' out hnot hout
        rw [hout] at hright hrest
        rw [List.forall₂_cons, hright, hrest]
    · exact ih h hlist

/-- The instances are answered as they should be, whatever comes before, exactly if they are all
clear. -/
theorem run_iff (E : Env) (apps instances : List Text) :
    List.Forall₂ (Right E apps) (instances.filter live) (run E (applic E apps) instances) ↔
      ∀ l ∈ instances.filter live, Clear E apps l :=
  run_right (applic_known E apps) rfl instances

def accMeth : Env where
  option_names := ["acc_meth".toList]
  var := fun _ => "MM".toList
  test_default_applicable := "#GT.M".toList
  LFE := "E".toList
  nodup := List.nodup_singleton _
  noLFE := by decide

/-- `MM` is not an entry, but one begins with it. -/
theorem run_begins : ¬ List.Forall₂ (Right accMeth ["basic E MM_FILE_EXT".toList])
    (["1 basic E".toList].filter live)
    (run accMeth (applic accMeth ["basic E MM_FILE_EXT".toList]) ["1 basic E".toList]) := by
  have hlive : ["1 basic E".toList].filter live = ["1 basic E".toList] := by decide
  have hrun : run accMeth (applic accMeth ["basic E MM_FILE_EXT".toList]) ["1 basic E".toList] =
      [.printed "1 basic  MM E\n".toList] := by decide
  have hlisted : accMeth.listed ["basic E MM_FILE_EXT".toList] "1 basic E".toList =
      some "basic E MM_FILE_EXT".toList := by decide
  have hentry : accMeth.effective "1 basic E".toList "acc_meth".toList ∉
      accMeth.entries "basic E MM_FILE_EXT".toList := by decide
  rw [hlive, hrun, List.forall₂_cons]
  exact fun h => hentry (h.1.1 _ hlisted _ List.mem_cons_self)

end YdbTest.Applic
