import YdbTest.MWords
import YdbTest.Literal
import YdbTest.Separated
import Mathlib.Data.List.Perm.Basic
import Mathlib.Data.List.TakeWhile
import Mathlib.Logic.Function.Basic

namespace YdbTest.Convdbkeys

open MString MWords Separated Fields

def newline : Nat := 10

/-- A line of a file, without its terminator. -/
structure Line where
  text : Str
  ends : newline ∉ text

def lower (s : Str) : Str := s.map fun c => if 65 ≤ c ∧ c ≤ 90 then c + 32 else c

/-- The array `keys`: its nodes, and what each of them holds. -/
structure Keys where
  names : List Str
  value : Str → Str

def Keys.set (keys : Keys) (dbfile key : Str) : Keys :=
  if dbfile ∈ keys.names then
    { keys with
      value := Function.update keys.value dbfile (keys.value dbfile ++ space :: key) }
  else ⟨keys.names ++ [dbfile], Function.update keys.value dbfile key⟩

inductive Error where
  | U252 (line : Nat) (line2 : Str)
  | U253 (line : Nat) (line1 : Str)
  | U254 (line : Nat) (line1 : Str)
  deriving DecidableEq

def Error.message (src : Str) : Error → Str
  | .U252 line line2 => lit "CONVDBKEYS-F-INVALIDKWD file " ++ src ++ lit " line " ++ dec line ++
      lit " saw \"" ++ piece line2 space 1 ++ lit "\" but \"key\" expected"
  | .U253 line line1 => lit "CONVDBKEYS-F-INVALIDKWD file " ++ src ++ lit " line " ++ dec line ++
      lit " saw \"" ++ piece line1 space 1 ++ lit "\" but \"dat\" expected"
  | .U254 line line1 => lit "CONVDBKEYS-F-PREMATUREEOF in file " ++ src ++ lit " line " ++
      dec line ++ lit " database file \"" ++ line1 ++
      lit "\" has no following line to specify a key file"

/-- The loop over the source, behind `line` lines of it. -/
def readKeys : List Line → Nat → Keys → Except Error Keys
  | [], _, keys => .ok keys
  | l1 :: ls, line, keys =>
    let line1 := TRIM (MPIECE l1.text)
    if lit "dat" ≠ lower (piece line1 space 1) then .error (.U253 (line + 1) line1)
    else
      let dbfile := piece line1 space 2
      match ls with
      | [] => .error (.U254 (line + 2) line1)
      | l2 :: ls =>
        let line2 := TRIM (MPIECE l2.text)
        if lit "key" ≠ lower (piece line2 space 1) then .error (.U252 (line + 2) line2)
        else readKeys ls (line + 2) (keys.set dbfile (piece line2 space 2))

/-- The walk by `$order` from the empty string on: the nodes behind it, as `collate` has them. -/
def Keys.order (collate : Str → Str → Bool) (keys : Keys) : List Str :=
  (keys.names.filter fun name => name ≠ []).mergeSort collate

def Keys.entries (collate : Str → Str → Bool) (keys : Keys) : List (Str × Str) :=
  (keys.order collate).flatMap fun dbfile =>
    ((keys.value dbfile).splitOn space).map fun key => (dbfile, key)

def nl : Str := [newline]

def tab : Str := lit "    "

def datLine (dbfile : Str) : Str := tab ++ tab ++ tab ++ lit "dat: \"" ++ dbfile ++ lit "\";"

def keyLine (key : Str) : Str := tab ++ tab ++ tab ++ lit "key: \"" ++ key ++ lit "\";"

def writeEntries : Bool → List (Str × Str) → Str
  | _, [] => []
  | flag, (dbfile, key) :: es =>
    (if flag then lit "," else []) ++ nl ++ tab ++ tab ++ lit "\x7b" ++ nl ++ datLine dbfile ++ nl ++
      keyLine key ++ nl ++ tab ++ tab ++ lit "\x7d" ++ writeEntries true es

def header (date : Line) : Str :=
  nl ++ lit "/* Database encryption section - created by CONVDBKEYS " ++ date.text ++ lit " */" ++
    nl ++ nl ++ lit "database: \x7b" ++ nl ++ tab ++ lit "keys: ("

def footer : Str := nl ++ tab ++ lit ");" ++ nl ++ lit "\x7d;" ++ nl

/-- The destination; an error is raised before it is opened. -/
def FUNC (collate : Str → Str → Bool) (date : Line) (src : List Line) : Except Error Str := do
  let keys ← readKeys src 0 ⟨[], fun _ => []⟩
  return header date ++ writeEntries false (keys.entries collate) ++ footer

structure Pair where
  dat : Line
  key : Line

def Pair.names (p : Pair) : Str × Str := (p.dat.text, p.key.text)

/-- `echo "dat $db"` and `echo "key $key"` -/
def datOf (l : Line) : Line :=
  ⟨lit "dat " ++ l.text, fun h => (List.mem_append.mp h).elim (by decide) l.ends⟩

def keyOf (l : Line) : Line :=
  ⟨lit "key " ++ l.text, fun h => (List.mem_append.mp h).elim (by decide) l.ends⟩

def fileOf (pairs : List Pair) : List Line := pairs.flatMap fun p => [datOf p.dat, keyOf p.key]

/-- Whether a line is the setting of `name`. -/
def isSetting (name line : Str) : Bool :=
  (name ++ lit ": \"").isPrefixOf (line.dropWhile (· == space))

def valueOf (name line : Str) : Option Str :=
  if isSetting name line then
    match Literal.read 0 ((line.dropWhile (· == space)).drop (name ++ lit ": \"").length) with
    | some (v, r) => if r = lit ";" then some v else none
    | none => none
  else none

def settings : List Str → Option (List (Str × Str))
  | l1 :: l2 :: ls =>
    if isSetting (lit "dat") l1 then
      (valueOf (lit "dat") l1).bind fun dat => (valueOf (lit "key") l2).bind fun key =>
        (settings ls).map ((dat, key) :: ·)
    else settings (l2 :: ls)
  | _ => some []

/-- Each pair is in the text as often as in the file, and for each database in the same order. -/
def Preserves (pairs : List (Str × Str)) (text : Str) : Prop :=
  ∃ found, settings (text.splitOn newline) = some found ∧
    ∀ dat, found.filter (·.1 = dat) = pairs.filter (·.1 = dat)

def firstWord (l : Line) : Str := lower ((words l.text).getD 0 [])

def Malformed (src : List Line) : Prop :=
  src.length % 2 = 1 ∨
    ∃ i l, src[i]? = some l ∧ firstWord l ≠ if i % 2 = 0 then lit "dat" else lit "key"

variable {collate : Str → Str → Bool} {date : Line} {keys : Keys} {line : Nat}

def secondWord (l : Line) : Str := (words l.text).getD 1 []

theorem readKeys_pair {l1 l2 : Line} (h1 : firstWord l1 = lit "dat")
    (h2 : firstWord l2 = lit "key") (src : List Line) :
    readKeys (l1 :: l2 :: src) line keys =
      readKeys src (line + 2) (keys.set (secondWord l1) (secondWord l2)) := by
  rw [readKeys]
  dsimp only
  rw [piece_words, piece_words, piece_words, piece_words, ← firstWord, ← firstWord, h1, h2,
    if_neg (not_not.mpr rfl), if_neg (not_not.mpr rfl)]
  rfl

theorem readKeys_dat {l : Line} (h : firstWord l ≠ lit "dat") (src : List Line) :
    readKeys (l :: src) line keys = .error (.U253 (line + 1) (TRIM (MPIECE l.text))) := by
  rw [readKeys]
  dsimp only
  rw [piece_words, ← firstWord, if_pos (Ne.symm h)]

theorem readKeys_last {l : Line} (h : firstWord l = lit "dat") :
    readKeys [l] line keys = .error (.U254 (line + 2) (TRIM (MPIECE l.text))) := by
  rw [readKeys]
  dsimp only
  rw [piece_words, ← firstWord, h, if_neg (not_not.mpr rfl)]

theorem readKeys_key {l1 l2 : Line} (h1 : firstWord l1 = lit "dat")
    (h2 : firstWord l2 ≠ lit "key") (src : List Line) :
    readKeys (l1 :: l2 :: src) line keys =
      .error (.U252 (line + 2) (TRIM (MPIECE l2.text))) := by
  rw [readKeys]
  dsimp only
  rw [piece_words, piece_words, piece_words, ← firstWord, ← firstWord, h1,
    if_neg (not_not.mpr rfl), if_pos (Ne.symm h2)]

theorem malformed_pair {l1 l2 : Line} (h1 : firstWord l1 = lit "dat")
    (h2 : firstWord l2 = lit "key") {src : List Line} :
    Malformed (l1 :: l2 :: src) ↔ Malformed src := by
  have hlength : (l1 :: l2 :: src).length % 2 = src.length % 2 := Nat.add_mod_right _ 2
  rw [Malformed, Malformed, hlength]
  refine or_congr_right ⟨?_, ?_⟩
  · rintro ⟨i, l, hl, hne⟩
    match i with
    | 0 =>
      obtain rfl := Option.some.inj hl
      exact absurd h1 hne
    | 1 =>
      obtain rfl := Option.some.inj hl
      exact absurd h2 hne
    | i + 2 =>
      rw [Nat.add_mod_right] at hne
      exact ⟨i, l, hl, hne⟩
  · rintro ⟨i, l, hl, hne⟩
    refine ⟨i + 2, l, hl, ?_⟩
    rwa [Nat.add_mod_right]

theorem readKeys_error (src : List Line) (line : Nat) (keys : Keys) :
    (∃ e, readKeys src line keys = .error e) ↔ Malformed src := by
  match src with
  | [] =>
    constructor
    · rintro ⟨e, he⟩
      rw [readKeys] at he
      cases he
    · rintro (h | ⟨i, l, hl, -⟩)
      · cases h
      · cases hl
  | [l] =>
    refine iff_of_true ?_ (Or.inl rfl)
    by_cases h : firstWord l = lit "dat"
    · exact ⟨_, readKeys_last h⟩
    · exact ⟨_, readKeys_dat h []⟩
  | l1 :: l2 :: src =>
    by_cases h1 : firstWord l1 = lit "dat"
    · by_cases h2 : firstWord l2 = lit "key"
      · rw [readKeys_pair h1 h2, malformed_pair h1 h2]
        exact readKeys_error src _ _
      · exact iff_of_true ⟨_, readKeys_key h1 h2 src⟩ (Or.inr ⟨1, l2, rfl, h2⟩)
    · exact iff_of_true ⟨_, readKeys_dat h1 _⟩ (Or.inr ⟨0, l1, rfl, h1⟩)

/-- The array holds the pairs read: for each database its keys, in the order of the file. -/
structure Holds (keys : Keys) (ps : List (Str × Str)) : Prop where
  nodup : keys.names.Nodup
  mem : ∀ name, name ∈ keys.names ↔ name ∈ ps.map Prod.fst
  value : ∀ name ∈ keys.names,
    keys.value name = [space].intercalate ((ps.filter (·.1 = name)).map Prod.snd)

theorem Holds.nil : Holds ⟨[], fun _ => []⟩ [] :=
  ⟨List.nodup_nil, fun _ => Iff.rfl, fun _ h => by cases h⟩

theorem filter_concat {ps : List (Str × Str)} {name dbfile key : Str} :
    ((ps ++ [(dbfile, key)]).filter (·.1 = name)).map Prod.snd =
      (ps.filter (·.1 = name)).map Prod.snd ++ if dbfile = name then [key] else [] := by
  rw [List.filter_append, List.map_append]
  congr 1
  by_cases h : dbfile = name
  · simp [h]
  · simp [h]

theorem filter_ne_nil {ps : List (Str × Str)} {name : Str} (h : name ∈ ps.map Prod.fst) :
    (ps.filter (·.1 = name)).map Prod.snd ≠ [] := by
  obtain ⟨p, hp, rfl⟩ := List.mem_map.mp h
  have hmem : p ∈ ps.filter (·.1 = p.1) := List.mem_filter.mpr ⟨hp, by simp⟩
  rw [Ne, List.map_eq_nil_iff]
  exact List.ne_nil_of_mem hmem

theorem Holds.set {ps : List (Str × Str)} (h : Holds keys ps) (dbfile key : Str) :
    Holds (keys.set dbfile key) (ps ++ [(dbfile, key)]) := by
  by_cases hd : dbfile ∈ keys.names
  · rw [Keys.set, if_pos hd]
    refine ⟨h.nodup, fun name => ?_, fun name hname => ?_⟩
    · have hd' := (h.mem dbfile).mp hd
      rw [h.mem, List.map_append, List.mem_append]
      refine ⟨Or.inl, fun hm => hm.elim id fun he => ?_⟩
      rw [List.map_singleton, List.mem_singleton] at he
      exact he ▸ hd'
    · rw [filter_concat]
      by_cases hn : dbfile = name
      · subst hn
        have hne := filter_ne_nil ((h.mem dbfile).mp hd)
        rw [if_pos rfl, intercalate_concat hne, ← h.value dbfile hd]
        exact Function.update_self _ _ _
      · rw [if_neg hn, List.append_nil, ← h.value name hname]
        exact Function.update_of_ne (Ne.symm hn) _ _
  · rw [Keys.set, if_neg hd]
    refine ⟨?_, fun name => ?_, fun name hname => ?_⟩
    · exact List.nodup_append'.mpr ⟨h.nodup, List.nodup_singleton _, by simpa using hd⟩
    · rw [List.map_append, List.mem_append, List.mem_append, h.mem]
      rfl
    · rw [filter_concat]
      by_cases hn : dbfile = name
      · subst hn
        have hnone : (ps.filter (·.1 = dbfile)).map Prod.snd = [] := by
          rw [List.map_eq_nil_iff, List.filter_eq_nil_iff]
          intro p hp he
          refine hd ((h.mem dbfile).mpr (List.mem_map.mpr ⟨p, hp, ?_⟩))
          simpa using he
        rw [if_pos rfl, hnone, List.nil_append, List.intercalate_singleton]
        exact Function.update_self _ _ _
      · have hold : name ∈ keys.names :=
          (List.mem_append.mp hname).resolve_right fun he => hn (List.mem_singleton.mp he).symm
        rw [if_neg hn, List.append_nil, ← h.value name hold]
        exact Function.update_of_ne (Ne.symm hn) _ _

theorem mem_order {name : Str} : name ∈ keys.order collate ↔ name ∈ keys.names ∧ name ≠ [] := by
  rw [Keys.order, List.mem_mergeSort, List.mem_filter]
  simp

theorem Holds.order_nodup {ps : List (Str × Str)} (h : Holds keys ps) :
    (keys.order collate).Nodup :=
  (List.mergeSort_perm _ collate).nodup_iff.mpr (h.nodup.filter _)

theorem Holds.entries {ps : List (Str × Str)} (h : Holds keys ps) (hps : ∀ p ∈ ps, space ∉ p.2) :
    keys.entries collate = (keys.order collate).flatMap fun name => ps.filter (·.1 = name) := by
  refine List.flatMap_congr fun name hname => ?_
  have hmem := (mem_order.mp hname).1
  have hsplit : ((ps.filter (·.1 = name)).map Prod.snd) =
      (keys.value name).splitOn space := by
    rw [h.value name hmem, List.splitOn_intercalate space ?_ (filter_ne_nil ((h.mem name).mp hmem))]
    intro key hkey
    obtain ⟨p, hp, rfl⟩ := List.mem_map.mp hkey
    exact hps p (List.mem_filter.mp hp).1
  rw [← hsplit, List.map_map]
  have hself : ∀ p ∈ ps.filter (·.1 = name), (name, p.2) = id p := by
    intro p hp
    have hp : p.1 = name := by simpa using (List.mem_filter.mp hp).2
    rw [← hp]
    rfl
  exact (List.map_congr_left hself).trans (List.map_id _)

theorem filter_flatMap {names : List Str} (h : names.Nodup) (ps : List (Str × Str)) (dat : Str) :
    (names.flatMap fun name => ps.filter (·.1 = name)).filter (·.1 = dat) =
      if dat ∈ names then ps.filter (·.1 = dat) else [] := by
  induction names with
  | nil => rfl
  | cons name names ih =>
    obtain ⟨hname, h⟩ := List.nodup_cons.mp h
    rw [List.flatMap_cons, List.filter_append, ih h, List.filter_filter]
    by_cases hd : dat = name
    · subst hd
      rw [if_neg hname, if_pos List.mem_cons_self, List.append_nil]
      simp
    · have hnone : (ps.filter fun p => decide (p.1 = dat) && decide (p.1 = name)) = [] := by
        rw [List.filter_eq_nil_iff]
        intro p _ hp
        simp only [Bool.and_eq_true, decide_eq_true_eq] at hp
        exact hd (hp.1.symm.trans hp.2)
      rw [hnone, List.nil_append]
      simp [hd]

def readName (name : Str) : Option Str :=
  match Literal.read 0 (name ++ lit "\";") with
  | some (v, r) => if r = lit ";" then some v else none
  | none => none

def readEntry (e : Str × Str) : Option (Str × Str) :=
  (readName e.1).bind fun dat => (readName e.2).map fun key => (dat, key)

theorem valueOf_line (name rest : Str) {line : Str}
    (h : line.dropWhile (· == space) = name ++ lit ": \"" ++ (rest ++ lit "\";")) :
    isSetting name line = true ∧ valueOf name line = readName rest := by
  have hsetting : isSetting name line = true := by
    rw [isSetting, h, List.isPrefixOf_iff_prefix]
    exact List.prefix_append _ _
  refine ⟨hsetting, ?_⟩
  rw [valueOf, if_pos hsetting, h, List.drop_left]
  rfl

theorem settings_skip {l : Str} (h : isSetting (lit "dat") l = false) (ls : List Str) :
    settings (l :: ls) = settings ls := by
  cases ls with
  | nil => rfl
  | cons l2 ls => rw [settings, h, if_neg Bool.false_ne_true]

theorem settings_entry (dat key : Str) (ls : List Str) :
    settings (datLine dat :: keyLine key :: ls) =
      (readEntry (dat, key)).bind fun e => (settings ls).map (e :: ·) := by
  have hdat : isSetting (lit "dat") (datLine dat) = true ∧
      valueOf (lit "dat") (datLine dat) = readName dat := by
    refine valueOf_line (lit "dat") dat ?_
    rw [datLine, List.append_assoc]
    rfl
  have hkey : isSetting (lit "key") (keyLine key) = true ∧
      valueOf (lit "key") (keyLine key) = readName key := by
    refine valueOf_line (lit "key") key ?_
    rw [keyLine, List.append_assoc]
    rfl
  rw [settings, if_pos hdat.1, hdat.2, hkey.2, readEntry]
  cases readName dat with
  | none => rfl
  | some dat => cases readName key <;> rfl

theorem settings_line {p : Str} (hp : newline ∉ p) (h : isSetting (lit "dat") p = false)
    (t : Str) : settings ((p ++ newline :: t).splitOn newline) = settings (t.splitOn newline) := by
  rw [List.splitOn_append_cons_self_of_not_mem hp, settings_skip h]

def NoNewline (e : Str × Str) : Prop := newline ∉ e.1 ∧ newline ∉ e.2

theorem newline_not_mem_append {a b : Str} (ha : newline ∉ a) (hb : newline ∉ b) :
    newline ∉ a ++ b := fun h => (List.mem_append.mp h).elim ha hb

theorem datLine_newline {dat : Str} (h : newline ∉ dat) : newline ∉ datLine dat :=
  newline_not_mem_append (newline_not_mem_append (by decide) h) (by decide)

theorem keyLine_newline {key : Str} (h : newline ∉ key) : newline ∉ keyLine key :=
  newline_not_mem_append (newline_not_mem_append (by decide) h) (by decide)

theorem settings_entries {es : List (Str × Str)} (hes : ∀ e ∈ es, NoNewline e) {p : Str}
    (hp : newline ∉ p) (h : ∀ q, isSetting (lit "dat") (p ++ q) = false) (flag : Bool) :
    settings ((p ++ (writeEntries flag es ++ footer)).splitOn newline) = es.mapM readEntry := by
  induction es generalizing p flag with
  | nil =>
    have hp' : isSetting (lit "dat") p = false := by
      have := h []
      rwa [List.append_nil] at this
    exact settings_line hp hp' _
  | cons e es ih =>
    obtain ⟨dat, key⟩ := e
    obtain ⟨⟨hdat, hkey⟩, hes⟩ := List.forall_mem_cons.mp hes
    set comma := if flag then lit "," else [] with hcomma
    have hcomma' : newline ∉ comma := by
      rw [hcomma]
      cases flag <;> decide
    have hshape : p ++ (writeEntries flag ((dat, key) :: es) ++ footer) =
        (p ++ comma) ++ newline :: ((tab ++ tab ++ lit "\x7b") ++ newline :: (datLine dat ++
          newline :: (keyLine key ++ newline ::
            ((tab ++ tab ++ lit "\x7d") ++ (writeEntries true es ++ footer))))) := by
      simp [writeEntries, nl, List.append_assoc, hcomma]
    have hrest := ih hes (p := tab ++ tab ++ lit "\x7d") (by decide) (fun q => rfl) true
    rw [hshape, settings_line (newline_not_mem_append hp hcomma') (h comma),
      settings_line (by decide) rfl,
      List.splitOn_append_cons_self_of_not_mem (datLine_newline hdat),
      List.splitOn_append_cons_self_of_not_mem (keyLine_newline hkey), settings_entry, hrest,
      List.mapM_cons]
    cases readEntry (dat, key) with
    | none => rfl
    | some e => cases es.mapM readEntry <;> rfl

theorem settings_text {es : List (Str × Str)} (hes : ∀ e ∈ es, NoNewline e) :
    settings ((header date ++ writeEntries false es ++ footer).splitOn newline) =
      es.mapM readEntry := by
  set comment := lit "/* Database encryption section - created by CONVDBKEYS " ++ date.text ++
    lit " */" with hcomment
  have hline : newline ∉ comment :=
    newline_not_mem_append (newline_not_mem_append (by decide) date.ends) (by decide)
  have hplain : isSetting (lit "dat") comment = false := by
    rw [hcomment, List.append_assoc]
    rfl
  have hshape : header date ++ writeEntries false es ++ footer =
      [] ++ newline :: (comment ++ newline :: ([] ++ newline :: (lit "database: \x7b" ++ newline ::
        ((tab ++ lit "keys: (") ++ (writeEntries false es ++ footer))))) := by
    simp [header, nl, List.append_assoc, hcomment]
  rw [hshape, settings_line (by decide) rfl, settings_line hline hplain,
    settings_line (by decide) rfl, settings_line (by decide) rfl]
  exact settings_entries hes (by decide) (fun q => rfl) false

def NameKept (name : Str) : Prop := (∀ c ∈ name, blank c = false) ∧ Literal.Kept name

instance (name : Str) : Decidable (NameKept name) := inferInstanceAs (Decidable (_ ∧ _))

def cut (name : Str) : Str := (words name).getD 0 []

theorem words_second (keyword name : Str) (hne : keyword ≠ [])
    (hk : ∀ c ∈ keyword, blank c = false) : words (keyword ++ space :: name) = keyword :: words name :=
  fields_word hne hk blank_space

theorem words_datOf (l : Line) : words (datOf l).text = lit "dat" :: words l.text :=
  words_second (lit "dat") l.text (by decide) (by decide)

theorem words_keyOf (l : Line) : words (keyOf l).text = lit "key" :: words l.text :=
  words_second (lit "key") l.text (by decide) (by decide)

theorem cut_takeWhile (name : Str) :
    cut name = (name.dropWhile blank).takeWhile fun c => !blank c := by
  induction name with
  | nil => rfl
  | cons c s ih =>
    cases hc : blank c with
    | true =>
      rw [cut, words, fields_blank hc, List.dropWhile_cons_of_pos hc]
      exact ih
    | false =>
      rw [List.dropWhile_cons_of_neg (by simp [hc])]
      set w := (c :: s).takeWhile fun c => !blank c with hw
      have hne : w ≠ [] := by
        rw [hw, List.takeWhile_cons_of_pos (by simp [hc])]
        exact List.cons_ne_nil _ _
      have hword : ∀ a ∈ w, blank a = false := fun a ha => by
        simpa using List.mem_takeWhile_imp ha
      have hsplit : w ++ (c :: s).dropWhile (fun c => !blank c) = c :: s :=
        List.takeWhile_append_dropWhile
      cases hrest : (c :: s).dropWhile fun c => !blank c with
      | nil =>
        rw [hrest, List.append_nil] at hsplit
        rw [cut, words, ← hsplit, fields_last hne hword]
        rfl
      | cons b rest =>
        have hb : blank b = true := by
          have := List.head?_dropWhile_not (fun c => !blank c) (c :: s)
          rw [hrest] at this
          simpa using this
        rw [hrest] at hsplit
        rw [cut, words, ← hsplit, fields_word hne hword hb]
        rfl

theorem cut_sublist (name : Str) : (cut name).Sublist name := by
  rw [cut_takeWhile]
  exact (List.takeWhile_sublist _).trans (List.dropWhile_sublist _)

theorem cut_self {name : Str} (h : (cut name).length = name.length) :
    cut name = name ∧ ∀ c ∈ name, blank c = false := by
  have heq := (cut_sublist name).eq_of_length h
  refine ⟨heq, fun c hc => ?_⟩
  rw [← heq, cut_takeWhile] at hc
  simpa using List.mem_takeWhile_imp hc

theorem cut_eq_self {name : Str} (h : ∀ c ∈ name, blank c = false) : cut name = name := by
  by_cases hne : name = []
  · rw [hne]
    rfl
  · rw [cut, words, fields_last hne h]
    rfl

theorem cut_newline (l : Line) : newline ∉ cut l.text :=
  fun h => l.ends ((cut_sublist l.text).subset h)

theorem space_not_mem_cut (name : Str) : space ∉ cut name := by
  rw [cut_takeWhile]
  intro h
  have := List.mem_takeWhile_imp h
  simp [blank_space] at this

theorem readName_kept {name : Str} (h : Literal.Kept name) : readName name = some name := by
  have hread : Literal.read 0 (name ++ lit "\";") = some (name, lit ";") := Literal.read_kept h _
  rw [readName, hread]
  exact if_pos rfl

theorem readName_length {name v : Str} (h : readName name = some v) :
    v.length ≤ name.length ∧ (v.length = name.length → Literal.Kept name) := by
  by_cases hk : Literal.Kept name
  · rw [readName_kept hk, Option.some.injEq] at h
    exact ⟨by rw [h], fun _ => hk⟩
  · rw [readName] at h
    split at h
    · rename_i w r hread
      split at h
      · rename_i hr
        cases h
        rw [hr] at hread
        have hshort := Literal.read_short hread hk
        exact ⟨hshort.le, fun he => absurd he hshort.ne⟩
      · cases h
    · cases h

def size (ps : List (Str × Str)) : Nat := (ps.map fun p => p.1.length + p.2.length + 1).sum

theorem size_perm {ps qs : List (Str × Str)} (h : ps.Perm qs) : size ps = size qs :=
  (h.map _).sum_eq

theorem perm_of_filter {ps qs : List (Str × Str)}
    (h : ∀ dat, ps.filter (·.1 = dat) = qs.filter (·.1 = dat)) : ps.Perm qs := by
  rw [List.perm_iff_count]
  intro p
  have hcount (xs : List (Str × Str)) : (xs.filter (·.1 = p.1)).count p = xs.count p :=
    List.count_filter (by simp)
  rw [← hcount ps, h, hcount qs]

theorem mapM_cons_some {e : Str × Str} {es found : List (Str × Str)}
    (h : (e :: es).mapM readEntry = some found) :
    ∃ v vs, readEntry e = some v ∧ es.mapM readEntry = some vs ∧ found = v :: vs := by
  rw [List.mapM_cons] at h
  cases hv : readEntry e with
  | none =>
    rw [hv] at h
    cases h
  | some v =>
    cases hvs : es.mapM readEntry with
    | none =>
      rw [hv, hvs] at h
      cases h
    | some vs =>
      rw [hv, hvs] at h
      cases h
      exact ⟨v, vs, rfl, rfl, rfl⟩

theorem readEntry_some {e v : Str × Str} (h : readEntry e = some v) :
    readName e.1 = some v.1 ∧ readName e.2 = some v.2 := by
  obtain ⟨dat, hdat, h⟩ := Option.bind_eq_some_iff.mp h
  obtain ⟨key, hkey, rfl⟩ := Option.map_eq_some_iff.mp h
  exact ⟨hdat, hkey⟩

theorem mapM_size {es found : List (Str × Str)} (h : es.mapM readEntry = some found) :
    size found ≤ size es ∧
      (size found = size es → ∀ e ∈ es, Literal.Kept e.1 ∧ Literal.Kept e.2) := by
  induction es generalizing found with
  | nil =>
    rw [List.mapM_nil] at h
    cases h
    exact ⟨le_rfl, fun _ e he => by cases he⟩
  | cons e es ih =>
    obtain ⟨v, vs, hv, hvs, rfl⟩ := mapM_cons_some h
    obtain ⟨hle, hkept⟩ := ih hvs
    obtain ⟨hdat, hkey⟩ := readEntry_some hv
    obtain ⟨hd, hdk⟩ := readName_length hdat
    obtain ⟨hk, hkk⟩ := readName_length hkey
    rw [size, size, List.map_cons, List.map_cons, List.sum_cons, List.sum_cons, ← size, ← size]
    refine ⟨by omega, fun heq => List.forall_mem_cons.mpr ⟨⟨?_, ?_⟩, ?_⟩⟩
    · exact hdk (by omega)
    · exact hkk (by omega)
    · exact hkept (by omega)

theorem mapM_kept {es : List (Str × Str)} (h : ∀ e ∈ es, Literal.Kept e.1 ∧ Literal.Kept e.2) :
    es.mapM readEntry = some es := by
  induction es with
  | nil => rfl
  | cons e es ih =>
    obtain ⟨⟨hdat, hkey⟩, h⟩ := List.forall_mem_cons.mp h
    have he : readEntry e = some e := by
      rw [readEntry, readName_kept hdat, readName_kept hkey]
      rfl
    rw [List.mapM_cons, he, ih h]
    rfl

def Pair.cut (p : Pair) : Str × Str := (Convdbkeys.cut p.dat.text, Convdbkeys.cut p.key.text)

theorem readKeys_fileOf (pairs : List Pair) (line : Nat) {ps : List (Str × Str)} (h : Holds keys ps) :
    ∃ keys', readKeys (fileOf pairs) line keys = .ok keys' ∧
      Holds keys' (ps ++ pairs.map Pair.cut) := by
  induction pairs generalizing line keys ps with
  | nil => exact ⟨keys, rfl, by rwa [List.map_nil, List.append_nil]⟩
  | cons p pairs ih =>
    have hfile : fileOf (p :: pairs) = datOf p.dat :: keyOf p.key :: fileOf pairs := rfl
    have hdat : firstWord (datOf p.dat) = lit "dat" := by
      rw [firstWord, words_datOf]
      rfl
    have hkey : firstWord (keyOf p.key) = lit "key" := by
      rw [firstWord, words_keyOf]
      rfl
    have hdatName : secondWord (datOf p.dat) = p.cut.1 := by
      rw [secondWord, words_datOf]
      rfl
    have hkeyName : secondWord (keyOf p.key) = p.cut.2 := by
      rw [secondWord, words_keyOf]
      rfl
    obtain ⟨keys', hread, hholds⟩ := ih (line + 2) (h.set p.cut.1 p.cut.2)
    refine ⟨keys', ?_, ?_⟩
    · rw [hfile, readKeys_pair hdat hkey, hdatName, hkeyName, hread]
    · rwa [List.append_assoc] at hholds

theorem FUNC_fileOf (collate : Str → Str → Bool) (date : Line) (pairs : List Pair) :
    ∃ es, FUNC collate date (fileOf pairs) =
        .ok (header date ++ writeEntries false es ++ footer) ∧
      ∀ dat, es.filter (·.1 = dat) =
        if dat = [] then [] else (pairs.map Pair.cut).filter (·.1 = dat) := by
  obtain ⟨keys, hread, hholds⟩ := readKeys_fileOf pairs 0 Holds.nil
  rw [List.nil_append] at hholds
  refine ⟨keys.entries collate, ?_, fun dat => ?_⟩
  · rw [FUNC, hread]
    rfl
  · have hspace : ∀ p ∈ pairs.map Pair.cut, space ∉ p.2 := by
      intro p hp
      obtain ⟨q, -, rfl⟩ := List.mem_map.mp hp
      exact space_not_mem_cut _
    rw [hholds.entries hspace, filter_flatMap hholds.order_nodup]
    by_cases hdat : dat = []
    · rw [if_pos hdat, if_neg fun h => (mem_order.mp h).2 hdat]
    · rw [if_neg hdat]
      by_cases hmem : dat ∈ keys.names
      · rw [if_pos (mem_order.mpr ⟨hmem, hdat⟩)]
      · rw [if_neg fun h => hmem (mem_order.mp h).1, eq_comm, List.filter_eq_nil_iff]
        intro p hp he
        refine hmem ((hholds.mem dat).mpr (List.mem_map.mpr ⟨p, hp, ?_⟩))
        simpa using he

theorem size_filter (ps : List (Str × Str)) :
    size (ps.filter (·.1 ≠ [])) ≤ size ps ∧
      (size (ps.filter (·.1 ≠ [])) = size ps → ∀ p ∈ ps, p.1 ≠ []) := by
  induction ps with
  | nil => exact ⟨le_rfl, fun _ p hp => by cases hp⟩
  | cons p ps ih =>
    obtain ⟨hle, hall⟩ := ih
    have hsize : size (p :: ps) = p.1.length + p.2.length + 1 + size ps := rfl
    by_cases hp : p.1 = []
    · rw [List.filter_cons_of_neg (by simpa using hp), hsize]
      exact ⟨by omega, fun h => by omega⟩
    · rw [List.filter_cons_of_pos (by simpa using hp), hsize]
      have hsize' : size (p :: ps.filter (·.1 ≠ [])) =
          p.1.length + p.2.length + 1 + size (ps.filter (·.1 ≠ [])) := rfl
      rw [hsize']
      exact ⟨by omega, fun h => List.forall_mem_cons.mpr ⟨hp, hall (by omega)⟩⟩

def Pair.NoBlank (p : Pair) : Prop :=
  (∀ c ∈ p.dat.text, blank c = false) ∧ ∀ c ∈ p.key.text, blank c = false

theorem size_cut (pairs : List Pair) :
    size (pairs.map Pair.cut) ≤ size (pairs.map Pair.names) ∧
      (size (pairs.map Pair.cut) = size (pairs.map Pair.names) → ∀ p ∈ pairs, p.NoBlank) := by
  induction pairs with
  | nil => exact ⟨le_rfl, fun _ p hp => by cases hp⟩
  | cons p pairs ih =>
    obtain ⟨hle, hall⟩ := ih
    have hcut : size ((p :: pairs).map Pair.cut) =
      (cut p.dat.text).length + (cut p.key.text).length + 1 + size (pairs.map Pair.cut) := rfl
    have hnames : size ((p :: pairs).map Pair.names) =
      p.dat.text.length + p.key.text.length + 1 + size (pairs.map Pair.names) := rfl
    have hdat := (cut_sublist p.dat.text).length_le
    have hkey := (cut_sublist p.key.text).length_le
    rw [hcut, hnames]
    refine ⟨by omega, fun h => List.forall_mem_cons.mpr ⟨⟨?_, ?_⟩, hall (by omega)⟩⟩
    · exact (cut_self (by omega)).2
    · exact (cut_self (by omega)).2

theorem map_cut {pairs : List Pair} (h : ∀ p ∈ pairs, p.NoBlank) :
    pairs.map Pair.cut = pairs.map Pair.names :=
  List.map_congr_left fun p hp => Prod.ext (cut_eq_self (h p hp).1) (cut_eq_self (h p hp).2)

def Pair.Kept (p : Pair) : Prop := p.dat.text ≠ [] ∧ NameKept p.dat.text ∧ NameKept p.key.text

instance (p : Pair) : Decidable p.Kept := inferInstanceAs (Decidable (_ ∧ _ ∧ _))

theorem filter_order {es ps : List (Str × Str)}
    (hes : ∀ dat, es.filter (·.1 = dat) = if dat = [] then [] else ps.filter (·.1 = dat)) :
    es.Perm (ps.filter (·.1 ≠ [])) := by
  refine perm_of_filter fun dat => ?_
  rw [hes, List.filter_filter]
  by_cases hdat : dat = []
  · rw [if_pos hdat, eq_comm, List.filter_eq_nil_iff]
    intro p _ hp
    simp only [Bool.and_eq_true, decide_eq_true_eq] at hp
    exact hp.2 (hp.1.trans hdat)
  · rw [if_neg hdat]
    refine List.filter_congr fun p _ => ?_
    by_cases hp : p.1 = dat
    · simp [hp, hdat]
    · simp [hp]

theorem preserves_iff (pairs : List Pair) :
    (∃ text, FUNC collate date (fileOf pairs) = .ok text ∧
      Preserves (pairs.map Pair.names) text) ↔ ∀ p ∈ pairs, p.Kept := by
  obtain ⟨es, hfunc, hes⟩ := FUNC_fileOf collate date pairs
  have hperm := filter_order hes
  have hmem {e : Str × Str} (he : e ∈ es) : ∃ p ∈ pairs, p.cut = e :=
    List.mem_map.mp (List.mem_filter.mp (hperm.subset he)).1
  have hline : ∀ e ∈ es, NoNewline e := by
    intro e he
    obtain ⟨p, -, rfl⟩ := hmem he
    exact ⟨cut_newline p.dat, cut_newline p.key⟩
  rw [hfunc]
  constructor
  · rintro ⟨text, htext, found, hfound, hsame⟩
    cases htext
    rw [settings_text hline] at hfound
    obtain ⟨hread, hkept⟩ := mapM_size hfound
    obtain ⟨hfilter, hne⟩ := size_filter (pairs.map Pair.cut)
    obtain ⟨hcut, hblank⟩ := size_cut pairs
    have hwritten := size_perm hperm
    have hall := size_perm (perm_of_filter hsame)
    have hblank := hblank (by omega)
    have hkept := hkept (by omega)
    have hne := hne (by omega)
    rw [map_cut hblank] at hne
    intro p hp
    have hnames : p.names ∈ pairs.map Pair.names := List.mem_map_of_mem hp
    have hes : p.names ∈ es := by
      refine hperm.symm.subset (List.mem_filter.mpr ⟨?_, by simpa using hne _ hnames⟩)
      rwa [map_cut hblank]
    exact ⟨hne _ hnames, ⟨(hblank p hp).1, (hkept _ hes).1⟩, (hblank p hp).2, (hkept _ hes).2⟩
  · intro h
    have hcut := map_cut fun p hp => ⟨(h p hp).2.1.1, (h p hp).2.2.1⟩
    refine ⟨_, rfl, es, ?_, fun dat => ?_⟩
    · rw [settings_text hline]
      refine mapM_kept fun e he => ?_
      obtain ⟨p, hp, rfl⟩ := hmem he
      have hself : p.cut = p.names :=
        Prod.ext (cut_eq_self (h p hp).2.1.1) (cut_eq_self (h p hp).2.2.1)
      rw [hself]
      exact ⟨(h p hp).2.1.2, (h p hp).2.2.2⟩
    · rw [hes, hcut]
      by_cases hdat : dat = []
      · rw [if_pos hdat, eq_comm, List.filter_eq_nil_iff]
        intro e he hd
        obtain ⟨p, hp, rfl⟩ := List.mem_map.mp he
        have hd : p.names.1 = dat := by simpa using hd
        exact (h p hp).1 (hd.trans hdat)
      · rw [if_neg hdat]

/-- What the conversion is to do with a file. -/
def Correct (src : List Line) (out : Except Error Str) : Prop :=
  (Malformed src → ∃ e, out = .error e) ∧
    ∀ pairs, src = fileOf pairs → ∃ text, out = .ok text ∧ Preserves (pairs.map Pair.names) text

theorem FUNC_correct_iff (collate : Str → Str → Bool) (date : Line) (src : List Line) :
    Correct src (FUNC collate date src) ↔
      ∀ pairs, src = fileOf pairs → ∀ p ∈ pairs, p.Kept := by
  constructor
  · rintro ⟨-, h⟩ pairs rfl
    exact (preserves_iff pairs).mp (h pairs rfl)
  · intro h
    refine ⟨fun hmal => ?_, ?_⟩
    · obtain ⟨e, he⟩ := (readKeys_error src 0 ⟨[], fun _ => []⟩).mpr hmal
      exact ⟨e, by rw [FUNC, he]; rfl⟩
    · rintro pairs rfl
      exact (preserves_iff pairs).mpr (h pairs rfl)

/-- A database whose directory has a blank in its name. -/
def blankPair : Pair :=
  ⟨⟨lit "/data/my db/mumps.dat", by decide⟩, ⟨lit "/data/mumps_key", by decide⟩⟩

theorem FUNC_cuts_name :
    ¬ Correct (fileOf [blankPair])
      (FUNC (fun a b => decide (a ≤ b)) ⟨lit "JAN 01, 2015 12:00:00", by decide⟩
        (fileOf [blankPair])) := by
  rintro ⟨-, h⟩
  have hkept := (preserves_iff [blankPair]).mp (h [blankPair] rfl) blankPair List.mem_cons_self
  exact absurd hkept (by decide)

end YdbTest.Convdbkeys
