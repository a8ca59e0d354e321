import YdbTest.TriggerAdd

namespace YdbTest.TrigSplit

open MString Delimiter Pieces Separated TriggerLoad

local instance lawfulBEq_str : LawfulBEq Str := inferInstance

def K : Str := lit "K"

def ZK : Str := lit "ZK"

def ZTK : Str := lit "ZTK"

def ZTR : Str := lit "ZTR"

def hyphen : Nat := 45

def comma : Nat := 44

/-- A line of the select file: a trigger of `randomtriggers`, with its commands and its options in
the order of the select file, and with pieces only for a SET. -/
structure SelectLine extends TrigLine where
  added : add = true
  cmds_order : cmds.Sublist [S, K, ZK, ZTK, ZTR]
  options_order : options.Sublist [lit "I", lit "NOI", lit "C", lit "NOC"]
  set_only : piecedelim ≠ none → S ∈ cmds
  gbl_hyphen : hyphen ∉ gbl
  piecedelim_hyphen : ∀ q ∈ piecedelim, hyphen ∉ q.1 ∧ hyphen ∉ q.2
  xecute_hyphen : hyphen ∉ xecute.1 ∧ hyphen ∉ xecute.2

/-- What is written behind the commands, word by word. -/
def SelectLine.words (t : SelectLine) : List Str :=
  (if t.options = [] then [] else [lit "-options=" ++ [comma].intercalate t.options]) ++
    (t.piecedelim.elim [] fun q => [lit "-delim=" ++ q.2, lit "-pieces=" ++ q.1]) ++
    [lit "-xecute=" ++ t.xecute.1, t.xecute.2]

def SelectLine.text (t : SelectLine) : Str :=
  lit "+^" ++ t.gbl ++ lit " -commands=" ++ [comma].intercalate t.cmds ++ after space t.words

def cmdstr : Str := lit "-commands="

def restPieces (s : Str) : Str := [space].intercalate (((s.splitOn space).take 999).drop 1)

def pieceBy (s d : Str) (n : Nat) : Str := (split d s).getD (n - 1) []

def restOf (restofline : Str) : Str :=
  if lit "-delim=" <:+: restofline ∧ lit "-options=" <:+: restofline then
    pieceBy restofline (lit " -") 1 ++ lit " -" ++ pieceBy restofline (lit " -") 4
  else if lit "-delim=" <:+: restofline then lit "-" ++ pieceBy restofline (lit " -") 3
  else restofline

def splitLine (line : Str) : List Str :=
  let prefix_ := pieceBy line cmdstr 1
  let suffix := pieceBy line cmdstr 2
  let cmds := piece suffix space 1
  let restofline := restPieces suffix
  if lit "S," <:+: cmds then
    [prefix_ ++ cmdstr ++ pieceBy cmds (lit "S,") 2 ++ lit " " ++ restOf restofline,
      prefix_ ++ cmdstr ++ lit "S" ++ lit " " ++ restofline]
  else [line]

def trigsplit (linein : List Str) : List Str := linein.flatMap splitLine

theorem S_order : [S].Sublist [S, K, ZK, ZTK, ZTR] := List.singleton_sublist.mpr List.mem_cons_self

def SelectLine.others (t : SelectLine) (h : t.cmds.erase S ≠ []) : SelectLine :=
  { t with
    cmds := t.cmds.erase S
    piecedelim := none
    cmds_ne := h
    cmds_words := fun c hc => t.cmds_words c (List.mem_of_mem_erase hc)
    piecedelim_words := fun q hq => by cases hq
    cmds_order := List.erase_sublist.trans t.cmds_order
    set_only := fun h => absurd rfl h
    piecedelim_hyphen := fun q hq => by cases hq }

def SelectLine.setOnly (t : SelectLine) : SelectLine :=
  { t with
    cmds := [S]
    cmds_ne := List.cons_ne_nil S []
    cmds_words := fun c hc => by
      rw [List.mem_singleton.mp hc]
      decide
    cmds_order := S_order
    set_only := fun _ => List.mem_cons_self }

/-- The lines that a line stands for: its SET and its other commands apart. -/
def SelectLine.parts (t : SelectLine) : List SelectLine :=
  if h : S ∈ t.cmds ∧ t.cmds.erase S ≠ [] then [t.others h.2, t.setOnly] else [t]

/-- What the parts are to have of their line. -/
structure Apart (t : SelectLine) (parts : List SelectLine) : Prop where
  commands : (parts.flatMap (·.cmds)).Perm t.cmds
  kept : ∀ u ∈ parts, u.gbl = t.gbl ∧ u.xecute = t.xecute ∧ u.options = t.options
  set : ∀ u ∈ parts, S ∈ u.cmds → u.cmds = [S] ∧ u.piecedelim = t.piecedelim
  nonSET : ∀ u ∈ parts, S ∉ u.cmds → u.piecedelim = none

variable {t : SelectLine}

theorem cmds_nodup (t : SelectLine) : t.cmds.Nodup := t.cmds_order.nodup (by decide)

theorem parts_apart (t : SelectLine) : Apart t t.parts := by
  unfold SelectLine.parts
  by_cases h : S ∈ t.cmds ∧ t.cmds.erase S ≠ []
  · rw [dif_pos h]
    have hcases {u : SelectLine} (hu : u ∈ [t.others h.2, t.setOnly]) :
        u = t.others h.2 ∨ u = t.setOnly := by simpa using hu
    refine ⟨?_, fun u hu => ?_, fun u hu hS => ?_, fun u hu hS => ?_⟩
    · exact List.perm_append_comm.trans (List.perm_cons_erase h.1).symm
    · obtain rfl | rfl := hcases hu
      · exact ⟨rfl, rfl, rfl⟩
      · exact ⟨rfl, rfl, rfl⟩
    · obtain rfl | rfl := hcases hu
      · exact absurd hS (cmds_nodup t).not_mem_erase
      · exact ⟨rfl, rfl⟩
    · obtain rfl | rfl := hcases hu
      · rfl
      · exact absurd List.mem_cons_self hS
  · rw [dif_neg h]
    refine ⟨?_, fun u hu => ?_, fun u hu hS => ?_, fun u hu hS => ?_⟩
    · rw [List.flatMap_singleton]
    · rw [List.mem_singleton.mp hu]
      exact ⟨rfl, rfl, rfl⟩
    · rw [List.mem_singleton.mp hu] at hS ⊢
      have hnil : t.cmds.erase S = [] := by
        by_contra hne
        exact h ⟨hS, hne⟩
      refine ⟨?_, rfl⟩
      have := List.perm_cons_erase hS
      rw [hnil] at this
      exact List.perm_singleton.mp this
    · rw [List.mem_singleton.mp hu] at hS ⊢
      by_contra hne
      exact hS (t.set_only hne)

variable {r w : Str}

theorem infix_hyphened {v : Str} (hv : hyphen ∉ v) : hyphen :: r <:+: hyphen :: v ↔ r <+: v := by
  constructor
  · intro h
    obtain h | h := List.infix_cons_iff.mp h
    · exact (List.cons_prefix_cons.mp h).2
    · exact absurd (h.subset List.mem_cons_self) hv
  · exact fun h => (List.cons_prefix_cons.mpr ⟨rfl, h⟩).isInfix

theorem not_infix_plain (hw : hyphen ∉ w) : ¬ hyphen :: r <:+: w :=
  fun h => hw (h.subset List.mem_cons_self)

theorem not_mem_joined {c : Nat} {ws : List Str} (hc : c ≠ comma) (h : ∀ w ∈ ws, c ∉ w) :
    c ∉ [comma].intercalate ws := notMem_intercalate hc h

theorem cmds_hyphen (t : SelectLine) : hyphen ∉ [comma].intercalate t.cmds :=
  not_mem_joined (by decide) fun c hc => (t.cmds_words c hc).2.2.1

theorem cmds_space (t : SelectLine) : space ∉ [comma].intercalate t.cmds :=
  not_mem_joined (by decide) fun c hc => (t.cmds_words c hc).1

theorem options_hyphen (t : SelectLine) : hyphen ∉ [comma].intercalate t.options :=
  not_mem_joined (by decide) fun c hc => (t.options_words c hc).2.2.1

theorem options_space (t : SelectLine) : space ∉ [comma].intercalate t.options :=
  not_mem_joined (by decide) fun c hc => (t.options_words c hc).1

theorem mem_words : w ∈ t.words ↔
    (t.options ≠ [] ∧ w = lit "-options=" ++ [comma].intercalate t.options) ∨
    (∃ q ∈ t.piecedelim, w = lit "-delim=" ++ q.2 ∨ w = lit "-pieces=" ++ q.1) ∨
    w = lit "-xecute=" ++ t.xecute.1 ∨ w = t.xecute.2 := by
  unfold SelectLine.words
  cases t.piecedelim with
  | none =>
    by_cases ho : t.options = []
    · simp [ho]
    · simp [ho]
  | some q =>
    by_cases ho : t.options = []
    · simp [ho, or_assoc]
    · simp [ho, or_assoc]

theorem words_space : ∀ w ∈ t.words, space ∉ w := by
  intro w hw
  have hkey {key v : Str} (hkey : space ∉ key) (hv : space ∉ v) : space ∉ key ++ v :=
    fun h => (List.mem_append.mp h).elim hkey hv
  obtain ⟨-, rfl⟩ | ⟨q, hq, rfl | rfl⟩ | rfl | rfl := mem_words.mp hw
  · exact hkey (by decide) (options_space t)
  · exact hkey (by decide) (t.piecedelim_words q hq).2
  · exact hkey (by decide) (t.piecedelim_words q hq).1
  · exact hkey (by decide) t.xecute_words.1
  · exact t.xecute_words.2

theorem not_prefix {a b : Str} (h : a.head? ≠ b.head?) (ha : a ≠ []) (hb : b ≠ []) (v : Str) :
    ¬ a <+: b ++ v := by
  cases a with
  | nil => exact absurd rfl ha
  | cons x a =>
    cases b with
    | nil => exact absurd rfl hb
    | cons y b =>
      rw [List.cons_append, List.cons_prefix_cons]
      exact fun hp => h (congrArg some hp.1)

theorem not_mem_key (key : Str) {v : Str} (hkey : hyphen ∉ key) (hv : hyphen ∉ v) :
    hyphen ∉ key ++ v :=
  fun h => (List.mem_append.mp h).elim hkey hv

theorem infix_words (hr : space ∉ r) : hyphen :: r <:+: [space].intercalate t.words ↔
    (t.options ≠ [] ∧ r <+: lit "options=" ++ [comma].intercalate t.options) ∨
    (∃ q ∈ t.piecedelim, r <+: lit "delim=" ++ q.2 ∨ r <+: lit "pieces=" ++ q.1) ∨
    r <+: lit "xecute=" ++ t.xecute.1 := by
  have hspace : space ∉ hyphen :: r := fun h => (List.mem_cons.mp h).elim (by decide) hr
  have hoptions : hyphen ∉ lit "options=" ++ [comma].intercalate t.options :=
    not_mem_key (lit "options=") (by decide) (options_hyphen t)
  have hxecute : hyphen ∉ lit "xecute=" ++ t.xecute.1 :=
    not_mem_key (lit "xecute=") (by decide) t.xecute_hyphen.1
  rw [infix_intercalate (List.cons_ne_nil _ _) hspace]
  constructor
  · rintro ⟨w, hw, hin⟩
    obtain ⟨ho, rfl⟩ | ⟨q, hq, rfl | rfl⟩ | rfl | rfl := mem_words.mp hw
    · exact Or.inl ⟨ho, (infix_hyphened hoptions).mp hin⟩
    · have hv := not_mem_key (lit "delim=") (by decide) (t.piecedelim_hyphen q hq).2
      exact Or.inr (Or.inl ⟨q, hq, Or.inl ((infix_hyphened hv).mp hin)⟩)
    · have hv := not_mem_key (lit "pieces=") (by decide) (t.piecedelim_hyphen q hq).1
      exact Or.inr (Or.inl ⟨q, hq, Or.inr ((infix_hyphened hv).mp hin)⟩)
    · exact Or.inr (Or.inr ((infix_hyphened hxecute).mp hin))
    · exact absurd hin (not_infix_plain t.xecute_hyphen.2)
  · rintro (⟨ho, hp⟩ | ⟨q, hq, hp | hp⟩ | hp)
    · exact ⟨_, mem_words.mpr (Or.inl ⟨ho, rfl⟩), (infix_hyphened hoptions).mpr hp⟩
    · have hv := not_mem_key (lit "delim=") (by decide) (t.piecedelim_hyphen q hq).2
      exact ⟨_, mem_words.mpr (Or.inr (Or.inl ⟨q, hq, Or.inl rfl⟩)), (infix_hyphened hv).mpr hp⟩
    · have hv := not_mem_key (lit "pieces=") (by decide) (t.piecedelim_hyphen q hq).1
      exact ⟨_, mem_words.mpr (Or.inr (Or.inl ⟨q, hq, Or.inr rfl⟩)), (infix_hyphened hv).mpr hp⟩
    · exact ⟨_, mem_words.mpr (Or.inr (Or.inr (Or.inl rfl))), (infix_hyphened hxecute).mpr hp⟩

theorem commands_words (t : SelectLine) : ¬ cmdstr <:+: [space].intercalate t.words := by
  intro h
  have hne {b : Str} (hb : b ≠ []) (hh : b.head? ≠ some 99) (v : Str) :
      ¬ lit "commands=" <+: b ++ v := not_prefix (Ne.symm hh) (by decide) hb v
  obtain ⟨-, hp⟩ | ⟨q, -, hp | hp⟩ | hp := (infix_words (r := lit "commands=") (by decide)).mp h
  · exact hne (by decide) (by decide) _ hp
  · exact hne (by decide) (by decide) _ hp
  · exact hne (by decide) (by decide) _ hp
  · exact hne (by decide) (by decide) _ hp

theorem delim_words (t : SelectLine) :
    lit "-delim=" <:+: [space].intercalate t.words ↔ t.piecedelim.isSome := by
  have hne {b : Str} (hb : b ≠ []) (hh : b.head? ≠ some 100) (v : Str) :
      ¬ lit "delim=" <+: b ++ v := not_prefix (Ne.symm hh) (by decide) hb v
  refine (infix_words (r := lit "delim=") (by decide)).trans ⟨?_, fun h => ?_⟩
  · rintro (⟨-, hp⟩ | ⟨q, hq, -⟩ | hp)
    · exact absurd hp (hne (by decide) (by decide) _)
    · exact Option.isSome_iff_exists.mpr ⟨q, hq⟩
    · exact absurd hp (hne (by decide) (by decide) _)
  · obtain ⟨q, hq⟩ := Option.isSome_iff_exists.mp h
    exact Or.inr (Or.inl ⟨q, hq, Or.inl (List.prefix_append _ _)⟩)

theorem options_words (t : SelectLine) :
    lit "-options=" <:+: [space].intercalate t.words ↔ t.options ≠ [] := by
  have hne {b : Str} (hb : b ≠ []) (hh : b.head? ≠ some 111) (v : Str) :
      ¬ lit "options=" <+: b ++ v := not_prefix (Ne.symm hh) (by decide) hb v
  refine (infix_words (r := lit "options=") (by decide)).trans ⟨?_, fun h => ?_⟩
  · rintro (⟨ho, -⟩ | ⟨q, -, hp | hp⟩ | hp)
    · exact ho
    · exact absurd hp (hne (by decide) (by decide) _)
    · exact absurd hp (hne (by decide) (by decide) _)
    · exact absurd hp (hne (by decide) (by decide) _)
  · exact Or.inl ⟨h, List.prefix_append _ _⟩

theorem suffix_eq (t : SelectLine) : [comma].intercalate t.cmds ++ after space t.words =
    [space].intercalate ([comma].intercalate t.cmds :: t.words) := (intercalate_cons _ _).symm

theorem suffix_space (t : SelectLine) :
    ∀ w ∈ [comma].intercalate t.cmds :: t.words, space ∉ w :=
  List.forall_mem_cons.mpr ⟨cmds_space t, words_space⟩

theorem words_length (t : SelectLine) : t.words.length ≤ 5 := by
  unfold SelectLine.words
  cases t.piecedelim with
  | none =>
    by_cases ho : t.options = []
    · simp [ho]
    · simp [ho]
  | some q =>
    by_cases ho : t.options = []
    · simp [ho]
    · simp [ho]

theorem restPieces_suffix (t : SelectLine) :
    restPieces ([comma].intercalate t.cmds ++ after space t.words) =
      [space].intercalate t.words := by
  have hlength := words_length t
  rw [restPieces, suffix_eq, List.splitOn_intercalate space (suffix_space t) (List.cons_ne_nil _ _),
    List.take_of_length_le (by rw [List.length_cons]; omega), List.drop_one, List.tail_cons]

theorem piece_suffix (t : SelectLine) :
    piece ([comma].intercalate t.cmds ++ after space t.words) space 1 =
      [comma].intercalate t.cmds := by
  rw [suffix_eq]
  exact piece_fields (suffix_space t) (List.cons_ne_nil _ _) 0

theorem split_of_absent {d s : Str} (h : ¬ d <:+: s) : split d s = [s] := by
  induction s with
  | nil => rfl
  | cons a s ih =>
    rw [List.infix_cons_iff, not_or] at h
    have hrest := ih h.2
    rw [split] at hrest
    rw [split, splitFrom, if_neg h.1, hrest]
    rfl

theorem commands_suffix (t : SelectLine) :
    ¬ cmdstr <:+: [comma].intercalate t.cmds ++ after space t.words := by
  have hsame : ¬ cmdstr <:+: [comma].intercalate t.cmds := not_infix_plain (cmds_hyphen t)
  cases hw : t.words with
  | nil =>
    rw [after, List.flatMap_nil, List.append_nil]
    exact hsame
  | cons w ws =>
    have hjoin : after space (w :: ws) = space :: [space].intercalate t.words := by
      rw [hw, intercalate_cons]
      rfl
    rw [hjoin, infix_sep (by decide) (by decide), not_or]
    exact ⟨hsame, commands_words t⟩

theorem split_text (t : SelectLine) : split cmdstr t.text =
    [lit "+^" ++ t.gbl ++ lit " ", [comma].intercalate t.cmds ++ after space t.words] := by
  have hshape : t.text = (lit "+^" ++ t.gbl ++ lit " ") ++
      (cmdstr ++ ([comma].intercalate t.cmds ++ after space t.words)) := by
    have hkey : lit " -commands=" = lit " " ++ cmdstr := rfl
    rw [SelectLine.text, hkey]
    simp only [List.append_assoc]
  have hhead : hyphen ∉ lit "+^" ++ t.gbl ++ lit " " :=
    fun h => (List.mem_append.mp h).elim (not_mem_key (lit "+^") (by decide) t.gbl_hyphen) (by decide)
  rw [hshape]
  refine (split_first (r := lit "commands=") hhead _).trans ?_
  exact congrArg (_ :: ·) (split_of_absent (commands_suffix t))

theorem order_S (t : SelectLine) :
    (S ∈ t.cmds → t.cmds = S :: t.cmds.erase S) ∧ 83 ∉ [comma].intercalate (t.cmds.erase S) := by
  have hrest {cs : List Str} (h : cs.Sublist [K, ZK, ZTK, ZTR]) :
      S ∉ cs ∧ 83 ∉ [comma].intercalate cs := by
    refine ⟨fun hS => absurd (h.subset hS) (by decide), not_mem_joined (by decide) fun c hc => ?_⟩
    have hall : ∀ c ∈ [K, ZK, ZTK, ZTR], 83 ∉ c := by decide
    exact hall c (h.subset hc)
  obtain h | ⟨cs, hcs, h⟩ := List.sublist_cons_iff.mp t.cmds_order
  · obtain ⟨hS, hjoin⟩ := hrest h
    rw [List.erase_of_not_mem hS]
    exact ⟨fun h => absurd h hS, hjoin⟩
  · rw [hcs, List.erase_cons_head]
    exact ⟨fun _ => rfl, (hrest h).2⟩

theorem cmds_both (h : S ∈ t.cmds) (hne : t.cmds.erase S ≠ []) :
    [comma].intercalate t.cmds = lit "S," ++ [comma].intercalate (t.cmds.erase S) := by
  cases hcs : t.cmds.erase S with
  | nil => exact absurd hcs hne
  | cons c cs =>
    rw [(order_S t).1 h, hcs, List.intercalate_cons_cons]
    rfl

theorem both_iff (t : SelectLine) :
    lit "S," <:+: [comma].intercalate t.cmds ↔ S ∈ t.cmds ∧ t.cmds.erase S ≠ [] := by
  constructor
  · intro h
    by_cases hS : S ∈ t.cmds
    · refine ⟨hS, fun hnil => ?_⟩
      rw [(order_S t).1 hS, hnil] at h
      exact absurd h (by decide)
    · have hnone := (order_S t).2
      rw [List.erase_of_not_mem hS] at hnone
      exact absurd (h.subset List.mem_cons_self) hnone
  · rintro ⟨hS, hne⟩
    rw [cmds_both hS hne]
    exact (List.prefix_append _ _).isInfix

theorem pieceBy_cmds (h : S ∈ t.cmds) (hne : t.cmds.erase S ≠ []) :
    pieceBy ([comma].intercalate t.cmds) (lit "S,") 2 = [comma].intercalate (t.cmds.erase S) := by
  have hsplit : split (lit "S,") (lit "S," ++ [comma].intercalate (t.cmds.erase S)) =
      [[], [comma].intercalate (t.cmds.erase S)] := by
    refine (split_append_self (c := 83) (r := [comma]) rfl _).trans ?_
    exact congrArg ([] :: ·) (split_of_notMem (order_S t).2)
  rw [pieceBy, cmds_both h hne, hsplit]
  rfl

def SelectLine.plainWords (t : SelectLine) : List Str :=
  (if t.options = [] then [] else [lit "-options=" ++ [comma].intercalate t.options]) ++
    [lit "-xecute=" ++ t.xecute.1, t.xecute.2]

theorem split_xecute (t : SelectLine) :
    split (lit " -") (lit "xecute=" ++ t.xecute.1 ++ space :: t.xecute.2) =
      [lit "xecute=" ++ t.xecute.1 ++ space :: t.xecute.2] := by
  refine split_apart (r := lit "-") ?_ t.xecute_words.2 ?_
  · exact fun h => (List.mem_append.mp h).elim (by decide) t.xecute_words.1
  · exact fun h => t.xecute_hyphen.2 (h.subset List.mem_cons_self)

theorem split_word {w s : Str} (hw : space ∉ w) :
    split (lit " -") (w ++ (lit " -" ++ s)) = w :: split (lit " -") s :=
  split_first (r := lit "-") hw s

theorem restOf_words (t : SelectLine) :
    restOf ([space].intercalate t.words) = [space].intercalate t.plainWords := by
  have hdelim := delim_words t
  have hoptions := options_words t
  have hspace {key v : Str} (hkey : space ∉ key) (hv : space ∉ v) : space ∉ key ++ v :=
    fun h => (List.mem_append.mp h).elim hkey hv
  unfold restOf
  cases hq : t.piecedelim with
  | none =>
    rw [hq] at hdelim
    have hno : ¬ lit "-delim=" <:+: [space].intercalate t.words :=
      fun h => Bool.noConfusion (hdelim.mp h)
    rw [if_neg fun h => hno h.1, if_neg hno, SelectLine.words, SelectLine.plainWords, hq,
      Option.elim_none, List.append_nil]
  | some q =>
    rw [hq] at hdelim
    have hyes : lit "-delim=" <:+: [space].intercalate t.words := hdelim.mpr rfl
    have hd : space ∉ lit "delim=" ++ q.2 := hspace (by decide) (t.piecedelim_words q hq).2
    have hp : space ∉ lit "pieces=" ++ q.1 := hspace (by decide) (t.piecedelim_words q hq).1
    by_cases ho : t.options = []
    · have hno : ¬ lit "-options=" <:+: [space].intercalate t.words := fun h => hoptions.mp h ho
      have hd' : space ∉ lit "-delim=" ++ q.2 := hspace (by decide) (t.piecedelim_words q hq).2
      have hshape : [space].intercalate t.words =
          (lit "-delim=" ++ q.2) ++ (lit " -" ++ ((lit "pieces=" ++ q.1) ++ (lit " -" ++
            (lit "xecute=" ++ t.xecute.1 ++ space :: t.xecute.2)))) := by
        rw [SelectLine.words, hq, if_pos ho]
        simp only [Option.elim_some, List.nil_append, List.cons_append,
          List.intercalate_cons_cons, List.intercalate_singleton, List.append_assoc]
        rfl
      have hsplit : split (lit " -") ([space].intercalate t.words) =
          [lit "-delim=" ++ q.2, lit "pieces=" ++ q.1,
            lit "xecute=" ++ t.xecute.1 ++ space :: t.xecute.2] := by
        rw [hshape, split_word hd', split_word hp, split_xecute]
      rw [if_neg fun h => hno h.2, if_pos hyes, pieceBy, hsplit, SelectLine.plainWords, if_pos ho,
        List.nil_append, List.intercalate_cons_cons, List.intercalate_singleton]
      simp only [List.append_assoc]
      rfl
    · have ho' : space ∉ lit "-options=" ++ [comma].intercalate t.options :=
        hspace (by decide) (options_space t)
      have hshape : [space].intercalate t.words =
          (lit "-options=" ++ [comma].intercalate t.options) ++ (lit " -" ++
            ((lit "delim=" ++ q.2) ++ (lit " -" ++ ((lit "pieces=" ++ q.1) ++ (lit " -" ++
              (lit "xecute=" ++ t.xecute.1 ++ space :: t.xecute.2)))))) := by
        rw [SelectLine.words, hq, if_neg ho]
        simp only [Option.elim_some, List.nil_append, List.cons_append,
          List.intercalate_cons_cons, List.intercalate_singleton, List.append_assoc]
        rfl
      have hsplit : split (lit " -") ([space].intercalate t.words) =
          [lit "-options=" ++ [comma].intercalate t.options, lit "delim=" ++ q.2,
            lit "pieces=" ++ q.1, lit "xecute=" ++ t.xecute.1 ++ space :: t.xecute.2] := by
        rw [hshape, split_word ho', split_word hd, split_word hp, split_xecute]
      rw [if_pos ⟨hyes, hoptions.mpr ho⟩, pieceBy, pieceBy, hsplit, SelectLine.plainWords,
        if_neg ho, List.singleton_append, List.intercalate_cons_cons, List.intercalate_cons_cons,
        List.intercalate_singleton]
      simp only [List.append_assoc]
      rfl

theorem after_words {ws : List Str} (h : ws ≠ []) :
    after space ws = lit " " ++ [space].intercalate ws := by
  cases ws with
  | nil => exact absurd rfl h
  | cons w ws =>
    rw [intercalate_cons]
    rfl

theorem words_ne_nil (t : SelectLine) : t.words ≠ [] := by
  unfold SelectLine.words
  simp

theorem splitLine_text (t : SelectLine) : splitLine t.text = t.parts.map SelectLine.text := by
  have hfront : pieceBy t.text cmdstr 1 = lit "+^" ++ t.gbl ++ lit " " := by
    rw [pieceBy, split_text]
    rfl
  have hsuffix : pieceBy t.text cmdstr 2 =
      [comma].intercalate t.cmds ++ after space t.words := by
    rw [pieceBy, split_text]
    rfl
  have hkey : lit " -commands=" = lit " " ++ cmdstr := rfl
  unfold splitLine SelectLine.parts
  dsimp only
  rw [hfront, hsuffix, piece_suffix, restPieces_suffix, restOf_words]
  by_cases h : S ∈ t.cmds ∧ t.cmds.erase S ≠ []
  · have hothers : (t.others h.2).text = lit "+^" ++ t.gbl ++ lit " " ++ cmdstr ++
        [comma].intercalate (t.cmds.erase S) ++ lit " " ++ [space].intercalate t.plainWords := by
      have hwords : (t.others h.2).words = t.plainWords := by
        unfold SelectLine.words SelectLine.plainWords SelectLine.others
        rw [Option.elim_none, List.append_nil]
      rw [SelectLine.text, after_words (words_ne_nil _), hwords, hkey]
      simp only [List.append_assoc]
      rfl
    have hset : t.setOnly.text = lit "+^" ++ t.gbl ++ lit " " ++ cmdstr ++ lit "S" ++ lit " " ++
        [space].intercalate t.words := by
      rw [SelectLine.text, after_words (words_ne_nil _), hkey]
      simp only [List.append_assoc]
      rfl
    rw [if_pos ((both_iff t).mpr h), dif_pos h, pieceBy_cmds h.1 h.2, List.map_cons,
      List.map_singleton, hothers, hset]
  · rw [if_neg fun hb => h ((both_iff t).mp hb), dif_neg h]
    rfl

def SelectLine.line (t : SelectLine) : Line := parse t.toTrigLine.text

theorem line_others (h : t.cmds.erase S ≠ []) : (t.others h).line = t.line.others := by
  have hmem : S ∉ t.cmds.erase S := (cmds_nodup t).not_mem_erase
  have hcmds : (t.cmds.erase S).toFinset = t.cmds.toFinset.erase S := by
    ext c
    rw [Finset.mem_erase, List.mem_toFinset, List.mem_toFinset]
    exact (cmds_nodup t).mem_erase_iff
  unfold SelectLine.line Line.others
  rw [parse_text, parse_text]
  simp [SelectLine.others, hmem, hcmds]

theorem line_setOnly (h : S ∈ t.cmds) : t.setOnly.line = t.line.setOnly := by
  unfold SelectLine.line Line.setOnly
  rw [parse_text, parse_text]
  simp [SelectLine.setOnly, h]

theorem line_setspecified (h : S ∈ t.cmds) : t.line.setspecified = true := by
  rw [SelectLine.line, parse_text]
  exact decide_eq_true h

theorem line_cmds (h : t.cmds.erase S ≠ []) : t.line.cmds.Nonempty := by
  obtain ⟨c, cs, hcs⟩ := List.exists_cons_of_ne_nil h
  have hc : c ∈ t.cmds.erase S := hcs ▸ List.mem_cons_self
  refine ⟨c, ?_⟩
  rw [SelectLine.line, parse_text, Finset.mem_erase, List.mem_toFinset]
  exact (cmds_nodup t).mem_erase_iff.mp hc

theorem line_gvn (t : SelectLine) : t.line.gvn = t.gbl := by
  rw [SelectLine.line, parse_text]

theorem line_options (t : SelectLine) : t.line.options = t.options.toFinset := by
  rw [SelectLine.line, parse_text]

theorem line_xecute {u : SelectLine} (h : t.line.xecute = u.line.xecute) : t.xecute = u.xecute := by
  rw [SelectLine.line, SelectLine.line, parse_text, parse_text] at h
  have hsame := List.append_cancel_left h
  have hfirst : t.xecute.1 = u.xecute.1 := by
    rw [← piece_first t.xecute_words.1 t.xecute.2, hsame, piece_first u.xecute_words.1]
  rw [hfirst] at hsame
  exact Prod.ext hfirst (List.cons.inj (List.append_cancel_left hsame)).2

/-- Behind the first trigger for a global and an xecute string only SET triggers follow, or they
have the options that the run has picked for all. -/
def Selected (t u : SelectLine) : Prop :=
  t.gbl = u.gbl → t.xecute = u.xecute → u.cmds = [S] ∨ t.options = u.options

/-- What `mupip trigger -select` writes for the triggers of a run. -/
structure Select where
  lines : List SelectLine
  order : lines.Pairwise Selected

theorem load_line {hasht : Str → Gvn} (hok : ∀ g, GvnOk (hasht g))
    (ho : t.cmds ≠ [S] → Options t.line.options ((hasht t.line.gvn).xecute t.line.xecute)) :
    (t.parts.map SelectLine.line).foldl addTo hasht = addTo hasht t.line := by
  unfold SelectLine.parts
  by_cases h : S ∈ t.cmds ∧ t.cmds.erase S ≠ []
  · have hne : t.cmds ≠ [S] := by
      intro heq
      rw [heq] at h
      exact h.2 rfl
    rw [dif_pos h, List.map_cons, List.map_singleton, line_others h.2, line_setOnly h.1]
    exact addTo_split hok (line_setspecified h.1) (line_cmds h.2) (ho hne)
  · rw [dif_neg h]
    rfl

theorem load_parts (ts : List SelectLine) (hasht : Str → Gvn) (hok : ∀ g, GvnOk (hasht g))
    (ho : ∀ t ∈ ts, t.cmds ≠ [S] →
      Options t.line.options ((hasht t.line.gvn).xecute t.line.xecute))
    (hts : ts.Pairwise Selected) :
    ((ts.flatMap SelectLine.parts).map SelectLine.line).foldl addTo hasht =
      (ts.map SelectLine.line).foldl addTo hasht := by
  induction ts generalizing hasht with
  | nil => rfl
  | cons t ts ih =>
    obtain ⟨hfirst, hts⟩ := List.pairwise_cons.mp hts
    obtain ⟨hot, ho⟩ := List.forall_mem_cons.mp ho
    rw [List.flatMap_cons, List.map_append, List.foldl_append, load_line hok hot, List.map_cons,
      List.foldl_cons]
    refine ih _ (addTo_ok (parse_ok _) hok) (fun u hu hne => ?_) hts
    refine addTo_options hok (ho u hu hne) fun hg hx => ?_
    rw [line_gvn, line_gvn] at hg
    rw [line_options, line_options]
    exact congrArg _ ((hfirst u hu hg (line_xecute hx)).resolve_left hne)

theorem load_select (ts : List SelectLine) : ∃ σ,
    gentrigload (ts.map fun t => t.toTrigLine.text) = some σ ∧
      σ.hasht = (ts.map SelectLine.line).foldl addTo initial.hasht := by
  have hadd : ∀ line ∈ ts.map fun t => t.toTrigLine.text, (parse line).add = true := by
    intro line hline
    obtain ⟨t, -, rfl⟩ := List.mem_map.mp hline
    rw [parse_text]
    exact t.added
  obtain ⟨σ, hσ, hhasht⟩ := loop_adds _ hadd 1 initial
  refine ⟨σ, hσ, hhasht.trans ?_⟩
  rw [List.map_map]
  rfl

/-- The lines written have the SET and the other commands of each line apart, and they load as the
lines read do. -/
theorem trigsplit_preserves (s : Select) :
    trigsplit (s.lines.map SelectLine.text) =
        (s.lines.flatMap SelectLine.parts).map SelectLine.text ∧
      (∀ t ∈ s.lines, Apart t t.parts) ∧
      ∃ σ σ', gentrigload (s.lines.map fun t => t.toTrigLine.text) = some σ ∧
        gentrigload ((s.lines.flatMap SelectLine.parts).map fun t => t.toTrigLine.text) = some σ' ∧
        σ'.hasht = σ.hasht := by
  refine ⟨?_, fun t _ => parts_apart t, ?_⟩
  · rw [trigsplit, List.flatMap_map, List.map_flatMap]
    exact List.flatMap_congr fun t _ => splitLine_text t
  · obtain ⟨σ, hσ, hhasht⟩ := load_select s.lines
    obtain ⟨σ', hσ', hhasht'⟩ := load_select (s.lines.flatMap SelectLine.parts)
    refine ⟨σ, σ', hσ, hσ', ?_⟩
    rw [hhasht, hhasht']
    refine load_parts s.lines initial.hasht (fun _ => gvnOk_none) (fun t _ _ => ?_) s.order
    exact Options.none

end YdbTest.TrigSplit
