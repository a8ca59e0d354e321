import YdbTest.Decimal
import YdbTest.OrderLoop
import YdbTest.TrigSplit
import YdbTest.TriggerLeaves
import Mathlib.Data.List.Lex
import Mathlib.Order.Lattice

namespace YdbTest.TriggerSelect

open MString TriggerLoad TrigSplit OrderWalk Separated

/-- A trigger with its subscripts in `hasht`. -/
structure Entry where
  gvn : Str
  xecute : Str
  index : Nat
  trig : Trig

def commands : List Str := [S, K, ZK, ZTK, ZTR]

def optionWords : List Str := [lit "I", lit "NOI", lit "C", lit "NOC"]

def joined (ws : List Str) (s : Finset Str) : Str := [comma].intercalate (ws.filter (· ∈ s))

/-- `if (""'=s) write " ",s` -/
def word (s : Str) : Str := if s = [] then [] else space :: s

def optionsOf (t : Trig) : Str :=
  if t.options.Nonempty then lit " -options=" ++ joined optionWords t.options else []

def line (gvn xecute : Str) (t : Trig) : Str :=
  lit "+^" ++ gvn ++ lit " -commands=" ++ joined commands t.cmds ++ optionsOf t ++
    word (t.delim.getD []) ++ word (t.pieces.getD []) ++ space :: xecute

def nameLine (region : Str → Str) (σ : State) (e : Entry) : Str :=
  lit ";trigger name: " ++ e.gvn ++ lit "#" ++ dec e.index ++ lit " (region " ++ region e.gvn ++
    lit ")  cycle: " ++ dec (σ.cycle e.gvn)

/-- `$order` over subscripts that are no numbers. -/
def subscripts (ks : List Str) : List Str := walk lower ks ks.length none

/-- The subscripts of `hasht` come from the lines that were loaded. -/
def entries (linein : List Str) (σ : State) : List Entry :=
  (subscripts (linein.map fun line => (parse line).gvn)).flatMap fun y =>
    (subscripts (linein.map fun line => (parse line).xecute)).flatMap fun x =>
      ((σ.hasht y).xecute x).index.toList.map fun q => ⟨y, x, q.1, q.2⟩

/-- The select file, where `region` is what `$view` says. -/
def selectout (region : Str → Str) (linein : List Str) (σ : State) : List Str :=
  (entries linein σ).flatMap fun e => [nameLine region σ e, line e.gvn e.xecute e.trig]

/-- `grep -v '^;trigger name'` -/
def grepV (out : List Str) : List Str := out.filter fun s => !decide (lit ";trigger name" <+: s)

/-- A line of the select file with its parts in the order in which `gentrigload` takes them. -/
def reloaded (e : Entry) : Str :=
  lit "+^" ++ e.gvn ++ lit " -commands=" ++ joined commands e.trig.cmds ++
    word (e.trig.pieces.getD []) ++ word (e.trig.delim.getD []) ++ space :: e.xecute ++
    optionsOf e.trig

structure KeyOk (y x : Str) : Prop where
  gvn : space ∉ y ∧ y.length ≤ 31
  hyphen : hyphen ∉ y
  xecute : ∃ w : Str × Str, x = lit "-xecute=" ++ (w.1 ++ space :: w.2) ∧
    (space ∉ w.1 ∧ space ∉ w.2) ∧ TrigSplit.hyphen ∉ w.1 ∧ TrigSplit.hyphen ∉ w.2

def PieceDelim (d p : Str) : Prop := d = [] ∧ p = [] ∨ ∃ q : Str × Str,
  (d = lit "-delim=" ++ q.2 ∧ p = lit "-pieces=" ++ q.1) ∧ (space ∉ q.1 ∧ space ∉ q.2) ∧
    hyphen ∉ q.1 ∧ hyphen ∉ q.2

structure Form (t : Trig) : Prop where
  cmds : t.cmds ⊆ commands.toFinset
  pieceDelim : ∀ d ∈ t.delim, ∀ p ∈ t.pieces, PieceDelim d p

/-- A trigger with these options as `randomtriggers` makes them. -/
structure Written (options : Finset Str) (y x : Str) (t : Trig) : Prop where
  key : KeyOk y x
  form : Form t
  options : t.options = options

structure Renders (s : SelectLine) (y x : Str) (t : Trig) : Prop where
  gbl : s.gbl = y
  xecute : lit "-xecute=" ++ (s.xecute.1 ++ space :: s.xecute.2) = x
  cmds : s.cmds = commands.filter (· ∈ t.cmds)
  options : s.options = optionWords.filter (· ∈ t.options)
  within : t.options ⊆ optionWords.toFinset
  delim : t.delim.getD [] = s.piecedelim.elim [] fun q => lit "-delim=" ++ q.2
  pieces : t.pieces.getD [] = s.piecedelim.elim [] fun q => lit "-pieces=" ++ q.1

variable {s : SelectLine} {x y d p : Str} {t u : Trig} {options : Finset Str} {e : Entry} {i : Nat}

theorem filter_eq_nil {ws : List Str} {c : Finset Str} (h : c ⊆ ws.toFinset) :
    ws.filter (· ∈ c) = [] ↔ ¬ c.Nonempty := by
  rw [List.filter_eq_nil_iff, Finset.not_nonempty_iff_eq_empty, Finset.eq_empty_iff_forall_notMem]
  constructor
  · exact fun hnone w hw => hnone w (List.mem_toFinset.mp (h hw)) (decide_eq_true hw)
  · exact fun hnone w _ hw => hnone w (of_decide_eq_true hw)

theorem toFinset_filter {ws : List Str} {c : Finset Str} (h : c ⊆ ws.toFinset) :
    (ws.filter (· ∈ c)).toFinset = c := by
  ext w
  rw [List.mem_toFinset, List.mem_filter, decide_eq_true_iff]
  exact and_iff_right_of_imp fun hw => List.mem_toFinset.mp (h hw)

namespace Renders

variable (h : Renders s y x t)

include h

theorem optionsOf_eq :
    optionsOf t =
      if s.options = [] then [] else lit " -options=" ++ [comma].intercalate s.options := by
  rw [optionsOf, joined, h.options]
  by_cases hnone : t.options.Nonempty
  · rw [if_pos hnone, if_neg fun hnil => (filter_eq_nil h.within).mp hnil hnone]
  · rw [if_neg hnone, if_pos ((filter_eq_nil h.within).mpr hnone)]

theorem word_delim :
    word (t.delim.getD []) = s.piecedelim.elim [] fun q => lit " -delim=" ++ q.2 := by
  rw [word, h.delim]
  cases s.piecedelim with
  | none => rfl
  | some q => exact if_neg (List.cons_ne_nil _ _)

theorem word_pieces :
    word (t.pieces.getD []) = s.piecedelim.elim [] fun q => lit " -pieces=" ++ q.1 := by
  rw [word, h.pieces]
  cases s.piecedelim with
  | none => rfl
  | some q => exact if_neg (List.cons_ne_nil _ _)

theorem text : s.text = line y x t := by
  have hdelim : lit " -delim=" = space :: lit "-delim=" := rfl
  have hpieces : lit " -pieces=" = space :: lit "-pieces=" := rfl
  have hoptions : lit " -options=" = space :: lit "-options=" := rfl
  rw [line, h.optionsOf_eq, h.word_delim, h.word_pieces, joined, ← h.cmds, ← h.gbl, ← h.xecute,
    SelectLine.text, SelectLine.words]
  cases s.piecedelim with
  | none =>
    by_cases ho : s.options = []
    · simp [ho, after]
    · simp [ho, after, hoptions]
  | some q =>
    by_cases ho : s.options = []
    · simp [ho, after, hdelim, hpieces]
    · simp [ho, after, hdelim, hpieces, hoptions]

theorem load_text (i : Nat) : s.toTrigLine.text = reloaded ⟨y, x, i, t⟩ := by
  have hxecute : lit " -xecute=" = space :: lit "-xecute=" := rfl
  rw [reloaded, h.optionsOf_eq, h.word_delim, h.word_pieces, joined, ← h.cmds, ← h.gbl,
    ← h.xecute, TrigLine.text, TrigLine.pickpiecedelim, TrigLine.pickoptions, s.added]
  have hadd : (if true = true then lit "+" else lit "-") ++ (lit "^" ++ s.gbl) =
      lit "+^" ++ s.gbl := rfl
  rw [hadd]
  cases s.piecedelim with
  | none => simp [hxecute, comma]
  | some q => simp [hxecute, comma]

end Renders

theorem exists_carried (ht : TrigOk t) (hS : S ∈ t.cmds) :
    ∃ d p, t.delim = some d ∧ t.pieces = some p := by
  obtain ⟨hd, hp⟩ := ht.carries hS
  obtain ⟨d, hd⟩ := Option.isSome_iff_exists.mp hd
  obtain ⟨p, hp⟩ := Option.isSome_iff_exists.mp hp
  exact ⟨d, p, hd, hp⟩

theorem exists_renders (h : Written options y x t) (ht : TrigOk t)
    (ho : options ⊆ optionWords.toFinset) : ∃ s, Renders s y x t := by
  obtain ⟨hgvn, hhyphen, w, hx, hspace, hw⟩ := h.key
  have hwithin : t.options ⊆ optionWords.toFinset := h.options ▸ ho
  have hwords {ws : List Str} {c : Finset Str}
      (hall : ∀ w ∈ ws, space ∉ w ∧ 44 ∉ w ∧ 45 ∉ w ∧ w ≠ []) :
      ∀ w ∈ ws.filter (· ∈ c), space ∉ w ∧ 44 ∉ w ∧ 45 ∉ w ∧ w ≠ [] :=
    fun w hw => hall w (List.mem_filter.mp hw).1
  have hne : commands.filter (· ∈ t.cmds) ≠ [] := fun hnil =>
    (filter_eq_nil h.form.cmds).mp hnil ht.commands
  obtain ⟨q, hq, hS, hdelim, hpieces⟩ : ∃ q : Option (Str × Str),
      (∀ r ∈ q, (space ∉ r.1 ∧ space ∉ r.2) ∧ hyphen ∉ r.1 ∧ hyphen ∉ r.2) ∧
      (q ≠ none → S ∈ t.cmds) ∧
      t.delim.getD [] = (q.elim [] fun q => lit "-delim=" ++ q.2) ∧
      t.pieces.getD [] = q.elim [] fun q => lit "-pieces=" ++ q.1 := by
    by_cases hS : S ∈ t.cmds
    · obtain ⟨d, p, hd, hp⟩ := exists_carried ht hS
      rw [hd, hp]
      obtain ⟨rfl, rfl⟩ | ⟨q, ⟨rfl, rfl⟩, hq⟩ := h.form.pieceDelim d hd p hp
      · exact ⟨none, fun r hr => (by cases hr), fun _ => hS, rfl, rfl⟩
      · exact ⟨some q, fun r hr => Option.some.inj hr ▸ hq, fun _ => hS, rfl, rfl⟩
    · obtain ⟨hd, hp⟩ := ht.plain hS
      rw [hd, hp]
      exact ⟨none, fun r hr => (by cases hr), fun hn => absurd rfl hn, rfl, rfl⟩
  refine ⟨{
    add := true
    gbl := y
    cmds := commands.filter (· ∈ t.cmds)
    piecedelim := q
    xecute := w
    options := optionWords.filter (· ∈ t.options)
    gbl_word := hgvn
    cmds_ne := hne
    cmds_words := hwords (by decide)
    piecedelim_words := fun r hr => (hq r hr).1
    xecute_words := hspace
    options_words := hwords (by decide)
    added := rfl
    cmds_order := List.filter_sublist
    options_order := List.filter_sublist
    set_only := fun hn => List.mem_filter.mpr ⟨List.mem_cons_self, decide_eq_true (hS hn)⟩
    gbl_hyphen := hhyphen
    piecedelim_hyphen := fun r hr => (hq r hr).2
    xecute_hyphen := hw }, rfl, hx.symm, rfl, rfl, hwithin, hdelim, hpieces⟩

def keysOf (e : Entry) : List (Str × Str × Option (Str × Str)) :=
  (if (e.trig.cmds.erase S).Nonempty then [(e.gvn, e.xecute, none)] else []) ++
    if S ∈ e.trig.cmds then
      [(e.gvn, e.xecute, some (e.trig.delim.getD [], e.trig.pieces.getD []))]
    else []

def keyLine (options : Finset Str) (kills : Str → Str → Finset Str)
    (k : Str × Str × Option (Str × Str)) : Str :=
  line k.1 k.2.1 (k.2.2.elim ⟨kills k.1 k.2.1, options, none, none⟩ fun q =>
    ⟨{S}, options, some q.1, some q.2⟩)

theorem erase_filter {ws : List Str} {c : Finset Str} (hw : ws.Nodup) (w : Str) :
    (ws.filter (· ∈ c)).erase w = ws.filter (· ∈ c.erase w) := by
  rw [(hw.filter _).erase_eq_filter, List.filter_filter]
  apply List.filter_congr
  intro v _
  rw [bne, Bool.beq_eq_decide_eq, ← decide_not, ← Bool.decide_and]
  exact decide_eq_decide.mpr Finset.mem_erase.symm

theorem Renders.others (h : Renders s y x t) (hne : s.cmds.erase S ≠ []) :
    Renders (s.others hne) y x ⟨t.cmds.erase S, t.options, none, none⟩ where
  gbl := h.gbl
  xecute := h.xecute
  cmds := by
    change s.cmds.erase S = _
    rw [h.cmds]
    exact erase_filter (by decide) S
  options := h.options
  within := h.within
  delim := rfl
  pieces := rfl

theorem Renders.setOnly (h : Renders s y x t) :
    Renders s.setOnly y x ⟨{S}, t.options, t.delim, t.pieces⟩ where
  gbl := h.gbl
  xecute := h.xecute
  cmds := by
    change [S] = commands.filter (· ∈ ({S} : Finset Str))
    decide
  options := h.options
  within := h.within
  delim := h.delim
  pieces := h.pieces

theorem Renders.erase_eq_nil (h : Renders s y x t) (hc : t.cmds ⊆ commands.toFinset) :
    s.cmds.erase S = [] ↔ ¬ (t.cmds.erase S).Nonempty := by
  rw [h.cmds, erase_filter (by decide)]
  exact filter_eq_nil ((Finset.erase_subset _ _).trans hc)

theorem Renders.mem_S (h : Renders s y x t) : S ∈ s.cmds ↔ S ∈ t.cmds := by
  rw [h.cmds, List.mem_filter, decide_eq_true_iff]
  exact and_iff_right List.mem_cons_self

theorem splitLine_line {kills : Str → Str → Finset Str} (h : Written options y x t)
    (ht : TrigOk t) (ho : options ⊆ optionWords.toFinset)
    (hk : (t.cmds.erase S).Nonempty → kills y x = t.cmds.erase S) (i : Nat) :
    splitLine (line y x t) = (keysOf ⟨y, x, i, t⟩).map (keyLine options kills) := by
  obtain ⟨s, hs⟩ := exists_renders h ht ho
  have hnil := hs.erase_eq_nil h.form.cmds
  rw [← hs.text, splitLine_text, SelectLine.parts, keysOf]
  by_cases hS : S ∈ t.cmds
  · obtain ⟨d, p, hd, hp⟩ := exists_carried ht hS
    have hset : keyLine options kills (y, x, some (t.delim.getD [], t.pieces.getD [])) =
        line y x ⟨{S}, t.options, t.delim, t.pieces⟩ := by
      rw [keyLine, Option.elim_some, hd, hp, Option.getD_some, Option.getD_some, h.options]
    by_cases hc : (t.cmds.erase S).Nonempty
    · have hne : s.cmds.erase S ≠ [] := fun hn => hnil.mp hn hc
      rw [dif_pos ⟨hs.mem_S.mpr hS, hne⟩, if_pos hS, if_pos hc, List.map_cons, List.map_singleton,
        List.singleton_append, List.map_cons, List.map_singleton, hset, (hs.others hne).text,
        hs.setOnly.text, keyLine, Option.elim_none, hk hc, h.options]
    · have hall : t.cmds = {S} := by
        rw [Finset.not_nonempty_iff_eq_empty] at hc
        rw [← Finset.insert_erase hS, hc]
        rfl
      have ht' : t = ⟨{S}, t.options, t.delim, t.pieces⟩ := by
        rw [← hall]
      rw [dif_neg fun hb => hb.2 (hnil.mpr hc), if_pos hS, if_neg hc, List.nil_append,
        List.map_singleton, List.map_singleton, hset, hs.text, ← ht']
  · have herase : t.cmds.erase S = t.cmds := Finset.erase_eq_of_notMem hS
    obtain ⟨hd, hp⟩ := ht.plain hS
    have ht' : t = ⟨t.cmds, options, none, none⟩ := by
      obtain ⟨cmds, os, delim, pieces⟩ := t
      exact congr (congr (congrArg (Trig.mk cmds) h.options) hd) hp
    rw [herase] at hk
    rw [dif_neg fun hb => hS (hs.mem_S.mp hb.1), if_neg hS, herase, if_pos ht.commands,
      List.append_nil, List.map_singleton, List.map_singleton, hs.text, keyLine, Option.elim_none,
      hk ht.commands, ← ht']

variable {linein : List Str} {σ σ' : State}

theorem mem_subscripts {ks : List Str} {a : Str} : a ∈ subscripts ks ↔ a ∈ ks :=
  mem_walk_all strict_lower le_rfl

theorem subscripts_nodup (ks : List Str) : (subscripts ks).Nodup := walk_nodup strict_lower

theorem mem_entries : e ∈ entries linein σ ↔
    ((∃ line ∈ linein, (parse line).gvn = e.gvn) ∧
      ∃ line ∈ linein, (parse line).xecute = e.xecute) ∧
      ((σ.hasht e.gvn).xecute e.xecute).index[e.index]? = some e.trig := by
  simp only [entries, List.mem_flatMap, mem_subscripts, List.mem_map]
  constructor
  · rintro ⟨y, hy, x, hx, q, hq, rfl⟩
    exact ⟨⟨hy, hx⟩, Std.ExtTreeMap.mem_toList_iff_getElem?_eq_some.mp hq⟩
  · rintro ⟨⟨hy, hx⟩, hq⟩
    exact ⟨_, hy, _, hx, (e.index, e.trig),
      Std.ExtTreeMap.mem_toList_iff_getElem?_eq_some.mpr hq, rfl⟩

theorem nodup_flatMap {α β : Type*} {f : α → List β} {as : List α} (has : as.Nodup)
    (hf : ∀ a ∈ as, (f a).Nodup) (hinj : ∀ a ∈ as, ∀ b ∈ as, ∀ c ∈ f a, c ∈ f b → a = b) :
    (as.flatMap f).Nodup := by
  refine List.nodup_flatMap.mpr ⟨hf, ?_⟩
  apply List.Pairwise.imp_of_mem _ has
  intro a b ha hb hne
  exact List.disjoint_left.mpr fun c hca hcb => hne (hinj a ha b hb c hca hcb)

theorem entries_nodup (linein : List Str) (σ : State) : (entries linein σ).Nodup := by
  have htable (y x : Str) : (((σ.hasht y).xecute x).index.toList.map fun q =>
      (⟨y, x, q.1, q.2⟩ : Entry)).Nodup := by
    have hkeys := Std.ExtTreeMap.distinct_keys_toList (t := ((σ.hasht y).xecute x).index)
    apply List.Pairwise.map _ _ hkeys
    rintro a b hne heq
    exact hne (Std.LawfulEqCmp.compare_eq_iff_eq.mpr (congrArg Entry.index heq))
  apply nodup_flatMap (subscripts_nodup _)
  · intro y _
    apply nodup_flatMap (subscripts_nodup _) fun x _ => htable y x
    intro x _ x' _ c hc hc'
    obtain ⟨q, -, rfl⟩ := List.mem_map.mp hc
    obtain ⟨q', -, heq⟩ := List.mem_map.mp hc'
    exact (congrArg Entry.xecute heq).symm
  · intro y _ y' _ c hc hc'
    obtain ⟨x, -, hc⟩ := List.mem_flatMap.mp hc
    obtain ⟨x', -, hc'⟩ := List.mem_flatMap.mp hc'
    obtain ⟨q, -, rfl⟩ := List.mem_map.mp hc
    obtain ⟨q', -, heq⟩ := List.mem_map.mp hc'
    exact (congrArg Entry.gvn heq).symm

end YdbTest.TriggerSelect
