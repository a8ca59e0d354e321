import YdbTest.Draw
import YdbTest.TrigSplit

namespace YdbTest.RandomTriggers

open MString TriggerLoad TrigSplit Draw Separated

/-- `oper` and `gbl`, which differ from run to run. -/
structure Choices where
  oper : List Str
  gbl : List Str

/-- The choices where the two loops of `init` end at `j` and `g`. -/
def choices (j g : Nat) : Choices :=
  ⟨List.replicate (j + 1) (lit "+") ++ [lit "-"],
    (List.range (g + 1)).map fun i => lit "^" ++ [97 + i]⟩

def init : Draw Choices := do
  let j ← random 10
  let g ← random 6
  return choices j g

def cmd : List Str := [S, K, ZK, ZTR]

def delim : List Str := [lit " -delim=\";\"", lit " -delim=\":\""]

def piece : List Str := [[], lit " -pieces=1:20", lit " -pieces=2:20"]

def xecute : List Str :=
  [lit "do ^twork(66)", lit "do ^twork(121266)", lit "do ^twork(121269)", lit "do ^twork(34303)",
    lit "do ^twork(34306)", lit "do ^twork(403111)", lit "do ^twork(403161)"]

def options : List Str :=
  [[], lit " -options=C", lit " -options=NOC", lit " -options=I", lit " -options=I,C",
    lit " -options=I,NOC", lit " -options=NOI", lit " -options=NOI,C", lit " -options=NOI,NOC"]

def pickpiecedelim : Draw Str := do
  let str1 ← choose piece
  if str1 = [] then return str1
  let str2 ← choose delim
  return str1 ++ str2

/-- `if cmd(i)="S" set str1=$$pickpiecedelim` -/
def setStr1 (c str1 : Str) : Draw Str := if c = S then pickpiecedelim else pure str1

/-- The inner loop of `pickcmd`, over the commands that are left. -/
def picks (str str1 : Str) : List Str → Draw (Str × Str)
  | [] => return (str, str1)
  | c :: cs => do
    let n ← random 2
    if n = 0 then picks str str1 cs
    else do
      let str1 ← setStr1 c str1
      picks (if str = [] then str ++ c else str ++ (lit "," ++ c)) str1 cs

def round : Draw (Option Str) := do
  let p ← picks [] [] cmd
  return if p.1 = [] then none else some (p.1 ++ p.2)

theorem uses_round : round.Uses := Uses.bind (m := picks [] [] cmd) uses_random.bind

def pickcmd : Draw Str := round.untilSome uses_round

def pickoptions (optpicked : Option Nat) : Draw Nat := optpicked.elim (random options.length) pure

def line (c : Choices) (optpicked : Option Nat) : Draw (Str × Nat) := do
  let oper ← choose c.oper
  let gbl ← choose c.gbl
  let cmds ← pickcmd
  let x ← choose xecute
  let n ← pickoptions optpicked
  let o ← ofOption options[n]?
  return (oper ++ gbl ++ lit " -commands=" ++ cmds ++ lit " -xecute=" ++
    (lit "\"" ++ x ++ lit "\"") ++ o, n)

def linesFrom (c : Choices) : Nat → Option Nat → Draw (List Str)
  | 0, _ => return []
  | n + 1, optpicked => do
    let p ← line c optpicked
    let rest ← linesFrom c n (some p.2)
    return p.1 :: rest

def randomtriggers : Draw (List Str) := do
  let c ← init
  let n ← random 11
  linesFrom c (2 ^ n) none

def pieceValues : List Str := [lit "1:20", lit "2:20"]

def delimValues : List Str := [lit "\";\"", lit "\":\""]

def labels : List Str :=
  [lit "66", lit "121266", lit "121269", lit "34303", lit "34306", lit "403111", lit "403161"]

def optionLists : List (List Str) :=
  [[], [lit "C"], [lit "NOC"], [lit "I"], [lit "I", lit "C"], [lit "I", lit "NOC"], [lit "NOI"],
    [lit "NOI", lit "C"], [lit "NOI", lit "NOC"]]

/-- A line as it can be in a file with globals up to the one numbered `g` and the options `os`. -/
structure OneOf (g : Nat) (os : List Str) (t : TrigLine) : Prop where
  gbl : ∃ i, i ≤ g ∧ t.gbl = [97 + i]
  cmds : t.cmds.Sublist cmd
  piecedelim : ∀ q ∈ t.piecedelim, S ∈ t.cmds ∧ q.1 ∈ pieceValues ∧ q.2 ∈ delimValues
  xecute : ∃ n ∈ labels, t.xecute = (lit "\"do", lit "^twork(" ++ n ++ lit ")\"")
  options : t.options = os

variable {c : Choices} {s str str1 w : Str} {done cs ws : List Str} {g j k n : Nat}
  {r : Str × Str} {q : Option (Str × Str)} {file : List Str}

theorem can_pickpiecedelim : pickpiecedelim.Can str ↔ str = [] ∨
    ∃ p ∈ pieceValues, ∃ d ∈ delimValues, str = lit " -pieces=" ++ p ++ (lit " -delim=" ++ d) := by
  have hpiece : piece = [] :: pieceValues.map (lit " -pieces=" ++ ·) := rfl
  have hdelim : delim = delimValues.map (lit " -delim=" ++ ·) := rfl
  have hne (p : Str) : lit " -pieces=" ++ p ≠ [] := List.cons_ne_nil _ _
  rw [pickpiecedelim, can_bind]
  constructor
  · rintro ⟨str1, hstr1, h⟩
    rw [can_choose, hpiece, List.mem_cons, List.mem_map] at hstr1
    obtain rfl | ⟨p, hp, rfl⟩ := hstr1
    · rw [if_pos rfl, can_pure] at h
      exact Or.inl h
    · rw [if_neg (hne p), can_bind] at h
      obtain ⟨str2, hstr2, h⟩ := h
      rw [can_choose, hdelim, List.mem_map] at hstr2
      obtain ⟨d, hd, rfl⟩ := hstr2
      exact Or.inr ⟨p, hp, d, hd, can_pure.mp h⟩
  · rintro (rfl | ⟨p, hp, d, hd, rfl⟩)
    · refine ⟨[], can_choose.mpr (hpiece ▸ List.mem_cons_self), ?_⟩
      rw [if_pos rfl, can_pure]
    · refine ⟨lit " -pieces=" ++ p, can_choose.mpr ?_, ?_⟩
      · rw [hpiece]
        exact List.mem_cons_of_mem _ (List.mem_map_of_mem hp)
      · rw [if_neg (hne p), can_bind]
        refine ⟨lit " -delim=" ++ d, can_choose.mpr ?_, can_pure.mpr rfl⟩
        rw [hdelim]
        exact List.mem_map_of_mem hd

theorem intercalate_concat (hw : ∀ u ∈ done, u ≠ []) :
    (if [44].intercalate done = [] then [44].intercalate done ++ w
      else [44].intercalate done ++ (lit "," ++ w)) = [44].intercalate (done ++ [w]) := by
  cases done with
  | nil => simp
  | cons u us =>
    have hne : u ++ after 44 us ≠ [] :=
      List.append_ne_nil_of_left_ne_nil (hw u List.mem_cons_self) _
    rw [intercalate_cons, if_neg hne, List.cons_append, intercalate_cons, after, after,
      List.flatMap_append, List.flatMap_singleton, List.append_assoc]
    rfl

theorem can_picks (done : List Str) (hcs : cs.Nodup) (hwords : ∀ u ∈ done ++ cs, u ≠ []) :
    (picks ([44].intercalate done) str1 cs).Can r ↔ ∃ ws, ws.Sublist cs ∧
      r.1 = [44].intercalate (done ++ ws) ∧
      if S ∈ ws then pickpiecedelim.Can r.2 else r.2 = str1 := by
  induction cs generalizing done str1 with
  | nil =>
    simp only [picks, can_pure, List.sublist_nil, exists_eq_left, List.append_nil,
      List.not_mem_nil, if_false]
    exact ⟨fun h => by rw [h]; exact ⟨rfl, rfl⟩, fun ⟨h1, h2⟩ => Prod.ext h1 h2⟩
  | cons c cs ih =>
    obtain ⟨hc, hnodup⟩ := List.nodup_cons.mp hcs
    have hdone : ∀ u ∈ done, u ≠ [] := fun u hu => hwords u (List.mem_append_left _ hu)
    have hmore : ∀ u ∈ (done ++ [c]) ++ cs, u ≠ [] := by
      rwa [List.append_assoc]
    have hless : ∀ u ∈ done ++ cs, u ≠ [] := fun u hu =>
      hwords u ((List.mem_append.mp hu).elim (List.mem_append_left _)
        fun h => List.mem_append_right _ (List.mem_cons_of_mem _ h))
    rw [picks, can_bind]
    constructor
    · rintro ⟨n, -, h⟩
      by_cases hn : n = 0
      · rw [if_pos hn] at h
        obtain ⟨ws, hws, hr⟩ := (ih _ hnodup hless).mp h
        exact ⟨ws, hws.cons c, hr⟩
      · rw [if_neg hn, can_bind] at h
        obtain ⟨s, hs, h⟩ := h
        rw [intercalate_concat hdone] at h
        obtain ⟨ws, hws, hr1, hr2⟩ := (ih _ hnodup hmore).mp h
        rw [List.append_assoc] at hr1
        refine ⟨c :: ws, hws.cons_cons c, hr1, ?_⟩
        by_cases hS : c = S
        · subst hS
          rw [setStr1, if_pos rfl] at hs
          rw [if_neg fun hmem => hc (hws.subset hmem)] at hr2
          rw [if_pos List.mem_cons_self, hr2]
          exact hs
        · rw [setStr1, if_neg hS, can_pure] at hs
          rw [hs] at hr2
          rwa [if_congr (List.mem_cons.trans (or_iff_right (Ne.symm hS))) rfl rfl]
    · rintro ⟨ws, hws, hr1, hr2⟩
      obtain hsub | ⟨ws, rfl, hsub⟩ := List.sublist_cons_iff.mp hws
      · refine ⟨0, can_random.mpr Nat.two_pos, ?_⟩
        rw [if_pos rfl]
        exact (ih _ hnodup hless).mpr ⟨ws, hsub, hr1, hr2⟩
      · refine ⟨1, can_random.mpr Nat.one_lt_two, ?_⟩
        rw [if_neg Nat.one_ne_zero, can_bind, intercalate_concat hdone]
        have hr1' : r.1 = [44].intercalate ((done ++ [c]) ++ ws) := by
          rw [hr1, List.append_assoc]
          rfl
        by_cases hS : c = S
        · subst hS
          rw [if_pos List.mem_cons_self] at hr2
          refine ⟨r.2, by rwa [setStr1, if_pos rfl], (ih _ hnodup hmore).mpr ⟨ws, hsub, hr1', ?_⟩⟩
          rw [if_neg fun hmem => hc (hsub.subset hmem)]
        · rw [if_congr (List.mem_cons.trans (or_iff_right (Ne.symm hS))) rfl rfl] at hr2
          exact ⟨str1, by rw [setStr1, if_neg hS, can_pure],
            (ih _ hnodup hmore).mpr ⟨ws, hsub, hr1', hr2⟩⟩

def piecedelimText (q : Option (Str × Str)) : Str :=
  q.elim [] fun p => lit " -pieces=" ++ p.1 ++ (lit " -delim=" ++ p.2)

theorem can_pickcmd : pickcmd.Can str ↔ ∃ ws q, ws ≠ [] ∧ ws.Sublist cmd ∧
    (∀ p ∈ q, S ∈ ws ∧ p.1 ∈ pieceValues ∧ p.2 ∈ delimValues) ∧
    str = [44].intercalate ws ++ piecedelimText q := by
  have hcmd : ∀ u ∈ [] ++ cmd, u ≠ [] := by decide
  have hpicks (r : Str × Str) : (picks [] [] cmd).Can r ↔ ∃ ws, ws.Sublist cmd ∧
      r.1 = [44].intercalate ws ∧ if S ∈ ws then pickpiecedelim.Can r.2 else r.2 = [] :=
    can_picks [] (by decide) hcmd
  have hempty (ws : List Str) (hws : ws.Sublist cmd) : [44].intercalate ws = [] ↔ ws = [] := by
    cases ws with
    | nil => exact iff_of_true rfl rfl
    | cons w ws =>
      rw [intercalate_cons]
      exact iff_of_false (List.append_ne_nil_of_left_ne_nil
        (hcmd w (hws.subset List.mem_cons_self)) _) (List.cons_ne_nil _ _)
  rw [pickcmd, can_untilSome, round, can_bind]
  constructor
  · rintro ⟨⟨s, s1⟩, hpicked, hsome⟩
    obtain ⟨ws, hws, rfl, hs1⟩ := (hpicks _).mp hpicked
    have hne : ws ≠ [] := by
      rintro rfl
      exact absurd (can_pure.mp hsome) (Option.some_ne_none _)
    rw [if_neg fun h => hne ((hempty ws hws).mp h), can_pure, Option.some.injEq] at hsome
    by_cases hS : S ∈ ws
    · rw [if_pos hS, can_pickpiecedelim] at hs1
      obtain rfl | ⟨p, hp, d, hd, rfl⟩ := hs1
      · exact ⟨ws, none, hne, hws, fun p hp => absurd hp (Option.not_mem_none p), hsome⟩
      · refine ⟨ws, some (p, d), hne, hws, fun x hx => ?_, hsome⟩
        rw [← Option.some.inj hx]
        exact ⟨hS, hp, hd⟩
    · rw [if_neg hS] at hs1
      rw [hs1] at hsome
      exact ⟨ws, none, hne, hws, fun p hp => absurd hp (Option.not_mem_none p), hsome⟩
  · rintro ⟨ws, q, hne, hws, hq, rfl⟩
    refine ⟨([44].intercalate ws, piecedelimText q), (hpicks _).mpr ⟨ws, hws, rfl, ?_⟩, ?_⟩
    · cases q with
      | none =>
        by_cases hS : S ∈ ws
        · rw [if_pos hS]
          exact can_pickpiecedelim.mpr (Or.inl rfl)
        · rw [if_neg hS]
          rfl
      | some p =>
        obtain ⟨hS, hp, hd⟩ := hq p rfl
        rw [if_pos hS]
        exact can_pickpiecedelim.mpr (Or.inr ⟨p.1, hp, p.2, hd, rfl⟩)
    · rw [if_neg fun h => hne ((hempty ws hws).mp h), can_pure]

theorem xecute_text (n : Str) : lit "\"" ++ (lit "do ^twork(" ++ n ++ lit ")") ++ lit "\"" =
    lit "\"do" ++ space :: (lit "^twork(" ++ n ++ lit ")\"") := by
  rw [List.append_assoc, List.append_assoc, List.append_assoc]
  rfl

def optionText (os : List Str) : Str :=
  if os = [] then [] else lit " -options=" ++ [44].intercalate os

theorem exists_oneOf {i : Nat} {os : List Str} {n : Str} (add : Bool) (hi : i ≤ g) (hne : ws ≠ [])
    (hws : ws.Sublist cmd) (hq : ∀ p ∈ q, S ∈ ws ∧ p.1 ∈ pieceValues ∧ p.2 ∈ delimValues)
    (hn : n ∈ labels) (hos : os ∈ optionLists) : ∃ t : TrigLine, OneOf g os t ∧
      t.text = (if add then lit "+" else lit "-") ++ (lit "^" ++ [97 + i]) ++ lit " -commands=" ++
        ([44].intercalate ws ++ piecedelimText q) ++ lit " -xecute=" ++
        (lit "\"do" ++ space :: (lit "^twork(" ++ n ++ lit ")\"")) ++ optionText os := by
  have hcmds : ∀ c ∈ cmd, space ∉ c ∧ 44 ∉ c ∧ 45 ∉ c ∧ c ≠ [] := by decide
  have hpieces : ∀ p ∈ pieceValues, space ∉ p := by decide
  have hdelims : ∀ d ∈ delimValues, space ∉ d := by decide
  have hlabels : ∀ n ∈ labels, space ∉ lit "^twork(" ++ n ++ lit ")\"" := by decide
  have hoptions : ∀ os ∈ optionLists, ∀ o ∈ os, space ∉ o ∧ 44 ∉ o ∧ 45 ∉ o ∧ o ≠ [] := by decide
  have hdo : space ∉ lit "\"do" := by decide
  have hspace : space = 32 := rfl
  refine ⟨⟨add, [97 + i], ws, q, (lit "\"do", lit "^twork(" ++ n ++ lit ")\""), os, ⟨?_, ?_⟩, hne,
    fun c hc => hcmds c (hws.subset hc), fun p hp => ?_, ⟨hdo, hlabels n hn⟩,
    hoptions os hos⟩, ⟨⟨i, hi, rfl⟩, hws, hq, ⟨n, hn, rfl⟩, rfl⟩, ?_⟩
  · rw [List.mem_singleton]
    omega
  · exact Nat.succ_le_succ (Nat.zero_le _)
  · obtain ⟨-, h1, h2⟩ := hq p hp
    exact ⟨hpieces _ h1, hdelims _ h2⟩
  · cases q <;> rfl

theorem can_line {o : Option Nat} : (line (choices j g) o).Can (str, k) ↔ (pickoptions o).Can k ∧
    ∃ os, optionLists[k]? = some os ∧ ∃ t, OneOf g os t ∧ str = t.text := by
  have hoper (u : Str) :
      u ∈ (choices j g).oper ↔ ∃ add : Bool, u = if add then lit "+" else lit "-" := by
    simp [choices, or_comm]
  have hgbl (u : Str) : u ∈ (choices j g).gbl ↔ ∃ i, i ≤ g ∧ u = lit "^" ++ [97 + i] := by
    simp only [choices, List.mem_map, List.mem_range, Nat.lt_succ_iff, eq_comm]
  have hxecute (u : Str) : u ∈ xecute ↔ ∃ n ∈ labels, u = lit "do ^twork(" ++ n ++ lit ")" := by
    have : xecute = labels.map fun n => lit "do ^twork(" ++ n ++ lit ")" := rfl
    simp only [this, List.mem_map, eq_comm]
  have hopt (m : Nat) : options[m]? = optionLists[m]?.map optionText := by
    have : options = optionLists.map optionText := rfl
    rw [this, List.getElem?_map]
  simp only [line, can_bind, can_choose, hoper, hgbl, hxecute, can_pickcmd, can_ofOption, hopt,
    can_pure, Prod.mk.injEq, Option.map_eq_some_iff]
  constructor
  · rintro ⟨_, ⟨add, rfl⟩, _, ⟨i, hi, rfl⟩, _, ⟨ws, q, hne, hws, hq, rfl⟩, _, ⟨n, hn, rfl⟩, m, hm,
      _, ⟨os, hos, rfl⟩, rfl, rfl⟩
    obtain ⟨t, ht, htext⟩ := exists_oneOf add hi hne hws hq hn (List.mem_of_getElem? hos)
    exact ⟨hm, os, hos, t, ht, by rw [htext, xecute_text]⟩
  · rintro ⟨hk, os, hos, t, ht, rfl⟩
    obtain ⟨i, hi, hgi⟩ := ht.gbl
    obtain ⟨n, hn, hx⟩ := ht.xecute
    refine ⟨_, ⟨t.add, rfl⟩, _, ⟨i, hi, rfl⟩, _, ⟨t.cmds, t.piecedelim, t.cmds_ne, ht.cmds,
      ht.piecedelim, rfl⟩, _, ⟨n, hn, rfl⟩, k, hk, _, ⟨os, hos, rfl⟩, ?_, rfl⟩
    rw [xecute_text, TrigLine.text, hgi, hx, TrigLine.pickpiecedelim, TrigLine.pickoptions,
      ht.options]
    cases t.piecedelim <;> rfl

theorem can_linesFrom {m k : Nat} : (linesFrom (choices j g) m (some k)).Can file ↔
    ∃ ts : List TrigLine, ts.length = m ∧ file = ts.map TrigLine.text ∧
      ∀ t ∈ ts, ∃ os, optionLists[k]? = some os ∧ OneOf g os t := by
  induction m generalizing file with
  | zero =>
    rw [linesFrom, can_pure]
    constructor
    · rintro rfl
      exact ⟨[], rfl, rfl, fun t ht => absurd ht List.not_mem_nil⟩
    · rintro ⟨ts, hlen, rfl, -⟩
      rw [List.length_eq_zero_iff.mp hlen]
      rfl
  | succ m ih =>
    rw [linesFrom, can_bind]
    constructor
    · rintro ⟨⟨str, k'⟩, hline, hrest⟩
      obtain ⟨hk, os, hos, t, ht, rfl⟩ := can_line.mp hline
      obtain rfl := can_pure.mp hk
      obtain ⟨rest, hrest, hfile⟩ := can_bind.mp hrest
      obtain ⟨ts, hlen, rfl, hts⟩ := ih.mp hrest
      exact ⟨t :: ts, congrArg Nat.succ hlen, can_pure.mp hfile,
        List.forall_mem_cons.mpr ⟨⟨os, hos, ht⟩, hts⟩⟩
    · rintro ⟨ts, hlen, rfl, hts⟩
      cases ts with
      | nil => cases hlen
      | cons t ts =>
        obtain ⟨⟨os, hos, ht⟩, hrest⟩ := List.forall_mem_cons.mp hts
        refine ⟨(t.text, k), can_line.mpr ⟨can_pure.mpr rfl, os, hos, t, ht, rfl⟩,
          can_bind.mpr ⟨_, ih.mpr ⟨ts, Nat.succ.inj hlen, rfl, hrest⟩, can_pure.mpr rfl⟩⟩

theorem exists_lines (h : randomtriggers.Can file) :
    ∃ g n, g ≤ 5 ∧ n ≤ 10 ∧ ∃ os ∈ optionLists, ∃ ts : List TrigLine, ts.length = 2 ^ n ∧
      (∀ t ∈ ts, OneOf g os t) ∧ file = ts.map TrigLine.text := by
  simp only [randomtriggers, init, can_bind, can_random, can_pure] at h
  obtain ⟨_, ⟨j, hj, g, hg, rfl⟩, n, hn, hlines⟩ := h
  obtain ⟨m, hm⟩ : ∃ m, 2 ^ n = m + 1 := ⟨2 ^ n - 1, (Nat.sub_add_cancel Nat.one_le_two_pow).symm⟩
  rw [hm, linesFrom, can_bind] at hlines
  obtain ⟨⟨str, k⟩, hline, hrest⟩ := hlines
  obtain ⟨-, os, hos, t, ht, rfl⟩ := can_line.mp hline
  obtain ⟨rest, hrest, hfile⟩ := can_bind.mp hrest
  obtain ⟨ts, hlen, rfl, hts⟩ := can_linesFrom.mp hrest
  refine ⟨g, n, Nat.le_of_lt_succ hg, Nat.le_of_lt_succ hn, os, List.mem_of_getElem? hos, t :: ts,
    (congrArg Nat.succ hlen).trans hm.symm, List.forall_mem_cons.mpr ⟨ht, fun u hu => ?_⟩,
    can_pure.mp hfile⟩
  obtain ⟨os', hos', hu⟩ := hts u hu
  rwa [Option.some.inj (hos.symm.trans hos')]

theorem can_lines {os : List Str} {ts : List TrigLine} (hg : g ≤ 5) (hn : n ≤ 10)
    (hos : os ∈ optionLists) (hlen : ts.length = 2 ^ n) (hts : ∀ t ∈ ts, OneOf g os t) :
    randomtriggers.Can (ts.map TrigLine.text) := by
  simp only [randomtriggers, init, can_bind, can_random, can_pure]
  refine ⟨choices 0 g, ⟨0, Nat.succ_pos 9, g, Nat.lt_succ_of_le hg, rfl⟩, n,
    Nat.lt_succ_of_le hn, ?_⟩
  obtain ⟨k, hk⟩ := List.mem_iff_getElem?.mp hos
  have hklt : k < options.length := (List.getElem?_eq_some_iff.mp hk).1
  cases ts with
  | nil => exact absurd hlen (Nat.two_pow_pos n).ne
  | cons t ts =>
    obtain ⟨ht, hrest⟩ := List.forall_mem_cons.mp hts
    rw [← hlen, List.length_cons, linesFrom, can_bind]
    refine ⟨(t.text, k), can_line.mpr ⟨can_random.mpr hklt, os, hk, t, ht, rfl⟩, can_bind.mpr
      ⟨_, can_linesFrom.mpr ⟨ts, rfl, rfl, fun u hu => ⟨os, hk, hrest u hu⟩⟩, can_pure.mpr rfl⟩⟩

/-- The files that can be written, whatever numbers are drawn: 1 to 1024 lines, all with the same
options. -/
theorem randomtriggers_iff (file : List Str) : randomtriggers.Can file ↔
    ∃ g n, g ≤ 5 ∧ n ≤ 10 ∧ ∃ os ∈ optionLists, ∃ ts : List TrigLine, ts.length = 2 ^ n ∧
      (∀ t ∈ ts, OneOf g os t) ∧ file = ts.map TrigLine.text := by
  constructor
  · exact exists_lines
  · rintro ⟨g, n, hg, hn, os, hos, ts, hlen, hts, rfl⟩
    exact can_lines hg hn hos hlen hts

end YdbTest.RandomTriggers
