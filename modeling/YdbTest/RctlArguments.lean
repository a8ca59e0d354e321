import YdbTest.CanonicalizePath
import YdbTest.Shuffle

namespace YdbTest.RctlArguments

open Positions

abbrev Text := List Char

/-- What `parsePattern` leaves in `parse`. -/
structure Parse where
  dir : Text
  name : Text
  ext : Text

/-- `for  set pos=$find(pattern,c,last) quit:(0=pos)  set last=pos` -/
def findLast (pattern : Text) (c : Char) : Nat → Nat → Nat
  | 0, last => last
  | fuel + 1, last =>
    let pos := find pattern c last
    if pos = 0 then last else findLast pattern c fuel pos

/-- A position before the first one is taken for zero. -/
def parsePattern (pattern : Text) : Parse :=
  let slashPos := findLast pattern '/' (pattern.length + 1) 0
  let dotPos := findLast pattern '.' (pattern.length + 1) (slashPos - 1)
  let dotPos := if slashPos - 1 = dotPos then pattern.length + 2 else dotPos
  ⟨extract pattern 0 (slashPos - 1), extract pattern slashPos (dotPos - 2),
    extract pattern (dotPos - 1) pattern.length⟩

def Parse.join (p : Parse) : Text := p.dir ++ (p.name ++ p.ext)

/-- The directory goes up to the last slash, the extension begins with the last dot behind it. -/
structure Parse.Split (p : Parse) : Prop where
  dir : p.dir = [] ∨ ∃ d, p.dir = d ++ ['/']
  plain : '/' ∉ p.name ++ p.ext
  ext : p.ext = [] ∧ '.' ∉ p.name ∨ ∃ e, p.ext = '.' :: e ∧ '.' ∉ e

variable {a b s t pattern : Text} {c : Char} {fuel last : Nat} {p q : Parse}

theorem findLast_none (h : c ∉ s.drop (last - 1)) : findLast s c fuel last = last := by
  cases fuel with
  | zero => rfl
  | succ fuel => rw [findLast, find_none h, if_pos rfl]

theorem findLast_append (hb : c ∉ b) (hlast : last - 1 ≤ a.length)
    (hfuel : a.length + 1 < fuel + (last - 1)) :
    findLast (a ++ c :: b) c fuel last = a.length + 2 := by
  induction fuel generalizing last with
  | zero => omega
  | succ fuel ih =>
    have hrest : findLast (a ++ c :: b) c fuel (a.length + 2) = a.length + 2 := by
      apply findLast_none
      rwa [show a.length + 2 - 1 = a.length + 1 from rfl, List.drop_append,
        List.drop_of_length_le (Nat.le_succ _), Nat.add_sub_cancel_left]
    by_cases hmem : c ∈ a.drop (last - 1)
    · obtain ⟨x, y, hxy, hx⟩ := List.eq_append_cons_of_mem hmem
      have ha : a = a.take (last - 1) ++ x ++ c :: y := by
        rw [List.append_assoc, ← hxy, List.take_append_drop]
      have hlen : (a.take (last - 1) ++ x).length = last - 1 + x.length := by
        rw [List.length_append, List.length_take_of_le hlast]
      generalize a.take (last - 1) ++ x = front at ha hlen
      have hlonger : a.length = front.length + 1 + y.length := by
        rw [ha, List.length_append, List.length_cons]
        omega
      have hfront : c ∉ front.drop (last - 1) := by
        have hdrop : a.drop (last - 1) = front.drop (last - 1) ++ c :: y := by
          rw [ha, List.drop_append_of_le_length (by omega)]
        have hsame : front.drop (last - 1) = x := by
          have hlength : (front.drop (last - 1)).length = x.length := by
            rw [List.length_drop]
            omega
          exact (List.append_inj (hdrop.symm.trans hxy) hlength).1
        rwa [hsame]
      have hfind : find (a ++ c :: b) c last = front.length + 2 := by
        rw [ha, List.append_assoc, List.cons_append]
        exact find_append hfront (by omega)
      rw [findLast, hfind, if_neg (Nat.succ_ne_zero _)]
      exact ih (by omega) (by omega)
    · rw [findLast, find_append hmem hlast, if_neg (Nat.succ_ne_zero _), hrest]

theorem exists_last (h : c ∈ s) : ∃ a b, s = a ++ c :: b ∧ c ∉ b := by
  obtain ⟨b, a, hab, hb⟩ := List.eq_append_cons_of_mem (List.mem_reverse.mpr h)
  refine ⟨a.reverse, b.reverse, ?_, fun hmem => hb (List.mem_reverse.mp hmem)⟩
  rw [← List.reverse_reverse s, hab, List.reverse_append, List.reverse_cons, List.append_assoc]
  rfl

theorem Parse.Split.slashPos (h : p.Split) :
    findLast p.join '/' (p.join.length + 1) 0 - 1 = p.dir.length := by
  obtain hnil | ⟨d, hd⟩ := h.dir
  · have hnone : '/' ∉ p.join.drop (0 - 1) := by
      rw [Parse.join, hnil]
      exact h.plain
    rw [findLast_none hnone, hnil]
    rfl
  · have hjoin : p.join = d ++ '/' :: (p.name ++ p.ext) := by
      rw [Parse.join, hd, List.append_assoc]
      rfl
    have hlast : findLast p.join '/' (p.join.length + 1) 0 = d.length + 2 := by
      rw [hjoin]
      refine findLast_append h.plain (Nat.zero_le _) ?_
      rw [List.length_append, List.length_cons]
      omega
    rw [hlast, hd, List.length_append]
    rfl

theorem Parse.Split.no_dot (h : p.Split) (hname : '.' ∉ p.name) (hext : p.ext = []) :
    findLast p.join '.' (p.join.length + 1) p.dir.length = p.dir.length := by
  apply findLast_none
  obtain hnil | ⟨d, hd⟩ := h.dir
  · rw [Parse.join, hnil, hext, List.append_nil]
    exact hname
  · have hdrop : p.join.drop (p.dir.length - 1) = '/' :: p.name := by
      rw [Parse.join, hext, List.append_nil, hd, List.append_assoc, List.length_append]
      exact List.drop_left
    rw [hdrop, List.mem_cons, not_or]
    exact ⟨by decide, hname⟩

theorem Parse.dot (p : Parse) {e : Text} (hext : p.ext = '.' :: e) (he : '.' ∉ e) :
    findLast p.join '.' (p.join.length + 1) p.dir.length = p.dir.length + p.name.length + 2 := by
  have hjoin : p.join = p.dir ++ p.name ++ '.' :: e := by
    rw [Parse.join, hext, List.append_assoc]
  rw [hjoin, ← List.length_append]
  refine findLast_append he ?_ ?_
  · rw [List.length_append]
    omega
  · simp only [List.length_append, List.length_cons]
    omega

theorem extract_behind {i j k : Nat} (h : i - 1 = k) :
    extract s i j = (s.drop k).take (j - k) := by
  rw [extract, h, List.drop_take]

theorem Parse.Split.parsePattern (h : p.Split) : parsePattern p.join = p := by
  have hlen : p.join.length = p.dir.length + p.name.length + p.ext.length := by
    rw [Parse.join, List.length_append, List.length_append, Nat.add_assoc]
  have hdir : extract p.join 0 p.dir.length = p.dir := by
    rw [extract_behind (rfl : 0 - 1 = 0), Parse.join]
    exact List.take_left
  have hrest : p.join.drop p.dir.length = p.name ++ p.ext := List.drop_left
  have hext : p.join.drop (p.dir.length + p.name.length) = p.ext := by
    rw [← List.drop_drop, hrest, List.drop_left]
  have hname (j : Nat) : extract p.join (findLast p.join '/' (p.join.length + 1) 0) j =
      (p.name ++ p.ext).take (j - p.dir.length) := by
    rw [extract_behind h.slashPos, hrest]
  rw [RctlArguments.parsePattern]
  simp only [h.slashPos, hdir, hname]
  obtain ⟨hnil, hplain⟩ | ⟨e, he, hplain⟩ := h.ext
  · have hall : p.join.length + 2 - 2 - p.dir.length = p.name.length := by
      rw [hnil] at hlen
      simp only [List.length_nil] at hlen
      omega
    have hnone : extract p.join (p.join.length + 2 - 1) p.join.length = [] := by
      rw [extract_behind rfl, List.drop_of_length_le (by omega), List.take_nil]
    rw [h.no_dot hplain hnil, if_pos rfl, hall, List.take_left, hnone, ← hnil]
  · have hdot := p.dot he hplain
    have hne : p.dir.length ≠ p.dir.length + p.name.length + 2 := by omega
    have hsize : p.dir.length + p.name.length + 2 - 2 - p.dir.length = p.name.length := by omega
    have hbehind : extract p.join (p.dir.length + p.name.length + 2 - 1) p.join.length = p.ext := by
      rw [extract_behind (rfl : _ - 1 = p.dir.length + p.name.length), hext, hlen]
      exact List.take_of_length_le (by omega)
    rw [hdot, if_neg hne, hsize, List.take_left, hbehind]

theorem exists_split (s : Text) : ∃ p : Parse, p.Split ∧ p.join = s := by
  obtain ⟨dir, rest, hs, hdir, hrest⟩ : ∃ dir rest, s = dir ++ rest ∧
      (dir = [] ∨ ∃ d, dir = d ++ ['/']) ∧ '/' ∉ rest := by
    by_cases hslash : '/' ∈ s
    · obtain ⟨d, rest, hs, hrest⟩ := exists_last hslash
      exact ⟨d ++ ['/'], rest, by rw [hs, List.append_assoc]; rfl, Or.inr ⟨d, rfl⟩, hrest⟩
    · exact ⟨[], s, rfl, Or.inl rfl, hslash⟩
  by_cases hdot : '.' ∈ rest
  · obtain ⟨name, e, rfl, he⟩ := exists_last hdot
    exact ⟨⟨dir, name, '.' :: e⟩, ⟨hdir, hrest, Or.inr ⟨e, rfl, he⟩⟩, hs.symm⟩
  · refine ⟨⟨dir, rest, []⟩, ⟨hdir, ?_, Or.inl ⟨rfl, hdot⟩⟩, ?_⟩
    · rwa [List.append_nil]
    · rw [Parse.join, List.append_nil, hs]

/-- A pattern is taken apart at its last slash and at the last dot behind it, and nowhere else. -/
theorem parsePattern_iff (s : Text) (p : Parse) : parsePattern s = p ↔ p.Split ∧ p.join = s := by
  constructor
  · rintro rfl
    obtain ⟨q, hq, rfl⟩ := exists_split s
    rw [hq.parsePattern]
    exact ⟨hq, rfl⟩
  · rintro ⟨hp, rfl⟩
    exact hp.parsePattern

def bracket (char : Char) : Bool := char = '[' || char = ']'

def escapeFrom (hasSlash : Bool) : Text → Text
  | [] => []
  | char :: path =>
    if char = '\\' then char :: escapeFrom (!hasSlash) path
    else if bracket char then
      if hasSlash then char :: escapeFrom false path else '\\' :: char :: escapeFrom false path
    else char :: escapeFrom false path

def escapeBrackets (path : Text) : Text := escapeFrom false path

/-- How a pattern is read by `glob`: its characters, and whether each stands for itself only. -/
def read : Text → List (Bool × Char)
  | '\\' :: c :: s => (true, c) :: read s
  | c :: s => (false, c) :: read s
  | [] => []

def literal (x : Bool × Char) : Bool × Char := if bracket x.2 then (true, x.2) else x

theorem read_cons (hc : c ≠ '\\') (s : Text) : read (c :: s) = (false, c) :: read s := by
  rw [read]
  exact fun _ _ h => absurd h hc

theorem literal_bracket (x : Bool) (h : bracket c = true) : literal (x, c) = (true, c) := if_pos h

theorem literal_other (x : Bool) (h : ¬ bracket c = true) : literal (x, c) = (x, c) := if_neg h

theorem read_escapeFrom (s : Text) : read (escapeFrom false s) = (read s).map literal ∧
    read ('\\' :: escapeFrom true s) = (read ('\\' :: s)).map literal := by
  induction s with
  | nil => exact ⟨rfl, rfl⟩
  | cons c s ih =>
    obtain ⟨hplain, hslash⟩ := ih
    by_cases hc : c = '\\'
    · subst hc
      refine ⟨hslash, ?_⟩
      rw [escapeFrom, if_pos rfl, Bool.not_true, read, hplain, read, List.map_cons]
      rfl
    · by_cases hb : bracket c = true
      · constructor
        · rw [escapeFrom, if_neg hc, if_pos hb, if_neg Bool.false_ne_true, read, hplain,
            read_cons hc, List.map_cons, literal_bracket false hb]
        · rw [escapeFrom, if_neg hc, if_pos hb, if_pos rfl, read, hplain, read, List.map_cons,
            literal_bracket true hb]
      · constructor
        · rw [escapeFrom, if_neg hc, if_neg hb, read_cons hc, hplain, read_cons hc, List.map_cons,
            literal_other false hb]
        · rw [escapeFrom, if_neg hc, if_neg hb, read, hplain, read, List.map_cons,
            literal_other true hb]

theorem escapeFrom_escapeFrom (hasSlash : Bool) (s : Text) :
    escapeFrom hasSlash (escapeFrom hasSlash s) = escapeFrom hasSlash s := by
  induction s generalizing hasSlash with
  | nil => rfl
  | cons c s ih =>
    by_cases hc : c = '\\'
    · rw [escapeFrom, if_pos hc, escapeFrom, if_pos hc, ih]
    · by_cases hb : bracket c = true
      · cases hasSlash with
        | true =>
          rw [escapeFrom, if_neg hc, if_pos hb, if_pos rfl, escapeFrom, if_neg hc, if_pos hb,
            if_pos rfl, ih]
        | false =>
          rw [escapeFrom, if_neg hc, if_pos hb, if_neg Bool.false_ne_true, escapeFrom, if_pos rfl,
            Bool.not_false, escapeFrom, if_neg hc, if_pos hb, if_pos rfl, ih]
      · rw [escapeFrom, if_neg hc, if_neg hb, escapeFrom, if_neg hc, if_neg hb, ih]

/-- The path is read as before, but for its brackets, all of which stand for themselves; escaped
once more it stays as it is. -/
theorem escapeBrackets_literal (path : Text) :
    read (escapeBrackets path) = (read path).map literal ∧
      escapeBrackets (escapeBrackets path) = escapeBrackets path :=
  ⟨(read_escapeFrom path).1, escapeFrom_escapeFrom false path⟩

open CanonicalizePath Separated

theorem slash_cons (rest : Text) : '/' :: rest = after '/' (rest.splitOn '/') := by
  have hjoin : ['/'].intercalate (rest.splitOn '/') = rest := List.intercalate_splitOn '/'
  cases hsplit : rest.splitOn '/' with
  | nil => exact absurd hsplit (List.splitOn_ne_nil _ _)
  | cons c cs =>
    rw [hsplit, intercalate_cons] at hjoin
    rw [after_cons, hjoin]

/-- More of a path can be added to what a path has become. -/
theorem canonicalizePath_append (path rest : Text) : ∃ out,
    canonicalizePath ('/' :: path) = some out ∧
      canonicalizePath (out ++ '/' :: rest) = canonicalizePath ('/' :: path ++ '/' :: rest) := by
  have hslash (s : Text) : ∀ c ∈ s.splitOn '/', '/' ∉ c := fun c => Pieces.not_mem_of_mem_splitOn
  have hnil : ∀ c ∈ ([] : List Text), Kept c := fun c hc => absurd hc List.not_mem_nil
  have hkept := foldl_push_kept hnil (hslash path)
  have happend (cs ds : List Text) : after '/' (cs ++ ds) = after '/' cs ++ after '/' ds := by
    rw [after, List.flatMap_append]
    rfl
  have hwhole : canonicalizePath ('/' :: path ++ '/' :: rest) =
      some (render ((rest.splitOn '/').foldl push ((path.splitOn '/').foldl push []))) := by
    rw [slash_cons path, slash_cons rest, ← happend, canonicalizePath_after, List.foldl_append]
    exact fun c hc => (List.mem_append.mp hc).elim (hslash path c) (hslash rest c)
  refine ⟨_, by rw [slash_cons path]; exact canonicalizePath_after (hslash path), ?_⟩
  rw [hwhole]
  generalize (path.splitOn '/').foldl push [] = kept at hkept
  by_cases hempty : kept = []
  · have hroot : render kept ++ '/' :: rest = after '/' ([] :: rest.splitOn '/') := by
      rw [hempty, after_cons, ← slash_cons]
      rfl
    have hpush : push [] ([] : Text) = [] := if_pos (Or.inl rfl)
    rw [hroot, canonicalizePath_after, List.foldl_cons, hpush, hempty]
    exact List.forall_mem_cons.mpr ⟨List.not_mem_nil, hslash rest⟩
  · have hpath : render kept ++ '/' :: rest = after '/' (kept ++ rest.splitOn '/') := by
      rw [render, if_neg hempty, slash_cons rest, happend]
    rw [hpath, canonicalizePath_after, List.foldl_append, foldl_push_of_kept hkept,
      List.nil_append]
    exact fun c hc => (List.mem_append.mp hc).elim (fun h => (hkept c h).1.2) (hslash rest c)

open Shuffle

/-- `tmp=args(l),args(l)=args(j),args(j)=tmp`, if these are two. -/
def exchange (args : Nat → Text) (l j : Nat) : Nat → Text :=
  if j ≠ l then Function.update (Function.update args l (args j)) j (args l) else args

/-- The rounds, from the last value down; the numbers are what `$random` gives. -/
def randomizeFrom : Nat → List Nat → (Nat → Text) → Nat → Text
  | l + 1, draw :: draws, args => randomizeFrom l draws (exchange args (l + 1) (draw + 1))
  | _, _, args => args

/-- The values are counted from 1, and their number is in `args(0)`. -/
def randomize (n : Nat) (draws : List Nat) (args : Nat → Text) : Nat → Text :=
  randomizeFrom n draws args

theorem exchange_eq (args : Nat → Text) (l j : Nat) :
    exchange args l j = args ∘ Equiv.swap l j := by
  funext i
  rw [exchange, Function.comp_apply]
  by_cases hj : j = l
  · rw [if_neg (not_not.mpr hj), hj, Equiv.swap_self]
    rfl
  · rw [if_pos hj]
    by_cases hij : i = j
    · rw [hij, Function.update_self, Equiv.swap_apply_right]
    · rw [Function.update_of_ne hij]
      by_cases hil : i = l
      · rw [hil, Function.update_self, Equiv.swap_apply_left]
      · rw [Function.update_of_ne hil, Equiv.swap_apply_of_ne_of_ne hil hij]

theorem randomizeFrom_eq (n : Nat) (draws : List Nat) (args : Nat → Text) :
    randomizeFrom n draws args = args ∘ rearrange n draws := by
  induction n generalizing draws args with
  | zero => rfl
  | succ n ih =>
    cases draws with
    | nil => rfl
    | cons draw draws =>
      rw [randomizeFrom, ih, exchange_eq, rearrange]
      rfl

/-- Whatever is drawn, the values are rearranged, and each rearrangement of them comes from just one
sequence of draws. -/
theorem randomize_uniform (n : Nat) :
    (∀ draws, Legal n draws → ∃ σ, Within n σ ∧ ∀ args, randomize n draws args = args ∘ σ) ∧
      ∀ σ, Within n σ → ∃! draws, Legal n draws ∧ ∀ args, randomize n draws args = args ∘ σ := by
  refine ⟨fun draws h => ⟨_, within_rearrange h, randomizeFrom_eq n draws⟩, fun σ h => ?_⟩
  obtain ⟨draws, ⟨hlegal, hdraws⟩, hunique⟩ := existsUnique_draws h
  refine ⟨draws, ⟨hlegal, fun args => hdraws ▸ randomizeFrom_eq n draws args⟩, ?_⟩
  rintro other ⟨hother, hargs⟩
  refine hunique other ⟨hother, Equiv.ext fun i => ?_⟩
  -- the values tell the positions apart
  have hsame := congrFun ((randomizeFrom_eq n other _).symm.trans
    (hargs fun j => List.replicate j 'a')) i
  have hlength := congrArg List.length hsame
  rwa [Function.comp_apply, Function.comp_apply, List.length_replicate,
    List.length_replicate] at hlength

theorem randomize_uniform_two :
    (∃ σ, Within 2 σ ∧ ∀ args, randomize 2 [1, 0] args = args ∘ σ) ∧
      ∃! draws, Legal 2 draws ∧ ∀ args, randomize 2 draws args = args ∘ Equiv.swap 1 2 := by
  refine ⟨(randomize_uniform 2).1 [1, 0] ⟨1, [0], rfl, le_rfl, 0, [], rfl, le_rfl, rfl⟩,
    (randomize_uniform 2).2 (Equiv.swap 1 2) fun i hi => ?_⟩
  obtain ⟨-, rfl | rfl⟩ := Equiv.swap_apply_ne_self_iff.mp hi
  · omega
  · omega

end YdbTest.RctlArguments
