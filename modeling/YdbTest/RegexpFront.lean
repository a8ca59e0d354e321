import YdbTest.RegexpSyntax

namespace YdbTest.RegexpSyntax

open Regexp

variable {st st' : State} {es : List Expr} {c : Char} {l u x : Text} {r : Expr}

def State.bottom (st : State) : Group := st.outer.getLast?.getD st.group

/-- The expression has one alternative only so far, which begins with some expressions; these are
behind the last one, so that no sign of repetition can apply to them. -/
structure Keeps (es : List Expr) (st : State) : Prop where
  alone : st.bottom.alts = []
  begins : ∃ more, more ≠ [] ∧ st.bottom.seq = more ++ es

theorem bottom_outer (g : Group) (outer : List Group) (group group' : Group) (mode mode' : Mode) :
    State.bottom ⟨g :: outer, group, mode⟩ = State.bottom ⟨g :: outer, group', mode'⟩ := by
  simp [State.bottom, List.getLast?_cons]

theorem keeps_of_bottom (h : Keeps es st) (heq : st'.bottom = st.bottom) : Keeps es st' :=
  ⟨heq ▸ h.alone, heq ▸ h.begins⟩

theorem keeps_mode (h : Keeps es st) (mode : Mode) : Keeps es { st with mode := mode } :=
  keeps_of_bottom h rfl

theorem keeps_push (h : Keeps es st) (r : Expr) : Keeps es (st.push r) := by
  obtain ⟨outer, group, mode⟩ := st
  cases outer with
  | nil =>
    obtain ⟨halone, more, -, hseq⟩ := h
    exact ⟨halone, r :: more, List.cons_ne_nil _ _, congrArg (r :: ·) hseq⟩
  | cons g outer => exact keeps_of_bottom h (bottom_outer ..)

theorem keeps_pushes (h : Keeps es st) (text : Text) :
    Keeps es (text.foldl (fun st c => st.push (char c)) st) := by
  induction text generalizing st with
  | nil => exact h
  | cons c text ih => exact ih (keeps_push h (char c))

theorem keeps_again (h : Keeps es st) (f : Expr → Expr) : Keeps es (st.again f) := by
  obtain ⟨outer, group, mode⟩ := st
  cases outer with
  | nil =>
    obtain ⟨halone, more, hmore, hseq⟩ := h
    obtain ⟨e, more, rfl⟩ := List.exists_cons_of_ne_nil hmore
    refine ⟨halone, f e :: more, List.cons_ne_nil _ _, ?_⟩
    have hgroup : group.seq = e :: (more ++ es) := hseq
    change group.seq.modifyHead f = _
    rw [hgroup]
    rfl
  | cons g outer => exact keeps_of_bottom h (bottom_outer ..)

theorem keeps_plain (h : Keeps es st) (hc : c ≠ '|') : Keeps es (plain st c) := by
  unfold plain
  split
  · exact keeps_mode h _
  · exact keeps_mode h _
  · obtain ⟨outer, group, mode⟩ := st
    refine keeps_of_bottom h ?_
    cases outer with
    | nil => rfl
    | cons g outer => simp [State.bottom, List.getLast?_cons]
  · split
    · exact keeps_push h _
    · next g outer hout =>
      obtain ⟨outer', group, mode⟩ := st
      obtain rfl : outer' = g :: outer := hout
      cases outer with
      | nil =>
        obtain ⟨halone, more, -, hseq⟩ := h
        exact ⟨halone, _ :: more, List.cons_ne_nil _ _, congrArg (_ :: ·) hseq⟩
      | cons g' outer => exact keeps_of_bottom h (by simp [State.bottom, List.getLast?_cons])
  · exact absurd rfl hc
  · split
    · exact keeps_again h _
    · exact keeps_push h _
  · split
    · exact keeps_again h _
    · exact keeps_push h _
  · split
    · exact keeps_again h _
    · exact keeps_push h _
  · split
    · exact keeps_mode h _
    · exact keeps_push h _
  · exact keeps_push h _
  · exact keeps_push h _
  · exact keeps_push h _
  · exact keeps_push h _

theorem keeps_escape (h : Keeps es st) : Keeps es (escape st c) := by
  unfold escape
  split
  case h_1 => exact keeps_mode h _
  case h_12 =>
    split_ifs
    · exact keeps_mode h _
    · exact keeps_push h _
  all_goals exact keeps_push h _

theorem keeps_goto (h : Keeps es st) {o : Option Bracket}
    (hstep : (o.map fun b => { st with mode := .bracket b }) = some st') : Keeps es st' := by
  obtain ⟨b, -, rfl⟩ := Option.map_eq_some_iff.mp hstep
  exact keeps_mode h _

theorem keeps_inBracket {b : Bracket} (h : Keeps es st) (hstep : inBracket st b c = some st') :
    Keeps es st' := by
  unfold inBracket at hstep
  dsimp only at hstep
  by_cases hescape : b.escape = true
  · rw [if_pos hescape] at hstep
    exact keeps_goto h hstep
  · rw [if_neg hescape] at hstep
    by_cases hclass : b.bracket = true ∧ c = ':'
    · rw [if_pos hclass] at hstep
      exact Option.some.inj hstep ▸ keeps_mode h _
    · rw [if_neg hclass] at hstep
      by_cases hbracket : b.bracket = true
      on_goal 1 => rw [if_pos hbracket] at hstep
      on_goal 2 => rw [if_neg hbracket] at hstep
      all_goals
        obtain ⟨b', -, hstep⟩ := Option.bind_eq_some_iff.mp hstep
        split_ifs at hstep
        · exact Option.some.inj hstep ▸ keeps_mode h _
        · exact Option.some.inj hstep ▸ keeps_mode h _
        · exact Option.some.inj hstep ▸ keeps_mode h _
        · exact Option.some.inj hstep ▸ keeps_push h _
        · exact Option.some.inj hstep ▸ keeps_mode h _
        · exact keeps_goto h hstep

theorem keeps_inClass {b : Bracket} {name : Text} (h : Keeps es st)
    (hstep : inClass st b name c = some st') : Keeps es st' := by
  unfold inClass at hstep
  split_ifs at hstep
  · obtain ⟨p, -, rfl⟩ := Option.map_eq_some_iff.mp hstep
    exact keeps_mode h _
  · exact Option.some.inj hstep ▸ keeps_mode h _

theorem keeps_interval {text : Text} (h : Keeps es st) (hstep : st.interval text = some st') :
    Keeps es st' := by
  unfold State.interval at hstep
  split at hstep
  · exact Option.some.inj hstep ▸ keeps_push (keeps_pushes h _) _
  · split_ifs at hstep
    exact Option.some.inj hstep ▸ keeps_again h _

theorem keeps_step (h : Keeps es st) (hc : c ≠ '|') (hstep : step st c = some st') :
    Keeps es st' := by
  unfold step at hstep
  split at hstep
  · exact Option.some.inj hstep ▸ keeps_plain h hc
  · exact Option.some.inj hstep ▸ keeps_escape h
  · split at hstep
    · exact Option.some.inj hstep ▸ keeps_mode h _
    · exact Option.some.inj hstep ▸ keeps_plain (keeps_push h _) hc
  · exact keeps_inBracket h hstep
  · exact keeps_inClass h hstep
  · split_ifs at hstep
    · exact Option.some.inj hstep ▸ keeps_mode h _
    · exact keeps_interval h hstep
    · exact Option.some.inj hstep ▸ keeps_plain (keeps_pushes h _) hc

theorem keeps_foldlM (h : Keeps es st) (hx : '|' ∉ x) (hfold : x.foldlM step st = some st') :
    Keeps es st' := by
  induction x generalizing st with
  | nil => exact Option.some.inj hfold ▸ h
  | cons c x ih =>
    obtain ⟨st'', hstep, hrest⟩ := Option.bind_eq_some_iff.mp hfold
    exact ih (keeps_step h (fun hc => hx (hc ▸ List.mem_cons_self)) hstep)
      (fun hmem => hx (List.mem_cons_of_mem c hmem)) hrest

theorem keeps_close (h : Keeps es st) (hout : st.outer = []) :
    ∃ rest, st.group.close = sequence (es.reverse ++ rest) := by
  obtain ⟨outer, group, mode⟩ := st
  obtain rfl : outer = [] := hout
  obtain ⟨halone, more, -, hseq⟩ := h
  have halts : group.alts = [] := halone
  have hgroup : group.seq = more ++ es := hseq
  refine ⟨more.reverse, ?_⟩
  rw [Group.close, halts, hgroup, List.reverse_append]
  rfl

theorem finish_keeps (h : Keeps es st) (hr : finish st = some r) :
    ∃ rest, r = sequence (es.reverse ++ rest) := by
  unfold finish at hr
  extract_lets st' at hr
  have hkeeps : Keeps es st' := by
    unfold st'
    split
    · exact keeps_push h _
    · exact keeps_pushes h _
    · exact h
  split at hr
  · next hout =>
    obtain rfl := Option.some.inj hr
    exact keeps_close hkeeps hout
  · cases hr

theorem matches_sequence_append {s : Text} {rs qs : List Expr} {i j : Nat}
    (h : Matches s (sequence (rs ++ qs)) i j) : ∃ k, Matches s (sequence rs) i k := by
  induction rs generalizing i with
  | nil => exact ⟨i, .eps (h.le.1.trans h.le.2)⟩
  | cons r rs ih =>
    obtain ⟨k, hr, hrest⟩ := matches_cat.mp h
    obtain ⟨k', hrest⟩ := ih hrest
    exact ⟨k', .cat hr hrest⟩

def front (u : Text) : Option (List Expr) :=
  match u.foldlM step start with
  | some ⟨[], ⟨[], _ :: es⟩, .plain⟩ => some es.reverse
  | _ => none

theorem find_of_front (hu : front u = some es) (hx : '|' ∉ x) (hr : parse (u ++ x) = some r)
    (h : find l (sequence es) = none) : find l r = none := by
  unfold front at hu
  split at hu
  · next e es' hfold =>
    obtain rfl := Option.some.inj hu
    rw [parse, List.foldlM_append, hfold] at hr
    obtain ⟨st, hst, hfinish⟩ := Option.bind_eq_some_iff.mp hr
    have hkeeps : Keeps es' ⟨[], ⟨[], e :: es'⟩, .plain⟩ :=
      ⟨rfl, [e], List.cons_ne_nil _ _, rfl⟩
    obtain ⟨rest, rfl⟩ := finish_keeps (keeps_foldlM hkeeps hx hst) hfinish
    refine find_eq_none.mpr fun i j hmatch => ?_
    obtain ⟨k, hk⟩ := matches_sequence_append hmatch
    exact find_eq_none.mp h i k hk
  · cases hu

/-- The characters and anchors that an expression begins with match a text that stands behind a
character. -/
def begins (behind : Option Char) : List Expr → Text → Bool
  | .sym p :: es, c :: l => p c && begins (some c) es l
  | .sym _ :: _, [] => false
  | .look p :: es, l => p behind l.head? && begins behind es l
  | _, _ => true

def lacks (es : List Expr) (behind : Option Char) : Text → Bool
  | [] => !begins behind es []
  | c :: l => !begins behind es (c :: l) && lacks es (some c) l

theorem before_succ {i : Nat} (hi : i < l.length) : before l (i + 1) = some l[i] := by
  rw [before, if_neg i.succ_ne_zero, Nat.add_sub_cancel, List.getElem?_eq_getElem hi]

theorem begins_of_matches {i j : Nat} (h : Matches l (sequence es) i j) :
    begins (before l i) es (l.drop i) = true := by
  induction es generalizing i with
  | nil => rfl
  | cons e es ih =>
    obtain ⟨k, he, hrest⟩ := matches_cat.mp h
    cases he with
    | sym hp =>
      obtain ⟨c, hc, hp⟩ := (Option.any_eq_true _ _).mp hp
      obtain ⟨hi, rfl⟩ := List.getElem?_eq_some_iff.mp hc
      have hbegins := ih hrest
      rw [before_succ hi] at hbegins
      rw [List.drop_eq_getElem_cons hi, begins, hp, hbegins]
      rfl
    | look hle hp =>
      have hbegins := ih hrest
      rw [begins, List.head?_drop, hp, hbegins]
      rfl
    | _ => rfl

theorem begins_of_lacks {i k : Nat} (h : lacks es (before l i) (l.drop i) = true)
    (hk : i + k ≤ l.length) : begins (before l (i + k)) es (l.drop (i + k)) = false := by
  induction k generalizing i with
  | zero =>
    rw [Nat.add_zero]
    cases hdrop : l.drop i with
    | nil =>
      rw [hdrop, lacks, Bool.not_eq_true'] at h
      exact h
    | cons c rest =>
      rw [hdrop, lacks, Bool.and_eq_true, Bool.not_eq_true'] at h
      exact h.1
  | succ k ih =>
    have hlt : i < l.length := by omega
    rw [List.drop_eq_getElem_cons hlt, lacks, Bool.and_eq_true, ← before_succ hlt] at h
    rw [Nat.add_comm k, ← Nat.add_assoc]
    exact ih h.2 (by omega)

theorem find_of_lacks (h : lacks es none l = true) : find l (sequence es) = none := by
  refine find_eq_none.mpr fun i j hmatch => ?_
  have hle : 0 + i ≤ l.length := (Nat.zero_add i).trans_le (hmatch.le.1.trans hmatch.le.2)
  have hfalse := begins_of_lacks h hle
  rw [Nat.zero_add, begins_of_matches hmatch] at hfalse
  exact nomatch hfalse

/-- By its first characters, as far as one of the numbers says, or as a whole, an expression has no
match in any of the texts. -/
def absent (ks : List Nat) (re : Text) (ls : List Text) : Bool :=
  (ks.any fun k =>
    match front (re.take k) with
    | some es => !(re.drop k).contains '|' && ls.all (lacks es none)
    | none => false) ||
  ls.all fun l => ((parse re).bind (find l)).isNone

theorem bind_find_of_absent {ks : List Nat} {re : Text} {ls : List Text}
    (h : absent ks re ls = true) (hl : l ∈ ls) : (parse re).bind (find l) = none := by
  rw [absent, Bool.or_eq_true] at h
  obtain h | h := h
  · obtain ⟨k, -, h⟩ := List.any_eq_true.mp h
    cases hfront : front (re.take k) with
    | none =>
      rw [hfront] at h
      exact nomatch h
    | some es =>
      rw [hfront] at h
      obtain ⟨hbar, hlacks⟩ := (Bool.and_eq_true _ _).mp h
      have hx : '|' ∉ re.drop k := by simpa using hbar
      refine Option.bind_eq_none_iff.mpr fun r hr => ?_
      rw [← List.take_append_drop k re] at hr
      exact find_of_front hfront hx hr (find_of_lacks (List.all_eq_true.mp hlacks l hl))
  · exact Option.isNone_iff_eq_none.mp (List.all_eq_true.mp h l hl)

end YdbTest.RegexpSyntax
