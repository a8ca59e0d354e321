import YdbTest.GetmsginfoScan

namespace YdbTest.Getmsginfo

open MString MsgDirective

variable {inSyslog : Bool} {ts : List Token}

def postOf (inSyslog : Bool) (post : Str) (ts : List Token) : Str :=
  if post ++ text (ts.takeWhile (literal inSyslog)) = [] ∧ endsLine inSyslog ts = true then END
  else post ++ text (ts.takeWhile (literal inSyslog))

def found (inSyslog : Bool) : Nat → Str → List Token → List Arg
  | _, _, [] => []
  | line, pre, .arg d :: ts =>
    ⟨d.type, if inSyslog then none else some line, pre, postOf inSyslog (rest d) ts⟩ ::
      found inSyslog line (rest d) ts
  | line, pre, .slash :: ts =>
    if inSyslog then found inSyslog line (addPre pre NEWLINE) ts
    else found inSyslog (line + 1) START ts
  | line, pre, t :: ts => found inSyslog line (addPre pre t.text) ts

def State.finish (st : State) : List Arg :=
  setPost (if st.postChars = [] then END else st.postChars) st.args

theorem setPost_concat (post : Str) (as : List Arg) (a : Arg) :
    setPost post (as ++ [a]) = as ++ [{ a with postChars := post }] := by
  induction as with
  | nil => rfl
  | cons b as ih =>
    cases as with
    | nil => rfl
    | cons c as => rw [List.cons_append, List.cons_append, setPost, ← List.cons_append, ih]; rfl

def State.Flushed (st : State) : Prop := st.postCharsFlushed = true → st.postChars ≠ []

/-- What is behind the last argument so far in the end. -/
def State.post (inSyslog : Bool) (st : State) (ts : List Token) : Str :=
  if st.postCharsFlushed then st.postChars else postOf inSyslog st.postChars ts

theorem postOf_literal {t : Token} (ht : literal inSyslog t = true) (post : Str) :
    postOf inSyslog post (t :: ts) = postOf inSyslog (post ++ t.text) ts := by
  simp only [postOf, endsLine, List.takeWhile_cons_of_pos ht, List.dropWhile_cons_of_pos ht, text,
    List.flatMap_cons, List.append_assoc]

theorem post_char {st : State} {t : Token} (ht : literal inSyslog t = true) :
    (st.char t.text).post inSyslog ts = st.post inSyslog (t :: ts) := by
  rw [State.post, State.post, State.char]
  split_ifs with h
  · rfl
  · exact (postOf_literal ht _).symm

theorem flushed_char {st : State} (hst : st.Flushed) (char : Str) : (st.char char).Flushed := by
  intro h
  have hpost : (st.char char).postChars = st.postChars := if_pos h
  rw [hpost]
  exact hst h

theorem flushed_newline (st : State) : st.newline.Flushed := by
  intro _ h
  change (if st.postChars = [] then END else st.postChars) = [] at h
  split_ifs at h with hp
  · exact List.cons_ne_nil _ _ h
  · exact hp h

theorem step_arg (st : State) (d : Directive) :
    st.step inSyslog (.arg d) =
      ⟨setPost st.postChars st.args ++
        [⟨d.type, if inSyslog then none else some st.line, st.preChars, []⟩],
        st.line, rest d, rest d, false⟩ := by
  rw [State.step]
  by_cases h : d.kind = .star 9
  · have hrest : rest d = [95] := by simp [rest, h]
    rw [hrest]
    rfl
  · rw [rest_eq_nil.mpr h]
    rfl

theorem post_arg (st : State) (d : Directive) :
    st.post inSyslog (.arg d :: ts) = st.postChars := by
  have hends : endsLine inSyslog (.arg d :: ts) = false := rfl
  have htake : (Token.arg d :: ts).takeWhile (literal inSyslog) = [] := rfl
  have hopen : postOf inSyslog st.postChars (.arg d :: ts) = st.postChars := by
    rw [postOf, hends, htake, if_neg fun h => Bool.false_ne_true h.2]
    exact List.append_nil _
  rw [State.post, hopen]
  exact ite_self _

theorem post_end {st : State} (hst : st.Flushed) (hends : endsLine inSyslog ts = true)
    (htake : ts.takeWhile (literal inSyslog) = []) :
    st.post inSyslog ts = if st.postChars = [] then END else st.postChars := by
  rw [State.post, postOf, hends, htake]
  by_cases hf : st.postCharsFlushed = true
  · rw [if_pos hf, if_neg (hst hf)]
  · rw [if_neg hf]
    simp [text]

theorem finish_foldl (st : State) (hst : st.Flushed) :
    (ts.foldl (State.step inSyslog) st).finish =
      setPost (st.post inSyslog ts) st.args ++ found inSyslog st.line st.preChars ts := by
  induction ts generalizing st with
  | nil =>
    rw [post_end hst rfl rfl, found, List.append_nil]
    rfl
  | cons t ts ih =>
    have hliteral (ht : literal inSyslog t = true)
        (hstep : st.step inSyslog t = st.char t.text)
        (hfound : found inSyslog st.line st.preChars (t :: ts) =
          found inSyslog st.line (addPre st.preChars t.text) ts) :
        ((t :: ts).foldl (State.step inSyslog) st).finish =
          setPost (st.post inSyslog (t :: ts)) st.args ++
            found inSyslog st.line st.preChars (t :: ts) := by
      rw [List.foldl_cons, hstep, ih _ (flushed_char hst _), post_char ht, hfound]
      rfl
    cases t with
    | char c hb ht => exact hliteral rfl rfl rfl
    | tab => exact hliteral rfl rfl rfl
    | bang => exact hliteral rfl rfl rfl
    | under => exact hliteral rfl rfl rfl
    | slash =>
      cases inSyslog with
      | true => exact hliteral rfl rfl rfl
      | false =>
        have hline : st.newline.post false ts = st.newline.postChars := if_pos rfl
        rw [List.foldl_cons, post_end hst rfl rfl]
        refine (ih st.newline (flushed_newline st)).trans ?_
        rw [hline]
        rfl
    | arg d =>
      rw [List.foldl_cons, step_arg, ih _ fun h => absurd h Bool.false_ne_true, setPost_concat,
        post_arg, List.append_assoc]
      rfl

theorem getMsgArgCount_source (ts : List Token) :
    getMsgArgCount inSyslog (source ts) = found inSyslog 1 START ts := by
  have hstart : start.Flushed := fun h => absurd h Bool.false_ne_true
  have hscan : scan inSyslog start (detab (source ts)) = ts.foldl (State.step inSyslog) start :=
    scan_source start ts
  exact (congrArg State.finish hscan).trans (finish_foldl start hstart)

def preOf (first : Bool) (before : List Token) : Str :=
  before.foldl (fun pre t => addPre pre t.text) (if first then START else [])

theorem preOf_concat (first : Bool) (before : List Token) (t : Token) :
    preOf first (before ++ [t]) = addPre (preOf first before) t.text :=
  List.foldl_concat ..

theorem prefix_cut {mark u c : Str} (hc : ∀ k < c.length, ¬ c.take (k + 1) <:+ mark) :
    mark <+: u ++ c → mark <+: u := by
  induction c using List.reverseRecOn with
  | nil => exact fun h => List.append_nil u ▸ h
  | append_singleton c a ih =>
    intro h
    rw [← List.append_assoc, List.prefix_concat_iff] at h
    obtain heq | hpre := h
    · have hlast := hc c.length (by simp)
      rw [List.take_of_length_le (by simp)] at hlast
      exact absurd ⟨u, (List.append_assoc ..).symm.trans heq.symm⟩ hlast
    · refine ih (fun k hk => ?_) hpre
      have hpart := hc k (by simp; omega)
      rwa [List.take_append_of_le_length (by omega)] at hpart

/-- A token of literal text completes the mark `<START>` or does not touch it. -/
theorem start_cut {t : Token} (ht : literal inSyslog t = true) {u : Str}
    (h : START <+: u ++ t.text) : START <+: u ∨ START = u ++ t.text := by
  have hchar (c : Nat) (h : START <+: u ++ [c]) : START <+: u ∨ START = u ++ [c] :=
    (List.prefix_concat_iff.mp h).symm
  cases t with
  | char c => exact hchar c h
  | bang => exact hchar 33 h
  | tab => exact Or.inl (prefix_cut (by decide) h)
  | under => exact Or.inl (prefix_cut (by decide) h)
  | slash => exact Or.inl (prefix_cut (by decide) h)
  | arg d => exact absurd ht Bool.false_ne_true

theorem text_concat (before : List Token) (t : Token) :
    text (before ++ [t]) = text before ++ t.text := by
  simp [text]

theorem text_ne_nil {t : Token} (ht : literal inSyslog t = true) : t.text ≠ [] := by
  cases t with
  | arg d => exact absurd ht Bool.false_ne_true
  | _ => exact List.cons_ne_nil _ _

theorem not_start_text {t : Token} (ht : literal inSyslog t = true) : ¬ START <+: t.text := by
  intro h
  obtain hpre | heq := start_cut ht (u := []) h
  · exact List.cons_ne_nil _ _ (List.prefix_nil.mp hpre)
  · cases t with
    | arg d => exact absurd ht Bool.false_ne_true
    | char c => exact absurd (congrArg List.length heq) (by decide : ¬ 7 = 1)
    | bang => exact absurd heq (by decide)
    | tab => exact absurd heq (by decide)
    | under => exact absurd heq (by decide)
    | slash => exact absurd heq (by decide)

theorem preOf_text {first : Bool} {before : List Token}
    (hb : ∀ t ∈ before, literal inSyslog t = true) (hstart : ¬ START <+: text before) :
    preOf first before = if before = [] then if first then START else [] else text before := by
  induction before using List.reverseRecOn with
  | nil => rfl
  | append_singleton before t ih =>
    have ht := hb t (by simp)
    rw [text_concat] at hstart
    have hbefore : ¬ START <+: text before := fun h => hstart (h.trans (List.prefix_append ..))
    rw [preOf_concat, ih (fun u hu => hb u (by simp [hu])) hbefore, text_concat,
      if_neg (by simp : ¬ before ++ [t] = []), addPre]
    by_cases hnil : before = []
    · rw [if_pos hnil, hnil]
      cases first <;> rfl
    · rw [if_neg hnil,
        if_neg fun (h : text before = START) => hbefore (h ▸ List.prefix_refl _)]

theorem preOf_lost {first : Bool} {before : List Token}
    (hb : ∀ t ∈ before, literal inSyslog t = true) (hstart : START <+: text before) :
    preOf first before = START ∨ (preOf first before).length < (text before).length := by
  induction before using List.reverseRecOn with
  | nil => exact absurd (List.prefix_nil.mp hstart) (List.cons_ne_nil _ _)
  | append_singleton before t ih =>
    have ht := hb t (by simp)
    have hbs : ∀ u ∈ before, literal inSyslog u = true := fun u hu => hb u (by simp [hu])
    rw [text_concat] at hstart
    rw [preOf_concat, text_concat, addPre, List.length_append]
    by_cases hpre : START <+: text before
    · have hlen := hpre.length_le
      have hseven : START.length = 7 := rfl
      obtain heq | hlt := ih hbs hpre
      · rw [if_pos heq]
        exact Or.inr (by omega)
      · split_ifs
        · exact Or.inr (by omega)
        · rw [List.length_append]
          exact Or.inr (by omega)
    · -- the token completes the mark
      obtain h | h := start_cut ht hstart
      · exact absurd h hpre
      · have hnil : before ≠ [] := by
          rintro rfl
          exact not_start_text ht hstart
        rw [preOf_text hbs hpre, if_neg hnil,
          if_neg fun (h : text before = START) => hpre (h ▸ List.prefix_refl _)]
        exact Or.inl h.symm

theorem pre_iff {first : Bool} {before : List Token}
    (hb : ∀ t ∈ before, literal inSyslog t = true) :
    ((preOf first before = START ↔ first = true ∧ before = []) ∧
      (¬ (first = true ∧ before = []) → preOf first before = text before)) ↔
    ¬ START <+: text before := by
  constructor
  · rintro ⟨hmark, htext⟩ hstart
    have hnil : before ≠ [] := by
      rintro rfl
      exact List.cons_ne_nil _ _ (List.prefix_nil.mp hstart)
    have heq := htext fun h => hnil h.2
    obtain h | h := @preOf_lost inSyslog first before hb hstart
    · exact hnil (hmark.mp h).2
    · exact absurd (congrArg List.length heq) (by omega)
  · intro hstart
    have htext := @preOf_text inSyslog first before hb hstart
    by_cases hnil : before = []
    · subst hnil
      cases first with
      | true => exact ⟨⟨fun _ => ⟨rfl, rfl⟩, fun _ => rfl⟩, fun h => absurd ⟨rfl, rfl⟩ h⟩
      | false =>
        exact ⟨⟨fun h => absurd h (List.cons_ne_nil _ _).symm,
          fun h => absurd h.1 Bool.false_ne_true⟩, fun _ => rfl⟩
    · rw [if_neg hnil] at htext
      rw [htext]
      exact ⟨⟨fun h => absurd (h ▸ List.prefix_refl _) hstart, fun h => absurd h.2 hnil⟩,
        fun _ => rfl⟩

theorem text_eq_nil {after : List Token} (ha : ∀ t ∈ after, literal inSyslog t = true) :
    text after = [] ↔ after = [] := by
  constructor
  · intro h
    cases after with
    | nil => rfl
    | cons t after => exact absurd (List.append_eq_nil_iff.mp h).1 (text_ne_nil (ha t (by simp)))
  · rintro rfl
    rfl

theorem takeWhile_literal (ts : List Token) :
    ∀ t ∈ ts.takeWhile (literal inSyslog), literal inSyslog t = true :=
  fun _ ht => List.all_eq_true.mp (List.all_takeWhile) _ ht

theorem rest_cases (d : Directive) : rest d = [] ∨ rest d = [95] := by
  rw [rest]
  split
  · exact Or.inr rfl
  · exact Or.inl rfl

theorem post_iff {d : Directive} {ts after : List Token} {last : Bool}
    (hafter : ts.takeWhile (literal inSyslog) = after) (hlast : endsLine inSyslog ts = last) :
    ((postOf inSyslog (rest d) ts = END ↔ last = true ∧ after = []) ∧
      (¬ (last = true ∧ after = []) → postOf inSyslog (rest d) ts = text after)) ↔
    rest d = [] ∧ text after ≠ END := by
  have hnil : text after = [] ↔ after = [] := text_eq_nil (hafter ▸ takeWhile_literal ts)
  rw [postOf, hafter, hlast]
  obtain hrest | hrest := rest_cases d
  · rw [hrest, List.nil_append]
    by_cases hend : after = [] ∧ last = true
    · rw [if_pos ⟨hnil.mpr hend.1, hend.2⟩, hend.1]
      exact ⟨fun _ => ⟨rfl, (List.cons_ne_nil _ _).symm⟩,
        fun _ => ⟨⟨fun _ => ⟨hend.2, rfl⟩, fun _ => rfl⟩, fun h => absurd ⟨hend.2, rfl⟩ h⟩⟩
    · rw [if_neg fun h => hend ⟨hnil.mp h.1, h.2⟩]
      exact ⟨fun h => ⟨rfl, fun heq => hend (h.1.mp heq).symm⟩,
        fun h => ⟨⟨fun heq => absurd heq h.2, fun hl => absurd hl.symm hend⟩, fun _ => rfl⟩⟩
  · -- a repeated tab has left its second character behind
    rw [hrest, if_neg fun h => List.cons_ne_nil _ _ h.1]
    refine ⟨fun h => ?_, fun h => absurd h.1 (List.cons_ne_nil _ _)⟩
    by_cases hend : last = true ∧ after = []
    · exact absurd (List.head_eq_of_cons_eq (h.1.mpr hend)) (by decide)
    · exact absurd (congrArg List.length (h.2 hend)) (by simp)

theorem records_iff {p : Place} {a : Arg} {ts : List Token}
    (htype : a.type = p.directive.type) (hline : a.line = if inSyslog then none else some p.line)
    (hpre : a.preChars = preOf p.first p.before)
    (hpost : a.postChars = postOf inSyslog (rest p.directive) ts)
    (hbefore : ∀ t ∈ p.before, literal inSyslog t = true)
    (hafter : ts.takeWhile (literal inSyslog) = p.after)
    (hlast : endsLine inSyslog ts = p.last) : Records inSyslog p a ↔ Clear p := by
  have hstart := @pre_iff inSyslog p.first p.before hbefore
  have hend := post_iff (d := p.directive) hafter hlast
  rw [← hpre] at hstart
  rw [← hpost, rest_eq_nil] at hend
  constructor
  · intro h
    obtain ⟨hstar, hends⟩ := hend.mp ⟨h.ends, h.post⟩
    exact ⟨hstar, hstart.mp ⟨h.start, h.pre⟩, hends⟩
  · intro h
    obtain ⟨hmark, htext⟩ := hstart.mpr h.start
    obtain ⟨hmark', htext'⟩ := hend.mpr ⟨h.star, h.ends⟩
    exact ⟨htype, fun hs => by rw [hline, if_neg (by simp [hs])], hmark, htext, hmark', htext'⟩

theorem records_found (line : Nat) (first : Bool) (before : List Token)
    (hbefore : ∀ t ∈ before, literal inSyslog t = true) :
    List.Forall₂ (Records inSyslog) (places inSyslog line first before ts)
        (found inSyslog line (preOf first before) ts) ↔
      ∀ p ∈ places inSyslog line first before ts, Clear p := by
  induction ts generalizing line first before with
  | nil => simp [places, found]
  | cons t ts ih =>
    have hliteral (ht : literal inSyslog t = true)
        (hplaces : places inSyslog line first before (t :: ts) =
          places inSyslog line first (before ++ [t]) ts)
        (hfound : found inSyslog line (preOf first before) (t :: ts) =
          found inSyslog line (addPre (preOf first before) t.text) ts) :
        List.Forall₂ (Records inSyslog) (places inSyslog line first before (t :: ts))
            (found inSyslog line (preOf first before) (t :: ts)) ↔
          ∀ p ∈ places inSyslog line first before (t :: ts), Clear p := by
      rw [hplaces, hfound, ← preOf_concat]
      refine ih line first (before ++ [t]) fun u hu => ?_
      obtain hu | hu := List.mem_append.mp hu
      · exact hbefore u hu
      · exact List.mem_singleton.mp hu ▸ ht
    cases t with
    | char c hb ht => exact hliteral rfl rfl rfl
    | tab => exact hliteral rfl rfl rfl
    | bang => exact hliteral rfl rfl rfl
    | under => exact hliteral rfl rfl rfl
    | slash =>
      cases inSyslog with
      | true => exact hliteral rfl rfl rfl
      | false => exact ih (line + 1) true [] (by simp)
    | arg d =>
      rw [places, found, List.forall₂_cons, List.forall_mem_cons,
        records_iff rfl rfl rfl rfl hbefore rfl rfl]
      refine and_congr_right fun hclear => ?_
      rw [rest_eq_nil.mpr hclear.star]
      exact ih line false [] (by simp)

theorem head_places (line : Nat) (first : Bool) (before : List Token) {q : Place}
    (hq : (places inSyslog line first before ts).head? = some q) (hfirst : q.first = false) :
    first = false ∧ q.before = before ++ ts.takeWhile (literal inSyslog) ∧
      endsLine inSyslog ts = false := by
  induction ts generalizing line first before with
  | nil => exact absurd hq (by simp [places])
  | cons t ts ih =>
    have hliteral (ht : literal inSyslog t = true)
        (hplaces : places inSyslog line first before (t :: ts) =
          places inSyslog line first (before ++ [t]) ts) :
        first = false ∧ q.before = before ++ (t :: ts).takeWhile (literal inSyslog) ∧
          endsLine inSyslog (t :: ts) = false := by
      rw [hplaces] at hq
      obtain ⟨hf, hb, he⟩ := ih line first (before ++ [t]) hq
      refine ⟨hf, ?_, ?_⟩
      · rw [hb, List.takeWhile_cons_of_pos ht, List.append_assoc]
        rfl
      · rwa [endsLine, List.dropWhile_cons_of_pos ht]
    cases t with
    | char c hb ht => exact hliteral rfl rfl
    | tab => exact hliteral rfl rfl
    | bang => exact hliteral rfl rfl
    | under => exact hliteral rfl rfl
    | slash =>
      cases inSyslog with
      | true => exact hliteral rfl rfl
      | false => exact absurd (ih (line + 1) true [] hq).1 (by decide)
    | arg d =>
      have heq : _ = q := Option.some.inj hq
      subst heq
      exact ⟨hfirst, (List.append_nil before).symm, rfl⟩

theorem places_joined (line : Nat) (first : Bool) (before : List Token) :
    (places inSyslog line first before ts).IsChain fun p q =>
      q.first = false → p.last = false ∧ p.after = q.before := by
  induction ts generalizing line first before with
  | nil => exact List.IsChain.nil
  | cons t ts ih =>
    cases t with
    | char c hb ht => exact ih line first _
    | tab => exact ih line first _
    | bang => exact ih line first _
    | under => exact ih line first _
    | slash =>
      cases inSyslog with
      | true => exact ih line first _
      | false => exact ih (line + 1) true []
    | arg d =>
      refine List.IsChain.cons (ih line false []) fun q hq hfirst => ?_
      obtain ⟨-, hbefore, hends⟩ := head_places line false [] hq hfirst
      exact ⟨hends, hbefore.symm⟩

theorem zip_joined {ps : List Place} {as : List Arg} (h : List.Forall₂ (Records inSyslog) ps as)
    (hps : ps.IsChain fun p q => q.first = false → p.last = false ∧ p.after = q.before) :
    (ps.zip as).IsChain fun x y => y.1.first = false → x.2.postChars = y.2.preChars := by
  induction h with
  | nil => exact List.IsChain.nil
  | cons hp h ih =>
    refine List.IsChain.cons (ih hps.tail) fun y hy hfirst => ?_
    cases h with
    | nil => exact absurd hy (by simp)
    | cons hq h =>
      have heq := Option.some.inj hy
      subst heq
      obtain ⟨hlast, hbefore⟩ := hps.rel hfirst
      have hpost := hp.post fun h => Bool.false_ne_true (hlast.symm.trans h.1)
      have hpre := hq.pre fun h => Bool.false_ne_true (hfirst.symm.trans h.1)
      rw [hpost, hbefore, hpre]

/-- The arguments of a text are recorded right just where no tab is repeated, no text before an
argument begins with `<START>` and no text behind one is `<END>`. -/
theorem getMsgArgCount_right_iff (inSyslog : Bool) (ts : List Token) :
    Right inSyslog ts (getMsgArgCount inSyslog (source ts)) ↔
      ∀ p ∈ places inSyslog 1 true [] ts, Clear p := by
  have hall := @records_found inSyslog ts 1 true [] (by simp)
  rw [getMsgArgCount_source]
  constructor
  · exact fun h => hall.mp h.records
  · exact fun h => ⟨hall.mpr h, zip_joined (hall.mpr h) (places_joined 1 true [])⟩

/-- A tab that is to be repeated leaves `_` behind the argument, at the end of the line. -/
theorem repeated_tab_wrong :
    let ts := [Token.arg ⟨[53], .star 9, by decide, fun _ _ => by decide⟩]
    ¬ Right false ts (getMsgArgCount false (source ts)) := by
  intro ts h
  have hrecords := h.records
  rw [getMsgArgCount_source] at hrecords
  have hends := (List.forall₂_cons.mp hrecords).1.ends.mpr ⟨rfl, rfl⟩
  exact absurd hends (by decide)

end YdbTest.Getmsginfo
