import YdbTest.MultisiteLinks

namespace YdbTest.LinkRows

open Awk LinkSort MultisiteLinks Separated

/-- A line of the table by what it stands for: the receivers of a source, each once, or the source
of a receiver. -/
inductive Row where
  | srcto (a : Inst) (bs : List Inst) (ne : bs ≠ []) (nodup : bs.Nodup)
  | rcvfrom (b a : Inst)

def Row.line : Row → Line
  | .srcto a bs _ _ => ⟨SRCTO, a.name, [','].intercalate (bs.map Inst.name)⟩
  | .rcvfrom b a => ⟨RCVFROM, b.name, a.name⟩

def SrcTo (rows : List Row) (a b : Inst) : Prop := ∃ bs ne nodup, .srcto a bs ne nodup ∈ rows ∧ b ∈ bs

def RcvFrom (rows : List Row) (a b : Inst) : Prop := .rcvfrom b a ∈ rows

/-- The lines of a table, whose links are those of `S` on the side of the source and those of `R`
on the side of the receiver. -/
def Holds (S R : Inst → Inst → Prop) (t : List Line) : Prop :=
  ∃ rows, t = rows.map Row.line ∧ (∀ a b, SrcTo rows a b ↔ S a b) ∧ ∀ a b, RcvFrom rows a b ↔ R a b

section Names

variable {a b c : Inst} {bs : List Inst}

theorem name_injective : Function.Injective Inst.name := by
  rintro ⟨x, _, _⟩ ⟨y, _, _⟩ rfl
  rfl

theorem name_ne_nil (b : Inst) : b.name ≠ [] := by
  intro h
  have := b.inst
  rw [h, List.prefix_nil] at this
  exact nomatch this

theorem comma_not_mem (b : Inst) : ',' ∉ b.name := by
  intro h
  have := b.plain ',' h
  exact absurd this (by decide)

theorem plain_names (bs : List Inst) : ∀ w ∈ bs.map Inst.name, ',' ∉ w := by
  intro w hw
  obtain ⟨b, _, rfl⟩ := List.mem_map.mp hw
  exact comma_not_mem b

theorem srcto_ne_rcvfrom : SRCTO ≠ RCVFROM := by decide

theorem splitOn_names (h : bs ≠ []) :
    ([','].intercalate (bs.map Inst.name)).splitOn ',' = bs.map Inst.name :=
  List.splitOn_intercalate ',' (plain_names bs) (List.map_eq_nil_iff.not.mpr h)

theorem index_names : index ([','].intercalate (bs.map Inst.name)) b.name ≠ 0 ↔
    ∃ c ∈ bs, b.name <:+: c.name := by
  rw [index_ne_zero, infix_intercalate (name_ne_nil b) (comma_not_mem b)]
  simp

theorem index_comma : index ([','].intercalate (bs.map Inst.name)) [','] = 0 ↔ bs.length ≤ 1 := by
  rw [index_eq_zero, List.singleton_infix_iff]
  match bs with
  | [] => simp
  | [c] => simpa using comma_not_mem c
  | b :: c :: cs => simp

end Names

/-- A start of `b` at the source `a` finds the name of `b` in the line only if `b` is there. -/
def AddFits (a b : Text) (l : Line) : Prop :=
  l.col1 = SRCTO → l.col2 = a → b ∈ entries l ∨ ∀ w ∈ entries l, ¬ b <:+: w

/-- A stop of `b` at the source `a` finds no other in the line. -/
def DelFits (a b : Text) (l : Line) : Prop :=
  l.col1 = SRCTO → l.col2 = a →
    (a = b ∨ (entries l).length = 1 → entries l = [b]) ∧ ∀ w ∈ entries l, b <:+: w → w = b

/-- The receiver `b` does not receive from another. -/
def RcvFits (a b : Text) (l : Line) : Prop := l.col1 = RCVFROM → l.col2 = b → l.col3 = a

instance (a b : Text) (l : Line) : Decidable (AddFits a b l) :=
  inferInstanceAs (Decidable (_ → _ → _ ∨ _))

instance (a b : Text) (l : Line) : Decidable (DelFits a b l) :=
  inferInstanceAs (Decidable (_ → _ → _ ∧ _))

instance (a b : Text) (l : Line) : Decidable (RcvFits a b l) :=
  inferInstanceAs (Decidable (_ → _ → _))

section Add

variable {a b : Inst} {rows : List Row}

def Row.add (a b : Inst) : Row → Row
  | .srcto a' bs ne nodup =>
    if h : a = a' ∧ b ∉ bs then
      .srcto a' (bs ++ [b]) (List.append_ne_nil_of_left_ne_nil ne _)
        (nodup.append (List.nodup_singleton b) (by simpa using h.2))
    else .srcto a' bs ne nodup
  | r => r

theorem addLine_row {arg3 : Side} (harg3 : arg3.src = true) (r : Row)
    (h : AddFits a.name b.name r.line) : addLine a.name b.name arg3 r.line = (r.add a b).line := by
  cases r with
  | rcvfrom b' a' => simp [addLine, Row.line, Row.add, srcto_ne_rcvfrom.symm]
  | srcto a' bs ne nodup =>
    have hindex : a = a' → (index ([','].intercalate (bs.map Inst.name)) b.name = 0 ↔ b ∉ bs) := by
      rintro rfl
      have hfits := h rfl rfl
      rw [entries, Row.line, splitOn_names ne, List.mem_map_of_injective name_injective,
        List.forall_mem_map] at hfits
      rw [← not_iff_not, not_not, ← ne_eq, index_names]
      refine ⟨?_, fun hb => ⟨b, hb, List.infix_rfl⟩⟩
      rintro ⟨c, hc, hbc⟩
      exact hfits.resolve_right (fun hnone => hnone c hc hbc)
    simp only [addLine, Row.line, Row.add, harg3]
    by_cases ha : a = a'
    · by_cases hb : b ∉ bs
      · have := (hindex ha).mpr hb
        have hmap : bs.map Inst.name ≠ [] := List.map_eq_nil_iff.not.mpr ne
        simp [ha, hb, this, intercalate_concat hmap]
      · have := (hindex ha).not.mpr hb
        simp [ha, hb, this]
    · have hname : a.name ≠ a'.name := fun h => ha (name_injective h)
      simp [ha, hname]

def HasSrc (rows : List Row) (a : Inst) : Prop := ∃ bs ne nodup, .srcto a bs ne nodup ∈ rows

theorem any_srcto : ((rows.map Row.line).any fun l => l.col1 = SRCTO && a.name = l.col2) = true ↔
    HasSrc rows a := by
  rw [List.any_map, List.any_eq_true]
  refine ⟨?_, ?_⟩
  · rintro ⟨r, hr, h⟩
    simp only [Function.comp_apply, Bool.and_eq_true, decide_eq_true_eq] at h
    cases r with
    | srcto a' bs ne nodup =>
      cases name_injective h.2
      exact ⟨bs, ne, nodup, hr⟩
    | rcvfrom b a' => exact absurd h.1 srcto_ne_rcvfrom.symm
  · rintro ⟨bs, ne, nodup, hr⟩
    exact ⟨_, hr, by simp [Row.line]⟩

theorem any_rcvfrom (p : Text → Bool) : ((rows.map Row.line).any fun l =>
      l.col1 = RCVFROM && b.name = l.col2 && p l.col3) = true ↔
    ∃ a', RcvFrom rows a' b ∧ p a'.name = true := by
  rw [List.any_map, List.any_eq_true]
  refine ⟨?_, ?_⟩
  · rintro ⟨r, hr, h⟩
    simp only [Function.comp_apply, Bool.and_eq_true, decide_eq_true_eq] at h
    cases r with
    | srcto a' bs ne nodup => exact absurd h.1.1 srcto_ne_rcvfrom
    | rcvfrom b' a' =>
      cases name_injective h.1.2
      exact ⟨a', hr, h.2⟩
  · rintro ⟨a', hr, hp⟩
    exact ⟨_, hr, by simp [Row.line, hp]⟩

theorem srcTo_append {rows' : List Row} {x y : Inst} :
    SrcTo (rows ++ rows') x y ↔ SrcTo rows x y ∨ SrcTo rows' x y := by
  simp only [SrcTo, List.mem_append, or_and_right, exists_or]

theorem rcvFrom_append {rows' : List Row} {x y : Inst} :
    RcvFrom (rows ++ rows') x y ↔ RcvFrom rows x y ∨ RcvFrom rows' x y :=
  List.mem_append

theorem srcTo_map_add {x y : Inst} : SrcTo (rows.map (Row.add a b)) x y ↔
    SrcTo rows x y ∨ (x = a ∧ y = b) ∧ HasSrc rows a := by
  refine ⟨?_, ?_⟩
  · rintro ⟨bs, ne, nodup, hmap, hy⟩
    obtain ⟨r, hr, heq⟩ := List.mem_map.mp hmap
    cases r with
    | rcvfrom b' a' => exact nomatch heq
    | srcto a' bs' ne' nodup' =>
      rw [Row.add] at heq
      split_ifs at heq with h
      · cases heq
        obtain ⟨rfl, -⟩ := h
        obtain hy | hy := List.mem_append.mp hy
        · exact .inl ⟨bs', ne', nodup', hr, hy⟩
        · exact .inr ⟨⟨rfl, List.mem_singleton.mp hy⟩, bs', ne', nodup', hr⟩
      · cases heq
        exact .inl ⟨bs, ne, nodup, hr, hy⟩
  · have hmem : ∀ {x' : Inst} {bs ne nodup}, .srcto x' bs ne nodup ∈ rows →
        ∃ bs' ne' nodup', .srcto x' bs' ne' nodup' ∈ rows.map (Row.add a b) ∧
          (∀ y ∈ bs, y ∈ bs') ∧ (a = x' → b ∈ bs') := by
      intro x' bs ne nodup hr
      have hadd := @List.mem_map_of_mem _ _ _ _ (Row.add a b) hr
      rw [Row.add] at hadd
      split_ifs at hadd with h
      · exact ⟨_, _, _, hadd, fun y hy => List.mem_append_left _ hy,
          fun _ => List.mem_append_right _ (List.mem_singleton_self b)⟩
      · exact ⟨_, _, _, hadd, fun y hy => hy, fun ha => by_contra fun hb => h ⟨ha, hb⟩⟩
    rintro (⟨bs, ne, nodup, hr, hy⟩ | ⟨⟨rfl, rfl⟩, bs, ne, nodup, hr⟩)
    · obtain ⟨bs', ne', nodup', hr', hsub, -⟩ := hmem hr
      exact ⟨bs', ne', nodup', hr', hsub y hy⟩
    · obtain ⟨bs', ne', nodup', hr', -, hb⟩ := hmem hr
      exact ⟨bs', ne', nodup', hr', hb rfl⟩

theorem rcvFrom_map_add {x y : Inst} : RcvFrom (rows.map (Row.add a b)) x y ↔ RcvFrom rows x y := by
  refine ⟨?_, fun h => List.mem_map.mpr ⟨_, h, rfl⟩⟩
  intro h
  obtain ⟨r, hr, heq⟩ := List.mem_map.mp h
  cases r with
  | rcvfrom b' a' =>
    cases heq
    exact hr
  | srcto a' bs ne nodup =>
    rw [Row.add] at heq
    split_ifs at heq

theorem alllinks_map (t : List Line) : alllinks (t.map some) = t := by
  induction t with
  | nil => rfl
  | cons l t ih => rw [List.map_cons, alllinks, ih]

variable {S R : Inst → Inst → Prop} {t : List Line} {f : File} {arg3 : Side}

theorem holds_congr {S' R' : Inst → Inst → Prop} (h : Holds S R t) (hS : ∀ x y, S x y ↔ S' x y)
    (hR : ∀ x y, R x y ↔ R' x y) : Holds S' R' t := by
  obtain ⟨rows, ht, hS', hR'⟩ := h
  exact ⟨rows, ht, fun x y => (hS' x y).trans (hS x y), fun x y => (hR' x y).trans (hR x y)⟩

theorem holds_addLine (h : Holds S R t)
    (hfits : arg3.src = true → ∀ l ∈ t, AddFits a.name b.name l) :
    Holds (fun x y => S x y ∨ arg3.src = true ∧ (x = a ∧ y = b) ∧
        (t.any fun l => l.col1 = SRCTO && a.name = l.col2) = true) R
      (t.map (addLine a.name b.name arg3)) := by
  obtain ⟨rows, rfl, hS, hR⟩ := h
  cases hsrc : arg3.src
  · refine ⟨rows, ?_, fun x y => ?_, hR⟩
    · rw [List.map_map]
      apply List.map_congr_left
      intro r _
      simp [addLine, hsrc]
    · simp [hS]
  · refine ⟨rows.map (Row.add a b), ?_, fun x y => ?_, fun x y => rcvFrom_map_add.trans (hR x y)⟩
    · rw [List.map_map, List.map_map]
      apply List.map_congr_left
      intro r hr
      exact addLine_row hsrc r (hfits hsrc _ (List.mem_map_of_mem hr))
    · simp only [srcTo_map_add, hS, any_srcto, true_and]

theorem holds_concat_srcto (h : Holds S R t) (new : Bool) :
    Holds (fun x y => S x y ∨ new = true ∧ x = a ∧ y = b) R
      (t ++ if new then [⟨SRCTO, a.name, b.name⟩] else []) := by
  cases new
  · simpa using h
  · obtain ⟨rows, rfl, hS, hR⟩ := h
    refine ⟨rows ++ [.srcto a [b] (List.cons_ne_nil _ _) (List.nodup_singleton b)], ?_, ?_, ?_⟩
    · simp [Row.line]
    · intro x y
      rw [srcTo_append, hS]
      simp [SrcTo]
    · intro x y
      rw [rcvFrom_append, hR]
      simp [RcvFrom]

theorem holds_concat_rcvfrom (h : Holds S R t) (new : Bool) :
    Holds S (fun x y => R x y ∨ new = true ∧ x = a ∧ y = b)
      (t ++ if new then [⟨RCVFROM, b.name, a.name⟩] else []) := by
  cases new
  · simpa using h
  · obtain ⟨rows, rfl, hS, hR⟩ := h
    refine ⟨rows ++ [.rcvfrom b a], ?_, ?_, ?_⟩
    · rw [List.map_append]
      rfl
    · intro x y
      rw [srcTo_append, hS]
      simp [SrcTo]
    · intro x y
      rw [rcvFrom_append, hR]
      simp [RcvFrom, and_comm]

theorem holds_add (h : Holds S R t) (hfits : arg3.src = true → ∀ l ∈ t, AddFits a.name b.name l)
    (hf : update_links_add a.name b.name arg3 t = some f) :
    Holds (fun x y => S x y ∨ arg3.src = true ∧ x = a ∧ y = b)
      (fun x y => R x y ∨ arg3.rcv = true ∧ x = a ∧ y = b) (alllinks f) := by
  have hlines := holds_addLine h hfits
  obtain ⟨rows, rfl, hS, hR⟩ := h
  simp only [update_links_add] at hf
  split at hf
  · exact nomatch hf
  · rename_i hno
    cases hf
    rw [alllinks_map]
    refine holds_congr (holds_concat_rcvfrom (holds_concat_srcto hlines _) _) ?_ ?_
    · intro x y
      cases arg3.src <;> cases h : (rows.map Row.line).any fun l => l.col1 = SRCTO && a.name = l.col2
        <;> simp
    · intro x y
      cases hrcv : arg3.rcv
      · simp
      · cases hany : (rows.map Row.line).any fun l => l.col1 = RCVFROM && b.name = l.col2
        · simp
        · have hb := @any_rcvfrom b rows (fun _ => true)
          simp only [Bool.and_true, hany, true_iff, and_true] at hb
          obtain ⟨a', ha'⟩ := hb
          have ha : a = a' := by
            by_contra hne
            apply hno
            rw [hrcv, Bool.true_and, any_rcvfrom (fun z => decide (a.name ≠ z))]
            exact ⟨a', ha', by simpa using fun h => hne (name_injective h)⟩
          rw [← ha, hR] at ha'
          simp only [Bool.not_true, Bool.and_false, Bool.false_eq_true, false_and, or_false,
            true_and, iff_self_or]
          rintro ⟨rfl, rfl⟩
          exact ha'

end Add

section Del

variable {a b : Inst} {rows : List Row} {S R : Inst → Inst → Prop} {t : List Line} {type : Side}

theorem alllinks_del (arg1 arg2 : Text) (t : List Line) : alllinks (update_links_del type arg1 arg2 t) =
    t.filterMap fun l => (delLine type arg1 arg2 l).map Prod.fst := by
  have hblank : ∀ (ls : List Line) (b : Bool),
      alllinks (ls.map some ++ if b then [] else [none]) = ls := by
    intro ls b
    induction ls with
    | nil => cases b <;> rfl
    | cons l ls ih => rw [List.map_cons, List.cons_append, alllinks, ih]
  rw [update_links_del, ← Function.comp_def some Prod.fst, ← List.map_map, hblank, List.map_filterMap]

def Row.del (type : Side) (a b : Inst) : Row → Option Row
  | .rcvfrom b' a' => if type.rcv ∧ b' = b then none else some (.rcvfrom b' a')
  | .srcto a' bs ne nodup =>
    if type.src ∧ a' = a then
      if h : bs.erase b = [] then none else some (.srcto a' (bs.erase b) h (nodup.erase b))
    else some (.srcto a' bs ne nodup)

theorem sub_names {bs : List Inst} (hbs : ¬ bs.length ≤ 1)
    (hfits : ∀ c ∈ bs, b.name <:+: c.name → c = b) :
    (if index ([','].intercalate (bs.map Inst.name)) b.name = 1 then
        sub (b.name ++ [',']) ([','].intercalate (bs.map Inst.name))
      else sub (',' :: b.name) ([','].intercalate (bs.map Inst.name))) =
      [','].intercalate ((bs.erase b).map Inst.name) := by
  match bs with
  | [] => exact absurd (Nat.zero_le 1) hbs
  | [c] => exact absurd le_rfl hbs
  | c :: d :: cs =>
    rw [List.map_cons, intercalate_cons]
    by_cases hc : c = b
    · rw [hc, if_pos ((index_eq_one (name_ne_nil b)).mpr (List.prefix_append _ _)),
        List.erase_cons_head]
      have happ : b.name ++ after ',' ((d :: cs).map Inst.name) =
          (b.name ++ [',']) ++ [','].intercalate ((d :: cs).map Inst.name) := by
        rw [List.map_cons, intercalate_cons, List.append_assoc]
        rfl
      rw [happ, sub_append_self (by simp)]
    · have hpre : ¬ b.name <+: c.name ++ after ',' ((d :: cs).map Inst.name) := by
        intro h
        exact hc (hfits c List.mem_cons_self (prefix_after (comma_not_mem b) h).isInfix)
      have hrest : ∀ w ∈ (d :: cs).map Inst.name, b.name <+: w → w = b.name := by
        intro w hw hb
        obtain ⟨e, he, rfl⟩ := List.mem_map.mp hw
        rw [hfits e (List.mem_cons_of_mem _ he) hb.isInfix]
      rw [if_neg ((index_eq_one (name_ne_nil b)).not.mpr hpre),
        List.erase_cons_tail (by simpa using hc), sub_after_plain (comma_not_mem c),
        sub_after (comma_not_mem b) (plain_names _) hrest, ← List.map_erase name_injective,
        ← intercalate_cons]
      rfl

theorem delLine_srcto (htype : type.src = true) (x : Text) :
    delLine type a.name b.name ⟨SRCTO, a.name, x⟩ =
      if index x [','] = 0 ∨ a.name = b.name ∨ b.name = [] then none
      else some (⟨SRCTO, a.name, if index x b.name = 1 then sub (b.name ++ [',']) x
        else sub (',' :: b.name) x⟩, false) := by
  simp only [delLine, htype, srcto_ne_rcvfrom, decide_false, Bool.and_false, Bool.false_and,
    Bool.false_eq_true, if_false, decide_true, Bool.and_self, if_true]
  split_ifs <;> rfl

theorem delLine_other {arg1 arg2 : Text} {l : Line}
    (hrcv : ¬ (type.rcv = true ∧ l.col1 = RCVFROM ∧ l.col2 = arg2))
    (hsrc : ¬ (type.src = true ∧ l.col1 = SRCTO ∧ l.col2 = arg1)) :
    delLine type arg1 arg2 l = some (l, true) := by
  rw [delLine, if_neg (by simpa [and_assoc] using hrcv), if_neg (by simpa [and_assoc] using hsrc)]

theorem delLine_row (r : Row) (h : type.src = true → DelFits a.name b.name r.line) :
    (delLine type a.name b.name r.line).map Prod.fst = (r.del type a b).map Row.line := by
  cases r with
  | rcvfrom b' a' =>
    by_cases hb : b' = b
    · cases htype : type.rcv <;> simp [delLine, Row.line, Row.del, hb, htype, srcto_ne_rcvfrom.symm]
    · have hname : b'.name ≠ b.name := fun h => hb (name_injective h)
      simp [delLine, Row.line, Row.del, hb, hname, srcto_ne_rcvfrom.symm]
  | srcto a' bs ne nodup =>
    by_cases ha : type.src = true ∧ a' = a
    · obtain ⟨htype, rfl⟩ := ha
      obtain ⟨hone, hother⟩ := h htype rfl rfl
      rw [entries, Row.line, splitOn_names ne] at hone hother
      have hbs : a' = b ∨ bs.length ≤ 1 → bs = [b] := by
        intro hor
        have hlen : 0 < bs.length := List.length_pos_of_ne_nil ne
        have hmap := hone (hor.imp (congrArg _) (fun h => by rw [List.length_map]; omega))
        exact List.map_injective_iff.mpr name_injective (hmap.trans (List.map_singleton).symm)
      have hdel : (Row.srcto a' bs ne nodup).del type a' b =
          if h : bs.erase b = [] then none else some (.srcto a' (bs.erase b) h (nodup.erase b)) :=
        if_pos ⟨htype, rfl⟩
      rw [Row.line, delLine_srcto htype, hdel]
      by_cases hor : index ([','].intercalate (bs.map Inst.name)) [','] = 0 ∨ a'.name = b.name ∨
          b.name = []
      · have hab : a' = b ∨ bs.length ≤ 1 := by
          obtain h | h | h := hor
          · exact .inr (index_comma.mp h)
          · exact .inl (name_injective h)
          · exact absurd h (name_ne_nil b)
        rw [if_pos hor, dif_pos (by rw [hbs hab, List.erase_cons_head])]
        rfl
      · have hlen : ¬ bs.length ≤ 1 := fun h => hor (.inl (index_comma.mpr h))
        have herase : bs.erase b ≠ [] := by
          rw [← List.length_pos_iff, List.length_erase]
          split_ifs <;> omega
        rw [if_neg hor, dif_neg herase, sub_names hlen]
        · rfl
        · intro c hc hb
          exact name_injective (hother _ (List.mem_map_of_mem hc) hb)
    · have hname : ¬ (type.src = true ∧ SRCTO = SRCTO ∧ a'.name = a.name) :=
        fun h => ha ⟨h.1, name_injective h.2.2⟩
      rw [Row.line, delLine_other (fun h => srcto_ne_rcvfrom h.2.1) hname, Row.del, if_neg ha]
      rfl

theorem srcTo_del {x y : Inst} : SrcTo (rows.filterMap (Row.del type a b)) x y ↔
    SrcTo rows x y ∧ ¬ (type.src = true ∧ x = a ∧ y = b) := by
  refine ⟨?_, ?_⟩
  · rintro ⟨bs, ne, nodup, hmem, hy⟩
    obtain ⟨r, hr, heq⟩ := List.mem_filterMap.mp hmem
    cases r with
    | rcvfrom b' a' =>
      rw [Row.del] at heq
      split_ifs at heq
      exact nomatch heq
    | srcto a' bs' ne' nodup' =>
      rw [Row.del] at heq
      split_ifs at heq with ha hb
      · cases heq
        rw [nodup'.mem_erase_iff] at hy
        exact ⟨⟨bs', ne', nodup', hr, hy.2⟩, fun h => hy.1 h.2.2⟩
      · cases heq
        exact ⟨⟨bs, ne, nodup, hr, hy⟩, fun h => ha ⟨h.1, h.2.1⟩⟩
  · rintro ⟨⟨bs, ne, nodup, hr, hy⟩, hnot⟩
    by_cases ha : type.src = true ∧ x = a
    · have hy' : y ∈ bs.erase b := nodup.mem_erase_iff.mpr ⟨fun h => hnot ⟨ha.1, ha.2, h⟩, hy⟩
      refine ⟨bs.erase b, List.ne_nil_of_mem hy', nodup.erase b, ?_, hy'⟩
      exact List.mem_filterMap.mpr ⟨_, hr, (if_pos ha).trans (dif_neg (List.ne_nil_of_mem hy'))⟩
    · exact ⟨bs, ne, nodup, List.mem_filterMap.mpr ⟨_, hr, if_neg ha⟩, hy⟩

theorem rcvFrom_del {x y : Inst} : RcvFrom (rows.filterMap (Row.del type a b)) x y ↔
    RcvFrom rows x y ∧ ¬ (type.rcv = true ∧ y = b) := by
  refine ⟨?_, fun h => List.mem_filterMap.mpr ⟨_, h.1, if_neg h.2⟩⟩
  intro h
  obtain ⟨r, hr, heq⟩ := List.mem_filterMap.mp h
  cases r with
  | rcvfrom b' a' =>
    rw [Row.del] at heq
    split_ifs at heq with hb
    cases heq
    exact ⟨hr, hb⟩
  | srcto a' bs ne nodup =>
    rw [Row.del] at heq
    split_ifs at heq <;> exact nomatch heq

theorem holds_del (h : Holds S R t) (hfits : type.src = true → ∀ l ∈ t, DelFits a.name b.name l) :
    Holds (fun x y => S x y ∧ ¬ (type.src = true ∧ x = a ∧ y = b))
      (fun x y => R x y ∧ ¬ (type.rcv = true ∧ y = b))
      (alllinks (update_links_del type a.name b.name t)) := by
  obtain ⟨rows, rfl, hS, hR⟩ := h
  refine ⟨rows.filterMap (Row.del type a b), ?_, ?_, ?_⟩
  · rw [alllinks_del, List.filterMap_map, List.map_filterMap]
    apply List.filterMap_congr
    intro r hr
    exact delLine_row r fun hsrc => hfits hsrc _ (List.mem_map_of_mem hr)
  · intro x y
    rw [srcTo_del, hS]
  · intro x y
    rw [rcvFrom_del, hR]

def Row.keeps (type : Side) (a : Inst) : Row → Bool
  | .srcto a' _ _ _ => ¬ (type.src = true ∧ a' = a)
  | .rcvfrom b' _ => ¬ (type.rcv = true ∧ b' = a)

theorem delLine_keeps (r : Row) : (delLine type a.name a.name r.line).map Prod.fst =
    (Option.guard (Row.keeps type a) r).map Row.line := by
  have hname : ∀ {b : Inst}, b.name = a.name ↔ b = a := name_injective.eq_iff
  cases r with
  | rcvfrom b' a' =>
    by_cases h : type.rcv = true ∧ b' = a
    · rw [Option.guard, if_neg (by simp [Row.keeps, h])]
      simp [delLine, Row.line, h]
    · have hother : ¬ (type.rcv = true ∧ RCVFROM = RCVFROM ∧ b'.name = a.name) :=
        fun h' => h ⟨h'.1, hname.mp h'.2.2⟩
      have hkeeps : (Row.rcvfrom b' a').keeps type a = true := decide_eq_true h
      rw [Row.line, delLine_other hother (fun h => srcto_ne_rcvfrom h.2.1.symm), Option.guard,
        if_pos hkeeps]
      rfl
  | srcto a' bs ne nodup =>
    by_cases h : type.src = true ∧ a' = a
    · rw [Option.guard, if_neg (by simp [Row.keeps, h])]
      obtain ⟨htype, rfl⟩ := h
      rw [Row.line, delLine_srcto htype, if_pos (.inr (.inl rfl))]
      rfl
    · have hother : ¬ (type.src = true ∧ SRCTO = SRCTO ∧ a'.name = a.name) :=
        fun h' => h ⟨h'.1, hname.mp h'.2.2⟩
      have hkeeps : (Row.srcto a' bs ne nodup).keeps type a = true := decide_eq_true h
      rw [Row.line, delLine_other (fun h => srcto_ne_rcvfrom h.2.1) hother, Option.guard,
        if_pos hkeeps]
      rfl

theorem holds_delInst (h : Holds S R t) :
    Holds (fun x y => S x y ∧ ¬ (type.src = true ∧ x = a))
      (fun x y => R x y ∧ ¬ (type.rcv = true ∧ y = a))
      (alllinks (update_links_del type a.name a.name t)) := by
  obtain ⟨rows, rfl, hS, hR⟩ := h
  refine ⟨rows.filter (Row.keeps type a), ?_, ?_, ?_⟩
  · rw [alllinks_del, List.filterMap_map, ← List.filterMap_eq_filter, List.map_filterMap]
    apply List.filterMap_congr
    intro r _
    exact delLine_keeps r
  · intro x y
    simp only [← hS, SrcTo, List.mem_filter, Row.keeps, decide_eq_true_eq, and_right_comm,
      exists_and_right]
  · intro x y
    simp only [← hR, RcvFrom, List.mem_filter, Row.keeps, decide_eq_true_eq]

end Del

end YdbTest.LinkRows
