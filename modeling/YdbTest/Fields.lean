import Mathlib.Data.List.Basic

namespace YdbTest.Fields

variable {α : Type*} (blank : α → Bool)

def fields (l : List α) : List (List α) := (l.splitOnP blank).filter fun w => !w.isEmpty

def ljust (n : Nat) (b : α) (w : List α) : List α := w ++ List.replicate (n - w.length) b

def rjust (n : Nat) (b : α) (w : List α) : List α := List.replicate (n - w.length) b ++ w

variable {blank} {b : α} {w l : List α} {n : Nat}

theorem fields_blank (hb : blank b = true) : fields blank (b :: l) = fields blank l := by
  rw [fields, List.splitOnP_cons_eq_if_modifyHead, if_pos hb]
  rfl

theorem fields_replicate (hb : blank b = true) (k : Nat) :
    fields blank (List.replicate k b ++ l) = fields blank l := by
  induction k with
  | zero => rfl
  | succ k ih => rw [List.replicate_succ, List.cons_append, fields_blank hb, ih]

theorem fields_last (hne : w ≠ []) (hw : ∀ c ∈ w, blank c = false) : fields blank w = [w] := by
  rw [fields, List.splitOnP_eq_singleton hw]
  exact List.filter_cons_of_pos (by simpa using hne)

theorem fields_word (hne : w ≠ []) (hw : ∀ c ∈ w, blank c = false) (hb : blank b = true) :
    fields blank (w ++ b :: l) = w :: fields blank l := by
  rw [fields, List.splitOnP_append_cons_of_forall_mem hw b hb]
  exact List.filter_cons_of_pos (by simpa using hne)

theorem fields_front (hne : w ≠ []) (hw : ∀ c ∈ w, blank c = false)
    (hl : ∀ c, l.head? = some c → blank c = true) : fields blank (w ++ l) = w :: fields blank l := by
  cases l with
  | nil =>
    rw [List.append_nil]
    exact fields_last hne hw
  | cons b l => rw [fields_word hne hw (hl b rfl), fields_blank (hl b rfl)]

theorem mem_fields_append {v : List α} (hw : ∀ c ∈ w, blank c = false)
    (hv : v ∈ fields blank (w ++ l)) : v ≠ [] ∧ ∀ c ∈ v, blank c = false := by
  induction l generalizing w with
  | nil =>
    rw [List.append_nil] at hv
    by_cases hne : w = []
    · rw [hne] at hv
      cases hv
    · rw [fields_last hne hw, List.mem_singleton] at hv
      exact hv ▸ ⟨hne, hw⟩
  | cons b l ih =>
    by_cases hb : blank b = true
    · by_cases hne : w = []
      · rw [hne, List.nil_append, fields_blank hb] at hv
        exact ih (w := []) (fun c hc => by cases hc) hv
      · rw [fields_word hne hw hb] at hv
        obtain rfl | hv := List.mem_cons.mp hv
        · exact ⟨hne, hw⟩
        · exact ih (w := []) (fun c hc => by cases hc) hv
    · rw [List.append_cons] at hv
      refine ih ?_ hv
      intro c hc
      obtain hc | hc := List.mem_append.mp hc
      · exact hw c hc
      · rw [List.mem_singleton.mp hc]
        simpa using hb

theorem mem_fields {v : List α} (hv : v ∈ fields blank l) : v ≠ [] ∧ ∀ c ∈ v, blank c = false :=
  mem_fields_append (w := []) (fun c hc => by cases hc) hv

theorem fields_ljust (hne : w ≠ []) (hw : ∀ c ∈ w, blank c = false) (hb : blank b = true) :
    fields blank (ljust n b w ++ b :: l) = w :: fields blank l := by
  have hpad : List.replicate (n - w.length) b ++ b :: l =
      b :: (List.replicate (n - w.length) b ++ l) := by
    rw [← List.cons_append, ← List.replicate_succ, List.replicate_succ', List.append_assoc]
    rfl
  rw [ljust, List.append_assoc, hpad, fields_word hne hw hb, fields_replicate hb]

theorem fields_rjust (hne : w ≠ []) (hw : ∀ c ∈ w, blank c = false) (hb : blank b = true) :
    fields blank (rjust n b w) = [w] := by
  rw [rjust, fields_replicate hb, fields_last hne hw]

/-- A line is empty, or begins with a blank, or with a word that is alone or before a blank. -/
@[elab_as_elim]
theorem line_induction {P : List α → Prop} (nil : P [])
    (gap : ∀ b l, blank b = true → P l → P (b :: l))
    (last : ∀ w, w ≠ [] → (∀ c ∈ w, blank c = false) → P w)
    (word : ∀ w b l, w ≠ [] → (∀ c ∈ w, blank c = false) → blank b = true → P l → P (w ++ b :: l))
    (l : List α) : P l := by
  have hsplit : ∀ l w, (∀ c ∈ w, blank c = false) → (w = [] → P l) ∧ (w ≠ [] → P (w ++ l)) := by
    intro l
    induction l with
    | nil =>
      intro w hw
      refine ⟨fun _ => nil, fun hne => ?_⟩
      rw [List.append_nil]
      exact last w hne hw
    | cons b l ih =>
      intro w hw
      have hl : P l := (ih [] (fun c hc => by cases hc)).1 rfl
      by_cases hb : blank b = true
      · exact ⟨fun _ => gap b l hb hl, fun hne => word w b l hne hw hb hl⟩
      · have hword : ∀ c ∈ w ++ [b], blank c = false := by
          intro c hc
          obtain hc | hc := List.mem_append.mp hc
          · exact hw c hc
          · rw [List.mem_singleton.mp hc]
            exact Bool.eq_false_iff.mpr hb
        have hrest := (ih (w ++ [b]) hword).2 (by simp)
        rw [← List.append_cons] at hrest
        refine ⟨fun h => ?_, fun _ => hrest⟩
        rw [h] at hrest
        exact hrest
  exact (hsplit l [] (fun c hc => by cases hc)).1 rfl

def WordCut (blank : α → Bool) (l l' : List α) : Prop :=
  (∃ c, l.getLast? = some c ∧ blank c = false) ∧ ∃ c, l'.head? = some c ∧ blank c = false

theorem WordCut.right (h : WordCut blank w l) : ∃ c l', l = c :: l' ∧ blank c = false := by
  obtain ⟨_, c, hc, hb⟩ := h
  obtain ⟨l', rfl⟩ := List.head?_eq_some_iff.mp hc
  exact ⟨c, l', rfl, hb⟩

theorem wordCut_gap {l' : List α} (hb : blank b = true) :
    WordCut blank (b :: l) l' ↔ WordCut blank l l' := by
  cases l with
  | nil => simp [WordCut, hb]
  | cons c l => simp [WordCut]

theorem wordCut_word {l' : List α} (hb : blank b = true) :
    WordCut blank (w ++ b :: l) l' ↔ WordCut blank l l' := by
  rw [← wordCut_gap (l := l) hb, WordCut, WordCut,
    List.getLast?_append_of_ne_nil w (List.cons_ne_nil b l)]

theorem fields_wordCut {c : α} {l' : List α} (hw : ∀ c ∈ w, blank c = false) (hc : blank c = false) :
    (fields blank (w ++ c :: l')).length = (fields blank (c :: l')).length := by
  have hfront : ∀ d ∈ c :: l'.takeWhile fun d => !blank d, blank d = false := by
    rw [List.forall_mem_cons]
    refine ⟨hc, fun d hd => ?_⟩
    simpa using List.all_eq_true.mp List.all_takeWhile d hd
  have hgap : ∀ d, (l'.dropWhile fun d => !blank d).head? = some d → blank d = true := by
    intro d hd
    have := List.head?_dropWhile_not (fun d => !blank d) l'
    rw [hd] at this
    simpa using this
  have hsplit : c :: l' = (c :: l'.takeWhile fun d => !blank d) ++ l'.dropWhile fun d => !blank d := by
    rw [List.cons_append, List.takeWhile_append_dropWhile]
  have hword : ∀ d ∈ w ++ c :: l'.takeWhile fun d => !blank d, blank d = false := by
    intro d hd
    exact (List.mem_append.mp hd).elim (hw d) (hfront d)
  rw [hsplit, ← List.append_assoc, fields_front (by simp) hword hgap,
    fields_front (List.cons_ne_nil _ _) hfront hgap]
  rfl

theorem fields_append (l l' : List α) :
    (¬ WordCut blank l l' → fields blank (l ++ l') = fields blank l ++ fields blank l') ∧
      (WordCut blank l l' →
        (fields blank l).length + (fields blank l').length = (fields blank (l ++ l')).length + 1) := by
  induction l using @line_induction α blank with
  | nil => exact ⟨fun _ => rfl, fun ⟨⟨c, hc, _⟩, _⟩ => nomatch hc⟩
  | gap b l hb ih => rwa [wordCut_gap hb, List.cons_append, fields_blank hb, fields_blank hb]
  | last w hne hw =>
    have hlast : ∃ c, w.getLast? = some c ∧ blank c = false :=
      ⟨_, List.getLast?_eq_some_getLast hne, hw _ (List.getLast_mem hne)⟩
    rw [fields_last hne hw]
    constructor
    · intro hnot
      refine fields_front hne hw fun c hc => ?_
      by_contra hb
      exact hnot ⟨hlast, c, hc, Bool.eq_false_iff.mpr hb⟩
    · intro h
      obtain ⟨c, l', rfl, hc⟩ := h.right
      rw [fields_wordCut hw hc, Nat.add_comm]
      rfl
  | word w b l hne hw hb ih =>
    rw [wordCut_word hb, List.append_assoc, List.cons_append, fields_word hne hw hb,
      fields_word hne hw hb, List.cons_append]
    refine ⟨fun h => congrArg _ (ih.1 h), fun h => ?_⟩
    have := ih.2 h
    simp only [List.length_cons]
    omega

end YdbTest.Fields
