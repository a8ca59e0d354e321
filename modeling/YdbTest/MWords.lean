import YdbTest.Fields
import YdbTest.Pieces
import YdbTest.Separated

namespace YdbTest.MWords

open MString Fields Pieces Separated

def blank (c : Nat) : Bool := c == 9 || c == space

def squeeze : Bool → Str → Str
  | _, [] => []
  | written, c :: s =>
    if blank c then if written then squeeze true s else space :: squeeze true s
    else c :: squeeze false s

def MPIECE (s : Str) : Str := squeeze false s

def trimEnd : Str → Str
  | [] => []
  | c :: s => if trimEnd s = [] ∧ blank c then [] else c :: trimEnd s

def TRIM (s : Str) : Str := trimEnd (s.dropWhile blank)

def words (s : Str) : List Str := fields blank s

variable {s t w : Str} {c : Nat}

theorem blank_space : blank space = true := rfl

theorem not_mem_space (hw : w ∈ words s) : space ∉ w :=
  fun hc => Bool.noConfusion ((mem_fields hw).2 space hc)

theorem join_words (h : words s ≠ []) : [space].intercalate (words s) ≠ [] := by
  cases hs : words s with
  | nil => exact absurd hs h
  | cons w ws =>
    have hne := (mem_fields (show w ∈ words s by rw [hs]; exact List.mem_cons_self)).1
    rw [intercalate_cons]
    exact List.append_ne_nil_of_left_ne_nil hne _

theorem trimEnd_append (hw : ∀ c ∈ w, blank c = false) : trimEnd (w ++ t) = w ++ trimEnd t := by
  induction w with
  | nil => rfl
  | cons c w ih =>
    obtain ⟨hc, hw⟩ := List.forall_mem_cons.mp hw
    rw [List.cons_append, trimEnd, ih hw, if_neg (by rw [hc]; simp), List.cons_append]

theorem trimEnd_word (hw : ∀ c ∈ w, blank c = false) : trimEnd w = w := by
  have h := trimEnd_append (t := []) hw
  rwa [List.append_nil, trimEnd, List.append_nil] at h

theorem squeeze_word (hc : blank c = false) (b : Bool) :
    squeeze b (c :: s) = [c] ++ squeeze false s := by
  rw [squeeze, if_neg (by rw [hc]; exact Bool.false_ne_true)]
  rfl

theorem join_word (hne : w ≠ []) (hw : ∀ c ∈ w, blank c = false) (hc : blank c = true)
    (hs : trimEnd (squeeze true s) = [space].intercalate (words s)) :
    trimEnd (w ++ space :: squeeze true s) = [space].intercalate (words (w ++ c :: s)) := by
  have hwords : words (w ++ c :: s) = w :: words s := fields_word hne hw hc
  rw [trimEnd_append hw, trimEnd, hs, hwords]
  by_cases hws : words s = []
  · rw [hws, if_pos ⟨rfl, rfl⟩, List.append_nil, List.intercalate_singleton]
  · rw [if_neg fun h => join_words hws h.1]
    cases hws' : words s with
    | nil => exact absurd hws' hws
    | cons v vs => rw [List.intercalate_cons_cons, List.append_assoc, List.singleton_append]

theorem trimEnd_squeeze (s : Str) :
    trimEnd (squeeze true s) = [space].intercalate (words s) ∧
      ∀ w, w ≠ [] → (∀ c ∈ w, blank c = false) →
        trimEnd (w ++ squeeze false s) = [space].intercalate (words (w ++ s)) := by
  induction s with
  | nil =>
    refine ⟨rfl, fun w hne hw => ?_⟩
    rw [squeeze, List.append_nil, trimEnd_word hw, words, fields_last hne hw,
      List.intercalate_singleton]
  | cons c s ih =>
    cases hc : blank c with
    | true =>
      have hspace : squeeze false (c :: s) = space :: squeeze true s := by
        rw [squeeze, if_pos hc]
        rfl
      refine ⟨?_, fun w hne hw => ?_⟩
      · rw [squeeze, if_pos hc, if_pos rfl, ih.1, words, words, fields_blank hc]
      · rw [hspace]
        exact join_word hne hw hc ih.1
    | false =>
      have hword : ∀ a ∈ [c], blank a = false := fun a ha => by rwa [List.mem_singleton.mp ha]
      refine ⟨?_, fun w hne hw => ?_⟩
      · rw [squeeze_word hc]
        exact ih.2 [c] (List.cons_ne_nil c []) hword
      · rw [squeeze_word hc, ← List.append_assoc, List.append_cons w c s]
        refine ih.2 (w ++ [c]) (by simp) ?_
        intro a ha
        exact (List.mem_append.mp ha).elim (hw a) (hword a)

theorem dropWhile_squeeze (s : Str) : (squeeze true s).dropWhile blank = squeeze true s := by
  induction s with
  | nil => rfl
  | cons c s ih =>
    cases hc : blank c with
    | true => rw [squeeze, if_pos hc, if_pos rfl, ih]
    | false => rw [squeeze_word hc, List.singleton_append, List.dropWhile_cons_of_neg (by simp [hc])]

theorem TRIM_MPIECE (s : Str) : TRIM (MPIECE s) = [space].intercalate (words s) := by
  rw [TRIM, MPIECE]
  cases s with
  | nil => rfl
  | cons c s =>
    cases hc : blank c with
    | true =>
      rw [squeeze, if_pos hc, if_neg Bool.false_ne_true, List.dropWhile_cons_of_pos blank_space,
        dropWhile_squeeze, (trimEnd_squeeze s).1, words, words, fields_blank hc]
    | false =>
      rw [squeeze_word hc, List.singleton_append, List.dropWhile_cons_of_neg (by simp [hc])]
      exact (trimEnd_squeeze s).2 [c] (List.cons_ne_nil c [])
        fun a ha => by rwa [List.mem_singleton.mp ha]

theorem piece_words (s : Str) (k : Nat) :
    piece (TRIM (MPIECE s)) space (k + 1) = (words s).getD k [] := by
  rw [TRIM_MPIECE]
  by_cases h : words s = []
  · rw [h]
    cases k <;> rfl
  · exact piece_fields (fun w hw => not_mem_space hw) h k

end YdbTest.MWords
