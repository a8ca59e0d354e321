import YdbTest.MString

namespace YdbTest.Pieces

open MString

theorem not_mem_of_mem_splitOn {α : Type*} [BEq α] [LawfulBEq α] {d : α} {s l : List α}
    (h : l ∈ s.splitOn d) : d ∉ l := by
  induction s generalizing l with
  | nil =>
    rw [List.splitOn_nil, List.mem_singleton] at h
    simp [h]
  | cons a s ih =>
    rw [List.splitOn_cons_eq_if_modifyHead] at h
    split at h
    · obtain rfl | h := List.mem_cons.mp h
      · simp
      · exact ih h
    · rename_i had
      cases hs : s.splitOn d with
      | nil => exact absurd hs (List.splitOn_ne_nil d s)
      | cons x xs =>
        rw [hs, List.modifyHead_cons] at h
        obtain rfl | h := List.mem_cons.mp h
        · simp only [List.mem_cons, not_or]
          exact ⟨fun hda => had (by simp [hda]), ih (by rw [hs]; exact List.mem_cons_self)⟩
        · exact ih (by rw [hs]; exact List.mem_cons_of_mem _ h)

theorem splitOn_filter (p : Nat → Bool) {d : Nat} (hd : p d = true) (s : Str) :
    (s.filter p).splitOn d = (s.splitOn d).map (List.filter p) := by
  induction s with
  | nil => simp [List.splitOn_nil]
  | cons a s ih =>
    rw [List.splitOn_cons_eq_if_modifyHead]
    cases hs : s.splitOn d with
    | nil => exact absurd hs (List.splitOn_ne_nil d s)
    | cons x xs =>
      rw [hs] at ih
      by_cases ha : a = d
      · rw [ha, List.filter_cons_of_pos hd, List.splitOn_cons_eq_if_modifyHead, ih]
        simp
      · have hne : (a == d) = false := by simpa using ha
        by_cases hp : p a = true
        · rw [List.filter_cons_of_pos hp, List.splitOn_cons_eq_if_modifyHead, ih]
          simp [hne, hp]
        · rw [List.filter_cons_of_neg hp, ih]
          simp [hne, hp]

theorem intercalate_filter (p : Nat → Bool) {d : Nat} (hd : p d = true) (ls : List Str) :
    ([d].intercalate ls).filter p = [d].intercalate (ls.map (List.filter p)) := by
  induction ls with
  | nil => rfl
  | cons x xs ih =>
    cases xs with
    | nil => simp [List.intercalate_singleton]
    | cons y ys =>
      rw [List.map_cons, List.map_cons, List.intercalate_cons_cons, List.intercalate_cons_cons,
        List.filter_append, List.filter_append, ih]
      simp [hd]

theorem setPiece_filter (p : Nat → Bool) {d : Nat} (hd : p d = true) (s : Str) (n : Nat)
    (v : Str) : (setPiece s d n v).filter p = setPiece (s.filter p) d n (v.filter p) := by
  unfold setPiece
  split
  · rfl
  · simp only [intercalate_filter p hd, splitOn_filter p hd, List.map_set, List.map_append,
      List.map_replicate, List.length_map, List.filter_nil]

theorem splitOn_setPiece {s v : Str} {d n : Nat} (hn : n ≠ 0) (hv : d ∉ v) :
    (setPiece s d n v).splitOn d =
      (s.splitOn d ++ List.replicate (n - (s.splitOn d).length) []).set (n - 1) v := by
  rw [setPiece, if_neg hn]
  refine List.splitOn_intercalate d ?_ ?_
  · intro l hl
    obtain hl | rfl := List.mem_or_eq_of_mem_set hl
    · rw [List.mem_append] at hl
      obtain hl | hl := hl
      · exact not_mem_of_mem_splitOn hl
      · rw [List.eq_of_mem_replicate hl]
        simp
    · exact hv
  · intro h
    have hlen := congrArg List.length h
    have hpos := List.length_pos_iff.mpr (List.splitOn_ne_nil d s)
    rw [List.length_set, List.length_append, List.length_nil] at hlen
    omega

theorem piece_setPiece {s v : Str} {d n : Nat} (hn : n ≠ 0) (hv : d ∉ v) :
    piece (setPiece s d n v) d n = v := by
  have hpos := List.length_pos_iff.mpr (List.splitOn_ne_nil d s)
  rw [piece, if_neg hn, splitOn_setPiece hn hv, List.getD_eq_getElem?_getD,
    List.getElem?_set_self (by rw [List.length_append, List.length_replicate]; omega)]
  rfl

theorem not_mem_piece (s : Str) (d n : Nat) : d ∉ piece s d n := by
  unfold piece
  split
  · simp
  · rw [List.getD_eq_getElem?_getD]
    cases hp : (s.splitOn d)[n - 1]? with
    | none => simp
    | some x => exact not_mem_of_mem_splitOn (List.mem_of_getElem? hp)

theorem not_mem_translate {s : Str} {a b : Nat} (h : a ≠ b) : a ∉ translate s a b := by
  intro hm
  obtain ⟨x, -, hx⟩ := List.mem_map.mp hm
  split at hx
  · exact h hx.symm
  · contradiction

theorem not_mem_translate_of_ne {s : Str} {a b x : Nat} (hs : x ∉ s) (hb : x ≠ b) :
    x ∉ translate s a b := by
  intro hm
  obtain ⟨y, hy, hx⟩ := List.mem_map.mp hm
  split at hx
  · exact hb hx.symm
  · exact hs (hx ▸ hy)

theorem translateOut_eq_self {s : Str} {a : Nat} (h : a ∉ s) : translateOut s a = s := by
  rw [translateOut, List.filter_eq_self]
  intro x hx
  simp only [bne_iff_ne, ne_eq]
  exact fun he => h (he ▸ hx)

theorem piece_fields {d : Nat} {ws : List Str} (hw : ∀ w ∈ ws, d ∉ w) (hne : ws ≠ []) (k : Nat) :
    piece ([d].intercalate ws) d (k + 1) = ws.getD k [] := by
  rw [piece, if_neg (Nat.succ_ne_zero k), List.splitOn_intercalate d hw hne, Nat.add_sub_cancel]

theorem piece_intercalate {d : Nat} {ws : List Str} (hw : ∀ w ∈ ws, d ∉ w) {k : Nat}
    (hk : k < ws.length) : piece ([d].intercalate ws) d (k + 1) = ws[k] := by
  rw [piece_fields hw (List.ne_nil_of_length_pos (by omega)), List.getD_eq_getElem?_getD,
    List.getElem?_eq_getElem hk, Option.getD_some]

theorem piece_first {d : Nat} {p : Str} (hp : d ∉ p) (s : Str) : piece (p ++ d :: s) d 1 = p := by
  rw [piece, if_neg Nat.one_ne_zero, List.splitOn_append_cons_self_of_not_mem hp]
  rfl

end YdbTest.Pieces
