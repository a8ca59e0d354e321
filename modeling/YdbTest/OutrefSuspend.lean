import YdbTest.OutrefFlags

namespace YdbTest.OutrefSuspend

open Awk Marks OutrefFlags

local instance lawfulBEq_text : LawfulBEq Text := inferInstance

def called (P : Platform) : List Text :=
  [P.tst_org_host, P.tst_machtype, P.tst_osname, P.tst_linux_distrib]

/-- The options that allowing `w` lifts: all platforms and the host for HOST_ALL, and with a name of the
machine all that goes with its platform. -/
def lifts (P : Platform) (w : Text) : List Text :=
  (if HOST_ALL ≠ w then [w] else P.all_platforms ++ [P.tst_org_host]) ++
    if w ∈ called P then P.machine else []

/-- Options and flags whose names do not get into each other's way; `ws` are those suspended at some
line. -/
structure Names (P : Platform) (envir ws lines : List Text) : Prop where
  word : ∀ w ∈ ws, Word w ∧ '#' ∉ w
  envir : ∀ v ∈ envir, '#' ∉ v ∧ (v = [] → ∀ w ∈ ws, '@' ∉ w)
  put : ∀ line ∈ lines, Marked SUSPEND_OUTPUT line → (names line).flatMap (adds P) ⊆ ws
  -- read as a pattern, a name that is lifted matches no other
  take : ∀ line ∈ lines, Marked ALLOW_OUTPUT line →
    ∀ p ∈ (names line).flatMap (lifts P), p.all simple ∧ Alone sign '#' ws p
  -- no name is a mere part of a name of the machine
  part : ∀ line ∈ lines, Marked ALLOW_OUTPUT line →
    ∀ w ∈ names line, index (envlist P) w ≠ 0 → w ∈ called P
  host : ∀ line ∈ lines, Marked ALLOW_OUTPUT line → HOST_ALL ∈ names line →
    P.tst_org_host ≠ [] ∧ P.tst_org_host ∉ ws

section Meant

variable {P : Platform} {ws envir us lines : List Text} {deny line w : Text}

theorem infix_later {p t : Text} (c : Char) (s : Text) (h : p <:+: t) : p <:+: s ++ c :: t :=
  h.trans ((List.suffix_cons c t).trans (List.suffix_append s _)).isInfix

theorem index_called (hw : w ∈ called P) : index (envlist P) w ≠ 0 := by
  rw [index_ne_zero, envlist]
  simp only [called, List.mem_cons, List.not_mem_nil, or_false] at hw
  obtain rfl | rfl | rfl | rfl := hw
  · rw [elem]
    split_ifs with h
    · rw [h]
      exact List.nil_infix
    · exact (List.infix_append ['#'] P.tst_org_host ['#']).trans (List.prefix_append _ _).isInfix
  · exact infix_later ' ' _ (List.prefix_append _ _).isInfix
  · exact infix_later ' ' _ (infix_later ' ' _ (List.prefix_append _ _).isInfix)
  · exact infix_later ' ' _ (infix_later ' ' _ (infix_later ' ' _ (List.infix_refl _)))

theorem elem_alone (hws : ∀ w ∈ ws, Word w ∧ '#' ∉ w) (hhost : P.tst_org_host ≠ []) :
    Alone sign '#' ws (elem P.tst_org_host) := by
  intro vs hne hvs h
  obtain ⟨v, vs, rfl⟩ := List.exists_cons_of_ne_nil hne
  obtain ⟨hword, hmark⟩ := hws v (hvs List.mem_cons_self)
  obtain ⟨c, v, rfl⟩ := List.exists_cons_of_ne_nil hword.1
  rw [elem, if_neg hhost, flag, Separated.intercalate_cons, List.cons_append, List.forall₂_cons] at h
  exact absurd ((sign_mark c).mp h.1 ▸ List.mem_cons_self) hmark

theorem clears_cases {p : Text} (hpart : index (envlist P) w ≠ 0 → w ∈ called P) (hp : p ∈ clears P w) :
    p ∈ lifts P w ∨ HOST_ALL = w ∧ p = elem P.tst_org_host := by
  have hcalled : index (envlist P) w ≠ 0 ↔ w ∈ called P := ⟨hpart, index_called⟩
  rw [clears, if_congr hcalled rfl rfl, List.mem_append] at hp
  rw [lifts, List.mem_append]
  obtain hp | hp := hp
  · by_cases hall : HOST_ALL = w
    · rw [if_neg (not_not.mpr hall), List.mem_append, List.mem_singleton] at hp
      rw [if_neg (not_not.mpr hall)]
      exact hp.imp (fun hp => .inl (List.mem_append_left _ hp)) (fun hp => ⟨hall, hp⟩)
    · rw [if_pos hall] at hp
      rw [if_pos hall]
      exact .inl (.inl hp)
  · exact .inl (.inr hp)

theorem allowed (h : Names P envir ws (line :: lines)) (hline : Marked ALLOW_OUTPUT line) :
    Apart ws ((names line).flatMap (clears P)) := by
  have hps : ∀ p ∈ (names line).flatMap (clears P), p.all simple ∧ Alone sign '#' ws p := by
    intro p hp
    rw [List.mem_flatMap] at hp
    obtain ⟨w, hw, hp⟩ := hp
    have htake := fun q (hq : q ∈ lifts P w) =>
      h.take line List.mem_cons_self hline q (List.mem_flatMap.mpr ⟨w, hw, hq⟩)
    obtain hp | ⟨rfl, rfl⟩ := clears_cases (h.part line List.mem_cons_self hline w hw) hp
    · exact htake p hp
    · obtain ⟨hne, _⟩ := h.host line List.mem_cons_self hline hw
      refine ⟨?_, elem_alone h.word hne⟩
      have hsimple := (htake P.tst_org_host (by simp [lifts])).1
      rw [elem, if_neg hne, flag, List.all_cons, List.all_append, hsimple]
      rfl
  exact ⟨fun w hw => (h.word w hw).1, fun w hw => (h.word w hw).2, fun p hp => (hps p hp).1,
    fun p hp => (hps p hp).2⟩

end Meant

section Dingo

end Dingo

end YdbTest.OutrefSuspend
