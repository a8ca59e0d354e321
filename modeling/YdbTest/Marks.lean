import Mathlib.Data.List.Forall2
import YdbTest.Separated

namespace YdbTest.Marks

variable {α : Type*} {c : α} {w p s t : List α} {us : List (List α)}

def blocks (c : α) (us : List (List α)) : List α := c :: us.flatMap (· ++ [c])

theorem blocks_nil : blocks c [] = [c] := rfl

theorem blocks_cons (u : List α) (us : List (List α)) :
    blocks c (u :: us) = c :: (u ++ blocks c us) := by
  rw [blocks, blocks, List.flatMap_cons, List.append_assoc, List.singleton_append]

theorem blocks_append (us : List (List α)) (w : List α) :
    blocks c us ++ c :: (w ++ [c]) = blocks c (us ++ [[], w]) := by
  simp [blocks]

theorem eq_of_mark (hw : c ∉ w) (hp : c ∉ p) (h : w ++ c :: s = p ++ c :: t) : w = p ∧ s = t := by
  induction w generalizing p with
  | nil =>
    cases p with
    | nil => exact ⟨rfl, (List.cons.inj h).2⟩
    | cons b p => exact absurd ((List.cons.inj h).1 ▸ List.mem_cons_self) hp
  | cons a w ih =>
    cases p with
    | nil => exact absurd ((List.cons.inj h).1 ▸ List.mem_cons_self) hw
    | cons b p =>
      rw [List.mem_cons, not_or] at hw hp
      rw [List.cons_append, List.cons_append, List.cons.injEq] at h
      obtain ⟨rfl, rfl⟩ := ih hw.2 hp.2 h.2
      exact ⟨by rw [h.1], rfl⟩

theorem cut_at_mark (hplain : ∀ u ∈ us, c ∉ u) (h : t ++ c :: s = us.flatMap (· ++ [c])) :
    ∃ vs ws, us = vs ++ ws ∧ vs ≠ [] ∧ t = [c].intercalate vs := by
  induction us generalizing t with
  | nil => exact absurd h (by simp)
  | cons u us ih =>
    rw [List.forall_mem_cons] at hplain
    rw [List.flatMap_cons, List.append_assoc, List.singleton_append, List.append_eq_append_iff] at h
    obtain ⟨a, rfl, ha⟩ | ⟨a, rfl, ha⟩ := h
    · cases a with
      | nil => exact ⟨[t], us, by simp, List.cons_ne_nil _ _, by simp⟩
      | cons b a =>
        have hb : c = b := (List.cons.inj ha).1
        exact absurd (List.mem_append_right t (hb ▸ List.mem_cons_self)) hplain.1
    · cases a with
      | nil => exact ⟨[u], us, rfl, List.cons_ne_nil _ _, by simp⟩
      | cons b a =>
        rw [List.cons_append, List.cons.injEq] at ha
        obtain ⟨vs, ws, rfl, hne, rfl⟩ := ih hplain.2 ha.2.symm
        refine ⟨u :: vs, ws, rfl, List.cons_ne_nil _ _, ?_⟩
        obtain ⟨v, vs, rfl⟩ := List.exists_cons_of_ne_nil hne
        rw [List.intercalate_cons_cons, ← ha.1, List.append_assoc, List.singleton_append]

section Squeeze

variable [DecidableEq α]

def squeeze (c : α) : List α → List α
  | a :: b :: s => if a = c ∧ b = c then squeeze c (b :: s) else a :: squeeze c (b :: s)
  | s => s

theorem squeeze_plain (hw : c ∉ w) (s : List α) :
    squeeze c (w ++ c :: s) = w ++ squeeze c (c :: s) := by
  induction w with
  | nil => rfl
  | cons a w ih =>
    rw [List.mem_cons, not_or] at hw
    cases w with
    | nil =>
      rw [List.cons_append, List.nil_append, squeeze, if_neg (fun h => hw.1 h.1.symm)]
      rfl
    | cons b w =>
      rw [List.cons_append, List.cons_append, squeeze, if_neg (fun h => hw.1 h.1.symm),
        ← List.cons_append, ih hw.2]
      rfl

theorem squeeze_blocks (hplain : ∀ u ∈ us, c ∉ u) :
    squeeze c (blocks c us) = blocks c (us.filter (· ≠ [])) := by
  induction us with
  | nil => rfl
  | cons u us ih =>
    rw [List.forall_mem_cons] at hplain
    rw [blocks_cons]
    cases u with
    | nil =>
      rw [List.nil_append, blocks, squeeze, if_pos ⟨rfl, rfl⟩, ← blocks, ih hplain.2]
      rfl
    | cons b u =>
      have hb : b ≠ c := fun h => hplain.1 (h ▸ List.mem_cons_self)
      rw [List.cons_append, squeeze, if_neg (fun h => hb h.2), ← List.cons_append, blocks,
        squeeze_plain hplain.1, ← blocks, ih hplain.2, List.filter_cons_of_pos (by simp), blocks_cons]

end Squeeze

theorem infix_after_plain (hw : c ∉ w) (p s : List α) : c :: p <:+: w ++ s ↔ c :: p <:+: s := by
  induction w with
  | nil => rfl
  | cons a w ih =>
    rw [List.mem_cons, not_or] at hw
    have hnot : ¬ c :: p <+: a :: (w ++ s) := fun h => hw.1 (List.cons_prefix_cons.mp h).1
    rw [List.cons_append, List.infix_cons_iff, or_iff_right hnot, ih hw.2]

theorem infix_blocks (hw : c ∉ w) (hplain : ∀ u ∈ us, c ∉ u) :
    c :: (w ++ [c]) <:+: blocks c us ↔ w ∈ us := by
  induction us with
  | nil =>
    refine iff_of_false (fun h => ?_) List.not_mem_nil
    have := h.length_le
    simp [blocks_nil] at this
  | cons u us ih =>
    rw [List.forall_mem_cons] at hplain
    have hpre : w ++ [c] <+: u ++ blocks c us ↔ w = u := by
      constructor
      · rintro ⟨t, h⟩
        rw [List.append_assoc, blocks] at h
        exact (eq_of_mark hw hplain.1 h).1
      · rintro rfl
        exact ⟨us.flatMap (· ++ [c]), by rw [List.append_assoc]; rfl⟩
    rw [blocks_cons, List.infix_cons_iff, List.cons_prefix_cons, hpre, infix_after_plain hplain.1,
      ih hplain.2, List.mem_cons, and_iff_right rfl]

section Replace

variable (m : α → α → Bool)

def hit : List α → List α → Bool
  | [], _ => true
  | _ :: _, [] => false
  | a :: p, b :: s => m a b && hit p s

/-- Every match of `p`, from the left and without overlaps, is replaced by `r`; `n` signs of the last
match are left. -/
def replaceFrom (p r : List α) : ℕ → List α → List α
  | _, [] => []
  | n + 1, _ :: s => replaceFrom p r n s
  | 0, b :: s =>
    if hit m p (b :: s) then r ++ replaceFrom p r (p.length - 1) s else b :: replaceFrom p r 0 s

def replace (p r s : List α) : List α := replaceFrom m p r 0 s

variable {m}

theorem hit_append (p q s : List α) : hit m (p ++ q) s ↔
    ∃ t u, s = t ++ u ∧ List.Forall₂ (fun a b => m a b) p t ∧ hit m q u := by
  induction p generalizing s with
  | nil =>
    constructor
    · exact fun h => ⟨[], s, rfl, .nil, h⟩
    · rintro ⟨t, u, rfl, hm, h⟩
      rw [List.forall₂_nil_left_iff.mp hm]
      exact h
  | cons a p ih =>
    cases s with
    | nil =>
      refine iff_of_false Bool.false_ne_true ?_
      rintro ⟨t, u, h, hm, _⟩
      rw [(List.append_eq_nil_iff.mp h.symm).1] at hm
      exact nomatch hm
    | cons b s =>
      rw [List.cons_append, hit, Bool.and_eq_true, ih]
      constructor
      · rintro ⟨hab, t, u, rfl, hm, hq⟩
        exact ⟨b :: t, u, rfl, .cons hab hm, hq⟩
      · rintro ⟨t, u, h, hm, hq⟩
        cases hm with
        | cons hab hm =>
          rw [List.cons_append, List.cons.injEq] at h
          exact ⟨h.1 ▸ hab, _, u, h.2, hm, hq⟩

theorem hit_self (hm : ∀ a, m a a) (p s : List α) : hit m p (p ++ s) := by
  induction p with
  | nil => rfl
  | cons a p ih =>
    rw [List.cons_append, hit, Bool.and_eq_true]
    exact ⟨hm a, ih⟩

theorem replaceFrom_drop (p r : List α) (n : ℕ) (s : List α) :
    replaceFrom m p r n s = replace m p r (s.drop n) := by
  induction n generalizing s with
  | zero => rfl
  | succ n ih =>
    cases s with
    | nil => rfl
    | cons b s =>
      rw [replaceFrom, ih, List.drop_succ_cons]

variable (hc : ∀ a, m c a ↔ a = c)

include hc

theorem replace_plain (hw : c ∉ w) (p r s : List α) :
    replace m (c :: p) r (w ++ s) = w ++ replace m (c :: p) r s := by
  induction w with
  | nil => rfl
  | cons a w ih =>
    rw [List.mem_cons, not_or] at hw
    have hnot : ¬ hit m (c :: p) (a :: (w ++ s)) := by
      rw [hit, Bool.and_eq_true, hc]
      exact fun h => hw.1 h.1.symm
    rw [List.cons_append, replace, replaceFrom, if_neg hnot, ← replace, ih hw.2, List.cons_append]

theorem hit_blocks (hplain : ∀ u ∈ us, c ∉ u) (h : hit m (c :: (p ++ [c])) (blocks c us)) :
    ∃ vs ws, us = vs ++ ws ∧ vs ≠ [] ∧ List.Forall₂ (fun a b => m a b) p ([c].intercalate vs) := by
  rw [blocks, hit, Bool.and_eq_true, hit_append] at h
  obtain ⟨_, t, u, hus, hm, hu⟩ := h
  cases u with
  | nil => exact absurd hu Bool.false_ne_true
  | cons b u =>
    rw [hit, Bool.and_eq_true, hc] at hu
    obtain ⟨vs, ws, rfl, hne, rfl⟩ := cut_at_mark hplain (hu.1 ▸ hus.symm)
    exact ⟨vs, ws, rfl, hne, hm⟩

/-- `p` matches itself and nothing else that can be made of parts of `us`. -/
def Alone (m : α → α → Bool) (c : α) (us : List (List α)) (p : List α) : Prop :=
  ∀ vs, vs ≠ [] → vs ⊆ us → List.Forall₂ (fun a b => m a b) p ([c].intercalate vs) → vs = [p]

theorem replace_absent (hplain : ∀ u ∈ us, c ∉ u) (hp : Alone m c us p) (hmem : p ∉ us) :
    replace m (c :: (p ++ [c])) [c] (blocks c us) = blocks c us := by
  have hnot : ∀ ws, ws ⊆ us → ¬ hit m (c :: (p ++ [c])) (blocks c ws) := by
    intro ws hws h
    obtain ⟨vs, xs, rfl, hne, hm⟩ := hit_blocks hc (fun u hu => hplain u (hws hu)) h
    have hvs := hp vs hne (fun v hv => hws (List.mem_append_left xs hv)) hm
    exact hmem (hws (by rw [hvs]; exact List.mem_cons_self))
  have hwhole : ∀ ws, ws ⊆ us → replace m (c :: (p ++ [c])) [c] (blocks c ws) = blocks c ws := by
    intro ws hws
    induction ws with
    | nil => 
      have := hnot [] (List.nil_subset _)
      rw [blocks_nil] at this ⊢
      rw [replace, replaceFrom, if_neg this, replaceFrom]
    | cons w ws ih =>
      have := hnot (w :: ws) hws
      rw [List.cons_subset] at hws
      rw [blocks_cons] at this ⊢
      rw [replace, replaceFrom, if_neg this, ← replace, replace_plain hc (hplain w hws.1), ih hws.2]
  exact hwhole us (List.Subset.refl us)

theorem replace_blocks [DecidableEq α] (hplain : ∀ u ∈ us, c ∉ u) (hm : ∀ a, m a a)
    (hp : Alone m c us p) (hnodup : us.Nodup) :
    replace m (c :: (p ++ [c])) [c] (blocks c us) = blocks c (us.erase p) := by
  induction us with
  | nil => exact replace_absent hc hplain hp List.not_mem_nil
  | cons u us ih =>
    have hus := hplain
    rw [List.forall_mem_cons] at hplain
    rw [List.nodup_cons] at hnodup
    have halone : Alone m c us p := fun vs hne hvs => hp vs hne (fun v hv => List.mem_cons_of_mem u (hvs hv))
    by_cases hu : u = p
    · subst hu
      have hlen : (c :: (u ++ [c])).length - 1 = (u ++ [c]).length := rfl
      have hhit : hit m (c :: (u ++ [c])) (c :: (u ++ [c] ++ us.flatMap (· ++ [c]))) :=
        hit_self hm (c :: (u ++ [c])) _
      have hblocks : blocks c (u :: us) = c :: (u ++ [c] ++ us.flatMap (· ++ [c])) := rfl
      rw [List.erase_cons_head, hblocks, replace, replaceFrom, if_pos hhit, replaceFrom_drop, hlen,
        List.drop_left, List.singleton_append]
      cases us with
      | nil => rfl
      | cons v vs =>
        have habsent : replace m (c :: (u ++ [c])) [c] (blocks c vs) = blocks c vs := by
          refine replace_absent hc (fun w hw => hplain.2 w (List.mem_cons_of_mem v hw)) ?_ ?_
          · exact fun ws hne hws => halone ws hne (fun w hw => List.mem_cons_of_mem v (hws hw))
          · exact fun h => hnodup.1 (List.mem_cons_of_mem v h)
        rw [List.flatMap_cons, List.append_assoc, List.singleton_append, ← blocks,
          replace_plain hc (hplain.2 v List.mem_cons_self), habsent, blocks_cons]
    · have hnot : ¬ hit m (c :: (p ++ [c])) (blocks c (u :: us)) := by
        intro h
        obtain ⟨vs, ws, h, hne, hm⟩ := hit_blocks hc hus h
        have hvs := hp vs hne (fun v hv => h ▸ List.mem_append_left ws hv) hm
        rw [hvs, List.singleton_append, List.cons.injEq] at h
        exact hu h.1
      rw [List.erase_cons_tail (by simpa using hu)]
      rw [blocks_cons] at hnot ⊢
      rw [replace, replaceFrom, if_neg hnot, ← replace, replace_plain hc hplain.1,
        ih hplain.2 halone hnodup.2, blocks_cons]

end Replace

end YdbTest.Marks
