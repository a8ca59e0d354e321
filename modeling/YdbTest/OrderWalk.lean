import Mathlib.Data.List.Basic
import Mathlib.Data.List.Pairwise
import Mathlib.Tactic.Common

namespace YdbTest.OrderWalk

variable {κ : Type*} (before : κ → κ → Bool)

def first : List κ → Option κ
  | [] => none
  | k :: ks =>
    match first ks with
    | none => some k
    | some m => if before m k then some m else some k

def behind (x : Option κ) (k : κ) : Bool := x.all fun a => before a k

def next (ks : List κ) (x : Option κ) : Option κ := first before (ks.filter (behind before x))

def walk (ks : List κ) : ℕ → Option κ → List κ
  | 0, _ => []
  | n + 1, x =>
    match next before ks x with
    | none => []
    | some k => k :: walk ks n (some k)

structure Strict (before : κ → κ → Bool) : Prop where
  irrefl : ∀ a, before a a = false
  trans : ∀ a b c, before a b = true → before b c = true → before a c = true
  total : ∀ a b, a ≠ b → before a b = true ∨ before b a = true

variable {before} {ks : List κ} {x : Option κ} {k a : κ} {n : ℕ}

theorem Strict.flip (h : Strict before) : Strict fun a b => before b a :=
  ⟨h.irrefl, fun a b c hab hbc => h.trans c b a hbc hab, fun a b hne => h.total b a hne.symm⟩

theorem first_eq_none : first before ks = none ↔ ks = [] := by
  cases ks with
  | nil => exact iff_of_true rfl rfl
  | cons k ks =>
    refine iff_of_false ?_ (List.cons_ne_nil _ _)
    rw [first]
    split
    · exact Option.some_ne_none _
    · split_ifs <;> simp

theorem first_eq_some (h : Strict before) (hk : first before ks = some k) :
    k ∈ ks ∧ ∀ a ∈ ks, a = k ∨ before k a = true := by
  induction ks generalizing k with
  | nil => exact nomatch hk
  | cons b ks ih =>
    rw [first] at hk
    split at hk
    · rename_i hnone
      rw [first_eq_none] at hnone
      rw [← Option.some.inj hk, hnone]
      exact ⟨List.mem_cons_self, fun a ha => Or.inl (List.mem_singleton.mp ha)⟩
    · rename_i m hm
      obtain ⟨hmem, hleast⟩ := ih hm
      split_ifs at hk with hmb
      · rw [← Option.some.inj hk]
        refine ⟨List.mem_cons_of_mem b hmem, List.forall_mem_cons.mpr ⟨Or.inr hmb, hleast⟩⟩
      · rw [← Option.some.inj hk]
        refine ⟨List.mem_cons_self, List.forall_mem_cons.mpr ⟨Or.inl rfl, fun a ha => ?_⟩⟩
        by_cases hab : a = b
        · exact Or.inl hab
        · refine Or.inr ?_
          by_cases hbm : b = m
          · exact hbm ▸ (hleast a ha).resolve_left fun h => hab (h.trans hbm.symm)
          · have hlt := (h.total b m hbm).resolve_right hmb
            obtain rfl | ha := hleast a ha
            · exact hlt
            · exact h.trans b m a hlt ha

theorem next_eq_none : next before ks x = none ↔ ∀ a ∈ ks, behind before x a = false := by
  rw [next, first_eq_none, List.filter_eq_nil_iff]
  simp only [Bool.not_eq_true]

theorem next_eq_some (h : Strict before) (hk : next before ks x = some k) :
    (k ∈ ks ∧ behind before x k = true) ∧
      ∀ a ∈ ks, behind before x a = true → a = k ∨ before k a = true := by
  obtain ⟨hmem, hleast⟩ := first_eq_some h hk
  exact ⟨List.mem_filter.mp hmem, fun a ha hx => hleast a (List.mem_filter.mpr ⟨ha, hx⟩)⟩

theorem behind_next (h : Strict before) (hk : next before ks x = some k)
    (ha : behind before (some k) a = true) : behind before x a = true := by
  have hx := (next_eq_some h hk).1.2
  cases x with
  | none => rfl
  | some b => exact h.trans b k a hx ha

theorem behind_length (h : Strict before) (hk : next before ks x = some k) :
    (ks.filter (behind before (some k))).length < (ks.filter (behind before x)).length := by
  obtain ⟨hmem, hx⟩ := (next_eq_some h hk).1
  have hself : behind before (some k) k = false := h.irrefl k
  have hsplit : ks.filter (behind before (some k)) =
      (ks.filter (behind before x)).filter (behind before (some k)) := by
    rw [List.filter_filter]
    refine List.filter_congr fun a _ => ?_
    cases ha : behind before (some k) a with
    | false => rfl
    | true => rw [behind_next h hk ha]; rfl
  rw [hsplit]
  refine List.length_filter_lt_length_iff_exists.mpr ⟨k, List.mem_filter.mpr ⟨hmem, hx⟩, ?_⟩
  rw [hself]
  exact Bool.false_ne_true

theorem mem_walk (h : Strict before) (hn : (ks.filter (behind before x)).length ≤ n) :
    a ∈ walk before ks n x ↔ a ∈ ks ∧ behind before x a = true := by
  induction n generalizing x with
  | zero =>
    have hnil := List.length_eq_zero_iff.mp (Nat.le_zero.mp hn)
    rw [← List.mem_filter, hnil]
    rfl
  | succ n ih =>
    rw [walk]
    split
    · rename_i hnone
      rw [next_eq_none] at hnone
      refine iff_of_false List.not_mem_nil fun ha => ?_
      rw [hnone a ha.1] at ha
      exact nomatch ha.2
    · rename_i k hk
      obtain ⟨hmem, hleast⟩ := next_eq_some h hk
      have hlt := behind_length h hk
      rw [List.mem_cons, ih (by omega)]
      constructor
      · rintro (rfl | ⟨ha, hka⟩)
        · exact hmem
        · exact ⟨ha, behind_next h hk hka⟩
      · rintro ⟨ha, hxa⟩
        exact (hleast a ha hxa).imp_right fun hka => ⟨ha, hka⟩

theorem behind_of_mem_walk (h : Strict before) (ha : a ∈ walk before ks n x) :
    behind before x a = true := by
  induction n generalizing x with
  | zero => cases ha
  | succ n ih =>
    rw [walk] at ha
    split at ha
    · cases ha
    · rename_i k hk
      obtain rfl | ha := List.mem_cons.mp ha
      · exact (next_eq_some h hk).1.2
      · exact behind_next h hk (ih ha)

theorem walk_pairwise (h : Strict before) :
    (walk before ks n x).Pairwise fun a b => before a b = true := by
  induction n generalizing x with
  | zero => exact List.Pairwise.nil
  | succ n ih =>
    rw [walk]
    split
    · exact List.Pairwise.nil
    · exact List.Pairwise.cons (fun a ha => behind_of_mem_walk h ha) ih

theorem mem_walk_all (h : Strict before) (hn : ks.length ≤ n) :
    a ∈ walk before ks n none ↔ a ∈ ks := by
  rw [mem_walk h (Nat.le_trans (List.length_filter_le _ _) hn)]
  exact and_iff_left rfl

end YdbTest.OrderWalk
