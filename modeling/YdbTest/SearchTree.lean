import Mathlib.Tactic.Common

namespace YdbTest.SearchTree

variable {κ ν ι : Type*}

inductive Bst (κ ν : Type*)
  | leaf
  | node (left : Bst κ ν) (key : κ) (value : ν) (right : Bst κ ν)

namespace Bst

variable (cmp : κ → κ → Int)

def find (k : κ) : Bst κ ν → Option ν
  | leaf => none
  | node left key value right =>
    if cmp key k < 0 then find k left
    else if cmp key k > 0 then find k right
    else some value

/-- A new leaf; a key that is there is refused, unless `same` holds of the two values. -/
def insert (same : ν → ν → Bool) (k : κ) (v : ν) : Bst κ ν → Option (Bst κ ν)
  | leaf => some (node leaf k v leaf)
  | node left key value right =>
    if cmp key k < 0 then (insert same k v left).map fun left => node left key value right
    else if cmp key k > 0 then (insert same k v right).map fun right => node left key value right
    else if same value v then some (node left key value right) else none

def first (p : ν → Bool) : Bst κ ν → Option ν
  | leaf => none
  | node left _ value right =>
    if p value then some value
    else
      match first p left with
      | some v => some v
      | none => first p right

def values : Bst κ ν → List ν
  | leaf => []
  | node left _ value right => values left ++ value :: values right

variable {cmp} {k k' : κ} {v w : ν} {t t' : Bst κ ν} {same : ν → ν → Bool} {p : ν → Bool}

theorem first_some (h : t.first p = some v) : p v = true ∧ v ∈ t.values := by
  induction t with
  | leaf => exact absurd h (Option.some_ne_none v).symm
  | node left key value right ihl ihr =>
    rw [first] at h
    rw [values, List.mem_append, List.mem_cons]
    split_ifs at h with hp
    · obtain rfl := Option.some.inj h
      exact ⟨hp, Or.inr (Or.inl rfl)⟩
    · cases hl : left.first p with
      | some w =>
        rw [hl] at h
        obtain rfl := Option.some.inj h
        obtain ⟨h1, h2⟩ := ihl hl
        exact ⟨h1, Or.inl h2⟩
      | none =>
        rw [hl] at h
        obtain ⟨h1, h2⟩ := ihr h
        exact ⟨h1, Or.inr (Or.inr h2)⟩

theorem values_insert (h : t.insert cmp same k v = some t') :
    ∀ w ∈ t'.values, w = v ∨ w ∈ t.values := by
  induction t generalizing t' with
  | leaf =>
    obtain rfl := Option.some.inj h
    intro w hw
    exact Or.inl (List.mem_singleton.mp hw)
  | node left key value right ihl ihr =>
    rw [insert] at h
    split_ifs at h
    · obtain ⟨l, hl, rfl⟩ := Option.map_eq_some_iff.mp h
      intro w hw
      rw [values, List.mem_append] at hw ⊢
      obtain hw | hw := hw
      · exact (ihl hl w hw).imp id Or.inl
      · exact Or.inr (Or.inr hw)
    · obtain ⟨r, hr, rfl⟩ := Option.map_eq_some_iff.mp h
      intro w hw
      rw [values, List.mem_append, List.mem_cons] at hw ⊢
      obtain hw | hw | hw := hw
      · exact Or.inr (Or.inl hw)
      · exact Or.inr (Or.inr (Or.inl hw))
      · exact (ihr hr w hw).imp id fun h => Or.inr (Or.inr h)
    · obtain rfl := Option.some.inj h
      exact fun w hw => Or.inr hw

section Lawful

variable {image : κ → ι} (himage : ∀ a b, cmp a b = 0 ↔ image a = image b)
  (hcongr : ∀ r a b, image a = image b → cmp r a = cmp r b)

include hcongr in
theorem find_congr (h : image k = image k') : t.find cmp k = t.find cmp k' := by
  induction t with
  | leaf => rfl
  | node left key value right ihl ihr => rw [find, find, hcongr key k k' h, ihl, ihr]

include himage in
theorem find_single [DecidableEq ι] : (node leaf k v leaf).find cmp k' =
    if image k' = image k then some v else none := by
  rw [find, find]
  by_cases heq : image k' = image k
  · have hz : cmp k k' = 0 := (himage k k').mpr heq.symm
    rw [if_pos heq, if_neg (by omega), if_neg (by omega)]
  · have hz : cmp k k' ≠ 0 := fun h => heq ((himage k k').mp h).symm
    rw [if_neg heq]
    split_ifs
    · rfl
    · rfl
    · omega

include himage hcongr in
theorem find_insert [DecidableEq ι] (h : t.insert cmp same k v = some t') :
    t'.find cmp k' =
      if image k' = image k then some ((t.find cmp k).getD v) else t.find cmp k' := by
  induction t generalizing t' with
  | leaf =>
    obtain rfl := Option.some.inj h
    rw [find_single himage]
    rfl
  | node left key value right ihl ihr =>
    rw [insert] at h
    have hkey : image k' = image k → cmp key k' = cmp key k := hcongr key k' k
    split_ifs at h with hlt hgt hsame
    · obtain ⟨l, hl, rfl⟩ := Option.map_eq_some_iff.mp h
      simp only [find, ihl hl, if_pos hlt]
      by_cases heq : image k' = image k
      · simp only [heq, if_true, hkey heq, if_pos hlt]
      · simp only [heq, if_false]
    · obtain ⟨r, hr, rfl⟩ := Option.map_eq_some_iff.mp h
      simp only [find, ihr hr, if_neg hlt, if_pos hgt]
      by_cases heq : image k' = image k
      · simp only [heq, if_true, hkey heq, if_neg hlt, if_pos hgt]
      · simp only [heq, if_false]
    · obtain rfl := Option.some.inj h
      simp only [find, if_neg hlt, if_neg hgt, Option.getD_some]
      by_cases heq : image k' = image k
      · simp only [heq, if_true, hkey heq, if_neg hlt, if_neg hgt]
      · simp only [heq, if_false]

end Lawful

section Grown

variable {α β : Type*}

/-- The first element with a property, where an element comes before those that compare above it
and these before those that compare below it. -/
def foremost (cmp : α → α → Int) (p : α → Bool) : List α → Option α
  | [] => none
  | a :: l =>
    if p a then some a
    else
      (foremost cmp p (l.filter fun b => cmp a b < 0)).or
        (foremost cmp p (l.filter fun b => cmp a b > 0))
termination_by l => l.length
decreasing_by
  all_goals
    rw [List.length_unattach]
    exact Nat.lt_succ_of_le
      (Nat.le_trans (List.length_filter_le _ _) (Nat.le_of_eq List.length_attach))

theorem foremost_nil {cmp : α → α → Int} {p : α → Bool} : foremost cmp p [] = none := by
  rw [foremost]

theorem foremost_cons {cmp : α → α → Int} {p : α → Bool} (a : α) (l : List α) :
    foremost cmp p (a :: l) = if p a then some a else
      (foremost cmp p (l.filter fun b => cmp a b < 0)).or
        (foremost cmp p (l.filter fun b => cmp a b > 0)) := by
  rw [foremost]

theorem foremost_congr {cmp : α → α → Int} {p p' : α → Bool} {l : List α}
    (h : ∀ a ∈ l, p a = p' a) : foremost cmp p l = foremost cmp p' l := by
  induction hn : l.length using Nat.strongRecOn generalizing l with
  | ind n ih =>
    cases l with
    | nil => rw [foremost_nil, foremost_nil]
    | cons a l =>
      have hrest (q : α → Bool) : foremost cmp p (l.filter q) = foremost cmp p' (l.filter q) :=
        ih _ (hn ▸ Nat.lt_succ_of_le (List.length_filter_le q l))
          (fun b hb => h b (List.mem_cons_of_mem a (List.mem_filter.mp hb).1)) rfl
      rw [foremost_cons, foremost_cons, h a List.mem_cons_self, hrest, hrest]

theorem foremost_map {cmp : β → β → Int} {p : β → Bool} (f : α → β) (l : List α) :
    foremost cmp p (l.map f) = (foremost (fun a b => cmp (f a) (f b)) (fun a => p (f a)) l).map f := by
  induction hn : l.length using Nat.strongRecOn generalizing l with
  | ind n ih =>
    cases l with
    | nil => rw [List.map_nil, foremost_nil, foremost_nil, Option.map_none]
    | cons a l =>
      have hrest (q : β → Bool) : foremost cmp p ((l.map f).filter q) =
          (foremost (fun a b => cmp (f a) (f b)) (fun a => p (f a))
            (l.filter fun a => q (f a))).map f := by
        rw [List.filter_map]
        exact ih _ (hn ▸ Nat.lt_succ_of_le (List.length_filter_le _ l)) _ rfl
      rw [List.map_cons, foremost_cons, foremost_cons, hrest, hrest]
      split
      · rfl
      · exact Option.map_or.symm

/-- The tree into which the items of a list have been put in their order. -/
inductive Grown (cmp : κ → κ → Int) : List (κ × ν) → Bst κ ν → Prop
  | leaf : Grown cmp [] leaf
  | node {l : List (κ × ν)} {k : κ} {v : ν} {left right : Bst κ ν}
      (hleft : Grown cmp (l.filter fun x => cmp k x.1 < 0) left)
      (hright : Grown cmp (l.filter fun x => cmp k x.1 > 0) right) :
      Grown cmp ((k, v) :: l) (node left k v right)

theorem Grown.insert {l : List (κ × ν)} (h : Grown cmp l t) (hnew : t.find cmp k = none)
    (ht : t.insert cmp same k v = some t') : Grown cmp (l ++ [(k, v)]) t' := by
  induction h generalizing t' with
  | leaf =>
    obtain rfl := Option.some.inj ht
    exact .node .leaf .leaf
  | @node l key value left right hleft hright ihl ihr =>
    rw [Bst.insert] at ht
    rw [find] at hnew
    change Grown cmp ((key, value) :: (l ++ [(k, v)])) t'
    split_ifs at ht hnew with hlt hgt
    · obtain ⟨left', hl, rfl⟩ := Option.map_eq_some_iff.mp ht
      have hgt : ¬ cmp key k > 0 := by omega
      refine .node ?_ ?_
      · rw [List.filter_append, List.filter_cons, decide_eq_true hlt]
        exact ihl hnew hl
      · rw [List.filter_append, List.filter_cons, decide_eq_false hgt, if_neg Bool.false_ne_true,
          List.filter_nil, List.append_nil]
        exact hright
    · obtain ⟨right', hr, rfl⟩ := Option.map_eq_some_iff.mp ht
      refine .node ?_ ?_
      · rw [List.filter_append, List.filter_cons, decide_eq_false hlt, if_neg Bool.false_ne_true,
          List.filter_nil, List.append_nil]
        exact hleft
      · rw [List.filter_append, List.filter_cons, decide_eq_true hgt]
        exact ihr hnew hr

theorem Grown.first {l : List (κ × ν)} (h : Grown cmp l t) :
    t.first p = (foremost (fun x y => cmp x.1 y.1) (fun x => p x.2) l).map Prod.snd := by
  induction h with
  | leaf => rw [foremost_nil, Option.map_none, Bst.first]
  | node hleft hright ihl ihr =>
    rw [Bst.first, foremost_cons, ihl, ihr]
    split
    · rfl
    · rw [Option.map_or]
      split
      · rename_i hl
        rw [hl, Option.some_or]
      · rename_i hl
        rw [hl, Option.none_or]

end Grown

end Bst

end YdbTest.SearchTree
