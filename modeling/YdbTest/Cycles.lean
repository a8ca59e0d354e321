import Mathlib.Data.List.Chain
import Mathlib.Data.List.Nodup
import Mathlib.Data.List.Infix

namespace YdbTest.Cycles

open Relation

variable {α : Type} {r : α → α → Prop} {a b : α}

/-- A directed cycle of length at least two, written from one of its nodes back to it. -/
def HasCycle (r : α → α → Prop) : Prop :=
  ∃ x xs, xs ≠ [] ∧ (x :: xs).Nodup ∧ List.IsChain r (x :: xs ++ [x])

theorem exists_path (h : ReflTransGen r a b) : ∃ xs, (a :: xs).Nodup ∧
    List.IsChain r (a :: xs) ∧ (a :: xs).getLast (List.cons_ne_nil a xs) = b := by
  induction h using ReflTransGen.head_induction_on with
  | refl => exact ⟨[], List.nodup_singleton b, List.IsChain.singleton b, rfl⟩
  | @head a c hac _ ih =>
    obtain ⟨xs, hn, hc, hl⟩ := ih
    by_cases ha : a ∈ c :: xs
    · -- the rest of the path from where it comes through `a`
      obtain ⟨ys, zs, hs⟩ := List.append_of_mem ha
      have hsuf : a :: zs <:+ c :: xs := ⟨ys, hs.symm⟩
      refine ⟨zs, hn.sublist hsuf.sublist, hc.suffix hsuf, ?_⟩
      rw [← hl]
      exact hsuf.getLast (List.cons_ne_nil a zs)
    · refine ⟨c :: xs, List.nodup_cons.mpr ⟨ha, hn⟩, List.IsChain.cons_cons hac hc, ?_⟩
      rw [List.getLast_cons (List.cons_ne_nil c xs), hl]

theorem exists_step_ne (h : ReflTransGen r a b) (hne : a ≠ b) :
    ∃ u v, u ≠ v ∧ r u v ∧ ReflTransGen r a u ∧ ReflTransGen r v b := by
  induction h with
  | refl => exact absurd rfl hne
  | @tail c b hac hcb ih =>
    by_cases hc : c = b
    · subst hc
      exact ih hne
    · exact ⟨c, b, hc, hcb, hac, ReflTransGen.refl⟩

theorem hasCycle_of_reach (hab : ReflTransGen r a b) (hba : ReflTransGen r b a) (hne : a ≠ b) :
    HasCycle r := by
  obtain ⟨u, v, huv, hstep, hau, hvb⟩ := exists_step_ne hab hne
  obtain ⟨xs, hn, hc, hl⟩ := exists_path ((hvb.trans hba).trans hau)
  refine ⟨v, xs, ?_, hn, ?_⟩
  · rintro rfl
    exact huv hl.symm
  · rw [List.isChain_append]
    refine ⟨hc, List.IsChain.singleton v, ?_⟩
    intro x hx y hy
    rw [List.getLast?_eq_getLast_of_ne_nil (List.cons_ne_nil v xs), hl] at hx
    cases hx
    cases hy
    exact hstep

theorem not_hasCycle_of_rank {p : α → Nat} (hp : ∀ a b, r a b → p a ≤ p b)
    (hi : ∀ a b, (∃ c, r c a) → (∃ c, r c b) → p a = p b → a = b) : ¬ HasCycle r := by
  rintro ⟨x, xs, hx, hn, hc⟩
  have hpair : (x :: xs ++ [x]).Pairwise (fun a b => p a ≤ p b) :=
    List.isChain_iff_pairwise.mp (hc.imp hp)
  obtain ⟨y, ys, rfl⟩ := List.exists_cons_of_ne_nil hx
  have hx' : x :: y :: ys ≠ [] := List.cons_ne_nil x (y :: ys)
  have hxy : r x y := (List.isChain_cons_cons.mp hc).1
  have hback := (List.isChain_append.mp hc).2.2 _ (List.getLast?_eq_getLast_of_ne_nil hx') x rfl
  have hyx : p y ≤ p x := (List.pairwise_append.mp hpair).2.2 y (by simp) x (by simp)
  have heq : x = y := hi x y ⟨_, hback⟩ ⟨x, hxy⟩ (le_antisymm (hp x y hxy) hyx)
  subst heq
  exact (List.nodup_cons.mp hn).1 List.mem_cons_self

end YdbTest.Cycles
