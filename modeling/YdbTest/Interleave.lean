import YdbTest.Schedule
import YdbTest.TreeStore
import Mathlib.Logic.Function.Basic

namespace YdbTest.Interleave

open TreeStore Schedule Function

variable {γ κ ν ι A : Type} (upd : A → List (Upd γ κ ν)) (prog : ι → List A)

/-- A store that several processes update, and how much of its program each has done. -/
structure Sys (ι γ κ ν : Type) where
  db : Store γ κ ν
  pos : ι → Nat

def initial (db : Store γ κ ν) : Sys ι γ κ ν := ⟨db, fun _ => 0⟩

def made (σ : Sys ι γ κ ν) (i : ι) : List (Upd γ κ ν) := ((prog i).take (σ.pos i)).flatMap upd

/-- A process that is through with its program. -/
def Through (σ : Sys ι γ κ ν) (i : ι) : Prop := (prog i).length ≤ σ.pos i

theorem made_through {σ : Sys ι γ κ ν} {i : ι} (h : Through prog σ i) :
    made upd prog σ i = (prog i).flatMap upd := by
  rw [made, List.take_of_length_le h]

variable [DecidableEq γ] [DecidableEq κ] [DecidableEq ι]

/-- The next step of one process, whose updates are seen at once. -/
def step (i : ι) (σ : Sys ι γ κ ν) : Sys ι γ κ ν :=
  match (prog i)[σ.pos i]? with
  | some a => ⟨applyAll (upd a) σ.db, update σ.pos i (σ.pos i + 1)⟩
  | none => σ

def Decides (us : List (Upd γ κ ν)) (x : Node γ κ) : Prop :=
  (∀ r, look us x r = r) ∨ ∃ c, ∀ r, look us x r = c

variable {upd} {prog} {σ : Sys ι γ κ ν} {i w : ι} {a : A} {x : Node γ κ} {v : ν} {r : Option ν}
  {db : Store γ κ ν}

def Plain : Upd γ κ ν → Prop
  | .modify _ _ => False
  | _ => True

section Decides

variable {us vs : List (Upd γ κ ν)} {u : Upd γ κ ν}

theorem at_plain (h : Plain u) : (∀ r, u.at x r = r) ∨ ∃ c, ∀ r, u.at x r = c := by
  cases u with
  | set m v =>
    by_cases hm : m = x
    · exact Or.inr ⟨some v, fun r => if_pos hm⟩
    · exact Or.inl fun r => if_neg hm
  | kill m =>
    by_cases hm : below m x = true
    · exact Or.inr ⟨none, fun r => if_pos hm⟩
    · exact Or.inl fun r => if_neg hm
  | zkill m =>
    by_cases hm : m = x
    · exact Or.inr ⟨none, fun r => if_pos hm⟩
    · exact Or.inl fun r => if_neg hm
  | modify m f => exact h.elim

theorem decides_plain (h : ∀ u ∈ us, Plain u) : Decides us x := by
  induction us with
  | nil => exact Or.inl fun _ => rfl
  | cons u us ih =>
    rw [List.forall_mem_cons] at h
    obtain hrest | ⟨c, hc⟩ := ih h.2
    · obtain hu | ⟨c, hc⟩ := at_plain (x := x) h.1
      · exact Or.inl fun r => by rw [look_cons, hu, hrest]
      · exact Or.inr ⟨c, fun r => by rw [look_cons, hc, hrest]⟩
    · exact Or.inr ⟨c, fun r => by rw [look_cons, hc]⟩

end Decides

theorem step_of_some (h : (prog i)[σ.pos i]? = some a) :
    step upd prog i σ = ⟨applyAll (upd a) σ.db, update σ.pos i (σ.pos i + 1)⟩ := by
  rw [step, h]

theorem step_of_none (h : (prog i)[σ.pos i]? = none) : step upd prog i σ = σ := by
  rw [step, h]

theorem made_step (h : (prog i)[σ.pos i]? = some a) (j : ι) :
    made upd prog (step upd prog i σ) j =
      if j = i then made upd prog σ i ++ upd a else made upd prog σ j := by
  rw [step_of_some h, made]
  by_cases hj : j = i
  · subst hj
    rw [if_pos rfl]
    dsimp only
    rw [update_self, List.take_add_one, h, List.flatMap_append, made]
    exact congrArg _ (List.append_nil _)
  · rw [if_neg hj, made]
    dsimp only
    rw [update_of_ne hj]

theorem run_keeps (hkeep : ∀ i, ∀ a ∈ prog i, look (upd a) x r = r) (h0 : get db x = r)
    (is : List ι) : get (run (step upd prog) (initial db) is).db x = r := by
  refine run_invariant _ (fun σ : Sys ι γ κ ν => get σ.db x = r) h0 ?_ is
  intro σ i hσ
  cases h : (prog i)[σ.pos i]? with
  | none => rwa [step_of_none h]
  | some a =>
    rw [step_of_some h, get_applyAll, hσ]
    exact hkeep i a (List.mem_of_getElem? h)

theorem run_own (hothers : ∀ j, j ≠ w → ∀ a ∈ prog j, ∀ r, look (upd a) x r = r)
    (is : List ι) : get (run (step upd prog) (initial db) is).db x =
      look (made upd prog (run (step upd prog) (initial db) is) w) x (get db x) := by
  refine run_invariant _
    (fun σ : Sys ι γ κ ν => get σ.db x = look (made upd prog σ w) x (get db x)) rfl ?_ is
  intro σ i hσ
  cases h : (prog i)[σ.pos i]? with
  | none => rwa [step_of_none h]
  | some a =>
    rw [made_step h, step_of_some h, get_applyAll]
    by_cases hi : w = i
    · rw [if_pos hi, look_append, ← hi, ← hσ]
    · rw [if_neg hi, hothers i (Ne.symm hi) a (List.mem_of_getElem? h), hσ]

/-- If one process gives a node a value, and no other takes that value away, the node has it
whenever the last that the process has done to the node was to give it. -/
theorem run_leader (hlead : ∀ a ∈ prog w, Decides (upd a) x)
    (hothers : ∀ j, j ≠ w → ∀ a ∈ prog j, look (upd a) x (some v) = some v) (is : List ι)
    (hmade : look (made upd prog (run (step upd prog) (initial db) is) w) x none = some v) :
    get (run (step upd prog) (initial db) is).db x = some v := by
  revert hmade
  have hnone : look (made upd prog (initial db) w) x none = none := rfl
  refine run_invariant _ (fun σ : Sys ι γ κ ν =>
    look (made upd prog σ w) x none = some v → get σ.db x = some v) ?_ ?_ is
  · intro h
    rw [hnone] at h
    cases h
  intro σ i hσ
  cases h : (prog i)[σ.pos i]? with
  | none => rwa [step_of_none h]
  | some a =>
    rw [made_step h, step_of_some h, get_applyAll]
    have ha := List.mem_of_getElem? h
    by_cases hi : w = i
    · subst hi
      rw [if_pos rfl, look_append]
      intro hmade
      obtain hkeep | ⟨c, hc⟩ := hlead a ha
      · rw [hkeep] at hmade ⊢
        exact hσ hmade
      · rw [hc] at hmade ⊢
        exact hmade
    · rw [if_neg hi]
      intro hmade
      rw [hσ hmade]
      exact hothers i (Ne.symm hi) a ha

end YdbTest.Interleave
