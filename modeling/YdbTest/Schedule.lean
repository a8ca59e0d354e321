import Mathlib.Data.List.Infix

namespace YdbTest.Schedule

variable {S A : Type*} (step : A → S → S)

/-- The state after the steps that a schedule names, in its order. -/
def run (s : S) (as : List A) : S := as.foldl (fun s a => step a s) s

def Always (P : S → Prop) (s : S) (as : List A) : Prop := ∀ bs, bs <+: as → P (run step s bs)

def Each (Ok : S → A → Prop) (s : S) (as : List A) : Prop :=
  ∀ bs a, bs ++ [a] <+: as → Ok (run step s bs) a

variable {step} {s : S} {as : List A} {P Inv : S → Prop} {Ok : S → A → Prop}

@[simp] theorem run_nil : run step s [] = s := rfl

@[simp] theorem run_concat (a : A) : run step s (as ++ [a]) = step a (run step s as) := by
  rw [run, List.foldl_append]
  rfl

variable (step Inv) in
theorem run_invariant (h0 : Inv s) (hstep : ∀ s a, Inv s → Inv (step a s)) (as : List A) :
    Inv (run step s as) := by
  induction as using List.reverseRecOn with
  | nil => exact h0
  | append_singleton as a ih =>
    rw [run_concat]
    exact hstep _ _ ih

theorem always_iff_each (h0 : P s) (hinv : ∀ as, Inv (run step s as))
    (hstep : ∀ s a, Inv s → P s → (P (step a s) ↔ Ok s a)) :
    Always step P s as ↔ Each step Ok s as := by
  constructor
  · intro h bs a hb
    have hP := h bs ((List.prefix_append bs [a]).trans hb)
    have hP' := h _ hb
    rw [run_concat] at hP'
    exact (hstep _ _ (hinv bs) hP).mp hP'
  · intro h bs hb
    induction bs using List.reverseRecOn with
    | nil => exact h0
    | append_singleton bs a ih =>
      rw [run_concat]
      exact (hstep _ _ (hinv bs) (ih ((List.prefix_append bs [a]).trans hb))).mpr (h bs a hb)

end YdbTest.Schedule
