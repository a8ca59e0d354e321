import Mathlib.Data.List.Nodup
import Mathlib.Data.List.Infix

namespace YdbTest.MLocks

section Names

variable {G S : Type}

structure Name (G S : Type) where
  global : G
  subs : List S
  deriving DecidableEq

def Name.Conflicts (m n : Name G S) : Prop :=
  m.global = n.global ∧ (m.subs <+: n.subs ∨ n.subs <+: m.subs)

instance [DecidableEq G] [DecidableEq S] (m n : Name G S) : Decidable (m.Conflicts n) :=
  inferInstanceAs (Decidable (_ ∧ _))

theorem Name.conflicts_above (g : G) (s : List S) : (Name.mk g []).Conflicts ⟨g, s⟩ :=
  ⟨rfl, .inl List.nil_prefix⟩

theorem Name.Conflicts.eq_of_length {m n : Name G S} (h : m.Conflicts n)
    (hlen : m.subs.length = n.subs.length) : m = n := by
  obtain ⟨g, s⟩ := m
  obtain ⟨g', s'⟩ := n
  obtain ⟨rfl, hs | hs⟩ := h
  · exact congrArg (Name.mk g) (hs.eq_of_length hlen)
  · exact congrArg (Name.mk g) (hs.eq_of_length hlen.symm).symm

end Names

section Tables

variable {P G S : Type} [DecidableEq P]

/-- Who holds which names, as often as it has locked them. -/
abbrev Table (P G S : Type) := List (P × Name G S)

def unlockAll (t : Table P G S) (p : P) : Table P G S := t.filter fun e => e.1 ≠ p

theorem mem_unlockAll {t : Table P G S} {p q : P} {m : Name G S} :
    (q, m) ∈ unlockAll t p ↔ (q, m) ∈ t ∧ q ≠ p := by
  rw [unlockAll, List.mem_filter, decide_eq_true_eq]

variable [DecidableEq G] [DecidableEq S]

/-- `lock +n` by `p`, as far as it is not to wait. -/
def lock (t : Table P G S) (p : P) (n : Name G S) : Option (Table P G S) :=
  if ∃ e ∈ t, e.1 ≠ p ∧ e.2.Conflicts n then none else some ((p, n) :: t)

def unlock (t : Table P G S) (p : P) (n : Name G S) : Table P G S := t.erase (p, n)

variable {t t' : Table P G S} {p q : P} {m n : Name G S}

theorem lock_eq_none : lock t p n = none ↔ ∃ q m, (q, m) ∈ t ∧ q ≠ p ∧ m.Conflicts n := by
  rw [lock, ite_eq_left_iff]
  simp only [reduceCtorEq, imp_false, not_not, Prod.exists]

theorem lock_eq_some (h : lock t p n = some t') :
    t' = (p, n) :: t ∧ ∀ q m, (q, m) ∈ t → m.Conflicts n → q = p := by
  rw [lock] at h
  split_ifs at h with hfree
  refine ⟨(Option.some.inj h).symm, ?_⟩
  intro q m hm hc
  by_contra hq
  exact hfree ⟨(q, m), hm, hq, hc⟩

theorem mem_unlock (ht : t.Nodup) : (q, m) ∈ unlock t p n ↔ (q, m) ≠ (p, n) ∧ (q, m) ∈ t :=
  ht.mem_erase_iff

end Tables

end YdbTest.MLocks
