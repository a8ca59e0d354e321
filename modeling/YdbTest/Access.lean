import Mathlib.Logic.Function.Basic
import Mathlib.Data.List.Basic

namespace YdbTest.Access

/-- The memory from a source pointer and from a destination pointer on, with the offsets that
have been read from the one and written to the other. -/
structure Mem where
  src : Nat → UInt8
  dst : Nat → UInt8
  reads : List Nat
  writes : List Nat

namespace Mem

def load (m : Mem) (i : Nat) : Mem := { m with reads := i :: m.reads }

/-- The first `n` bytes of the source are read. -/
def loads (m : Mem) (n : Nat) : Mem := { m with reads := List.range n ++ m.reads }

def store (m : Mem) (i : Nat) (b : UInt8) : Mem :=
  { m with dst := Function.update m.dst i b, writes := i :: m.writes }

/-- `while (n-- > 0) *out++ = f(*in++)`, from offset `i` on. -/
def copy (f : UInt8 → UInt8) : Nat → Nat → Mem → Mem
  | 0, _, m => m
  | n + 1, i, m => copy f n (i + 1) ((m.load i).store i (f (m.src i)))

/-- The bytes of a list, stored from offset `i` on. -/
def put : List UInt8 → Nat → Mem → Mem
  | [], _, m => m
  | b :: bs, i, m => put bs (i + 1) (m.store i b)

/-- `strncpy` to a buffer of `n` bytes: nothing is read after a NUL, and NULs fill the rest. -/
def strncpy : Nat → Nat → Mem → List UInt8 × Mem
  | 0, _, m => ([], m)
  | n + 1, i, m =>
    if m.src i = 0 then (List.replicate (n + 1) 0, m.load i)
    else
      let r := strncpy n (i + 1) (m.load i)
      (m.src i :: r.1, r.2)

/-- `strncmp(in, text, n) == 0` from offset `i` on. -/
def strncmp (text : List UInt8) : Nat → Nat → Mem → Bool × Mem
  | 0, _, m => (true, m)
  | n + 1, i, m =>
    if m.src i ≠ text.getD i 0 then (false, m.load i)
    else if m.src i = 0 then (true, m.load i)
    else strncmp text n (i + 1) (m.load i)

section Single

variable (m : Mem) (i : Nat) (b : UInt8)

@[simp] theorem load_src : (m.load i).src = m.src := rfl
@[simp] theorem load_dst : (m.load i).dst = m.dst := rfl
@[simp] theorem load_reads : (m.load i).reads = i :: m.reads := rfl
@[simp] theorem load_writes : (m.load i).writes = m.writes := rfl
@[simp] theorem loads_writes : (m.loads i).writes = m.writes := rfl

@[simp] theorem mem_loads_reads (j : Nat) : j ∈ (m.loads i).reads ↔ j < i ∨ j ∈ m.reads := by
  rw [loads, List.mem_append, List.mem_range]

@[simp] theorem store_src : (m.store i b).src = m.src := rfl
@[simp] theorem store_reads : (m.store i b).reads = m.reads := rfl
@[simp] theorem store_writes : (m.store i b).writes = i :: m.writes := rfl

@[simp] theorem store_dst (j : Nat) :
    (m.store i b).dst j = if j = i then b else m.dst j := by
  simp [store, Function.update_apply]

end Single

variable {f : UInt8 → UInt8} {text bs : List UInt8} {n i j k : Nat} {m : Mem}

theorem mem_cons_interval {l : List Nat} :
    j ∈ i :: l ∨ (i + 1 ≤ j ∧ j < i + 1 + n) ↔ j ∈ l ∨ (i ≤ j ∧ j < i + (n + 1)) := by
  rw [List.mem_cons]
  constructor
  · rintro ((rfl | h) | h)
    · exact Or.inr (by omega)
    · exact Or.inl h
    · exact Or.inr (by omega)
  · rintro (h | h)
    · exact Or.inl (Or.inr h)
    · obtain rfl | hne := eq_or_ne j i
      · exact Or.inl (Or.inl rfl)
      · exact Or.inr (by omega)

section Copy

@[simp] theorem copy_src : (copy f n i m).src = m.src := by
  induction n generalizing i m with
  | zero => rfl
  | succ n ih => rw [copy, ih, store_src, load_src]

theorem mem_copy_reads :
    j ∈ (copy f n i m).reads ↔ j ∈ m.reads ∨ (i ≤ j ∧ j < i + n) := by
  induction n generalizing i m with
  | zero =>
    rw [copy]
    exact (or_iff_left (by omega)).symm
  | succ n ih =>
    rw [copy, ih, store_reads, load_reads, mem_cons_interval]

theorem mem_copy_writes :
    j ∈ (copy f n i m).writes ↔ j ∈ m.writes ∨ (i ≤ j ∧ j < i + n) := by
  induction n generalizing i m with
  | zero =>
    rw [copy]
    exact (or_iff_left (by omega)).symm
  | succ n ih =>
    rw [copy, ih, store_writes, load_writes, mem_cons_interval]

theorem copy_dst :
    (copy f n i m).dst j = if i ≤ j ∧ j < i + n then f (m.src j) else m.dst j := by
  induction n generalizing i m with
  | zero =>
    rw [if_neg (by omega)]
    rfl
  | succ n ih =>
    rw [copy, ih, store_src, load_src, store_dst, load_dst]
    by_cases hj : j = i
    · subst hj
      rw [if_neg (by omega), if_pos rfl, if_pos (by omega)]
    · rw [if_neg hj]
      by_cases hin : i + 1 ≤ j ∧ j < i + 1 + n
      · rw [if_pos hin, if_pos (by omega)]
      · rw [if_neg hin, if_neg (by omega)]

end Copy

section Put

@[simp] theorem put_src : (put bs i m).src = m.src := by
  induction bs generalizing i m with
  | nil => rfl
  | cons b bs ih => rw [put, ih, store_src]

@[simp] theorem put_reads : (put bs i m).reads = m.reads := by
  induction bs generalizing i m with
  | nil => rfl
  | cons b bs ih => rw [put, ih, store_reads]

theorem mem_put_writes :
    j ∈ (put bs i m).writes ↔ j ∈ m.writes ∨ (i ≤ j ∧ j < i + bs.length) := by
  induction bs generalizing i m with
  | nil =>
    rw [put, List.length_nil]
    exact (or_iff_left (by omega)).symm
  | cons b bs ih =>
    rw [put, ih, store_writes, mem_cons_interval, List.length_cons]

theorem put_dst :
    (put bs i m).dst j = if i ≤ j ∧ j < i + bs.length then bs.getD (j - i) 0 else m.dst j := by
  induction bs generalizing i m with
  | nil =>
    rw [if_neg (by simp only [List.length_nil]; omega)]
    rfl
  | cons b bs ih =>
    rw [put, ih, store_dst, List.length_cons]
    by_cases hj : j = i
    · subst hj
      rw [if_neg (by omega), if_pos rfl, if_pos (by omega), Nat.sub_self]
      rfl
    · rw [if_neg hj]
      by_cases hin : i + 1 ≤ j ∧ j < i + 1 + bs.length
      · obtain ⟨k, rfl⟩ : ∃ k, j = i + 1 + k := ⟨j - (i + 1), by omega⟩
        rw [if_pos hin, if_pos (by omega), show i + 1 + k - (i + 1) = k by omega,
          show i + 1 + k - i = k + 1 by omega]
        rfl
      · rw [if_neg hin, if_neg (by omega)]

end Put

section Strncpy

@[simp] theorem strncpy_length : (strncpy n i m).1.length = n := by
  induction n generalizing i m with
  | zero => rfl
  | succ n ih =>
    rw [strncpy]
    split
    · exact List.length_replicate
    · rw [List.length_cons, ih]

@[simp] theorem strncpy_dst : (strncpy n i m).2.dst = m.dst := by
  induction n generalizing i m with
  | zero => rfl
  | succ n ih =>
    rw [strncpy]
    split
    · rfl
    · exact ih

@[simp] theorem strncpy_writes : (strncpy n i m).2.writes = m.writes := by
  induction n generalizing i m with
  | zero => rfl
  | succ n ih =>
    rw [strncpy]
    split
    · rfl
    · exact ih

theorem strncpy_reads_lt (h : j ∈ (strncpy n i m).2.reads) : j ∈ m.reads ∨ j < i + n := by
  induction n generalizing i m with
  | zero => exact Or.inl h
  | succ n ih =>
    rw [strncpy] at h
    split at h
    · obtain rfl | h := List.mem_cons.mp h
      · exact Or.inr (by omega)
      · exact Or.inl h
    · obtain h | h := ih h
      · obtain rfl | h := List.mem_cons.mp h
        · exact Or.inr (by omega)
        · exact Or.inl h
      · exact Or.inr (by omega)

theorem strncpy_get (hj : j < n) {b : UInt8} (hb : b ≠ 0) :
    (strncpy n i m).1.getD j 0 = b ↔
      m.src (i + j) = b ∧ ∀ k < j, m.src (i + k) ≠ 0 := by
  induction n generalizing i j m with
  | zero => omega
  | succ n ih =>
    rw [strncpy]
    split
    next hz =>
      have hl : (List.replicate (n + 1) (0 : UInt8)).getD j 0 = 0 := by
        rw [List.getD_eq_getElem?_getD, List.getElem?_replicate, if_pos hj]
        rfl
      rw [hl]
      constructor
      · intro h
        exact absurd h.symm hb
      · rintro ⟨h, hk⟩
        cases j with
        | zero => exact absurd (h.symm.trans hz) hb
        | succ j => exact absurd hz (hk 0 (by omega))
    next hz =>
      cases j with
      | zero => simp
      | succ j =>
        rw [List.getD_cons_succ, ih (by omega), load_src, show i + 1 + j = i + (j + 1) by omega]
        refine and_congr_right fun _ => ⟨fun h k hk => ?_, fun h k hk => ?_⟩
        · cases k with
          | zero => exact hz
          | succ k => rw [show i + (k + 1) = i + 1 + k by omega]; exact h k (by omega)
        · rw [show i + 1 + k = i + (k + 1) by omega]
          exact h (k + 1) (by omega)

end Strncpy

section Strncmp

@[simp] theorem strncmp_src : (strncmp text n i m).2.src = m.src := by
  induction n generalizing i m with
  | zero => rfl
  | succ n ih =>
    rw [strncmp]
    split
    · rfl
    · split
      · rfl
      · exact ih

@[simp] theorem strncmp_dst : (strncmp text n i m).2.dst = m.dst := by
  induction n generalizing i m with
  | zero => rfl
  | succ n ih =>
    rw [strncmp]
    split
    · rfl
    · split
      · rfl
      · exact ih

@[simp] theorem strncmp_writes : (strncmp text n i m).2.writes = m.writes := by
  induction n generalizing i m with
  | zero => rfl
  | succ n ih =>
    rw [strncmp]
    split
    · rfl
    · split
      · rfl
      · exact ih

theorem strncmp_eq (hz : ∀ j < i + n, text.getD j 0 ≠ 0) :
    (strncmp text n i m).1 = true ↔
      ∀ j, i ≤ j → j < i + n → m.src j = text.getD j 0 := by
  induction n generalizing i m with
  | zero =>
    refine ⟨fun _ j h h' => ?_, fun _ => rfl⟩
    omega
  | succ n ih =>
    rw [strncmp]
    by_cases hne : m.src i = text.getD i 0
    · rw [if_neg (not_not.mpr hne), if_neg (hne ▸ hz i (by omega)),
        ih (fun j hj => hz j (by omega)), load_src]
      refine ⟨fun h j hj hj' => ?_, fun h j hj hj' => h j (by omega) (by omega)⟩
      obtain rfl | hlt := Nat.eq_or_lt_of_le hj
      · exact hne
      · exact h j hlt (by omega)
    · rw [if_pos hne]
      refine ⟨fun h => absurd h Bool.false_ne_true, fun h => ?_⟩
      exact absurd (h i (Nat.le_refl i) (by omega)) hne

/-- A comparison that fails has read inside of the first `k` bytes only if it fails at one of
them. -/
theorem strncmp_reads (hz : ∀ j < i + n, text.getD j 0 ≠ 0)
    (h : (strncmp text n i m).1 = false) :
    (∀ j ∈ (strncmp text n i m).2.reads, j < k) ↔
      (∀ j ∈ m.reads, j < k) ∧
        ∃ j, i ≤ j ∧ j < i + n ∧ j < k ∧ m.src j ≠ text.getD j 0 := by
  induction n generalizing i m with
  | zero => exact absurd h Bool.true_eq_false.mp
  | succ n ih =>
    rw [strncmp] at h ⊢
    by_cases hne : m.src i = text.getD i 0
    · rw [if_neg (not_not.mpr hne), if_neg (hne ▸ hz i (by omega))] at h ⊢
      rw [ih (fun j hj => hz j (by omega)) h, load_reads, load_src, List.forall_mem_cons]
      constructor
      · rintro ⟨⟨_, hr⟩, j, hj, hjn, hjk, hd⟩
        exact ⟨hr, j, by omega, by omega, hjk, hd⟩
      · rintro ⟨hr, j, hj, hjn, hjk, hd⟩
        have hlt : i < j := Nat.lt_of_le_of_ne hj fun he => hd (he ▸ hne)
        exact ⟨⟨by omega, hr⟩, j, hlt, by omega, hjk, hd⟩
    · rw [if_pos hne, load_reads, List.forall_mem_cons]
      constructor
      · rintro ⟨hi, hr⟩
        exact ⟨hr, i, Nat.le_refl i, by omega, hi, hne⟩
      · rintro ⟨hr, j, hj, _, hjk, _⟩
        exact ⟨by omega, hr⟩

end Strncmp

end Mem

end YdbTest.Access
