import YdbTest.Threeenp1
import Mathlib.Algebra.Order.Group.Nat
import Mathlib.Data.Nat.Find
import Mathlib.Order.Basic

namespace YdbTest.Threeenp1

open Function

/-- Block `i + 1` has the numbers after `b i` up to `b (i + 1)`. -/
structure Cut (limits : Nat → Option Nat) (endnum k : Nat) (b : Nat → Nat) : Prop where
  zero : b 0 = 0
  last : b k = endnum
  lt : ∀ i < k, b i < b (i + 1)
  node : ∀ i, limits i = if 1 ≤ i ∧ i ≤ k then some (b i) else none

/-- The nodes cut the numbers up to `endnum` into blocks with at most `size` numbers. -/
def Cuts (limits : Nat → Option Nat) (endnum size : Nat) : Prop :=
  ∃ k b, Cut limits endnum k b ∧ ∀ i < k, b (i + 1) - b i ≤ size

variable {limits : Nat → Option Nat} {l : Line} {prog : Program} {b : Nat → Nat}
  {c e i j k endnum size tmp fuel subscr : Nat} {t t' : Table}

namespace Cut

variable (h : Cut limits endnum k b)

include h

theorem of_some (hi : limits i = some e) : 1 ≤ i ∧ i ≤ k ∧ b i = e := by
  rw [h.node] at hi
  by_cases hk : 1 ≤ i ∧ i ≤ k
  · rw [if_pos hk] at hi
    exact ⟨hk.1, hk.2, Option.some.inj hi⟩
  · rw [if_neg hk] at hi
    cases hi

theorem some_of (h1 : 1 ≤ i) (hk : i ≤ k) : limits i = some (b i) := by
  rw [h.node, if_pos ⟨h1, hk⟩]

theorem mono (hij : i ≤ j) (hj : j ≤ k) : b i ≤ b j := by
  induction j, hij using Nat.le_induction with
  | base => exact Nat.le_refl _
  | succ j _ ih => exact (ih (Nat.le_of_succ_le hj)).trans (Nat.le_of_lt (h.lt j hj))

theorem isSome_of_le (hj : (limits j).isSome) (h1 : 1 ≤ i) (hij : i ≤ j) :
    (limits i).isSome := by
  obtain ⟨e, he⟩ := Option.isSome_iff_exists.mp hj
  rw [h.some_of h1 (hij.trans (h.of_some he).2.1)]
  rfl

theorem before_succ (hi : i < k) : before limits (i + 1) = b i := by
  rw [before]
  obtain rfl | h0 := Nat.eq_zero_or_pos i
  · rw [if_pos rfl, h.zero]
  · rw [if_neg (by omega), Nat.add_sub_cancel, h.some_of h0 (Nat.le_of_lt hi)]
    rfl

theorem range (hi : limits i = some e) : before limits i < e ∧ e ≤ endnum := by
  obtain ⟨h1, hk, rfl⟩ := h.of_some hi
  obtain ⟨i, rfl⟩ : ∃ j, i = j + 1 := ⟨i - 1, by omega⟩
  rw [h.before_succ hk, ← h.last]
  exact ⟨h.lt i hk, h.mono hk (Nat.le_refl k)⟩

theorem exists_block (h1 : 1 ≤ c) (hc : c ≤ endnum) :
    ∃ i e, limits i = some e ∧ before limits i < c ∧ c ≤ e := by
  have hex : ∃ i, c ≤ b i := ⟨k, h.last.symm ▸ hc⟩
  obtain ⟨i, hi, hmin⟩ : ∃ i, c ≤ b i ∧ ∀ j < i, b j < c :=
    ⟨Nat.find hex, Nat.find_spec hex, fun j hj => Nat.not_le.mp (Nat.find_min hex hj)⟩
  have hk : c ≤ b k := h.last.symm ▸ hc
  have hik : i ≤ k := Nat.not_lt.mp fun hlt => Nat.not_lt.mpr hk (hmin k hlt)
  cases i with
  | zero =>
    rw [h.zero] at hi
    omega
  | succ i =>
    refine ⟨i + 1, b (i + 1), h.some_of (Nat.succ_pos i) hik, ?_, hi⟩
    rw [h.before_succ hik]
    exact hmin i (Nat.lt_succ_self i)

theorem ends_eq {k' : Nat} {b' : Nat → Nat} (h' : Cut limits endnum k' b') (hi : i ≤ k) :
    b' i = b i := by
  obtain rfl | h0 := Nat.eq_zero_or_pos i
  · rw [h.zero, h'.zero]
  · exact (h'.of_some (h.some_of h0 hi)).2.2

end Cut

def Shape (limits : Nat → Option Nat) (endnum size k : Nat) : Prop :=
  ∀ j, limits j = if 1 ≤ j ∧ j ≤ k then some (if j < k then j * size else endnum) else none

theorem Shape.cut (h : Shape limits endnum size k) (hs : 0 < size) (hk : 1 ≤ k)
    (hlt : (k - 1) * size < endnum) :
    Cut limits endnum k fun j => if j < k then j * size else endnum where
  zero := by rw [if_pos (by omega), Nat.zero_mul]
  last := if_neg (Nat.lt_irrefl k)
  lt i hi := by
    rw [if_pos hi]
    by_cases hn : i + 1 < k
    · rw [if_pos hn, Nat.succ_mul]
      omega
    · rw [if_neg hn]
      obtain rfl : i = k - 1 := by omega
      exact hlt
  node := h

theorem Shape.cuts_iff (h : Shape limits endnum size k) (hs : 0 < size) (hk : 1 ≤ k)
    (hlt : (k - 1) * size < endnum) : Cuts limits endnum size ↔ endnum ≤ k * size := by
  have hcut := h.cut hs hk hlt
  have hmul : k * size = (k - 1) * size + size := by
    rw [← Nat.succ_mul]
    congr
    omega
  constructor
  · rintro ⟨k', b, hb, hsize⟩
    have hlast := hcut.ends_eq hb (Nat.le_refl k)
    have hprev := hcut.ends_eq hb (Nat.sub_le k 1)
    rw [if_neg (Nat.lt_irrefl k)] at hlast
    rw [if_pos (by omega)] at hprev
    have hk' : k ≤ k' := (hb.of_some (hcut.some_of hk (Nat.le_refl k))).2.1
    have hle := hsize (k - 1) (by omega)
    rw [Nat.sub_add_cancel hk, hlast, hprev] at hle
    omega
  · intro hle
    refine ⟨k, _, hcut, fun i hi => ?_⟩
    rw [if_pos hi]
    by_cases hn : i + 1 < k
    · rw [if_pos hn, Nat.succ_mul]
      omega
    · rw [if_neg hn]
      obtain rfl : i = k - 1 := by omega
      omega

theorem blocks_goroutines (hp : prog ≠ .C2) : blocks prog endnum size (fuel + 1) i tmp t =
    if tmp = endnum then some t
    else if tmp + size > endnum then
      some { t with limits := update t.limits t.subscr (some endnum) }
    else if ¬ Fits i then none
    else blocks prog endnum size fuel (i + 1) (tmp + size)
      ⟨update t.limits i (some (tmp + size)), i⟩ := by
  cases prog with
  | C2 => exact absurd rfl hp
  | B1 | B2 => rfl

theorem blocks_end (h : blocks prog endnum size fuel i endnum t = some t') : t' = t := by
  cases fuel with
  | zero => cases h
  | succ fuel =>
    rw [blocks, if_pos rfl] at h
    exact (Option.some.inj h).symm

/-- What the table has before turn `i + 1`. -/
structure Begun (size i : Nat) (t : Table) : Prop where
  node : ∀ j, t.limits j = if 1 ≤ j ∧ j ≤ i then some (j * size) else none
  key : 0 < i → t.subscr = i

theorem begun_zero : Begun size 0 ⟨fun _ => none, subscr⟩ where
  node j := (if_neg (by omega)).symm
  key h := absurd h (Nat.lt_irrefl 0)

theorem Begun.next (h : Begun size i t) :
    Begun size (i + 1) ⟨update t.limits (i + 1) (some (i * size + size)), i + 1⟩ where
  node j := by
    dsimp only
    obtain rfl | hj := eq_or_ne j (i + 1)
    · rw [update_self, if_pos ⟨Nat.succ_pos i, Nat.le_refl _⟩, Nat.succ_mul]
    · rw [update_of_ne hj, h.node]
      exact if_congr (by omega) rfl rfl
  key _ := rfl

theorem Begun.shape (h : Begun size i t) (hk : k = i ∨ k = i + 1) (h1 : 1 ≤ k) :
    Shape (update t.limits k (some endnum)) endnum size k := by
  intro j
  obtain rfl | hj := eq_or_ne j k
  · rw [update_self, if_pos ⟨h1, Nat.le_refl j⟩, if_neg (Nat.lt_irrefl j)]
  · rw [update_of_ne hj, h.node]
    by_cases hlt : j < k
    · rw [if_pos hlt]
      exact if_congr (by omega) rfl rfl
    · rw [if_neg (by omega), if_neg (by omega)]

/-- The loop ends with blocks up to `endnum`. All but the last one have the block size. -/
theorem blocks_shape (hs : 0 < size) (hle : size ≤ endnum) (hbegun : Begun size i t)
    (htmp : i * size ≤ endnum)
    (h : blocks prog endnum size fuel (i + 1) (i * size) t = some t') :
    ∃ k, 1 ≤ k ∧ (k - 1) * size < endnum ∧ Shape t'.limits endnum size k ∧
      (endnum ≤ k * size ↔ prog = .C2 ∨ size ∣ endnum) := by
  induction fuel generalizing i t with
  | zero => cases h
  | succ fuel ih =>
    have hpos : ∀ {n}, endnum < n * size + size → n * size ≤ endnum → 1 ≤ n := by
      intro n hn _
      obtain rfl | h0 := Nat.eq_zero_or_pos n
      · omega
      · exact h0
    have hprev : ∀ {n}, 1 ≤ n → (n - 1) * size + size = n * size := by
      intro n hn
      rw [← Nat.succ_mul]
      congr
      omega
    by_cases hend : i * size = endnum
    · rw [hend] at h
      obtain rfl := blocks_end h
      have h1 := hpos (by omega) htmp
      refine ⟨i, h1, ?_, ?_, iff_of_true (Nat.le_of_eq hend.symm) (Or.inr ⟨i, ?_⟩)⟩
      · have := hprev h1
        omega
      · have hnode : t'.limits = update t'.limits i (some endnum) := by
          rw [eq_comm, update_eq_self_iff, hbegun.node, if_pos ⟨h1, Nat.le_refl i⟩, hend]
        rw [hnode]
        exact hbegun.shape (Or.inl rfl) h1
      · rw [Nat.mul_comm, hend]
    · have hlt : i * size < endnum := Nat.lt_of_le_of_ne htmp hend
      by_cases hp : prog = .C2
      · subst hp
        rw [blocks, if_neg hend] at h
        simp only [gt_iff_lt] at h
        by_cases hover : endnum < i * size + size
        · rw [if_pos hover] at h
          split at h
          · cases h
          · obtain rfl := blocks_end h
            refine ⟨i + 1, Nat.succ_pos i, hlt, hbegun.shape (Or.inr rfl) (Nat.succ_pos i), ?_⟩
            rw [Nat.succ_mul]
            exact iff_of_true (Nat.le_of_lt hover) (Or.inl rfl)
        · rw [if_neg hover] at h
          split at h
          · cases h
          · rw [← Nat.succ_mul] at h hover
            exact ih (by rw [Nat.succ_mul]; exact hbegun.next) (Nat.not_lt.mp hover) h
      · rw [blocks_goroutines hp, if_neg hend] at h
        by_cases hover : i * size + size > endnum
        · rw [if_pos hover] at h
          obtain rfl := Option.some.inj h
          have h1 := hpos hover htmp
          refine ⟨i, h1, ?_, ?_, iff_of_false (Nat.not_le.mpr hlt) ?_⟩
          · have := hprev h1
            omega
          · dsimp only
            rw [hbegun.key h1]
            exact hbegun.shape (Or.inl rfl) h1
          · rintro (hc | ⟨n, hn⟩)
            · exact hp hc
            · rw [hn, Nat.mul_comm size n] at hlt hover
              have h2 := Nat.lt_of_mul_lt_mul_right hlt
              have h3 : n * size < (i + 1) * size := by rwa [Nat.succ_mul]
              have h4 := Nat.lt_of_mul_lt_mul_right h3
              omega
        · rw [if_neg hover] at h
          split at h
          · cases h
          · rw [← Nat.succ_mul] at h hover
            exact ih (by rw [Nat.succ_mul]; exact hbegun.next) (Nat.not_lt.mp hover) h

namespace Line

theorem maxblk_pos : 0 < l.maxblk := by
  have h1 := l.one_lt
  have hpos := l.pos
  rw [maxblk]
  exact Nat.div_pos (by omega) hpos

theorem maxblk_le : l.maxblk ≤ l.endnum := by
  have h1 := l.one_lt
  obtain ⟨n, hn⟩ : ∃ n, l.streams = n + 1 := ⟨l.streams - 1, by have := l.pos; omega⟩
  rw [maxblk, hn, Nat.add_sub_cancel]
  refine Nat.lt_succ_iff.mp ((Nat.div_lt_iff_lt_mul (Nat.succ_pos n)).mpr ?_)
  rw [Nat.succ_mul, Nat.mul_succ]
  have := Nat.le_mul_of_pos_left n (show 0 < l.endnum by omega)
  omega

theorem size_pos : 0 < l.size := by
  rw [size]
  split
  · omega
  · exact maxblk_pos

theorem size_le : l.size ≤ l.endnum := by
  rw [size]
  split
  · rename_i h
    exact h.2.trans maxblk_le
  · exact maxblk_le

end Line

theorem exists_blocks (hs : 0 < size) (hend : Fits endnum) (htmp : tmp ≤ endnum)
    (hi : i ≤ tmp + 1) (hfuel : endnum - tmp < fuel) :
    ∃ t', blocks prog endnum size fuel i tmp t = some t' := by
  induction fuel generalizing i tmp t with
  | zero => omega
  | succ fuel ih =>
    by_cases heq : tmp = endnum
    · rw [blocks, if_pos heq]
      exact ⟨t, rfl⟩
    · have hlt : tmp < endnum := Nat.lt_of_le_of_ne htmp heq
      have hfits : Fits i := Nat.lt_of_le_of_lt (show i ≤ endnum by omega) hend
      by_cases hp : prog = .C2
      · subst hp
        rw [blocks, if_neg heq]
        dsimp only
        rw [if_neg (not_not.mpr hfits)]
        split
        · exact ih (Nat.le_refl _) (by omega) (by omega)
        · exact ih (by omega) (by omega) (by omega)
      · rw [blocks_goroutines hp, if_neg heq, if_neg (not_not.mpr hfits)]
        split
        · exact ⟨_, rfl⟩
        · exact ih (by omega) (by omega) (by omega)

theorem exists_table (h : Fits l.endnum) : ∃ t, table prog l subscr = some t :=
  exists_blocks l.size_pos h (Nat.zero_le _) (Nat.le_refl 1) (Nat.lt_succ_self _)

/-- Any table cuts the numbers; the blocks are small enough where the last turn sets a node of its
own, and where no numbers are left for it. -/
theorem table_cut (h : table prog l subscr = some t) :
    (∃ k b, Cut t.limits l.endnum k b) ∧
      (Cuts t.limits l.endnum l.size ↔ prog = .C2 ∨ l.size ∣ l.endnum) := by
  have h0 : blocks prog l.endnum l.size (l.endnum + 1) (0 + 1) (0 * l.size)
      ⟨fun _ => none, subscr⟩ = some t := by
    rw [Nat.zero_mul]
    exact h
  obtain ⟨k, hk, hlt, hshape, hiff⟩ := blocks_shape l.size_pos l.size_le begun_zero
    (by rw [Nat.zero_mul]; exact Nat.zero_le _) h0
  exact ⟨⟨k, _, hshape.cut l.size_pos hk hlt⟩, (hshape.cuts_iff l.size_pos hk hlt).trans hiff⟩

end YdbTest.Threeenp1
