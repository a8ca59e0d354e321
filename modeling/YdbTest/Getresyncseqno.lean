import YdbTest.Decimal

namespace YdbTest.Getresyncseqno

open MString Decimal

/-- What a call finds: the seqno to start from, the draw of `$random(20)`, and the environment
variables that avoid the two cases. -/
structure Call where
  seqno : Int
  mode : Fin 20
  nomax : Bool
  nomin : Bool

def rollseqno (c : Call) (floor : Int) : Int :=
  let rolseqno := c.seqno - floor
  if !c.nomax && c.mode = 5 then floor + 2 * c.seqno
  else if !c.nomin && c.mode = 7 then floor + 1
  else
    let seqno := rolseqno.tdiv 2 + 1
    let seqno := if c.mode = 2 then rolseqno.tdiv 4 + 1 else seqno
    let seqno := if c.mode.val % 3 = 0 then (2 * seqno).tdiv 3 + 1 else seqno
    let seqno := if c.mode.val % 4 = 0 then 3 * rolseqno.tdiv 4 + 1 else seqno
    floor + seqno

def Accepted (arg : Str) : Prop := arg ≠ [] ∧ ∀ c ∈ arg, isDigit c = true

instance (arg : Str) : Decidable (Accepted arg) := inferInstanceAs (Decidable (_ ∧ _))

/-- The floor that a call takes from its argument. -/
def floorseqno (arg : Str) : Int := if Accepted arg then toNat arg else 0

structure Result where
  roll_seqno : Int
  floor_seq : Option Str

/-- The lines of `roll_seqno.csh` that set `roll_seqno` and `floor_seq`; the latter is written
unless it is zero. -/
def FUNC (c : Call) (arg : Str) : Result :=
  let floor := floorseqno arg
  let rollseqno := rollseqno c floor
  { roll_seqno := rollseqno
    floor_seq :=
      if floor > 0 ∧ rollseqno > 0 then some (decimal (5 * (floor + rollseqno).toNat) 1)
      else if floor ≠ 0 then some arg
      else none }

/-- A call with the argument that it is passed. -/
structure Step where
  arg : Str
  call : Call

def Step.floor (st : Step) : Int := floorseqno st.arg

def Step.roll (st : Step) : Int := (FUNC st.call st.arg).roll_seqno

/-- What is passed to the next call; a line that is not written leaves the variable alone. -/
def Step.next (st : Step) : Str := (FUNC st.call st.arg).floor_seq.getD st.arg

/-- The calls, each with the floor that the one before it wrote. -/
def run (arg : Str) : List Call → List Step
  | [] => []
  | c :: calls => ⟨arg, c⟩ :: run (Step.next ⟨arg, c⟩) calls

/-- The call rolls back to a seqno above the floor and not past the current one, unless it is meant
to, and the new floor is one for the next call. -/
structure Step.Respects (st : Step) : Prop where
  above : st.floor < st.roll
  upTo : st.roll ≤ st.call.seqno ∨ st.call.nomax = false ∧ st.call.mode = 5 ∧ st.call.seqno ≤ st.roll
  accepted : 0 < st.floor → Accepted st.next
  raised : st.floor ≤ floorseqno st.next
  below : floorseqno st.next < st.roll

/-- The draws for which the seqno is at an even distance from the floor, or there is no floor. -/
def Step.Even (st : Step) : Prop :=
  let rolseqno := st.call.seqno - st.floor
  st.floor = 0 ∨
  if st.call.mode = 5 ∧ st.call.nomax = false then True
  else if st.call.mode = 7 ∧ st.call.nomin = false then False
  else if 4 ∣ st.call.mode.val then rolseqno / 4 % 2 = 1
  else if 3 ∣ st.call.mode.val then 2 * (rolseqno / 2 + 1) / 3 % 2 = 1
  else if st.call.mode = 2 then rolseqno / 4 % 2 = 1
  else rolseqno / 2 % 2 = 1

instance (st : Step) : Decidable st.Even := inferInstanceAs (Decidable (_ ∨ _))

variable {c : Call} {arg : Str} {st : Step} {calls : List Call} {floor : Int}

theorem floorseqno_nonneg (arg : Str) : 0 ≤ floorseqno arg := by
  unfold floorseqno
  split
  · exact Int.natCast_nonneg _
  · exact Int.le_refl 0

theorem rollseqno_bounds (hfloor : 0 ≤ floor) (hlt : floor < c.seqno) :
    floor < rollseqno c floor ∧ (rollseqno c floor ≤ c.seqno ∨
      c.nomax = false ∧ c.mode = 5 ∧ c.seqno ≤ rollseqno c floor) := by
  have hpos : 0 < c.seqno - floor := Int.sub_pos_of_lt hlt
  unfold rollseqno
  dsimp only
  rw [Int.tdiv_eq_ediv_of_nonneg hpos.le, Int.tdiv_eq_ediv_of_nonneg hpos.le]
  split
  · rename_i hmax
    rw [Bool.and_eq_true, Bool.not_eq_true', decide_eq_true_eq] at hmax
    exact ⟨by omega, Or.inr ⟨hmax.1, hmax.2, by omega⟩⟩
  split
  · exact ⟨by omega, Or.inl (by omega)⟩
  rw [Int.tdiv_eq_ediv_of_nonneg (by split <;> omega)]
  split
  · exact ⟨by omega, Or.inl (by omega)⟩
  split
  · exact ⟨by split <;> omega, Or.inl (by split <;> omega)⟩
  split
  · exact ⟨by omega, Or.inl (by omega)⟩
  · exact ⟨by omega, Or.inl (by omega)⟩

theorem rollseqno_even (hlt : floor < c.seqno) :
    (floor + rollseqno c floor) % 2 = 0 ↔
      if c.mode = 5 ∧ c.nomax = false then True
      else if c.mode = 7 ∧ c.nomin = false then False
      else if 4 ∣ c.mode.val then (c.seqno - floor) / 4 % 2 = 1
      else if 3 ∣ c.mode.val then 2 * ((c.seqno - floor) / 2 + 1) / 3 % 2 = 1
      else if c.mode = 2 then (c.seqno - floor) / 4 % 2 = 1
      else (c.seqno - floor) / 2 % 2 = 1 := by
  have hpos : 0 < c.seqno - floor := Int.sub_pos_of_lt hlt
  have hmax : (!c.nomax && decide (c.mode = 5)) = true ↔ c.mode = 5 ∧ c.nomax = false := by
    rw [Bool.and_eq_true, Bool.not_eq_true', decide_eq_true_eq, and_comm]
  have hmin : (!c.nomin && decide (c.mode = 7)) = true ↔ c.mode = 7 ∧ c.nomin = false := by
    rw [Bool.and_eq_true, Bool.not_eq_true', decide_eq_true_eq, and_comm]
  unfold rollseqno
  dsimp only
  rw [Int.tdiv_eq_ediv_of_nonneg hpos.le, Int.tdiv_eq_ediv_of_nonneg hpos.le,
    Int.tdiv_eq_ediv_of_nonneg (by split <;> omega)]
  simp only [hmax, hmin, Nat.dvd_iff_mod_eq_zero]
  split
  · exact iff_of_true (by omega) trivial
  split
  · exact iff_of_false (by omega) id
  split
  · omega
  split
  · rename_i h3
    have h2 : c.mode ≠ 2 := fun h => by rw [h] at h3; exact absurd h3 (by decide)
    rw [if_neg h2]
    omega
  split
  · omega
  · omega

theorem raised_even {n : Nat} (h : n % 2 = 0) : decimal (5 * n) 1 = dec (n / 2) := by
  have hten : 5 * n = n / 2 * 10 ^ 1 := by omega
  have hfrac : fracDigits 1 (5 * n) = [] := by
    have hlast : 5 * n % 10 = 0 := by omega
    simp [fracDigits, lastDigits, hlast, digitsStr]
  rw [decimal, if_pos hfrac, hten, Nat.mul_div_cancel _ (by decide)]

theorem raised_odd {n : Nat} (h : n % 2 = 1) : ¬ Accepted (decimal (5 * n) 1) := by
  have hlast : 5 * n % 10 = 5 := by omega
  have hfrac : fracDigits 1 (5 * n) = [53] := by
    simp [fracDigits, lastDigits, hlast, digitsStr]
  rw [decimal, hfrac, if_neg (List.cons_ne_nil _ _)]
  intro hacc
  have hpoint := hacc.2 46 (List.mem_append_right _ List.mem_cons_self)
  exact absurd hpoint (by decide)

theorem accepted_dec (n : Nat) : Accepted (dec n) := by
  refine ⟨dec_ne_nil n, fun c hc => ?_⟩
  obtain ⟨hlow, hhigh⟩ := dec_digit hc
  simp [isDigit, hlow, hhigh]

theorem next_of_zero (h : st.floor = 0) : st.next = st.arg := by
  have hfloor : floorseqno st.arg = 0 := h
  simp [Step.next, FUNC, hfloor]

theorem next_of_pos (hfloor : 0 < st.floor) (hroll : 0 < st.roll) :
    st.next = decimal (5 * (st.floor + st.roll).toNat) 1 := by
  have hraise : floorseqno st.arg > 0 ∧ rollseqno st.call (floorseqno st.arg) > 0 :=
    ⟨hfloor, hroll⟩
  rw [Step.next, FUNC]
  dsimp only
  rw [if_pos hraise]
  rfl

theorem respects_of_even (hlt : st.floor < st.call.seqno) (h : st.Even) : st.Respects := by
  obtain ⟨habove, hupTo⟩ := rollseqno_bounds (floorseqno_nonneg st.arg) hlt
  have hnonneg : 0 ≤ st.floor := floorseqno_nonneg st.arg
  by_cases hzero : st.floor = 0
  · have hnext : floorseqno st.next = st.floor := congrArg floorseqno (next_of_zero hzero)
    exact ⟨habove, hupTo, fun hpos => absurd hzero hpos.ne', hnext.ge, hnext ▸ habove⟩
  have hpos : 0 < st.floor := lt_of_le_of_ne hnonneg (Ne.symm hzero)
  have heven : (st.floor + st.roll) % 2 = 0 := (rollseqno_even hlt).mpr (h.resolve_left hzero)
  have habove' : st.floor < st.roll := habove
  have hnext : st.next = dec ((st.floor + st.roll).toNat / 2) := by
    rw [next_of_pos hpos (hpos.trans habove'), raised_even (by omega)]
  have hvalue : floorseqno st.next = ((st.floor + st.roll).toNat / 2 : Nat) := by
    rw [hnext, floorseqno, if_pos (accepted_dec _), toNat_dec]
  refine ⟨habove, hupTo, fun _ => hnext ▸ accepted_dec _, ?_, ?_⟩
  · rw [hvalue]
    omega
  · rw [hvalue]
    omega

theorem even_of_respects (hlt : st.floor < st.call.seqno) (h : st.Respects) : st.Even := by
  by_cases hzero : st.floor = 0
  · exact Or.inl hzero
  have hpos : 0 < st.floor := lt_of_le_of_ne (floorseqno_nonneg st.arg) (Ne.symm hzero)
  refine Or.inr ((rollseqno_even hlt).mp ?_)
  by_contra hodd
  have hroll : (st.floor + st.roll) % 2 ≠ 0 := hodd
  have habove := h.above
  refine raised_odd (n := (st.floor + st.roll).toNat) (by omega) ?_
  rw [← next_of_pos hpos (hpos.trans habove)]
  exact h.accepted hpos

theorem floor_le_of_mem (h : ∀ st ∈ run arg calls, st.Respects) (hst : st ∈ run arg calls) :
    floorseqno arg ≤ st.floor := by
  induction calls generalizing arg with
  | nil => cases hst
  | cons c calls ih =>
    rw [run, List.forall_mem_cons] at h
    obtain rfl | hst := List.mem_cons.mp hst
    · exact Int.le_refl _
    · exact h.1.raised.trans (ih h.2 hst)

theorem pairwise_run (h : ∀ st ∈ run arg calls, st.Respects) :
    (run arg calls).Pairwise fun a b => floorseqno a.next ≤ b.floor ∧ floorseqno a.next < b.roll := by
  induction calls generalizing arg with
  | nil => exact List.Pairwise.nil
  | cons c calls ih =>
    rw [run, List.forall_mem_cons] at h
    refine List.Pairwise.cons (fun b hb => ?_) (ih h.2)
    have hle := floor_le_of_mem h.2 hb
    exact ⟨hle, hle.trans_lt (h.2 b hb).above⟩

/-- In a sequence of calls that are each passed the floor of the one before, every call respects
its floor exactly if each one finds a seqno at an even distance; then none goes below the floor of
an earlier call. -/
theorem floors_respected (arg : Str) (calls : List Call)
    (h : ∀ st ∈ run arg calls, st.floor < st.call.seqno) :
    ((∀ st ∈ run arg calls, st.Respects) ↔ ∀ st ∈ run arg calls, st.Even) ∧
    ((∀ st ∈ run arg calls, st.Even) → (run arg calls).Pairwise fun a b =>
      floorseqno a.next ≤ b.floor ∧ floorseqno a.next < b.roll) := by
  have hall : (∀ st ∈ run arg calls, st.Even) → ∀ st ∈ run arg calls, st.Respects :=
    fun heven st hst => respects_of_even (h st hst) (heven st hst)
  refine ⟨⟨fun hr st hst => even_of_respects (h st hst) (hr st hst), hall⟩, fun heven => ?_⟩
  exact pairwise_run (hall heven)

/-- From a floor of 10, to 16 at seqno 20, and then to 25 at seqno 35. -/
theorem floors_respected_two : let calls := [⟨20, 1, false, false⟩, ⟨35, 11, false, false⟩]
    (∀ st ∈ run (lit "10") calls, st.Respects) ∧ (run (lit "10") calls).Pairwise fun a b =>
      floorseqno a.next ≤ b.floor ∧ floorseqno a.next < b.roll := by
  intro calls
  have heven : ∀ st ∈ run (lit "10") calls, st.Even := by decide +kernel
  obtain ⟨hiff, hpairs⟩ := floors_respected (lit "10") calls (by decide +kernel)
  exact ⟨hiff.mpr heven, hpairs heven⟩

/-- Half of an odd distance is not written as an integer. -/
theorem half_floor : ¬ ∀ (arg : Str) (calls : List Call),
    (∀ st ∈ run arg calls, st.floor < st.call.seqno) → ∀ st ∈ run arg calls, st.Respects := by
  intro h
  have hstep := h (lit "10") [⟨20, 7, false, false⟩] (by decide +kernel) _ List.mem_cons_self
  exact absurd (hstep.accepted (by decide +kernel)) (by decide +kernel)

end YdbTest.Getresyncseqno
