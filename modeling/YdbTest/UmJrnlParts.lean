import YdbTest.UmJrnl
import Mathlib.Algebra.BigOperators.Group.List.Basic

namespace YdbTest.UmJrnl

open MString

variable {St : Type} {e : Engine St} {m : Settings} {s t : State St} {n k i : Nat}
  {done : List Nat} {header line : Str} {recs : List Str}

/-- The variables in a later part of an extract: its records are numbered on, and those of the
first part are done. -/
def later (k : Nat) (done : List Nat) (s : State St) : State St :=
  { s with
    tran := s.tran.map fun c => (c.1 + k, c.2)
    applied := done ++ s.applied.map (· + k) }

theorem later_st : (later k done s).st = s.st := rfl

theorem later_tpFence : (later k done s).tpFence = s.tpFence := rfl

theorem apply_later (command : Str) :
    apply e (n + k) command (later k done s) = later k done (apply e n command s) := by
  unfold apply later
  split_ifs
  · simp
  · simp

theorem setRec_later : setRec e m (n + k) line (later k done s) =
    later k done (setRec e m n line s) := by
  simp only [setRec, later_st, apply_later, apply_ite (later k done)]

theorem kills_eq (word : Str) {skip : Bool} (h : (s.skipgbl || m.checkzqgblmod &&
      e.zqgblmod (pieceFrom line backslash 11) s.st) = skip) : kills e m word n line s =
    if skip then { s with skipgbl := skip }
    else if (piece line backslash 11).take 3 = lit "^#t" then { s with skipgbl := skip }
    else apply e n (word ++ pieceFrom line backslash 11) { s with skipgbl := skip } := by
  subst h
  rfl

theorem kills_later (word : Str) : kills e m word (n + k) line (later k done s) =
    later k done (kills e m word n line s) := by
  obtain ⟨skip, hskip⟩ : ∃ skip, (s.skipgbl || m.checkzqgblmod &&
    e.zqgblmod (pieceFrom line backslash 11) s.st) = skip := ⟨_, rfl⟩
  have hskip' : ((later k done s).skipgbl || m.checkzqgblmod &&
    e.zqgblmod (pieceFrom line backslash 11) (later k done s).st) = skip := hskip
  rw [kills_eq word hskip, kills_eq word hskip']
  split_ifs
  · rfl
  · rfl
  · exact apply_later (s := { s with skipgbl := skip }) _

theorem within_later (command : Str) : within m command (n + k) (later k done s) =
    (within m command n s).map (later k done) := by
  unfold within
  rw [later_tpFence]
  split_ifs
  · rfl
  · rfl
  · simp [later]

theorem finish_later : finish e m (later k done s) = (finish e m s).map (later k done) := by
  unfold finish commit
  by_cases hfence : s.tpFence - 1 = 0
  · by_cases hcheck : m.checkzqgblmod = true
    · simp [later, hfence, hcheck]
    · simp [later, hfence, hcheck, List.foldl_map]
  · simp [later, hfence]

theorem clearZtwormhole_later :
    clearZtwormhole e (later k done s) = later k done (clearZtwormhole e s) := rfl

theorem start_later : start (later k done s) = later k done (start s) := rfl

theorem record_later : record e m (later k done s) (n + k, line) =
    (record e m s (n, line)).map (later k done) := by
  have hkill : killRec e m (n + k) line (later k done s) = later k done (killRec e m n line s) := by
    unfold killRec
    rw [kills_later]
    split_ifs <;> rfl
  have hclear : clearZtwormhole e ∘ later k done = later k done ∘ clearZtwormhole e := rfl
  simp only [record]
  generalize toNat (piece line backslash 1) = recType
  simp only [setRec_later, hkill, zkillRec, kills_later, ztwormhole, ztrig, lgtrig, within_later,
    start_later, clearZtwormhole_later, finish_later, Option.map_map, hclear,
    apply_ite (Option.map (later k done)), Option.map_some]

theorem foldlM_later :
    (recs.zipIdx (i + k)).foldlM (fun s l => record e m s l.swap) (later k done s) =
    ((recs.zipIdx i).foldlM (fun s l => record e m s l.swap) s).map (later k done) := by
  induction recs generalizing i s with
  | nil => rfl
  | cons line recs ih =>
    rw [List.zipIdx_cons, List.zipIdx_cons, List.foldlM_cons, List.foldlM_cons]
    change (record e m (later k done s) (i + k, line)).bind _ =
      ((record e m s (i, line)).bind _).map _
    rw [record_later]
    cases record e m s (i, line) with
    | none => rfl
    | some s' =>
      rw [Option.map_some, Option.bind_some, Option.bind_some, ← ih (i := i + 1)]
      rw [Nat.add_right_comm]

/-- Where no fence is open, an extract may be cut: the rest is done, or halts, as an extract of its
own. -/
theorem umjrnl_parts (header : Str) (recs recs' : List Str) (st : St) (s : State St)
    (h : umjrnl e m header recs st = some s) (hfence : s.tpFence = 0) (htran : s.tran = [])
    (hflag : s.skipgbl = false) :
    umjrnl e m header (recs ++ recs') st =
      (umjrnl e m header recs' s.st).map (later recs.length s.applied) := by
  unfold umjrnl at h ⊢
  split_ifs at h ⊢ with hheader
  have hs : s = later recs.length s.applied ⟨s.st, 0, [], false, []⟩ := by
    obtain ⟨st', tpFence, tran, skipgbl, applied⟩ := s
    obtain ⟨rfl, rfl, rfl⟩ : tpFence = 0 ∧ tran = [] ∧ skipgbl = false := ⟨hfence, htran, hflag⟩
    simp [later]
  rw [List.zipIdx_append, List.foldlM_append, h]
  change List.foldlM _ s _ = _
  conv_lhs => rw [hs]
  exact foldlM_later

/-- A database that lists the commands done. -/
def commands : Engine (List Str) := ⟨fun c st => st ++ [c], fun _ _ => false⟩

def setOf (node : String) : Str := lit ("05\\1\\2\\3\\4\\5\\6\\7\\8\\0\\" ++ node)

theorem umjrnl_parts_two :
    umjrnl commands ⟨false, false⟩ (lit "YDBJEX08") [setOf "^a=1", setOf "^b=1"] [] =
      (umjrnl commands ⟨false, false⟩ (lit "YDBJEX08") [setOf "^b=1"] [lit "set ^a=1"]).map
        (later 1 [1]) :=
  umjrnl_parts (e := commands) (lit "YDBJEX08") [setOf "^a=1"] [setOf "^b=1"] []
    ⟨[lit "set ^a=1"], 0, [], false, [1]⟩ (by rfl) rfl rfl rfl

def fence (line : Str) : Int :=
  let recType := toNat (piece line backslash 1)
  if recType = 6 ∨ recType = 8 then 1 else if recType = 7 ∨ recType = 9 then -1 else 0

def fences (recs : List Str) : Int := (recs.map fence).sum

inductive Does (n : Nat) (s t : State St) : Int → Prop
  | nothing : t.tpFence = s.tpFence → t.tran = s.tran → t.applied = s.applied → Does n s t 0
  | apply : s.tpFence = 0 → t.tpFence = s.tpFence → t.tran = s.tran →
      t.applied = s.applied ++ [n] → Does n s t 0
  | collect (command : Str) : s.tpFence ≠ 0 → t.tpFence = s.tpFence →
      t.tran = s.tran ++ [(n, command)] → t.applied = s.applied → Does n s t 0
  | start : t.tpFence = s.tpFence + 1 → t.tran = s.tran → t.applied = s.applied → Does n s t 1
  | finish : t.tpFence = s.tpFence - 1 → t.tpFence ≠ 0 → t.tran = s.tran →
      t.applied = s.applied → Does n s t (-1)
  | commit : t.tpFence = s.tpFence - 1 → t.tpFence = 0 → t.tran = [] →
      t.applied = s.applied ++ s.tran.map Prod.fst → Does n s t (-1)

/-- What the type of a record makes of it. -/
inductive Recorded (e : Engine St) (m : Settings) (n : Nat) (line : Str) (s t : State St) :
    Nat → Prop
  | set (h : t = setRec e m n line s) : Recorded e m n line s t 5
  | kill (h : t = killRec e m n line s) : Recorded e m n line s t 4
  | zkill (h : t = zkillRec e m n line s) : Recorded e m n line s t 10
  | within {r : Nat} (command : Str) (hr : r = 11 ∨ r = 12 ∨ r = 13)
      (h : within m command n s = some t) : Recorded e m n line s t r
  | tstart (h : t = clearZtwormhole e (start s)) : Recorded e m n line s t 6
  | tcommit (u : State St) (h : finish e m s = some u) (ht : t = clearZtwormhole e u) :
      Recorded e m n line s t 7
  | ztstart (h : t = start s) : Recorded e m n line s t 8
  | ztcommit (h : finish e m s = some t) : Recorded e m n line s t 9
  | other {r : Nat} (hr : ¬ (4 ≤ r ∧ r ≤ 13)) (h : t = s) : Recorded e m n line s t r

theorem recorded (h : record e m s (n, line) = some t) :
    Recorded e m n line s t (toNat (piece line backslash 1)) := by
  unfold record at h
  dsimp only at h
  generalize toNat (piece line backslash 1) = r at h ⊢
  by_cases h5 : r = 5
  · rw [if_pos h5] at h
    exact h5 ▸ .set (Option.some.inj h).symm
  rw [if_neg h5] at h
  by_cases h4 : r = 4
  · rw [if_pos h4] at h
    exact h4 ▸ .kill (Option.some.inj h).symm
  rw [if_neg h4] at h
  by_cases h10 : r = 10
  · rw [if_pos h10] at h
    exact h10 ▸ .zkill (Option.some.inj h).symm
  rw [if_neg h10] at h
  by_cases h11 : r = 11
  · rw [if_pos h11] at h
    exact .within _ (Or.inl h11) h
  rw [if_neg h11] at h
  by_cases h12 : r = 12
  · rw [if_pos h12] at h
    exact .within _ (Or.inr (Or.inl h12)) h
  rw [if_neg h12] at h
  by_cases h13 : r = 13
  · rw [if_pos h13] at h
    exact .within _ (Or.inr (Or.inr h13)) h
  rw [if_neg h13] at h
  by_cases h6 : r = 6
  · rw [if_pos h6] at h
    exact h6 ▸ .tstart (Option.some.inj h).symm
  rw [if_neg h6] at h
  by_cases h7 : r = 7
  · rw [if_pos h7] at h
    obtain ⟨u, hu, ht⟩ := Option.map_eq_some_iff.mp h
    exact h7 ▸ .tcommit u hu ht.symm
  rw [if_neg h7] at h
  by_cases h8 : r = 8
  · rw [if_pos h8] at h
    exact h8 ▸ .ztstart (Option.some.inj h).symm
  rw [if_neg h8] at h
  by_cases h9 : r = 9
  · rw [if_pos h9] at h
    exact h9 ▸ .ztcommit h
  rw [if_neg h9] at h
  exact .other (by omega) (Option.some.inj h).symm

/-- After some records: the commands are done in the order of their records and none of them
twice, and those are done behind which all fences are closed at some place. -/
structure InOrder (recs : List Str) (s : State St) : Prop where
  tpFence : s.tpFence = fences recs
  sorted : (s.applied ++ s.tran.map Prod.fst).Pairwise (· < ·)
  range : ∀ n ∈ s.applied ++ s.tran.map Prod.fst, 0 < n ∧ n ≤ recs.length
  empty : fences recs = 0 → s.tran = []
  closed : ∀ n ∈ s.applied, ∃ k, n ≤ k ∧ k ≤ recs.length ∧ fences (recs.take k) = 0
  unclosed : ∀ n ∈ s.tran.map Prod.fst, ∀ k, n ≤ k → k ≤ recs.length → fences (recs.take k) ≠ 0

theorem fences_append : fences (recs ++ [line]) = fences recs + fence line := by
  simp [fences]

section Step

variable (h : InOrder recs s)

include h

theorem InOrder.closed_append (hn : n ∈ s.applied) :
    ∃ k, n ≤ k ∧ k ≤ (recs ++ [line]).length ∧ fences ((recs ++ [line]).take k) = 0 := by
  obtain ⟨k, hnk, hk, hz⟩ := h.closed n hn
  refine ⟨k, hnk, ?_, ?_⟩
  · rw [List.length_append]
    omega
  · rw [List.take_append_of_le_length hk]
    exact hz

theorem InOrder.unclosed_append (hn : n ∈ s.tran.map Prod.fst)
    (hz : fences (recs ++ [line]) ≠ 0) :
    ∀ k, n ≤ k → k ≤ (recs ++ [line]).length → fences ((recs ++ [line]).take k) ≠ 0 := by
  intro k hnk hk
  by_cases hlt : k ≤ recs.length
  · rw [List.take_append_of_le_length hlt]
    exact h.unclosed n hn k hnk hlt
  · rw [List.take_of_length_le (by rw [List.length_append, List.length_singleton]; omega)]
    exact hz

theorem InOrder.range_append (hn : n ∈ s.applied ++ s.tran.map Prod.fst) :
    0 < n ∧ n ≤ (recs ++ [line]).length := by
  obtain ⟨hpos, hle⟩ := h.range n hn
  rw [List.length_append]
  exact ⟨hpos, by omega⟩

theorem InOrder.sorted_append :
    (s.applied ++ s.tran.map Prod.fst ++ [recs.length + 1]).Pairwise (· < ·) := by
  rw [List.pairwise_append]
  refine ⟨h.sorted, List.pairwise_singleton _ _, fun a ha b hb => ?_⟩
  rw [List.mem_singleton.mp hb]
  exact Nat.lt_succ_of_le (h.range a ha).2

theorem InOrder.keep (htp : t.tpFence = fences (recs ++ [line])) (htran : t.tran = s.tran)
    (happlied : t.applied = s.applied) (hempty : fences (recs ++ [line]) = 0 → s.tran = []) :
    InOrder (recs ++ [line]) t where
  tpFence := htp
  sorted := by rw [htran, happlied]; exact h.sorted
  range n hn := by
    rw [htran, happlied] at hn
    exact h.range_append hn
  empty hz := by rw [htran]; exact hempty hz
  closed n hn := by
    rw [happlied] at hn
    exact h.closed_append hn
  unclosed n hn := by
    rw [htran] at hn
    apply h.unclosed_append hn
    intro hz
    rw [hempty hz] at hn
    exact List.not_mem_nil hn

theorem InOrder.step (hd : Does (recs.length + 1) s t (fence line)) (hfence : 0 ≤ fences recs) :
    InOrder (recs ++ [line]) t := by
  have hlength : (recs ++ [line]).length = recs.length + 1 := by simp
  generalize hf : fence line = f at hd
  have hsum : fences (recs ++ [line]) = fences recs + f := by rw [fences_append, hf]
  cases hd with
  | nothing htp htran happlied =>
    rw [add_zero] at hsum
    exact h.keep (by rw [htp, h.tpFence, hsum]) htran happlied (hsum ▸ h.empty)
  | start htp htran happlied =>
    exact h.keep (by rw [htp, h.tpFence, hsum]) htran happlied (by omega)
  | finish htp hne htran happlied =>
    rw [← sub_eq_add_neg] at hsum
    have hfences : t.tpFence = fences (recs ++ [line]) := by rw [htp, h.tpFence, hsum]
    exact h.keep hfences htran happlied fun hz => absurd (hfences.trans hz) hne
  | apply h0 htp htran happlied =>
    rw [add_zero] at hsum
    have hempty : s.tran = [] := h.empty (h.tpFence ▸ h0)
    have hsorted := h.sorted_append
    rw [hempty, List.map_nil, List.append_nil] at hsorted
    refine ⟨by rw [htp, h.tpFence, hsum], ?_, ?_, ?_, ?_, ?_⟩
    · rw [happlied, htran, hempty, List.map_nil, List.append_nil]
      exact hsorted
    · intro n hn
      rw [happlied, htran, hempty, List.map_nil, List.append_nil, List.mem_append,
        List.mem_singleton] at hn
      obtain hn | rfl := hn
      · exact h.range_append (List.mem_append_left _ hn)
      · exact ⟨Nat.succ_pos _, hlength.ge⟩
    · exact fun _ => htran.trans hempty
    · intro n hn
      rw [happlied, List.mem_append, List.mem_singleton] at hn
      obtain hn | rfl := hn
      · exact h.closed_append hn
      · refine ⟨recs.length + 1, Nat.le_refl _, hlength.ge, ?_⟩
        rw [List.take_of_length_le hlength.le, hsum, ← h.tpFence, h0]
    · intro n hn
      rw [htran, hempty] at hn
      exact absurd hn List.not_mem_nil
  | collect command hne htp htran happlied =>
    rw [add_zero] at hsum
    have hopen : fences (recs ++ [line]) ≠ 0 := by rw [hsum, ← h.tpFence]; exact hne
    refine ⟨by rw [htp, h.tpFence, hsum], ?_, ?_, fun hz => absurd hz hopen, ?_, ?_⟩
    · rw [happlied, htran, List.map_append, ← List.append_assoc]
      exact h.sorted_append
    · intro n hn
      rw [happlied, htran, List.map_append, ← List.append_assoc, List.mem_append] at hn
      obtain hn | hn := hn
      · exact h.range_append hn
      · obtain rfl := List.mem_singleton.mp hn
        exact ⟨Nat.succ_pos _, hlength.ge⟩
    · intro n hn
      rw [happlied] at hn
      exact h.closed_append hn
    · intro n hn
      rw [htran, List.map_append, List.mem_append] at hn
      obtain hn | hn := hn
      · exact h.unclosed_append hn hopen
      · obtain rfl := List.mem_singleton.mp hn
        intro k hnk hk
        change recs.length + 1 ≤ k at hnk
        rw [List.take_of_length_le (by omega)]
        exact hopen
  | commit htp h0 htran happlied =>
    rw [← sub_eq_add_neg] at hsum
    have hfences : t.tpFence = fences (recs ++ [line]) := by rw [htp, h.tpFence, hsum]
    refine ⟨hfences, ?_, ?_, fun _ => htran, ?_, ?_⟩
    · rw [happlied, htran, List.map_nil, List.append_nil]
      exact h.sorted
    · intro n hn
      rw [happlied, htran, List.map_nil, List.append_nil] at hn
      exact h.range_append hn
    · intro n hn
      rw [happlied] at hn
      refine ⟨recs.length + 1, (h.range n hn).2.trans (Nat.le_succ _), hlength.ge, ?_⟩
      rw [List.take_of_length_le hlength.le, ← hfences, h0]
    · intro n hn
      rw [htran] at hn
      exact absurd hn List.not_mem_nil

end Step

def numbers (s : State St) : List Nat := s.applied ++ s.tran.map Prod.fst

def Gives (e : Engine St) (m : Settings) (line : Str) (s : State St) : Prop :=
  let recType := toNat (piece line backslash 1)
  let triggered := m.trigtst && odd (piece line backslash 10)
  let data := pieceFrom line backslash 11
  let changed (node : Str) := m.checkzqgblmod && e.zqgblmod node s.st
  recType = 5 ∧ triggered = false ∧ changed (SPLIT data).1 = false ∧
      (piece line backslash 11).take 4 ≠ lit "^#t(" ∨
    (recType = 4 ∧ triggered = false ∨ recType = 10) ∧ (s.skipgbl || changed data) = false ∧
      (piece line backslash 11).take 3 ≠ lit "^#t" ∨
    (recType = 11 ∨ recType = 12 ∨ recType = 13) ∧ m.checkzqgblmod = false

/-- Record `n` has a command that is not left out in the state in which the records before it have
left the variables. -/
def Given (e : Engine St) (m : Settings) (header : Str) (st : St) (recs : List Str) (n : Nat) :
    Prop :=
  ∃ front line back u, recs = front ++ line :: back ∧ n = front.length + 1 ∧
    umjrnl e m header front st = some u ∧ Gives e m line u

def transaction : List Str := [lit "08\\", setOf "^a=1", lit "09\\"]

end YdbTest.UmJrnl
