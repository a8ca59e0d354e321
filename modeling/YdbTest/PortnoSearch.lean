import YdbTest.Portno
import Mathlib.Order.Interval.Finset.Nat

namespace YdbTest.PortnoSearch

open MString Portno Function

variable (me : Call) (inUse : Nat → Bool)

def probed : Pc → Bool
  | .probe portno _ => inUse portno
  | _ => false

def tested : Pc → List Nat
  | .reserved portno _ => [portno]
  | _ => []

/-- The steps of a process alone on the host, with the ports it tests on the way. -/
inductive Runs : Files → Pc → List Nat → Files → Pc → Prop
  | refl (F : Files) (pc : Pc) : Runs F pc [] F pc
  | step {F F' : Files} {pc pc' : Pc} {ports : List Nat} (F₁ : Files) (pc₁ : Pc)
      (hn : next me (probed inUse pc) F pc = (F₁, pc₁)) (h : Runs F₁ pc₁ ports F' pc') :
      Runs F pc (tested pc ++ ports) F' pc'

def Ended (pc : Pc) : Prop := pc = .failed ∨ ∃ portno, pc = .returned portno

def Free (F : Files) (portno : Nat) : Prop := F portno = none ∧ inUse portno = false

def Resets (F : Files) (second_round : Bool) (portno : Nat) : Prop :=
  second_round = false ∧ me.port_max ≤ portno ∧ F portno ≠ none

/-- The search comes to port `port_upperlimit` and finds it free: it is past all ports in use, and
so is the second sweep, if a reserved port from `port_max` on brings it to one. -/
def Leaks (F : Files) (start : Nat) (second_round : Bool) : Prop :=
  start < port_upperlimit ∧ Free inUse F port_upperlimit ∧
  (∀ p, start < p → p < port_upperlimit → ¬ Free inUse F p) ∧
  ((∃ t, start < t ∧ t < port_upperlimit ∧ Resets me F second_round t) →
    ∀ p, me.port_start < p → p ≤ start → ¬ Free inUse F p)

/-- The search ends after at most two sweeps, and nothing of a failed one is left behind. -/
def Undone (F : Files) (start : Nat) (second_round : Bool) : Prop :=
  ∃ ports F' pc, Runs me inUse F (.loop start second_round) ports F' pc ∧ Ended pc ∧
    (∃ m n, ports = List.range' (start + 1) m ++ List.range' (me.port_start + 1) n) ∧
    (∀ p ∈ ports, p ≤ port_upperlimit) ∧
    (pc = .failed → ∀ p, FirstOwner (F' p) me.pid → FirstOwner (F p) me.pid)

variable {me inUse} {F F₁ F₂ F' : Files} {pc pc₁ pc₂ pc' : Pc} {ports ports' : List Nat}
  {p q start : Nat} {sr : Bool}

theorem Runs.trans (h : Runs me inUse F pc ports F₁ pc₁)
    (h' : Runs me inUse F₁ pc₁ ports' F' pc') : Runs me inUse F pc (ports ++ ports') F' pc' := by
  induction h with
  | refl => exact h'
  | step F₁ pc₁ hn _ ih =>
    rw [List.append_assoc]
    exact .step F₁ pc₁ hn (ih h')

theorem next_ended (h : Ended pc) (b : Bool) : next me b F pc = (F, pc) ∧ tested pc = [] := by
  obtain rfl | ⟨p, rfl⟩ := h <;> exact ⟨rfl, rfl⟩

theorem Runs.of_ended (h : Runs me inUse F pc ports F' pc') (he : Ended pc) :
    ports = [] ∧ F' = F ∧ pc' = pc := by
  induction h with
  | refl => exact ⟨rfl, rfl, rfl⟩
  | step _ _ hn _ ih =>
    obtain ⟨hs, ht⟩ := next_ended he (probed inUse _)
    rw [hs] at hn
    cases hn
    obtain ⟨rfl, rfl, rfl⟩ := ih he
    exact ⟨by rw [ht, List.append_nil], rfl, rfl⟩

theorem Runs.unique (h₁ : Runs me inUse F pc ports F₁ pc₁) (he₁ : Ended pc₁)
    (h₂ : Runs me inUse F pc ports' F₂ pc₂) (he₂ : Ended pc₂) : F₁ = F₂ ∧ pc₁ = pc₂ := by
  induction h₁ generalizing ports' with
  | refl =>
    obtain ⟨-, rfl, rfl⟩ := h₂.of_ended he₁
    exact ⟨rfl, rfl⟩
  | step _ _ hn h ih =>
    cases h₂ with
    | refl =>
      obtain ⟨hs, -⟩ := next_ended he₂ (probed inUse _)
      rw [hs] at hn
      cases hn
      obtain ⟨-, rfl, rfl⟩ := h.of_ended he₂
      exact ⟨rfl, rfl⟩
    | step _ _ hn' h' =>
      rw [hn] at hn'
      cases hn'
      exact ih he₁ h'

section Rounds

theorem loop_end (h : port_upperlimit ≤ p) : Runs me inUse F (.loop p sr) [] F .failed := by
  refine .step F .failed ?_ (.refl _ _)
  rw [next, if_neg (Nat.not_lt.mpr h)]

theorem round_step (hp : p < port_upperlimit)
    (h : Runs me inUse F (.reserved (p + 1) sr) ports F' pc') :
    Runs me inUse F (.loop p sr) ports F' pc' := by
  refine .step F (.reserved (p + 1) sr) ?_ h
  rw [next, if_pos hp]
  rfl

theorem reserve_step (hF : F p = none)
    (h : Runs me inUse (update F p (some [me.line])) (.probe p sr) [] F' pc') :
    Runs me inUse F (.reserved p sr) [p] F' pc' := by
  refine .step F (.append p sr) ?_ (.step (update F p (some [me.line])) (.probe p sr) ?_ h)
  · simp only [next, hF]
  · simp only [next, hF, Option.getD_none, List.nil_append]

theorem round_reset (hp : p < port_upperlimit) (h : Resets me F sr (p + 1)) :
    Runs me inUse F (.loop p sr) [p + 1] F (.loop me.port_start true) := by
  obtain ⟨rfl, hmax, hF⟩ := h
  obtain ⟨ls, hls⟩ := Option.ne_none_iff_exists'.mp hF
  apply round_step hp
  refine .step F (.loop me.port_start true) ?_ (.refl _ _)
  simp only [next, hls, Bool.not_false, Bool.true_and, decide_eq_true_eq, if_pos hmax]

theorem round_pass (hp : p < port_upperlimit) (hfree : ¬ Free inUse F (p + 1))
    (hreset : ¬ Resets me F sr (p + 1)) :
    Runs me inUse F (.loop p sr) [p + 1] F (.loop (p + 1) sr) := by
  apply round_step hp
  cases hF : F (p + 1) with
  | some ls =>
    refine .step F (.loop (p + 1) sr) ?_ (.refl _ _)
    have hno : ¬ (!sr && decide (me.port_max ≤ p + 1)) = true := by
      intro h
      rw [Bool.and_eq_true, Bool.not_eq_true', decide_eq_true_eq] at h
      exact hreset ⟨h.1, h.2, by rw [hF]; exact Option.some_ne_none _⟩
    simp only [next, hF, if_neg hno]
  | none =>
    have hbusy : inUse (p + 1) = true := by
      by_contra h
      exact hfree ⟨hF, by simpa using h⟩
    apply reserve_step hF
    let G := update F (p + 1) (some [me.line])
    refine .step G (.busy (p + 1) sr) ?_ (.step G (.remove (p + 1) sr) ?_
      (.step F (.loop (p + 1) sr) ?_ (.refl _ _)))
    · simp only [G, next, probed, hbusy, if_true]
    · simp only [G, next, update_self, first_line, if_true]
    · rw [next, update_idem, ← hF, update_eq_self]

theorem round_free (hp : p < port_upperlimit) (h : Free inUse F (p + 1)) :
    Runs me inUse F (.loop p sr) [p + 1] (update F (p + 1) (some [me.line])) (.picked (p + 1)) := by
  apply round_step hp
  apply reserve_step h.1
  let G := update F (p + 1) (some [me.line])
  refine .step G (.unused (p + 1) sr) ?_ (.step G (.picked (p + 1)) ?_ (.refl _ _))
  · simp only [G, next, probed, h.2, Bool.false_eq_true, if_false]
  · simp only [G, next, update_self, first_line, if_true]

end Rounds

section Sweeps

theorem exists_first (S : Nat → Prop) (m n : Nat) : (∀ r, m < r → r ≤ n → ¬ S r) ∨
    ∃ q, m < q ∧ q ≤ n ∧ S q ∧ ∀ r, m < r → r < q → ¬ S r := by
  classical
  by_cases h : ∃ q, m < q ∧ q ≤ n ∧ S q
  · obtain ⟨hm, hn, hS⟩ := Nat.find_spec h
    refine .inr ⟨Nat.find h, hm, hn, hS, ?_⟩
    intro r hr hlt hSr
    exact Nat.find_min h hlt ⟨hr, by omega, hSr⟩
  · refine .inl fun r hr hn hS => ?_
    exact h ⟨r, hr, hn, hS⟩

theorem sweep_pass (n : Nat) (hn : p + n ≤ port_upperlimit)
    (h : ∀ r, p < r → r ≤ p + n → ¬ Free inUse F r ∧ ¬ Resets me F sr r) :
    Runs me inUse F (.loop p sr) (List.range' (p + 1) n) F (.loop (p + n) sr) := by
  induction n generalizing p with
  | zero => exact .refl _ _
  | succ n ih =>
    have hpass := round_pass (by omega) (h (p + 1) (by omega) (by omega)).1
      (h (p + 1) (by omega) (by omega)).2
    have hrest := ih (p := p + 1) (by omega) fun r hr hr' => h r (by omega) (by omega)
    have hsum : p + (n + 1) = p + 1 + n := by omega
    rw [List.range'_succ, hsum]
    exact hpass.trans hrest

theorem sweep (hp : p ≤ port_upperlimit) :
    (∀ r, p < r → r ≤ port_upperlimit → ¬ Free inUse F r) ∧
      Runs me inUse F (.loop p sr) (List.range' (p + 1) (port_upperlimit - p)) F .failed ∨
    ∃ n, p + n < port_upperlimit ∧
      (∀ r, p < r → r ≤ p + n → ¬ Free inUse F r ∧ ¬ Resets me F sr r) ∧
      (Free inUse F (p + n + 1) ∧ Runs me inUse F (.loop p sr) (List.range' (p + 1) (n + 1))
        (update F (p + n + 1) (some [me.line])) (.picked (p + n + 1)) ∨
      Resets me F sr (p + n + 1) ∧ Runs me inUse F (.loop p sr) (List.range' (p + 1) (n + 1))
        F (.loop me.port_start true)) := by
  obtain hnone | ⟨q, hpq, hq, hS, hfirst⟩ :=
    exists_first (fun r => Free inUse F r ∨ Resets me F sr r) p port_upperlimit
  · refine .inl ⟨fun r hr hr' hf => hnone r hr hr' (.inl hf), ?_⟩
    have hpass := sweep_pass (p := p)
      (port_upperlimit - p) (by omega)
      fun r hr hr' => not_or.mp (hnone r hr (by omega))
    have hend := hpass.trans (loop_end (by omega))
    rwa [List.append_nil] at hend
  · obtain ⟨n, rfl⟩ : ∃ n, q = p + n + 1 := ⟨q - p - 1, by omega⟩
    have hbefore : ∀ r, p < r → r ≤ p + n → ¬ Free inUse F r ∧ ¬ Resets me F sr r :=
      fun r hr hr' => not_or.mp (hfirst r hr (by omega))
    have hpass := sweep_pass n (by omega) hbefore
    have hrange : List.range' (p + 1) (n + 1) = List.range' (p + 1) n ++ [p + n + 1] := by
      rw [List.range'_concat, Nat.one_mul, Nat.add_right_comm]
    refine .inr ⟨n, by omega, hbefore, ?_⟩
    rw [hrange]
    refine hS.imp (fun hf => ⟨hf, ?_⟩) (fun hr => ⟨hr, ?_⟩)
    · exact hpass.trans (round_free (by omega) hf)
    · exact hpass.trans (round_reset (by omega) hr)

end Sweeps

section Search

theorem ended_picked (hp : port_upperlimit ≤ p) :
    Runs me inUse F (.picked p) [] F .failed := by
  refine .step F .failed ?_ (.refl _ _)
  rw [next, if_pos hp]

theorem returned_picked (hp : p < port_upperlimit) :
    Runs me inUse F (.picked p) [] F (.returned p) := by
  refine .step F (.returned p) ?_ (.refl _ _)
  rw [next, if_neg (Nat.not_le.mpr hp)]

theorem picked_ends (hp : p ≤ port_upperlimit)
    (h : Runs me inUse F pc ports (update F p (some [me.line])) (.picked p)) :
    ∃ F' pc', Runs me inUse F pc ports F' pc' ∧ Ended pc' ∧
      (p = port_upperlimit → pc' = .failed ∧ FirstOwner (F' p) me.pid) ∧
      (p ≠ port_upperlimit → pc' ≠ .failed) := by
  obtain rfl | hlt := Nat.eq_or_lt_of_le hp
  · have hend := h.trans (ended_picked le_rfl)
    rw [List.append_nil] at hend
    refine ⟨_, _, hend, .inl rfl, fun _ => ⟨rfl, ?_⟩, fun hne => absurd rfl hne⟩
    rw [update_self]
    exact ⟨me.line, [], rfl, owns_line me⟩
  · have hend := h.trans (returned_picked hlt)
    rw [List.append_nil] at hend
    exact ⟨_, _, hend, .inr ⟨p, rfl⟩, fun heq => absurd heq hlt.ne, fun _ => Pc.noConfusion⟩

structure Result (me : Call) (inUse : Nat → Bool) (F : Files) (start : Nat) (sr : Bool)
    (ports : List Nat) (F' : Files) (pc : Pc) : Prop where
  runs : Runs me inUse F (.loop start sr) ports F' pc
  ended : Ended pc
  sweeps : ∃ m n, ports = List.range' (start + 1) m ++ List.range' (me.port_start + 1) n
  bounded : ∀ p ∈ ports, p ≤ port_upperlimit
  leak : Leaks me inUse F start sr → pc = .failed ∧ FirstOwner (F' port_upperlimit) me.pid
  clean : ¬ Leaks me inUse F start sr → pc = .failed → F' = F

theorem le_of_mem_range {m n p b : Nat} (hb : m + n ≤ b) (hp : p ∈ List.range' (m + 1) n) :
    p ≤ b := by
  obtain ⟨-, hlt⟩ := List.mem_range'_1.mp hp
  omega

theorem result_failed (hr : Runs me inUse F (.loop start sr) ports F .failed)
    (hs : ∃ m n, ports = List.range' (start + 1) m ++ List.range' (me.port_start + 1) n)
    (hb : ∀ p ∈ ports, p ≤ port_upperlimit) (hl : ¬ Leaks me inUse F start sr) :
    Result me inUse F start sr ports F .failed :=
  ⟨hr, .inl rfl, hs, hb, fun h => absurd h hl, fun _ _ => rfl⟩

theorem result_picked (hp : p ≤ port_upperlimit)
    (hr : Runs me inUse F (.loop start sr) ports (update F p (some [me.line])) (.picked p))
    (hs : ∃ m n, ports = List.range' (start + 1) m ++ List.range' (me.port_start + 1) n)
    (hb : ∀ p ∈ ports, p ≤ port_upperlimit)
    (hl : Leaks me inUse F start sr ↔ p = port_upperlimit) :
    ∃ F' pc, Result me inUse F start sr ports F' pc := by
  obtain ⟨F', pc, hrun, he, hlast, hother⟩ := picked_ends hp hr
  refine ⟨F', pc, hrun, he, hs, hb, ?_, ?_⟩
  · intro h
    obtain ⟨hpc, ho⟩ := hlast (hl.mp h)
    rw [hl.mp h] at ho
    exact ⟨hpc, ho⟩
  · intro h hpc
    exact absurd hpc (hother fun heq => h (hl.mpr heq))

theorem second_sweep (hstart : me.port_start ≤ start) {n : Nat}
    (hn : start + n < port_upperlimit)
    (hreset : Resets me F sr (start + n + 1))
    (hr : Runs me inUse F (.loop start sr) (List.range' (start + 1) (n + 1)) F
      (.loop me.port_start true)) : ∃ ports F' pc, Result me inUse F start sr ports F' pc := by
  have hbfirst : ∀ p ∈ List.range' (start + 1) (n + 1), p ≤ port_upperlimit :=
    fun p hp => le_of_mem_range (by omega) hp
  obtain ⟨hnone, hrun⟩ | ⟨m, hm, hbefore, ⟨hfree, hrun⟩ | ⟨hagain, -⟩⟩ :=
    @sweep me inUse F me.port_start true (by omega)
  · refine ⟨_, _, _, result_failed (hr.trans hrun) ⟨_, _, rfl⟩ ?_ ?_⟩
    · intro p hp
      obtain hp | hp := List.mem_append.mp hp
      · exact hbfirst p hp
      · exact le_of_mem_range (by omega) hp
    · intro hl
      exact hnone _ (by omega) le_rfl hl.2.1
  · refine ⟨_, result_picked (by omega) (hr.trans hrun) ⟨_, _, rfl⟩ ?_ ?_⟩
    · intro p hp
      obtain hp | hp := List.mem_append.mp hp
      · exact hbfirst p hp
      · exact le_of_mem_range (by omega) hp
    · refine ⟨?_, ?_⟩
      · rintro ⟨-, hU, hall, hback⟩
        by_contra hne
        -- the port that sent the search back is not the free last one, so the second sweep counts
        have hlt : start + n + 1 ≠ port_upperlimit := by
          intro heq
          exact hreset.2.2 (by rw [heq]; exact hU.1)
        have hlow := hback ⟨_, by omega, by omega, hreset⟩
        by_cases hle : me.port_start + m + 1 ≤ start
        · exact hlow _ (by omega) hle hfree
        · exact hall _ (by omega) (by omega) hfree
      · intro heq
        rw [heq] at hfree
        exact ⟨by omega, hfree, fun r hr hr' => (hbefore r (by omega) (by omega)).1,
          fun _ r hr hr' => (hbefore r (by omega) (by omega)).1⟩
  · cases hagain.1

theorem search_ends (hstart : me.port_start ≤ start) (inUse : Nat → Bool) (F : Files) (sr : Bool) :
    ∃ ports F' pc, Result me inUse F start sr ports F' pc := by
  obtain hU | hU := Nat.lt_or_ge port_upperlimit start
  · refine ⟨[], F, .failed, result_failed (loop_end hU.le) ⟨0, 0, rfl⟩ (fun _ h => nomatch h) ?_⟩
    intro hl
    exact absurd hl.1 (by omega)
  obtain ⟨hnone, hrun⟩ | ⟨n, hn, hbefore, ⟨hfree, hrun⟩ | ⟨hreset, hrun⟩⟩ :=
    @sweep me inUse F start sr hU
  · refine ⟨_, _, _, result_failed hrun ⟨_, 0, (List.append_nil _).symm⟩ ?_ ?_⟩
    · intro p hp
      exact le_of_mem_range (by omega) hp
    · intro hl
      exact hnone _ hl.1 le_rfl hl.2.1
  · refine ⟨_, result_picked (by omega) hrun ⟨_, 0, (List.append_nil _).symm⟩ ?_ ?_⟩
    · intro p hp
      exact le_of_mem_range (by omega) hp
    · refine ⟨?_, ?_⟩
      · intro hl
        by_contra hne
        exact hl.2.2.1 _ (by omega) (by omega) hfree
      · intro heq
        rw [heq] at hfree
        refine ⟨by omega, hfree, fun r hr hr' => (hbefore r hr (by omega)).1, ?_⟩
        rintro ⟨t, ht, ht', hreset⟩
        exact absurd hreset (hbefore t ht (by omega)).2
  · exact second_sweep hstart hn hreset hrun

theorem not_undone (hstart : me.port_start ≤ start) (hl : Leaks me inUse F start sr) :
    ¬ Undone me inUse F start sr := by
  obtain ⟨ports, F', pc, hres⟩ := search_ends hstart inUse F sr
  rintro ⟨ports', F₁, pc₁, hrun, he, -, -, hclean⟩
  obtain ⟨hpc, ho⟩ := hres.leak hl
  obtain ⟨rfl, rfl⟩ := hres.runs.unique hres.ended hrun he
  obtain ⟨l, ls, hsome, -⟩ := hclean hpc _ ho
  rw [hl.2.1.1] at hsome
  cases hsome

/-- From every set of reserved ports, ports in use and starting port, the search of a process ends
after at most two sweeps, and undoes what it did if it fails, except when it comes to the last
port and finds it free. -/
theorem acquire_undone_iff (me : Call) (inUse : Nat → Bool) (F : Files) (k : Nat)
    (second_round : Bool) : Undone me inUse F (me.port_start + k) second_round ↔
      ¬ Leaks me inUse F (me.port_start + k) second_round := by
  have hstart : me.port_start ≤ me.port_start + k := Nat.le_add_right _ k
  refine ⟨fun h hl => not_undone hstart hl h, ?_⟩
  intro hl
  obtain ⟨ports, F', pc, hres⟩ := search_ends hstart inUse F second_round
  refine ⟨ports, F', pc, hres.runs, hres.ended, hres.sweeps, hres.bounded, fun hpc p ho => ?_⟩
  rwa [hres.clean hl hpc] at ho

/-- All ports of the host but the last are reserved by another process. -/
theorem last_port_left_behind : ¬ Undone ⟨11, false, 0, lit "/t", lit "s"⟩ (fun _ => false)
    (fun p => if p < 49000 then some [lit "22 /u s"] else none) 36000 false := by
  have hsome : ∀ p < 49000,
      ¬ Free (fun _ => false) (fun p => if p < 49000 then some [lit "22 /u s"] else none) p := by
    intro p hp hf
    have hnone := hf.1
    dsimp only at hnone
    rw [if_pos hp] at hnone
    cases hnone
  apply not_undone (by decide)
  refine ⟨by decide, ⟨rfl, rfl⟩, fun p _ hp => hsome p hp, fun _ p _ hp => hsome p ?_⟩
  omega

end Search

end YdbTest.PortnoSearch
