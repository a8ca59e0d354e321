import YdbTest.Positions
import Mathlib.Data.List.TakeWhile
import Mathlib.Order.Basic
import Mathlib.Tactic.Common

namespace YdbTest.ExpandEnvvars

open Positions

abbrev Text := List Char

def stop (c : Char) : Bool := c = '/'

/-- The rounds of the loop; `env` is `$ztrnlnm`. -/
def expandFrom (env : Text → Text) : Nat → Text → Nat → Option Text
  | 0, _, _ => none
  | fuel + 1, string, pos =>
    let pos := find string '$' pos
    if pos = 0 then some string
    else
      let i := scan stop string pos
      let envvar := extract string pos (i - 1)
      let string := extract string 1 (pos - 2) ++ env envvar ++ extract string i string.length
      expandFrom env fuel string i

def expandEnvvars (env : Text → Text) (string : Text) : Option Text :=
  expandFrom env (string.count '$' + 1) string 0

def nameOf (s : Text) : Text := s.takeWhile fun c => !stop c

def behind (s : Text) : Text := s.dropWhile fun c => !stop c

theorem nameOf_append_behind (s : Text) : nameOf s ++ behind s = s := List.takeWhile_append_dropWhile

theorem length_behind_le (s : Text) : (behind s).length ≤ s.length := by
  conv_rhs => rw [← nameOf_append_behind s, List.length_append]
  exact Nat.le_add_left _ _

/-- Every `$NAME` is replaced by the value of `NAME`, and all other characters are kept. -/
def expand (env : Text → Text) : Text → Text
  | [] => []
  | c :: s => if c = '$' then env (nameOf s) ++ expand env (behind s) else c :: expand env s
termination_by s => s.length
decreasing_by
  · exact Nat.lt_succ_of_le (length_behind_le s)
  · exact Nat.lt_succ_self _

/-- No dollar sign is among the characters that are passed over: `k` of them to begin with, and
after a variable as many as its value is shorter than `$NAME`. -/
def Reached (env : Text → Text) : Nat → Text → Prop
  | _, [] => True
  | k, c :: s =>
    if c = '$' then k = 0 ∧ Reached env (1 + (nameOf s).length - (env (nameOf s)).length) (behind s)
    else Reached env (k - 1) s
termination_by _ s => s.length
decreasing_by
  · exact Nat.lt_succ_of_le (length_behind_le s)
  · exact Nat.lt_succ_self _

variable {env : Text → Text} {a b p r s t : Text} {k pos fuel : Nat}

theorem expand_plain (h : '$' ∉ t) : expand env (t ++ s) = t ++ expand env s := by
  induction t with
  | nil => rfl
  | cons c t ih =>
    rw [List.mem_cons, not_or] at h
    rw [List.cons_append, expand, if_neg (Ne.symm h.1), ih h.2]
    rfl

theorem expand_variable : expand env ('$' :: s) = env (nameOf s) ++ expand env (behind s) := by
  rw [expand, if_pos rfl]

theorem expand_nil : expand env [] = [] := by rw [expand]

theorem dollar_notMem_expand (henv : ∀ n, '$' ∉ env n) (s : Text) : '$' ∉ expand env s := by
  induction s using expand.induct with
  | case1 =>
    rw [expand_nil]
    exact List.not_mem_nil
  | case2 s ih =>
    rw [expand_variable, List.mem_append, not_or]
    exact ⟨henv _, ih⟩
  | case3 c s hc ih =>
    rw [expand, if_neg hc, List.mem_cons, not_or]
    exact ⟨Ne.symm hc, ih⟩

theorem reached_plain (h : '$' ∉ t) : Reached env k t := by
  induction t generalizing k with
  | nil =>
    rw [Reached]
    trivial
  | cons c t ih =>
    rw [List.mem_cons, not_or] at h
    rw [Reached, if_neg (Ne.symm h.1)]
    exact ih h.2

theorem reached_variable (h : '$' ∉ t) : Reached env k (t ++ '$' :: s) ↔ k ≤ t.length ∧
    Reached env (1 + (nameOf s).length - (env (nameOf s)).length) (behind s) := by
  induction t generalizing k with
  | nil =>
    rw [List.nil_append, Reached, if_pos rfl, List.length_nil, Nat.le_zero]
  | cons c t ih =>
    rw [List.mem_cons, not_or] at h
    rw [List.cons_append, Reached, if_neg (Ne.symm h.1), ih h.2, List.length_cons,
      Nat.sub_le_iff_le_add]

theorem stop_nameOf (s : Text) : ∀ c ∈ nameOf s, stop c = false := by
  intro c hc
  simpa using List.mem_takeWhile_imp hc

theorem stop_behind (s : Text) (c : Char) (h : (behind s).head? = some c) : stop c = true := by
  have hnot := List.head?_dropWhile_not (fun c => !stop c) s
  rw [behind] at h
  rw [h] at hnot
  simpa using hnot

theorem expandFrom_done (h : '$' ∉ s.drop (pos - 1)) :
    expandFrom env (fuel + 1) s pos = some s := by
  rw [expandFrom, find_none h]
  rfl

theorem expandFrom_step (h : '$' ∉ a.drop (pos - 1)) (hpos : pos - 1 ≤ a.length) :
    expandFrom env (fuel + 1) (a ++ '$' :: s) pos =
      expandFrom env fuel (a ++ env (nameOf s) ++ behind s) (a.length + 2 + (nameOf s).length) := by
  have hstring : a ++ '$' :: s = (a ++ ['$']) ++ nameOf s ++ behind s := by
    rw [List.append_assoc, nameOf_append_behind, List.append_assoc]
    rfl
  have hlen : (a ++ ['$']).length = a.length + 1 := List.length_append
  have hi : scan stop (a ++ '$' :: s) (a.length + 2) = a.length + 2 + (nameOf s).length := by
    have hscan := scan_append (a := a ++ ['$']) (stop_nameOf s) (stop_behind s)
    rwa [hlen, ← hstring] at hscan
  have hname : extract (a ++ '$' :: s) (a.length + 2) (a.length + 2 + (nameOf s).length - 1) =
      nameOf s := by
    have hmiddle := extract_middle (a := a ++ ['$']) (t := nameOf s) (b := behind s)
    rw [hlen, ← hstring] at hmiddle
    rw [show a.length + 2 + (nameOf s).length - 1 = a.length + 1 + (nameOf s).length by omega]
    exact hmiddle
  have hrest : extract (a ++ '$' :: s) (a.length + 2 + (nameOf s).length)
      (a ++ '$' :: s).length = behind s := by
    have hsuffix := extract_suffix (a := a ++ ['$'] ++ nameOf s) (b := behind s)
    rw [List.length_append, hlen, ← hstring] at hsuffix
    rw [show a.length + 2 + (nameOf s).length = a.length + 1 + (nameOf s).length + 1 by omega]
    exact hsuffix
  rw [expandFrom, find_append h hpos]
  dsimp only
  rw [if_neg (Nat.succ_ne_zero _), hi, hname, hrest, Nat.add_sub_cancel, extract_prefix]

theorem split_dollar (h : '$' ∈ s.drop k) :
    ∃ a b, s = a ++ '$' :: b ∧ k ≤ a.length ∧ '$' ∉ a.drop k := by
  obtain ⟨t, b, hsplit, ht⟩ := List.eq_append_cons_of_mem h
  have hk : k ≤ s.length := by
    by_contra hlt
    rw [List.drop_eq_nil_of_le (not_le.mp hlt).le] at h
    exact List.not_mem_nil h
  have hlen : (s.take k).length = k := List.length_take_of_le hk
  refine ⟨s.take k ++ t, b, ?_, ?_, ?_⟩
  · rw [List.append_assoc, ← hsplit, List.take_append_drop]
  · rw [List.length_append, hlen]
    exact Nat.le_add_right k _
  · rwa [List.drop_append_of_le_length hlen.ge, List.drop_eq_nil_of_le hlen.le, List.nil_append]

theorem dollar_stays {out : Text} (h : '$' ∈ s.take (pos - 1))
    (hout : expandFrom env fuel s pos = some out) : '$' ∈ out := by
  induction fuel generalizing s pos with
  | zero => cases hout
  | succ fuel ih =>
    by_cases hd : '$' ∈ s.drop (pos - 1)
    · obtain ⟨a, b, rfl, hle, ha⟩ := split_dollar hd
      rw [expandFrom_step ha hle] at hout
      have hmem : '$' ∈ a := by
        rw [List.take_append_of_le_length hle] at h
        exact List.mem_of_mem_take h
      refine ih ?_ hout
      have htake : a <+: (a ++ env (nameOf b) ++ behind b).take
          (a.length + 2 + (nameOf b).length - 1) := by
        rw [List.append_assoc, List.prefix_take_iff]
        exact ⟨List.prefix_append _ _, by omega⟩
      exact htake.subset hmem
    · rw [expandFrom_done hd] at hout
      obtain rfl := Option.some.inj hout
      exact List.mem_of_mem_take h

theorem expandFrom_ends (henv : ∀ n, '$' ∉ env n) (h : (s.drop (pos - 1)).count '$' < fuel) :
    ∃ out, expandFrom env fuel s pos = some out := by
  induction fuel generalizing s pos with
  | zero => cases h
  | succ fuel ih =>
    by_cases hd : '$' ∈ s.drop (pos - 1)
    · obtain ⟨a, b, rfl, hle, ha⟩ := split_dollar hd
      rw [expandFrom_step ha hle]
      refine ih ?_
      rw [List.drop_append_of_le_length hle, List.count_append, List.count_cons_self] at h
      have hbehind : (behind b).count '$' ≤ b.count '$' := (List.dropWhile_sublist _).count_le _
      have hvalue : (env (nameOf b)).count '$' = 0 := List.count_eq_zero.mpr (henv _)
      have hdrop : ((a ++ env (nameOf b) ++ behind b).drop
          (a.length + 2 + (nameOf b).length - 1)).count '$' ≤
          (env (nameOf b) ++ behind b).count '$' := by
        rw [List.append_assoc, List.drop_append, List.drop_eq_nil_of_le (by omega), List.nil_append]
        exact (List.drop_sublist _ _).count_le _
      rw [List.count_append] at hdrop
      omega
    · exact ⟨s, expandFrom_done hd⟩

/-- What the loop makes of the text `r` behind what is done, `p`, if it reaches every variable. -/
theorem expandFrom_reached (henv : ∀ n, '$' ∉ env n) (hp : '$' ∉ p.drop (pos - 1))
    (hr : Reached env (pos - 1 - p.length) r) (hf : r.count '$' < fuel) :
    expandFrom env fuel (p ++ r) pos = some (p ++ expand env r) := by
  induction fuel generalizing p r pos with
  | zero => cases hf
  | succ fuel ih =>
    by_cases hd : '$' ∈ r
    · obtain ⟨t, s, rfl, ht⟩ := List.eq_append_cons_of_mem hd
      rw [reached_variable ht] at hr
      have hle : pos - 1 ≤ (p ++ t).length := by
        rw [List.length_append]
        omega
      have hdrop : '$' ∉ (p ++ t).drop (pos - 1) := by
        rw [List.drop_append, List.mem_append, not_or]
        exact ⟨hp, fun h => ht (List.mem_of_mem_drop h)⟩
      rw [← List.append_assoc, expandFrom_step hdrop hle, ih ?_ ?_ ?_, expand_plain ht,
        expand_variable]
      · simp only [List.append_assoc]
      · rw [List.drop_append, List.drop_eq_nil_of_le (by omega), List.nil_append]
        exact fun h => henv _ (List.mem_of_mem_drop h)
      · have hskip : (p ++ t).length + 2 + (nameOf s).length - 1 -
            (p ++ t ++ env (nameOf s)).length =
            1 + (nameOf s).length - (env (nameOf s)).length := by
          rw [@List.length_append _ (p ++ t)]
          omega
        rw [hskip]
        exact hr.2
      · rw [List.count_append, List.count_cons_self] at hf
        have hbehind : (behind s).count '$' ≤ s.count '$' := (List.dropWhile_sublist _).count_le _
        omega
    · have hdone : '$' ∉ (p ++ r).drop (pos - 1) := by
        rw [List.drop_append, List.mem_append, not_or]
        exact ⟨hp, fun h => hd (List.mem_of_mem_drop h)⟩
      have hplain : expand env r = r := by
        have h : expand env (r ++ []) = r ++ expand env [] := expand_plain hd
        rwa [List.append_nil, expand_nil, List.append_nil] at h
      rw [expandFrom_done hdone, hplain]

theorem expandFrom_passed {out : Text} (hp : '$' ∉ p.drop (pos - 1)) (henv : ∀ n, '$' ∉ env n)
    (hr : ¬ Reached env (pos - 1 - p.length) r)
    (hout : expandFrom env fuel (p ++ r) pos = some out) : '$' ∈ out := by
  induction fuel generalizing p r pos with
  | zero => cases hout
  | succ fuel ih =>
    by_cases hd : '$' ∈ r
    · obtain ⟨t, s, rfl, ht⟩ := List.eq_append_cons_of_mem hd
      rw [reached_variable ht, not_and_or, not_le] at hr
      by_cases hle : pos - 1 ≤ (p ++ t).length
      · have hdrop : '$' ∉ (p ++ t).drop (pos - 1) := by
          rw [List.drop_append, List.mem_append, not_or]
          exact ⟨hp, fun h => ht (List.mem_of_mem_drop h)⟩
        rw [← List.append_assoc, expandFrom_step hdrop hle] at hout
        refine ih ?_ ?_ hout
        · rw [List.drop_append, List.drop_eq_nil_of_le (by omega), List.nil_append]
          exact fun h => henv _ (List.mem_of_mem_drop h)
        · have hskip : (p ++ t).length + 2 + (nameOf s).length - 1 -
              (p ++ t ++ env (nameOf s)).length =
              1 + (nameOf s).length - (env (nameOf s)).length := by
            rw [@List.length_append _ (p ++ t)]
            omega
          rw [hskip]
          refine hr.resolve_left (not_lt.mpr ?_)
          rw [List.length_append] at hle
          omega
      · refine dollar_stays ?_ hout
        have htake : (p ++ t ++ ['$']) <+: (p ++ (t ++ '$' :: s)).take (pos - 1) := by
          rw [List.prefix_take_iff]
          refine ⟨⟨s, by simp⟩, ?_⟩
          rw [List.length_append, List.length_singleton]
          exact not_le.mp hle
        exact htake.subset (List.mem_append_right _ List.mem_cons_self)
    · exact absurd (reached_plain hd) hr

/-- Every variable is replaced once exactly if the scan, which goes on from a place in the old
text, passes over no dollar sign of the new one. -/
theorem expandEnvvars_iff (env : Text → Text) (henv : ∀ n, '$' ∉ env n) (string : Text) :
    (expandEnvvars env string = some (expand env string) ↔ Reached env 0 string) ∧
    ∃ out, expandEnvvars env string = some out := by
  have hends : ∃ out, expandEnvvars env string = some out :=
    expandFrom_ends henv (Nat.lt_succ_self _)
  refine ⟨⟨fun h => ?_, fun h => ?_⟩, hends⟩
  · by_contra hr
    exact dollar_notMem_expand henv string
      (expandFrom_passed (p := []) List.not_mem_nil henv hr h)
  · exact expandFrom_reached (p := []) henv List.not_mem_nil h (Nat.lt_succ_self _)

/-- A variable with a longer value, and one without a value at the end. -/
theorem expandEnvvars_iff_two :
    let env := fun n => if n = "one".toList then "value1".toList else []
    expandEnvvars env "a$one/$two".toList = some "avalue1/".toList ∧
      Reached env 0 "a$one/$two".toList := by
  intro env
  have henv : ∀ n : Text, '$' ∉ env n := by
    intro n
    dsimp only [env]
    split <;> decide
  have hrun : expandEnvvars env "a$one/$two".toList = some "avalue1/".toList := by
    decide +kernel
  have hexpand : expand env "a$one/$two".toList = "avalue1/".toList := by decide +kernel
  refine ⟨hrun, (expandEnvvars_iff env henv _).1.mp ?_⟩
  rw [hrun, hexpand]

/-- The value of the first variable is empty, and the second one is passed over. -/
theorem expandEnvvars_passes_over : ¬ ∀ (env : Text → Text), (∀ n, '$' ∉ env n) →
    ∀ string, expandEnvvars env string = some (expand env string) := by
  intro h
  have hempty := h (fun _ => []) (fun _ => List.not_mem_nil) "$one/$two".toList
  have hrun : expandEnvvars (fun _ => []) "$one/$two".toList = some "/$two".toList := by
    decide +kernel
  rw [hrun] at hempty
  have hnot : '$' ∉ expand (fun _ => []) "$one/$two".toList :=
    dollar_notMem_expand (fun _ => List.not_mem_nil) _
  rw [← Option.some.inj hempty] at hnot
  exact hnot (by decide)

end YdbTest.ExpandEnvvars
