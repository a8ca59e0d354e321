import YdbTest.Pieces
import YdbTest.Positions
import YdbTest.Separated

namespace YdbTest.CanonicalizePath

open Positions Separated

abbrev Text := List Char

structure State where
  i : Nat
  newPath : Text
  needSlash : Bool

def searchBack (newPath : Text) : Nat → Nat
  | 0 => 0
  | j + 1 => if at_ newPath (j + 1) = some '/' ∨ j = 0 then j + 1 else searchBack newPath j

/-- A component `..`, up to the character behind it. -/
def parent (σ : State) : State :=
  let j := searchBack σ.newPath (σ.newPath.length - 1)
  if at_ σ.newPath j = some '/' then
    { σ with newPath := extract σ.newPath 1 (j - 1), needSlash := false }
  else { σ with newPath := [], needSlash := true }

/-- A round of the loop, nothing if it stops. -/
def step (path : Text) (σ : State) : Option State :=
  match at_ path (σ.i + 1) with
  | none => none
  | some '/' =>
    match at_ path (σ.i + 2) with
    | none => none
    | some '/' => some { σ with i := σ.i + 1, needSlash := true }
    | some '.' =>
      match at_ path (σ.i + 3) with
      | none => none
      | some '/' => some { σ with i := σ.i + 2, needSlash := false }
      | some '.' =>
        match at_ path (σ.i + 4) with
        | none => some { parent σ with i := σ.i + 3 }
        | some '/' => some { parent σ with i := σ.i + 3 }
        | some char => some ⟨σ.i + 4, σ.newPath ++ ['/', '.', '.', char], false⟩
      | some char => some ⟨σ.i + 3, σ.newPath ++ ['/', '.', char], false⟩
    | some char => some ⟨σ.i + 2, σ.newPath ++ ['/', char], false⟩
  | some char =>
    let newPath := if σ.needSlash then σ.newPath ++ ['/'] else σ.newPath
    some ⟨σ.i + 1, newPath ++ [char], false⟩

def loop (path : Text) : Nat → State → Option Text
  | 0, _ => none
  | fuel + 1, σ =>
    match step path σ with
    | none => some σ.newPath
    | some σ => loop path fuel σ

/-- Every round takes at least one character. -/
def canonicalizePath (path : Text) : Option Text :=
  (loop path (path.length + 1) ⟨0, [], false⟩).map fun newPath =>
    if newPath = [] then ['/'] else newPath

def push (cs : List Text) (c : Text) : List Text :=
  if c = [] ∨ c = ['.'] then cs else if c = ['.', '.'] then cs.dropLast else cs ++ [c]

/-- Empty components and `.` are removed, `..` cancels the one before it. -/
def resolve (path : Text) : List Text := (path.splitOn '/').foldl push []

/-- The path of components, which is `/` if there are none. -/
def render (cs : List Text) : Text := if cs = [] then ['/'] else after '/' cs

variable {a c p t w out path : Text} {st cs : List Text} {b : Bool} {n : Nat} {σ τ : State}

def Name (c : Text) : Prop := c ≠ [] ∧ '/' ∉ c

/-- From the state the loop ends with the path, given `n` rounds. -/
def Runs (path : Text) (σ : State) (out : Text) (n : Nat) : Prop :=
  ∀ fuel, n ≤ fuel → loop path fuel σ = some out

theorem Runs.stop (h : step path σ = none) : Runs path σ σ.newPath 1 := by
  intro fuel hfuel
  obtain ⟨fuel, rfl⟩ := Nat.exists_eq_add_of_le' hfuel
  rw [loop, h]

theorem Runs.next (hr : Runs path τ out n) (h : step path σ = some τ) :
    Runs path σ out (n + 1) := by
  intro fuel hfuel
  obtain ⟨k, rfl⟩ := Nat.exists_eq_add_of_le' hfuel
  rw [← Nat.add_assoc, loop, h]
  exact hr _ (Nat.le_add_left n k)

theorem step_char {d : Char} (h : at_ path (σ.i + 1) = some d) (hd : d ≠ '/')
    (hn : σ.needSlash = false) : step path σ = some ⟨σ.i + 1, σ.newPath ++ [d], false⟩ := by
  simp [step, h, hn]

theorem step_slash (hi : σ.i = a.length) : step (a ++ '/' :: w) σ =
    match w[0]? with
    | none => none
    | some '/' => some { σ with i := σ.i + 1, needSlash := true }
    | some '.' =>
      match w[1]? with
      | none => none
      | some '/' => some { σ with i := σ.i + 2, needSlash := false }
      | some '.' =>
        match w[2]? with
        | none => some { parent σ with i := σ.i + 3 }
        | some '/' => some { parent σ with i := σ.i + 3 }
        | some char => some ⟨σ.i + 4, σ.newPath ++ ['/', '.', '.', char], false⟩
      | some char => some ⟨σ.i + 3, σ.newPath ++ ['/', '.', char], false⟩
    | some char => some ⟨σ.i + 2, σ.newPath ++ ['/', char], false⟩ := by
  have hat : ∀ k, at_ (a ++ '/' :: w) (σ.i + k + 1) = ('/' :: w)[k]? := by
    intro k
    rw [hi]
    exact at_append k
  have h0 : at_ (a ++ '/' :: w) (σ.i + 1) = some '/' := hat 0
  have h1 : at_ (a ++ '/' :: w) (σ.i + 2) = w[0]? := hat 1
  have h2 : at_ (a ++ '/' :: w) (σ.i + 3) = w[1]? := hat 2
  have h3 : at_ (a ++ '/' :: w) (σ.i + 4) = w[2]? := hat 3
  rw [step, h0, h1, h2, h3]
  rfl

theorem step_name {d : Char} (hi : σ.i = a.length) (hd : d ≠ '/') (hdot : d ≠ '.') :
    step (a ++ '/' :: d :: w) σ = some ⟨σ.i + 2, σ.newPath ++ ['/', d], false⟩ := by
  rw [step_slash hi]
  simp

theorem step_dot_name {d : Char} (hi : σ.i = a.length) (hd : d ≠ '/') (hdot : d ≠ '.') :
    step (a ++ '/' :: '.' :: d :: w) σ = some ⟨σ.i + 3, σ.newPath ++ ['/', '.', d], false⟩ := by
  rw [step_slash hi]
  simp

theorem step_dots_name {d : Char} (hi : σ.i = a.length) (hd : d ≠ '/') :
    step (a ++ '/' :: '.' :: '.' :: d :: w) σ =
      some ⟨σ.i + 4, σ.newPath ++ ['/', '.', '.', d], false⟩ := by
  rw [step_slash hi]
  simp

theorem step_dots (hi : σ.i = a.length) (hw : w = [] ∨ w.head? = some '/') :
    step (a ++ '/' :: '.' :: '.' :: w) σ = some { parent σ with i := σ.i + 3 } := by
  rw [step_slash hi]
  cases w with
  | nil => rfl
  | cons c w =>
    obtain rfl : c = '/' := Option.some.inj (hw.resolve_left (List.cons_ne_nil _ _))
    rfl

theorem Runs.copy (hr : Runs (a ++ t ++ w) ⟨a.length + t.length, p ++ t, false⟩ out n)
    (ht : '/' ∉ t) : Runs (a ++ t ++ w) ⟨a.length, p, false⟩ out (n + t.length) := by
  induction t generalizing a p with
  | nil => simpa using hr
  | cons d t ih =>
    rw [List.mem_cons, not_or] at ht
    have hassoc : a ++ d :: t ++ w = (a ++ [d]) ++ t ++ w := by simp
    have hlen : a.length + (d :: t).length = (a ++ [d]).length + t.length := by
      simp only [List.length_append, List.length_cons, List.length_nil]
      omega
    have hp : p ++ d :: t = (p ++ [d]) ++ t := by simp
    rw [hassoc, hlen, hp] at hr
    rw [hassoc, List.length_cons, ← Nat.add_assoc]
    refine (ih hr ht.2).next ?_
    have hchar : at_ (a ++ [d] ++ t ++ w) (a.length + 1) = some d := by
      rw [List.append_assoc, List.append_assoc]
      exact at_append 0
    rw [step_char hchar (Ne.symm ht.1) rfl, List.length_append]
    rfl

theorem after_concat (st : List Text) (c : Text) : after '/' (st ++ [c]) = after '/' st ++ '/' :: c := by
  rw [after, List.flatMap_append, List.flatMap_singleton]
  rfl

theorem searchBack_name (hc : '/' ∉ c) {j : Nat} (hj : j < c.length) :
    searchBack (p ++ '/' :: c) (p.length + 1 + j) = p.length + 1 := by
  induction j with
  | zero =>
    have hat : at_ (p ++ '/' :: c) (p.length + 1) = some '/' := at_append 0
    rw [Nat.add_zero, searchBack, if_pos (Or.inl hat)]
  | succ j ih =>
    have hat : at_ (p ++ '/' :: c) (p.length + 1 + j + 1) = getElem? c j := by
      rw [Nat.add_assoc p.length, Nat.add_comm 1 j]
      exact at_append (j + 1)
    have hne : ¬ (at_ (p ++ '/' :: c) (p.length + 1 + j + 1) = some '/' ∨ p.length + 1 + j = 0) := by
      rw [hat, not_or]
      exact ⟨fun h => hc (List.mem_of_getElem? h), by omega⟩
    rw [← Nat.add_assoc, searchBack, if_neg hne]
    exact ih (Nat.lt_of_succ_lt hj)

theorem parent_newPath (hst : ∀ c ∈ st, Name c) (h : σ.newPath = after '/' st) :
    (parent σ).newPath = after '/' st.dropLast := by
  cases st using List.reverseRecOn with
  | nil =>
    have hnil : σ.newPath = [] := h
    simp [parent, hnil, searchBack, at_, after]
  | append_singleton st c =>
    obtain ⟨hne, hslash⟩ := hst c (List.mem_append_right _ List.mem_cons_self)
    have hpos : 0 < c.length := List.length_pos_of_ne_nil hne
    have hlast : σ.newPath.length - 1 = (after '/' st).length + 1 + (c.length - 1) := by
      rw [h, after_concat, List.length_append, List.length_cons]
      omega
    have hback : searchBack σ.newPath (σ.newPath.length - 1) = (after '/' st).length + 1 := by
      rw [hlast, h, after_concat]
      exact searchBack_name hslash (by omega)
    have hat : at_ σ.newPath ((after '/' st).length + 1) = some '/' := by
      rw [h, after_concat]
      exact at_append 0
    rw [parent, hback, if_pos hat, Nat.add_sub_cancel, h, after_concat, extract_prefix,
      List.dropLast_concat]

theorem push_name (hst : ∀ d ∈ st, Name d) (hc : '/' ∉ c) : ∀ d ∈ push st c, Name d := by
  unfold push
  split
  · exact hst
  · rename_i hempty
    split
    · exact fun d hd => hst d (List.dropLast_subset _ hd)
    · rw [List.forall_mem_append]
      exact ⟨hst, List.forall_mem_singleton.mpr ⟨(not_or.mp hempty).1, hc⟩⟩

theorem Runs.at_end {q : Text} (hr : Runs path ⟨path.length, q, b⟩ out n) : out = q := by
  have hend : step path ⟨path.length, q, b⟩ = none := by
    have hat := at_append (a := path) (b := []) 0
    rw [List.append_nil] at hat
    rw [step, hat]
    rfl
  have hrun := (Runs.stop hend) (n + 1) (Nat.le_add_left 1 n)
  exact Option.some.inj ((hr (n + 1) (Nat.le_succ n)).symm.trans hrun)

theorem Runs.mono {m : Nat} (hr : Runs path σ out n) (h : n ≤ m) : Runs path σ out m :=
  fun fuel hfuel => hr fuel (h.trans hfuel)

theorem push_kept (hne : c ≠ []) (hdot : c ≠ ['.']) (hdots : c ≠ ['.', '.']) :
    after '/' (push st c) = after '/' st ++ ['/'] ++ c := by
  rw [push, if_neg (not_or.mpr ⟨hne, hdot⟩), if_neg hdots, after_concat, List.append_assoc]
  rfl

theorem runs_kept {d : Text} (hne : d ++ t ≠ []) (hdot : d ++ t ≠ ['.']) (hdots : d ++ t ≠ ['.', '.'])
    (ht : '/' ∉ t) (hr : ∀ b, Runs (a ++ '/' :: (d ++ t ++ w))
      ⟨a.length + 1 + (d ++ t).length, after '/' (push st (d ++ t)), b⟩ out n)
    (hstep : step (a ++ '/' :: (d ++ t ++ w)) ⟨a.length, after '/' st, b⟩ =
      some ⟨a.length + 1 + d.length, after '/' st ++ '/' :: d, false⟩) :
    Runs (a ++ '/' :: (d ++ t ++ w)) ⟨a.length, after '/' st, b⟩ out (n + (d ++ t).length + 1) := by
  have hpath : a ++ '/' :: (d ++ t ++ w) = (a ++ '/' :: d) ++ t ++ w := by simp
  have hlen : (a ++ '/' :: d).length = a.length + 1 + d.length := by
    rw [List.length_append, List.length_cons]
    omega
  have hdone : after '/' (push st (d ++ t)) = after '/' st ++ '/' :: d ++ t := by
    rw [push_kept hne hdot hdots, List.append_assoc, List.append_assoc]
    rfl
  have hr := hr false
  rw [hpath, @List.length_append _ d, ← Nat.add_assoc, ← hlen, hdone] at hr
  rw [hpath, ← hlen] at hstep
  rw [hpath, @List.length_append _ d]
  exact ((hr.copy ht).next hstep).mono (by omega)

theorem runs_skipped {q : Text} (hw : w = [] ∨ w.head? = some '/')
    (hr : ∀ b, Runs (a ++ '/' :: (c ++ w)) ⟨a.length + 1 + c.length, q, b⟩ out n)
    (hend : w = [] → step (a ++ '/' :: (c ++ w)) ⟨a.length, q, b⟩ = none)
    (hnext : w.head? = some '/' → ∃ b', step (a ++ '/' :: (c ++ w)) ⟨a.length, q, b⟩ =
      some ⟨a.length + 1 + c.length, q, b'⟩) :
    Runs (a ++ '/' :: (c ++ w)) ⟨a.length, q, b⟩ out (n + c.length + 1) := by
  obtain hw | hw := hw
  · have hlen : (a ++ '/' :: (c ++ w)).length = a.length + 1 + c.length := by
      simp [hw]
      omega
    have hr := hr b
    rw [← hlen] at hr
    rw [hr.at_end]
    exact (Runs.stop (hend hw)).mono (by omega)
  · obtain ⟨b', hstep⟩ := hnext hw
    exact ((hr b').next hstep).mono (by omega)

theorem runs_dots (hst : ∀ d ∈ st, Name d) (hw : w = [] ∨ w.head? = some '/')
    (hr : ∀ b, Runs (a ++ '/' :: '.' :: '.' :: w) ⟨a.length + 3, after '/' st.dropLast, b⟩ out n) :
    Runs (a ++ '/' :: '.' :: '.' :: w) ⟨a.length, after '/' st, b⟩ out (n + 1) := by
  have hstep := step_dots (a := a) (σ := ⟨a.length, after '/' st, b⟩) rfl hw
  have hparent := parent_newPath (σ := ⟨a.length, after '/' st, b⟩) hst rfl
  refine (hr (parent ⟨a.length, after '/' st, b⟩).needSlash).next (hstep.trans ?_)
  dsimp only
  rw [hparent]

theorem runs_component (hst : ∀ d ∈ st, Name d) (hc : '/' ∉ c) (hw : w = [] ∨ w.head? = some '/')
    (hr : ∀ b, Runs (a ++ '/' :: (c ++ w)) ⟨a.length + 1 + c.length, after '/' (push st c), b⟩ out n) :
    Runs (a ++ '/' :: (c ++ w)) ⟨a.length, after '/' st, b⟩ out (n + c.length + 1) := by
  have hslash : w.head? = some '/' → ∃ u, w = '/' :: u := List.head?_eq_some_iff.mp
  rcases c with _ | ⟨x, t⟩
  · refine runs_skipped hw hr (fun h => ?_) (fun h => ⟨true, ?_⟩)
    · rw [h, step_slash rfl]
      rfl
    · obtain ⟨u, rfl⟩ := hslash h
      rw [List.nil_append, step_slash rfl]
      rfl
  rw [List.mem_cons, not_or] at hc
  obtain ⟨hx, ht⟩ := hc
  by_cases hdot : x = '.'
  swap
  · refine runs_kept (d := [x]) (by simp) (by simp [hdot]) (by simp [hdot]) ht hr ?_
    exact (step_name (a := a) rfl (Ne.symm hx) hdot).trans (by simp)
  subst hdot
  rcases t with _ | ⟨y, t⟩
  · refine runs_skipped hw hr (fun h => ?_) (fun h => ⟨false, ?_⟩)
    · rw [h, step_slash rfl]
      rfl
    · obtain ⟨u, rfl⟩ := hslash h
      rw [step_slash rfl]
      rfl
  rw [List.mem_cons, not_or] at ht
  obtain ⟨hy, ht⟩ := ht
  by_cases hdot : y = '.'
  swap
  · refine runs_kept (d := ['.', y]) (by simp) (by simp) (by simp [hdot]) ht hr ?_
    exact (step_dot_name (a := a) rfl (Ne.symm hy) hdot).trans (by simp)
  subst hdot
  rcases t with _ | ⟨z, t⟩
  · exact (runs_dots hst hw hr).mono (by simp)
  rw [List.mem_cons, not_or] at ht
  obtain ⟨hz, ht⟩ := ht
  refine runs_kept (d := ['.', '.', z]) (by simp) (by simp) (by simp) ht hr ?_
  exact (step_dots_name (a := a) rfl (Ne.symm hz)).trans (by simp)

theorem after_cons (c : Text) (cs : List Text) : after '/' (c :: cs) = '/' :: (c ++ after '/' cs) := by
  rw [after, List.flatMap_cons, List.cons_append]
  rfl

theorem head_after (cs : List Text) : after '/' cs = [] ∨ (after '/' cs).head? = some '/' := by
  cases cs with
  | nil => exact Or.inl rfl
  | cons c cs =>
    rw [after_cons]
    exact Or.inr rfl

theorem runs_components (hst : ∀ d ∈ st, Name d) (hcs : ∀ c ∈ cs, '/' ∉ c) :
    Runs (a ++ after '/' cs) ⟨a.length, after '/' st, b⟩ (after '/' (cs.foldl push st))
      ((after '/' cs).length + 1) := by
  induction cs generalizing a st b with
  | nil =>
    have hat := at_append (a := a) (b := []) 0
    refine (Runs.stop (σ := ⟨a.length, after '/' st, b⟩) ?_).mono (Nat.le_add_left 1 _)
    rw [step, after, List.flatMap_nil, hat]
    rfl
  | cons c cs ih =>
    rw [List.forall_mem_cons] at hcs
    have hrest : ∀ b, Runs (a ++ '/' :: (c ++ after '/' cs))
        ⟨a.length + 1 + c.length, after '/' (push st c), b⟩ (after '/' (cs.foldl push (push st c)))
        ((after '/' cs).length + 1) := by
      intro b
      have h := ih (a := a ++ '/' :: c) (b := b) (push_name hst hcs.1) hcs.2
      have hlen : (a ++ '/' :: c).length = a.length + 1 + c.length := by
        rw [List.length_append, List.length_cons]
        omega
      rwa [hlen, List.append_assoc, List.cons_append] at h
    rw [after_cons, List.foldl_cons]
    refine (runs_component hst hcs.1 (head_after cs) hrest).mono ?_
    rw [List.length_cons, List.length_append]
    omega

theorem canonicalizePath_after (hcs : ∀ c ∈ cs, '/' ∉ c) :
    canonicalizePath (after '/' cs) = some (render (cs.foldl push [])) := by
  have hrun := runs_components (a := []) (b := false) (fun d hd => absurd hd List.not_mem_nil) hcs
  have hloop : loop (after '/' cs) ((after '/' cs).length + 1) ⟨0, [], false⟩ =
      some (after '/' (cs.foldl push [])) := hrun _ (Nat.le_refl _)
  rw [canonicalizePath, hloop, Option.map_some, render]
  cases cs.foldl push [] with
  | nil => rfl
  | cons d ds =>
    rw [if_neg (List.cons_ne_nil _ _), after_cons, if_neg (List.cons_ne_nil _ _)]

/-- Every component that is left is a name of its own. -/
def Kept (c : Text) : Prop := Name c ∧ c ≠ ['.'] ∧ c ≠ ['.', '.']

theorem push_of_kept (h : Kept c) : push st c = st ++ [c] := by
  rw [push, if_neg (not_or.mpr ⟨h.1.1, h.2.1⟩), if_neg h.2.2]

theorem foldl_push_of_kept (h : ∀ c ∈ cs, Kept c) : cs.foldl push st = st ++ cs := by
  induction cs generalizing st with
  | nil => exact (List.append_nil st).symm
  | cons c cs ih =>
    rw [List.forall_mem_cons] at h
    rw [List.foldl_cons, push_of_kept h.1, ih h.2, List.append_assoc]
    rfl

theorem foldl_push_kept (hst : ∀ d ∈ st, Kept d) (hcs : ∀ c ∈ cs, '/' ∉ c) :
    ∀ d ∈ cs.foldl push st, Kept d := by
  induction cs generalizing st with
  | nil => exact hst
  | cons c cs ih =>
    rw [List.forall_mem_cons] at hcs
    refine ih ?_ hcs.2
    unfold push
    split
    · exact hst
    · rename_i hempty
      split
      · exact fun d hd => hst d (List.dropLast_subset _ hd)
      · rename_i hdots
        rw [not_or] at hempty
        rw [List.forall_mem_append]
        exact ⟨hst, List.forall_mem_singleton.mpr ⟨⟨hempty.1, hcs.1⟩, hempty.2, hdots⟩⟩

theorem canonicalizePath_render (h : ∀ c ∈ cs, Kept c) :
    canonicalizePath (render cs) = some (render cs) := by
  have hself := canonicalizePath_after fun c hc => (h c hc).1.2
  rw [foldl_push_of_kept h, List.nil_append] at hself
  cases cs with
  | nil => rfl
  | cons c cs =>
    rw [render, if_neg (List.cons_ne_nil c cs)] at hself ⊢
    exact hself

theorem step_lt (h : step path σ = some τ) : σ.i < τ.i ∧ σ.i < path.length := by
  have hlt : σ.i < path.length := by
    by_contra hge
    rw [step, at_, if_neg (Nat.succ_ne_zero _), Nat.add_sub_cancel,
      List.getElem?_eq_none (Nat.le_of_not_lt hge)] at h
    cases h
  refine ⟨?_, hlt⟩
  unfold step at h
  repeat' split at h
  all_goals cases h
  all_goals exact Nat.lt_add_of_pos_right (Nat.succ_pos _)

theorem loop_ends {fuel : Nat} (hpos : 0 < fuel) (h : path.length < fuel + σ.i) :
    ∃ out, loop path fuel σ = some out := by
  induction fuel generalizing σ with
  | zero => cases hpos
  | succ fuel ih =>
    rw [loop]
    cases hstep : step path σ with
    | none => exact ⟨_, rfl⟩
    | some τ =>
      obtain ⟨hlt, hin⟩ := step_lt hstep
      exact ih (by omega) (by omega)

/-- The absolute path `/` followed by `rest`: it becomes the path of the components that are left,
and such a path does not change. The scan of any path ends. -/
theorem canonicalizePath_resolves (rest : Text) :
    canonicalizePath ('/' :: rest) = some (render (resolve ('/' :: rest))) ∧
    canonicalizePath (render (resolve ('/' :: rest))) = some (render (resolve ('/' :: rest))) ∧
    ∀ path, ∃ out, canonicalizePath path = some out := by
  have hslash : ∀ c ∈ rest.splitOn '/', '/' ∉ c := fun c => Pieces.not_mem_of_mem_splitOn
  have hpath : '/' :: rest = after '/' (rest.splitOn '/') := by
    have hjoin : ['/'].intercalate (rest.splitOn '/') = rest := List.intercalate_splitOn '/'
    cases hsplit : rest.splitOn '/' with
    | nil => exact absurd hsplit (List.splitOn_ne_nil _ _)
    | cons c cs =>
      rw [hsplit, intercalate_cons] at hjoin
      rw [after_cons, hjoin]
  have hresolve : resolve ('/' :: rest) = (rest.splitOn '/').foldl push [] := by
    rw [resolve, List.splitOn_cons_eq_if_modifyHead, if_pos (beq_self_eq_true _)]
    rfl
  have hkept : ∀ d ∈ (rest.splitOn '/').foldl push [], Kept d :=
    foldl_push_kept (fun d hd => absurd hd List.not_mem_nil) hslash
  rw [← hresolve] at hkept
  refine ⟨?_, canonicalizePath_render hkept, fun path => ?_⟩
  · rw [hresolve, ← canonicalizePath_after hslash, ← hpath]
  · obtain ⟨out, hout⟩ := loop_ends (σ := ⟨0, [], false⟩) (Nat.succ_pos _)
      (Nat.lt_succ_self _)
    rw [canonicalizePath, hout]
    exact ⟨_, rfl⟩

end YdbTest.CanonicalizePath
