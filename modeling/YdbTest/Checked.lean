import YdbTest.Interleave

namespace YdbTest.Checked

open TreeStore Schedule Function

variable {γ κ ν ι : Type}

/-- What a program does that checks what it has stored: an update; a node's value taken into a
local variable, and a node set to what is made of the local; the count of errors set back; a look
whether a node has the right value; and the end of the rest of a pass where there have been too
many errors. -/
inductive Op (γ κ ν : Type)
  | upd (u : Upd γ κ ν)
  | fetch (x : Node γ κ)
  | put (x : Node γ κ) (f : Option ν → ν)
  | begin
  | exam (x : Node γ κ) (vcorr : ν)
  | quit (rest : Nat)

/-- The errors of the pass, the steps that it still leaves out, the errors of all passes, whether
the program has ended at a node without a value, and the local variable. -/
structure Loc (ν : Type) where
  err : Nat
  skip : Nat
  fails : Nat
  dead : Bool
  val : Option ν

def clean (r : Option ν) : Loc ν := ⟨0, 0, 0, false, r⟩

/-- One after the other, or a transaction that is committed or rolled back. -/
inductive Atom (γ κ ν : Type)
  | op (o : Op γ κ ν)
  | tp (commit : Bool) (ops : List (Op γ κ ν))

def Op.upds : Op γ κ ν → List (Upd γ κ ν)
  | .upd u => [u]
  | .put x f => [.modify x f]
  | _ => []

def upds (ops : List (Op γ κ ν)) : List (Upd γ κ ν) := ops.flatMap Op.upds

def Atom.upds : Atom γ κ ν → List (Upd γ κ ν)
  | .op o => o.upds
  | .tp true ops => Checked.upds ops
  | .tp false _ => []

def pass : List (List (Op γ κ ν)) → List (Op γ κ ν)
  | [] => []
  | turn :: turns => turn ++ .quit (pass turns).length :: pass turns

/-- Each process with its own locals, and how much of its program it has done. -/
structure Sys (ι γ κ ν : Type) where
  db : Store γ κ ν
  pos : ι → Nat
  loc : ι → Loc ν

def initial (db : Store γ κ ν) : Sys ι γ κ ν := ⟨db, fun _ => 0, fun _ => clean none⟩

/-- A process goes on; or it tries its transaction up to some place, and has to restart it. -/
inductive Act (ι : Type)
  | go (i : ι)
  | attempt (i : ι) (k : Nat)

variable [DecidableEq γ] [DecidableEq κ] [DecidableEq ν] [DecidableEq ι] (maxerr : Nat)
  (prog : ι → List (Atom γ κ ν))

def exec (s : Store γ κ ν × Loc ν) (o : Op γ κ ν) : Store γ κ ν × Loc ν :=
  if s.2.dead then s
  else if 0 < s.2.skip then (s.1, { s.2 with skip := s.2.skip - 1 })
  else
    match o with
    | .upd u => (u.apply s.1, s.2)
    | .fetch x => (s.1, { s.2 with val := get s.1 x })
    | .put x f => (set x (f s.2.val) s.1, s.2)
    | .begin => (s.1, { s.2 with err := 0 })
    | .exam x vcorr =>
      match get s.1 x with
      | none => (s.1, { s.2 with fails := s.2.fails + 1, dead := true })
      | some vcomp =>
        if vcorr = vcomp then s
        else (s.1, { s.2 with err := s.2.err + 1, fails := s.2.fails + 1 })
    | .quit rest => if s.2.err > maxerr then (s.1, { s.2 with skip := rest }) else s

def execAll (s : Store γ κ ν × Loc ν) (ops : List (Op γ κ ν)) : Store γ κ ν × Loc ν :=
  ops.foldl (exec maxerr) s

def step (act : Act ι) (σ : Sys ι γ κ ν) : Sys ι γ κ ν :=
  match act with
  | .go i =>
    match (prog i)[σ.pos i]? with
    | none => σ
    | some a =>
      let r :=
        match a with
        | .op o => exec maxerr (σ.db, σ.loc i) o
        | .tp commit ops =>
          let r := execAll maxerr (σ.db, σ.loc i) ops
          (if commit ∧ ¬ r.2.dead then r.1 else σ.db, r.2)
      ⟨r.1, update σ.pos i (σ.pos i + 1), update σ.loc i r.2⟩
  | .attempt i k =>
    match (prog i)[σ.pos i]? with
    | some (.tp _ ops) =>
      let r := execAll maxerr (σ.db, σ.loc i) (ops.take k)
      { σ with loc := update σ.loc i { r.2 with skip := 0 } }
    | _ => σ

def Clean (σ : Sys ι γ κ ν) : Prop := ∀ i, ∃ r, σ.loc i = clean r

def Op.val (db : Store γ κ ν) (r : Option ν) : Op γ κ ν → Option ν
  | .fetch x => get db x
  | _ => r

def val : List (Op γ κ ν) → Store γ κ ν → Option ν → Option ν
  | [], _, r => r
  | o :: ops, db, r => val ops (applyAll o.upds db) (o.val db r)

def Op.Holds (db : Store γ κ ν) (r : Option ν) : Op γ κ ν → Prop
  | .put x _ => r = get db x
  | .exam x vcorr => get db x = some vcorr
  | _ => True

def Holds : List (Op γ κ ν) → Store γ κ ν → Option ν → Prop
  | [], _, _ => True
  | o :: ops, db, r => o.Holds db r ∧ Holds ops (applyAll o.upds db) (o.val db r)

def Atom.Holds (db : Store γ κ ν) (r : Option ν) : Atom γ κ ν → Prop
  | .op o => o.Holds db r
  | .tp _ ops => Checked.Holds ops db r

def Atom.val (db : Store γ κ ν) (r : Option ν) : Atom γ κ ν → Option ν
  | .op o => o.val db r
  | .tp _ ops => Checked.val ops db r

def Op.writes (r : Option ν) : Op γ κ ν → List (Upd γ κ ν)
  | .upd u => [u]
  | .put x f => [.set x (f r)]
  | _ => []

def writes : List (Op γ κ ν) → Store γ κ ν → Option ν → List (Upd γ κ ν)
  | [], _, _ => []
  | o :: ops, db, r => o.writes r ++ writes ops (applyAll (o.writes r) db) (o.val db r)

variable {maxerr} {prog} {ops ops' : List (Op γ κ ν)} {o : Op γ κ ν} {db : Store γ κ ν}
  {turns : List (List (Op γ κ ν))} {a : Atom γ κ ν} {x : Node γ κ} {v : ν} {r : Option ν}
  {i w : ι} {σ : Sys ι γ κ ν}

section Ops

omit [DecidableEq γ] [DecidableEq κ] [DecidableEq ν] in
theorem upds_append : upds (ops ++ ops') = upds ops ++ upds ops' := List.flatMap_append

omit [DecidableEq γ] [DecidableEq κ] [DecidableEq ν] in
theorem upds_cons : upds (o :: ops) = o.upds ++ upds ops := List.flatMap_cons

omit [DecidableEq γ] [DecidableEq κ] [DecidableEq ν] in
theorem upds_pass : upds (pass turns) = turns.flatMap upds := by
  induction turns with
  | nil => rfl
  | cons turn turns ih =>
    rw [pass, upds_append, upds_cons, ih, List.flatMap_cons]
    rfl

omit [DecidableEq ν] in
theorem val_append :
    val (ops ++ ops') db r = val ops' (applyAll (upds ops) db) (val ops db r) := by
  induction ops generalizing db r with
  | nil => rfl
  | cons o ops ih =>
    rw [List.cons_append, val, ih, upds_cons, applyAll_append]
    rfl

omit [DecidableEq ν] in
theorem holds_append : Holds (ops ++ ops') db r ↔
    Holds ops db r ∧ Holds ops' (applyAll (upds ops) db) (val ops db r) := by
  induction ops generalizing db r with
  | nil => exact (and_iff_right trivial).symm
  | cons o ops ih =>
    rw [List.cons_append, Holds, ih, Holds, upds_cons, applyAll_append, val]
    exact and_assoc.symm

omit [DecidableEq ν] in
theorem Op.Holds.writes_eq (h : o.Holds db r) : applyAll (o.writes r) db = applyAll o.upds db := by
  cases o with
  | put x f =>
    have hr : r = get db x := h
    rw [hr]
    rfl
  | upd u => rfl
  | fetch x => rfl
  | begin => rfl
  | exam x v => rfl
  | quit rest => rfl

omit [DecidableEq ν] in
theorem Holds.writes_eq (h : Holds ops db r) :
    applyAll (writes ops db r) db = applyAll (upds ops) db := by
  induction ops generalizing db r with
  | nil => rfl
  | cons o ops ih =>
    rw [writes, upds_cons, applyAll_append, applyAll_append, h.1.writes_eq]
    exact ih h.2

omit [DecidableEq ν] in
theorem writes_append (h : Holds ops db r) : writes (ops ++ ops') db r =
    writes ops db r ++ writes ops' (applyAll (upds ops) db) (val ops db r) := by
  induction ops generalizing db r with
  | nil => rfl
  | cons o ops ih =>
    rw [List.cons_append, writes, writes, h.1.writes_eq, ih h.2, upds_cons, applyAll_append, val,
      List.append_assoc]

omit [DecidableEq ν] in
theorem holds_pass (h : ∀ turn ∈ turns, ∀ db r, Holds turn db r) : Holds (pass turns) db r := by
  induction turns generalizing db r with
  | nil => trivial
  | cons turn turns ih =>
    rw [List.forall_mem_cons] at h
    rw [pass, holds_append]
    exact ⟨h.1 db r, trivial, ih h.2⟩

omit [DecidableEq ν] in
theorem holds_flatMap {A : Type} {f : A → List (Op γ κ ν)} {l : List A}
    (h : ∀ a ∈ l, ∀ db r, Holds (f a) db r) : Holds (l.flatMap f) db r := by
  induction l generalizing db r with
  | nil => trivial
  | cons a l ih =>
    rw [List.forall_mem_cons] at h
    rw [List.flatMap_cons, holds_append]
    exact ⟨h.1 db r, ih h.2⟩

omit [DecidableEq γ] [DecidableEq κ] [DecidableEq ν] in
theorem mem_pass (h : o ∈ pass turns) : (∃ turn ∈ turns, o ∈ turn) ∨ ∃ rest, o = .quit rest := by
  induction turns with
  | nil => exact absurd h List.not_mem_nil
  | cons turn turns ih =>
    rw [pass, List.mem_append, List.mem_cons] at h
    obtain h | h | h := h
    · exact Or.inl ⟨turn, List.mem_cons_self, h⟩
    · exact Or.inr ⟨_, h⟩
    · refine (ih h).imp_left fun ⟨turn', hmem, ho⟩ => ?_
      exact ⟨turn', List.mem_cons_of_mem _ hmem, ho⟩

omit [DecidableEq γ] [DecidableEq κ] [DecidableEq ν] in
theorem mem_pass_of_turn {turn : List (Op γ κ ν)} (hturn : turn ∈ turns) (h : o ∈ turn) :
    o ∈ pass turns := by
  induction turns with
  | nil => exact absurd hturn List.not_mem_nil
  | cons turn' turns ih =>
    rw [pass, List.mem_append, List.mem_cons]
    obtain rfl | hturn := List.mem_cons.mp hturn
    · exact Or.inl h
    · exact Or.inr (Or.inr (ih hturn))

omit [DecidableEq ν] in
theorem writes_eq_upds (h : ∀ o ∈ ops, ∀ r, o.writes r = o.upds) : writes ops db r = upds ops := by
  induction ops generalizing db r with
  | nil => rfl
  | cons o ops ih =>
    rw [List.forall_mem_cons] at h
    rw [writes, upds_cons, ih h.2, h.1 r]

omit [DecidableEq ν] in
theorem holds_of_exams (h : ∀ o ∈ ops, o.upds = [] ∧ ∀ r, o.Holds db r) : Holds ops db r := by
  induction ops generalizing r with
  | nil => trivial
  | cons o ops ih =>
    rw [List.forall_mem_cons] at h
    refine ⟨h.1.2 r, ?_⟩
    rw [h.1.1]
    exact ih h.2

theorem exec_clean (h : o.Holds db r) :
    exec maxerr (db, clean r) o = (applyAll o.upds db, clean (o.val db r)) := by
  cases o with
  | upd u => rfl
  | fetch x => rfl
  | put x f =>
    have hr : r = get db x := h
    simp [exec, clean, Op.upds, applyAll, Op.val, Upd.apply, hr]
  | begin => rfl
  | exam x v =>
    have hx : get db x = some v := h
    simp [exec, clean, hx, Op.upds, applyAll, Op.val]
  | quit rest => simp [exec, clean, Op.upds, applyAll, Op.val]

theorem execAll_clean (h : Holds ops db r) :
    execAll maxerr (db, clean r) ops = (applyAll (upds ops) db, clean (val ops db r)) := by
  induction ops generalizing db r with
  | nil => rfl
  | cons o ops ih =>
    rw [execAll, List.foldl_cons, exec_clean h.1, upds_cons, applyAll_append]
    exact ih h.2

omit [DecidableEq ν] in
theorem Holds.take (h : Holds ops db r) (k : Nat) : Holds (ops.take k) db r := by
  rw [← List.take_append_drop k ops] at h
  exact (holds_append.mp h).1

end Ops

section Runs

variable {pos : ι → Nat} {loc : ι → Loc ν}

abbrev plainStep (prog : ι → List (Atom γ κ ν)) :
    ι → Interleave.Sys ι γ κ ν → Interleave.Sys ι γ κ ν := Interleave.step Atom.upds prog

theorem step_go (ha : (prog i)[pos i]? = some a) (hloc : loc i = clean r) (h : a.Holds db r) :
    step maxerr prog (.go i) ⟨db, pos, loc⟩ =
      ⟨applyAll a.upds db, update pos i (pos i + 1), update loc i (clean (a.val db r))⟩ := by
  simp only [step, ha, hloc]
  cases a with
  | op o =>
    dsimp only
    rw [exec_clean h]
    rfl
  | tp commit ops =>
    dsimp only
    rw [execAll_clean h]
    cases commit with
    | true => rfl
    | false => rfl

variable (maxerr) in
theorem step_attempt (k : Nat) {commit : Bool} (ha : (prog i)[pos i]? = some (.tp commit ops))
    (hloc : loc i = clean r) (h : Holds ops db r) :
    ∃ r', step maxerr prog (.attempt i k) ⟨db, pos, loc⟩ =
      ⟨db, pos, update loc i (clean r')⟩ := by
  refine ⟨val (ops.take k) db r, ?_⟩
  simp only [step, ha, hloc]
  rw [execAll_clean (h.take k)]
  rfl

variable (maxerr prog db) in
/-- If every next step finds what it looks for in every state of the plain processes, they are
what the processes do, and nothing wrong is found. What is known of a process's local variable at
each place of its program does not depend on a transaction that is only tried. -/
theorem run_checked (Fits : ι → Nat → Option ν → Prop) (h0 : ∀ i, Fits i 0 none)
    (hgo : ∀ is i a r, (prog i)[(run (plainStep prog) (Interleave.initial db) is).pos i]? = some a →
      Fits i ((run (plainStep prog) (Interleave.initial db) is).pos i) r →
      a.Holds (run (plainStep prog) (Interleave.initial db) is).db r ∧
        Fits i ((run (plainStep prog) (Interleave.initial db) is).pos i + 1)
          (a.val (run (plainStep prog) (Interleave.initial db) is).db r))
    (htp : ∀ i p commit ops r, (prog i)[p]? = some (.tp commit ops) → Fits i p r)
    (acts : List (Act ι)) :
    ∃ is, (run (step maxerr prog) (initial db) acts).db =
        (run (plainStep prog) (Interleave.initial db) is).db ∧
      (run (step maxerr prog) (initial db) acts).pos =
        (run (plainStep prog) (Interleave.initial db) is).pos ∧
      ∀ i, ∃ r, (run (step maxerr prog) (initial db) acts).loc i = clean r ∧
        Fits i ((run (plainStep prog) (Interleave.initial db) is).pos i) r := by
  induction acts using List.reverseRecOn with
  | nil => exact ⟨[], rfl, rfl, fun i => ⟨none, rfl, h0 i⟩⟩
  | append_singleton acts act ih =>
    obtain ⟨is, hdb, hpos, hfits⟩ := ih
    rw [run_concat]
    generalize hτ : run (step maxerr prog) (initial db) acts = τ at *
    obtain ⟨tdb, tpos, tloc⟩ := τ
    obtain rfl : tdb = _ := hdb
    obtain rfl : tpos = _ := hpos
    clear hτ
    cases act with
    | go i =>
      cases ha : (prog i)[(run (plainStep prog) (Interleave.initial db) is).pos i]? with
      | none =>
        refine ⟨is, ?_⟩
        have hsame : step maxerr prog (.go i)
            ⟨(run (plainStep prog) (Interleave.initial db) is).db,
              (run (plainStep prog) (Interleave.initial db) is).pos, tloc⟩ =
            ⟨(run (plainStep prog) (Interleave.initial db) is).db,
              (run (plainStep prog) (Interleave.initial db) is).pos, tloc⟩ := by
          simp only [step, ha]
        rw [hsame]
        exact ⟨rfl, rfl, hfits⟩
      | some a =>
        obtain ⟨r, hloc, hr⟩ := hfits i
        obtain ⟨hholds, hnext⟩ := hgo is i a r ha hr
        refine ⟨is ++ [i], ?_⟩
        rw [step_go ha hloc hholds, run_concat, plainStep, Interleave.step_of_some ha]
        refine ⟨rfl, rfl, fun j => ?_⟩
        by_cases hj : j = i
        · subst hj
          dsimp only
          rw [update_self, update_self]
          exact ⟨_, rfl, hnext⟩
        · dsimp only
          rw [update_of_ne hj, update_of_ne hj]
          exact hfits j
    | attempt i k =>
      refine ⟨is, ?_⟩
      by_cases ha : ∃ commit ops,
          (prog i)[(run (plainStep prog) (Interleave.initial db) is).pos i]? =
            some (.tp commit ops)
      · obtain ⟨commit, ops, ha⟩ := ha
        obtain ⟨r, hloc, hr⟩ := hfits i
        obtain ⟨r', hstep⟩ := step_attempt maxerr k ha hloc (hgo is i _ r ha hr).1
        rw [hstep]
        refine ⟨rfl, rfl, fun j => ?_⟩
        by_cases hj : j = i
        · subst hj
          dsimp only
          rw [update_self]
          exact ⟨r', rfl, htp j _ commit ops r' ha⟩
        · dsimp only
          rw [update_of_ne hj]
          exact hfits j
      · have hsame : step maxerr prog (.attempt i k)
            ⟨(run (plainStep prog) (Interleave.initial db) is).db,
              (run (plainStep prog) (Interleave.initial db) is).pos, tloc⟩ =
            ⟨(run (plainStep prog) (Interleave.initial db) is).db,
              (run (plainStep prog) (Interleave.initial db) is).pos, tloc⟩ := by
          simp only [step]
          split
          · rename_i commit ops hop
            exact absurd ⟨commit, ops, hop⟩ ha
          · rfl
        rw [hsame]
        exact ⟨rfl, rfl, hfits⟩

end Runs

section Solo

variable {os : List (Op γ κ ν)} {db0 : Store γ κ ν} {p : Nat}

def Private (prog : ι → List (Atom γ κ ν)) (w : ι) (x : Node γ κ) : Prop :=
  ∀ j, j ≠ w → ∀ a ∈ prog j, ∀ r, look a.upds x r = r

def Led (prog : ι → List (Atom γ κ ν)) (w : ι) (x : Node γ κ) (v : ν) : Prop :=
  (∀ a ∈ prog w, Interleave.Decides a.upds x) ∧
    ∀ j, j ≠ w → ∀ a ∈ prog j, look a.upds x (some v) = some v

/-- What an operation looks at may not be changed by the others. -/
def Op.Safe (prog : ι → List (Atom γ κ ν)) (w : ι) : Op γ κ ν → Prop
  | .fetch x => Private prog w x
  | .put x _ => Private prog w x
  | .exam x v => Private prog w x ∨ Led prog w x v
  | _ => True

omit [DecidableEq γ] [DecidableEq κ] [DecidableEq ν] in
theorem split_at (ho : os[p]? = some o) : os = os.take p ++ o :: os.drop (p + 1) := by
  obtain ⟨hlt, hget⟩ := List.getElem?_eq_some_iff.mp ho
  rw [← hget, ← List.drop_eq_getElem_cons hlt, List.take_append_drop]

omit [DecidableEq ν] in
theorem Holds.at (h : Holds os db none) (ho : os[p]? = some o) :
    o.Holds (applyAll (upds (os.take p)) db) (val (os.take p) db none) := by
  rw [split_at ho] at h
  exact (holds_append.mp h).2.1

omit [DecidableEq ν] in
theorem val_take_succ (ho : os[p]? = some o) : val (os.take (p + 1)) db none =
    o.val (applyAll (upds (os.take p)) db) (val (os.take p) db none) := by
  rw [List.take_add_one, ho, val_append]
  rfl

omit [DecidableEq γ] [DecidableEq κ] [DecidableEq ν] [DecidableEq ι] in
theorem made_ops {τ : Interleave.Sys ι γ κ ν} (hprog : prog w = os.map .op) :
    Interleave.made Atom.upds prog τ w = upds (os.take (τ.pos w)) := by
  rw [Interleave.made, hprog, ← List.map_take, List.flatMap_map]
  rfl

omit [DecidableEq ν] in
theorem op_checked (hprog : prog w = os.map .op) (hsolo : ∀ db, Holds os db none)
    (hsafe : ∀ o ∈ os, o.Safe prog w) (is : List ι)
    (ho : os[(run (plainStep prog) (Interleave.initial db) is).pos w]? = some o) :
    let τ := run (plainStep prog) (Interleave.initial db) is
    o.Holds τ.db (val (os.take (τ.pos w)) db none) ∧
      o.val τ.db (val (os.take (τ.pos w)) db none) = val (os.take (τ.pos w + 1)) db none := by
  intro τ
  have hmem : o ∈ os := List.mem_of_getElem? ho
  have hat := (hsolo db).at ho
  have hown : ∀ x, Private prog w x →
      get τ.db x = get (applyAll (upds (os.take (τ.pos w))) db) x := by
    intro x hx
    rw [get_applyAll, ← made_ops hprog]
    exact Interleave.run_own hx is
  rw [val_take_succ ho]
  cases o with
  | upd u => exact ⟨trivial, rfl⟩
  | fetch x => exact ⟨trivial, hown x (hsafe _ hmem)⟩
  | put x f => exact ⟨hat.trans (hown x (hsafe _ hmem)).symm, rfl⟩
  | begin => exact ⟨trivial, rfl⟩
  | quit rest => exact ⟨trivial, rfl⟩
  | exam x v =>
    refine ⟨?_, rfl⟩
    obtain hx | hx := hsafe _ hmem
    · exact (hown x hx).trans hat
    · refine Interleave.run_leader hx.1 hx.2 is ?_
      have hempty : get (applyAll (upds (os.take (τ.pos w))) []) x = some v := (hsolo []).at ho
      rwa [get_applyAll, ← made_ops hprog] at hempty

end Solo

end YdbTest.Checked
