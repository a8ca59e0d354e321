import YdbTest.UmJrnl

namespace YdbTest.JournalReplay

open MString UmJrnl

inductive Kind where
  | set
  | kill
  | zkill
  | ztrigger
  | ztwormhole
  deriving DecidableEq

/-- An update record of a journal extract. The value is that of a SET, or of `$ztwormhole`. -/
structure Upd where
  kind : Kind
  fields : List Str
  nodeflags : Nat
  node : Str
  value : Str

inductive Tok where
  | upd (r : Upd)
  | tstart (ztp : Bool) (rest : Str)
  | tcommit (ztp : Bool) (rest : Str)

/-- What is to be done for an extract, in order. An update comes with the number of its line. -/
inductive Event where
  | clear
  | upd (n : Nat) (r : Upd)

def clearIf (ztp : Bool) : List Event := if ztp then [.clear] else []

/-- A record outside a fence is applied where it stands, and those of a transaction where the
outermost fence is committed, so that an incomplete one at the end is not applied. A ZTP fence
begins and ends without a `$ztwormhole`. -/
def events : Nat → List (Nat × Upd) → Nat → List Tok → List Event
  | _, _, _, [] => []
  | 0, p, n, .upd r :: ts => .upd n r :: events 0 p (n + 1) ts
  | d + 1, p, n, .upd r :: ts => events (d + 1) (p ++ [(n, r)]) (n + 1) ts
  | d, p, n, .tstart ztp _ :: ts => clearIf ztp ++ events (d + 1) p (n + 1) ts
  | 0, p, n, .tcommit _ _ :: ts => events 0 p (n + 1) ts
  | 1, p, n, .tcommit ztp _ :: ts =>
    p.map (fun u => .upd u.1 u.2) ++ clearIf ztp ++ events 0 [] (n + 1) ts
  | d + 2, p, n, .tcommit ztp _ :: ts => clearIf ztp ++ events (d + 1) p (n + 1) ts

variable {St : Type}

def Upd.data (r : Upd) : Str :=
  match r.kind with
  | .set => r.node ++ equals :: r.value
  | .ztwormhole => r.value
  | _ => r.node

def Upd.command (r : Upd) : Str :=
  match r.kind with
  | .set => lit "set " ++ r.data
  | .kill => lit "kill " ++ r.data
  | .zkill => lit "ZKILL " ++ r.data
  | .ztrigger => lit "ztrigger " ++ r.data
  | .ztwormhole => lit "set $ztwormhole=" ++ r.data

/-- The records that `nodeflags` and `$zqgblmod` are about. -/
def Upd.isUpdate (r : Upd) : Bool := r.kind = .set || r.kind = .kill || r.kind = .zkill

section Replay

variable (e : Engine St)

/-- The state after the events, and the numbers of the updates applied. Whether an update is
skipped may hang on a flag, which the updates before have left. -/
def run (skip flag : Bool → Upd → St → Bool) : List Event → Bool → St → St × List Nat
  | [], _, st => (st, [])
  | .clear :: es, b, st => run skip flag es b (e.xecute (lit "set $ztwormhole=\"\"") st)
  | .upd n r :: es, b, st =>
    if skip b r st then run skip flag es (flag b r st) st
    else
      let after := run skip flag es (flag b r st) (e.xecute r.command st)
      (after.1, n :: after.2)

variable (m : Settings)

def triggered (r : Upd) : Bool := m.trigtst && r.nodeflags % 2 = 1

def modified (r : Upd) (st : St) : Bool := m.checkzqgblmod && e.zqgblmod r.node st

/-- The updates that are to be skipped: the triggered ones, and those whose node is said to be
modified. -/
def ownSkip (r : Upd) (st : St) : Bool := r.isUpdate && (triggered m r || modified e m r st)

def replay (es : List Event) (st : St) : St × List Nat :=
  run e (fun _ => ownSkip e m) (fun _ _ _ => false) es false st

/-- The updates `umjrnl` skips: a ZKILL although it is triggered is not skipped, and any KILL or
ZKILL is, once one has been. -/
def umjrnlSkip (skipgbl : Bool) (r : Upd) (st : St) : Bool :=
  match r.kind with
  | .set => triggered m r || modified e m r st
  | .kill => triggered m r || skipgbl || modified e m r st
  | .zkill => skipgbl || modified e m r st
  | _ => false

def umjrnlFlag (skipgbl : Bool) (r : Upd) (st : St) : Bool :=
  match r.kind with
  | .kill => skipgbl || !triggered m r && modified e m r st
  | .zkill => skipgbl || modified e m r st
  | _ => skipgbl

/-- The updates of the events, with what `$zqgblmod` says of each when it is reached. -/
def visits : List Event → St → List (Upd × Bool)
  | [], _ => []
  | .clear :: es, st => visits es (e.xecute (lit "set $ztwormhole=\"\"") st)
  | .upd _ r :: es, st =>
    (r, modified e m r st) :: visits es (if ownSkip e m r st then st else e.xecute r.command st)

end Replay

def leaks (m : Settings) (v : Upd × Bool) : Bool :=
  v.2 && (v.1.kind = .zkill || v.1.kind = .kill && !triggered m v.1)

/-- No triggered ZKILL is reached with its node not modified, and no KILL or ZKILL after one whose
node is modified. (A ZKILL that is both is skipped, for the wrong reason.) -/
def Undisturbed (m : Settings) (before : Bool) (vs : List (Upd × Bool)) : Prop :=
  ∀ pre r post, vs = pre ++ (r, false) :: post →
    (r.kind = .zkill → triggered m r = true → before = true ∨ ∃ v ∈ pre, leaks m v = true) ∧
    (r.kind = .kill ∨ r.kind = .zkill → triggered m r = false →
      before = false ∧ ∀ v ∈ pre, leaks m v = false)

section Decide

variable {e : Engine St} {m : Settings} {r : Upd} {st : St} {b b' : Bool} {es : List Event}
  {vs : List (Upd × Bool)} {z : Bool} {n : Nat}

theorem umjrnlSkip_eq_iff : umjrnlSkip e m b r st = ownSkip e m r st ↔
    (modified e m r st = false →
      (r.kind = .zkill → triggered m r = true → b = true) ∧
      (r.kind = .kill ∨ r.kind = .zkill → triggered m r = false → b = false)) := by
  simp only [umjrnlSkip, ownSkip, Upd.isUpdate]
  generalize modified e m r st = z
  generalize triggered m r = t
  cases r.kind <;> revert b z t <;> decide

theorem umjrnlFlag_eq : umjrnlFlag e m b r st = (b || leaks m (r, modified e m r st)) := by
  simp only [umjrnlFlag, leaks]
  generalize modified e m r st = z
  generalize triggered m r = t
  cases r.kind <;> revert b z t <;> decide

theorem undisturbed_cons : Undisturbed m b ((r, z) :: vs) ↔
    (z = false → (r.kind = .zkill → triggered m r = true → b = true) ∧
      (r.kind = .kill ∨ r.kind = .zkill → triggered m r = false → b = false)) ∧
    Undisturbed m (b || leaks m (r, z)) vs := by
  refine ⟨?_, ?_⟩
  · intro h
    refine ⟨?_, ?_⟩
    · rintro rfl
      obtain ⟨h₁, h₂⟩ := h [] r vs rfl
      refine ⟨fun hk ht => ?_, fun hk ht => (h₂ hk ht).1⟩
      exact (h₁ hk ht).resolve_right (fun ⟨_, hv, _⟩ => nomatch hv)
    · rintro pre r' post rfl
      obtain ⟨h₁, h₂⟩ := h ((r, z) :: pre) r' post rfl
      refine ⟨fun hk ht => ?_, fun hk ht => ?_⟩
      · rw [Bool.or_eq_true, or_assoc]
        refine (h₁ hk ht).imp id ?_
        simp only [List.exists_mem_cons_iff, imp_self]
      · obtain ⟨hb, hpre⟩ := h₂ hk ht
        rw [List.forall_mem_cons] at hpre
        rw [Bool.or_eq_false_iff]
        exact ⟨⟨hb, hpre.1⟩, hpre.2⟩
  · rintro ⟨h, hrest⟩ pre r' post hvs
    cases pre with
    | nil =>
      cases hvs
      obtain ⟨h₁, h₂⟩ := h rfl
      exact ⟨fun hk ht => .inl (h₁ hk ht), fun hk ht => ⟨h₂ hk ht, fun _ hv => nomatch hv⟩⟩
    | cons v pre =>
      cases hvs
      obtain ⟨h₁, h₂⟩ := hrest pre r' post rfl
      refine ⟨fun hk ht => ?_, fun hk ht => ?_⟩
      · have hh := h₁ hk ht
        rw [Bool.or_eq_true, or_assoc] at hh
        refine hh.imp id ?_
        simp only [List.exists_mem_cons_iff, imp_self]
      · obtain ⟨hb, hpre⟩ := h₂ hk ht
        rw [Bool.or_eq_false_iff] at hb
        rw [List.forall_mem_cons]
        exact ⟨hb.1, hb.2, hpre⟩

def numbers : List Event → List Nat
  | [] => []
  | .clear :: es => numbers es
  | .upd n _ :: es => n :: numbers es

theorem applied_subset (skip flag : Bool → Upd → St → Bool) (es : List Event) (b : Bool) (st : St) :
    ∀ n ∈ (run e skip flag es b st).2, n ∈ numbers es := by
  induction es generalizing b st with
  | nil => exact fun n hn => hn
  | cons ev es ih =>
    cases ev with
    | clear => exact ih b _
    | upd k r =>
      intro n hn
      rw [run] at hn
      rw [numbers, List.mem_cons]
      split_ifs at hn
      · exact .inr (ih _ _ n hn)
      · exact (List.mem_cons.mp hn).imp id (ih _ _ n)

theorem run_eq_iff (hn : (numbers es).Nodup) :
    run e (umjrnlSkip e m) (umjrnlFlag e m) es b st =
      run e (fun _ => ownSkip e m) (fun _ _ _ => false) es b' st ↔
    Undisturbed m b (visits e m es st) := by
  induction es generalizing b b' st with
  | nil =>
    refine ⟨fun _ pre r post h => ?_, fun _ => rfl⟩
    rw [visits] at h
    exact absurd h.symm (by simp)
  | cons ev es ih =>
    cases ev with
    | clear => exact ih hn
    | upd k r =>
      rw [numbers, List.nodup_cons] at hn
      rw [visits, undisturbed_cons, ← umjrnlSkip_eq_iff, ← umjrnlFlag_eq]
      have hnot : ∀ (skip flag : Bool → Upd → St → Bool) (b : Bool) (st : St) (as : List Nat),
          (run e skip flag es b st).2 ≠ k :: as := by
        intro skip flag b st as heq
        apply hn.1
        apply applied_subset skip flag es b st
        rw [heq]
        exact List.mem_cons_self
      rw [run, run]
      cases hc : umjrnlSkip e m b r st <;> cases ho : ownSkip e m r st
      · simp only [Bool.false_eq_true, if_false, Prod.mk.injEq, List.cons.injEq, true_and]
        rw [← Prod.ext_iff]
        exact ih hn.2
      · simp only [Bool.false_eq_true, if_false, if_true, false_and, iff_false]
        intro heq
        exact hnot _ _ _ _ _ (congrArg Prod.snd heq).symm
      · simp only [Bool.false_eq_true, if_false, if_true, Bool.true_eq_false, false_and, iff_false]
        intro heq
        exact hnot _ _ _ _ _ (congrArg Prod.snd heq)
      · simp only [if_true, true_and]
        exact ih hn.2

theorem undisturbed_unchecked (hc : m.checkzqgblmod = false) :
    Undisturbed m false (visits e m es st) ↔
      ∀ n r, .upd n r ∈ es → r.kind = .zkill → triggered m r = false := by
  induction es generalizing st with
  | nil => exact ⟨fun _ _ _ h => (nomatch h), fun _ pre _ _ h => by simp [visits] at h⟩
  | cons ev es ih =>
    cases ev with
    | clear =>
      rw [visits, ih]
      simp
    | upd k r =>
      have hmod : modified e m r st = false := by rw [modified, hc, Bool.false_and]
      have hleak : leaks m (r, false) = false := Bool.false_and _
      rw [visits, undisturbed_cons, hmod, hleak, Bool.or_false, ih]
      simp only [List.mem_cons, Event.upd.injEq, forall_const, implies_true, and_true,
        Bool.false_eq_true]
      refine ⟨?_, ?_⟩
      · rintro ⟨hr, hes⟩ n' r' (⟨rfl, rfl⟩ | hmem)
        · exact fun hk => Bool.eq_false_iff.mpr (hr hk)
        · exact hes n' r' hmem
      · intro h
        exact ⟨fun hk => Bool.eq_false_iff.mp (h k r (.inl ⟨rfl, rfl⟩) hk),
          fun n' r' hmem => h n' r' (.inr hmem)⟩

end Decide

section Numbers

variable {p : List (Nat × Upd)} {es es' : List Event} {d n : Nat} {ts : List Tok}

theorem numbers_append : numbers (es ++ es') = numbers es ++ numbers es' := by
  induction es with
  | nil => rfl
  | cons ev es ih =>
    cases ev with
    | clear => exact ih
    | upd n r => rw [List.cons_append, numbers, numbers, ih, List.cons_append]

theorem numbers_clearIf (ztp : Bool) : numbers (clearIf ztp) = [] := by
  cases ztp <;> rfl

theorem numbers_map : numbers (p.map fun u => .upd u.1 u.2) = p.map Prod.fst := by
  induction p with
  | nil => rfl
  | cons u p ih => rw [List.map_cons, numbers, ih, List.map_cons]

theorem numbers_events (hn : (p.map Prod.fst).Nodup) (hlt : ∀ k ∈ p.map Prod.fst, k < n) :
    (numbers (events d p n ts)).Nodup ∧
      ∀ k ∈ numbers (events d p n ts), k ∈ p.map Prod.fst ∨ n ≤ k := by
  induction ts generalizing d p n with
  | nil =>
    rw [events]
    exact ⟨List.nodup_nil, fun k hk => nomatch hk⟩
  | cons t ts ih =>
    have hlater : ∀ k ∈ p.map Prod.fst, k < n + 1 := fun k hk => Nat.lt_succ_of_lt (hlt k hk)
    have hkeep : ∀ d, (numbers (events d p (n + 1) ts)).Nodup ∧
        ∀ k ∈ numbers (events d p (n + 1) ts), k ∈ p.map Prod.fst ∨ n ≤ k := by
      intro d
      obtain ⟨hnd, hmem⟩ := @ih p d (n + 1) hn hlater
      exact ⟨hnd, fun k hk => (hmem k hk).imp id Nat.le_of_succ_le⟩
    cases t with
    | upd r =>
      cases d with
      | zero =>
        obtain ⟨hnd, hmem⟩ := @ih p 0 (n + 1) hn hlater
        rw [events, numbers, List.nodup_cons]
        refine ⟨⟨?_, hnd⟩, ?_⟩
        · intro hk
          obtain hk | hk := hmem n hk
          · exact absurd (hlt n hk) (lt_irrefl n)
          · omega
        · intro k hk
          obtain rfl | hk := List.mem_cons.mp hk
          · exact .inr le_rfl
          · exact (hkeep 0).2 k hk
      | succ d =>
        have hmap : (p ++ [(n, r)]).map Prod.fst = p.map Prod.fst ++ [n] := by
          rw [List.map_append, List.map_singleton]
        obtain ⟨hnd, hmem⟩ := @ih (p ++ [(n, r)]) (d + 1) (n + 1)
          (by
            rw [hmap, List.nodup_append]
            refine ⟨hn, List.nodup_singleton n, ?_⟩
            rintro a ha b hb rfl
            exact absurd (hlt a ha) (by rw [List.mem_singleton.mp hb]; exact lt_irrefl n))
          (by
            rw [hmap]
            intro k hk
            obtain hk | hk := List.mem_append.mp hk
            · exact hlater k hk
            · rw [List.mem_singleton.mp hk]
              exact Nat.lt_succ_self n)
        rw [events]
        refine ⟨hnd, ?_⟩
        intro k hk
        obtain hk | hk := hmem k hk
        · rw [hmap, List.mem_append, List.mem_singleton] at hk
          exact hk.imp id (fun h => h.ge)
        · exact .inr (Nat.le_of_succ_le hk)
    | tstart ztp rest =>
      cases d <;> rw [events, numbers_append, numbers_clearIf] <;> exact hkeep _
    | tcommit ztp rest =>
      match d with
      | 0 =>
        rw [events]
        exact hkeep 0
      | 1 =>
        obtain ⟨hnd, hmem⟩ := @ih [] 0 (n + 1) List.nodup_nil (fun _ hk => nomatch hk)
        rw [events, numbers_append, numbers_append, numbers_clearIf, List.append_nil, numbers_map]
        refine ⟨List.nodup_append.mpr ⟨hn, hnd, ?_⟩, ?_⟩
        · rintro a ha b hb rfl
          obtain hb | hb := hmem a hb
          · exact nomatch hb
          · have := hlt a ha
            omega
        · intro k hk
          obtain hk | hk := List.mem_append.mp hk
          · exact .inl hk
          · obtain hk | hk := hmem k hk
            · exact nomatch hk
            · exact .inr (by omega)
      | d + 2 =>
        rw [events, numbers_append, numbers_clearIf]
        exact hkeep (d + 1)

end Numbers

end YdbTest.JournalReplay
