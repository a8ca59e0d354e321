import YdbTest.Interleave
import YdbTest.Pfill

namespace YdbTest.Rinttp

open MString TreeStore Schedule Interleave Pfill

abbrev Atom := List (Upd Str Nat Str)

def each (us : List (Upd Str Nat Str)) : List Atom := us.map fun u => [u]

def tcommit (us : List (Upd Str Nat Str)) : Atom := us

def trollback (_ : List (Upd Str Nat Str)) : Atom := []

def lasti (job loop : Nat) : Upd Str Nat Str := .set (lit "^lasti", [job]) (dec loop)

def loops (iterate : Nat) (body : Nat → List Atom) : List Atom :=
  (List.range iterate).flatMap fun k => body (k + 1)

variable (e : Env) (iterate : Nat)

def job1 : List Atom := loops iterate fun loop =>
  each (in0 e .kill (loop % 10 + 1)) ++ each (in0 e .set (loop % 10 + 1)) ++ [[lasti 1 loop]]

def job2 : List Atom := loops iterate fun loop =>
  [trollback (in0 e .set ((loop + 4) % 10 + 1)), [lasti 2 loop]]

def job3 : List Atom := loops iterate fun loop =>
  [trollback (in0 e .kill (loop % 10 + 1)), [lasti 3 loop]]

def job4 : List Atom := loops iterate fun loop =>
  [trollback (in0 e .set ((loop + 1) % 10 + 1)), [lasti 4 loop]]

def job5 : List Atom := loops iterate fun loop =>
  [trollback (in0 e .kill ((loop + 2) % 10 + 1)), [lasti 5 loop]]

def job6 : List Atom := loops iterate fun loop =>
  [tcommit (in0 e .kill ((loop + 4) % 10 + 1) ++ in0 e .set (loop % 10 + 1) ++ [lasti 6 loop])]

def job7 : List Atom := loops iterate fun loop =>
  [tcommit (in0 e .kill ((loop + 1) % 10 + 1) ++ in0 e .set ((loop + 2) % 5 + 1) ++
    [lasti 7 loop])]

def thread1 (jobindex : Nat) : List Atom :=
  match jobindex with
  | 1 => job1 e iterate
  | 2 => job2 e iterate
  | 3 => job3 e iterate
  | 4 => job4 e iterate
  | 5 => job5 e iterate
  | _ => []

def thread2 (jobindex : Nat) : List Atom :=
  match jobindex with
  | 1 => job2 e iterate
  | 2 => job3 e iterate
  | 3 => job4 e iterate
  | 4 => job5 e iterate
  | 5 => job6 e iterate
  | 6 => job7 e iterate
  | _ => []

def thread3 (jobindex : Nat) : List Atom :=
  match jobindex with
  | 1 => job1 e iterate
  | 2 => job2 e iterate
  | 3 => job3 e iterate
  | 4 => job4 e iterate
  | 5 => job5 e iterate
  | 6 => job6 e iterate
  | 7 => job7 e iterate
  | _ => []

/-- The mixes of `rinttp(flag)`. -/
inductive Mix
  | rinttp1
  | rinttp2
  | rinttp3

def thread : Mix → Nat → List Atom
  | .rinttp1 => thread1 e iterate
  | .rinttp2 => thread2 e iterate
  | .rinttp3 => thread3 e iterate

variable {e} {iterate} {g n pno : Nat} {l : List Nat} {act : Act} {u : Upd Str Nat Str}
  {us : List (Upd Str Nat Str)} {p : List Atom} {a : Atom} {r : Option Str}

abbrev node (e : Env) (g n : Nat) : Node Str Nat := (global e g, [n])

theorem below_node {m : Nat} (hg : 1 ≤ g ∧ g ≤ 9) {h : Nat} (hh : 1 ≤ h ∧ h ≤ 9) :
    below (node e h m) (global e g, l) = true ↔ h = g ∧ [m] <+: l := by
  rw [below_iff]
  exact and_congr_left fun _ => ⟨global_injective hh hg, fun he => he ▸ rfl⟩

theorem mem_in0 (h1 : 1 ≤ pno) (h10 : pno ≤ 10) (hu : u ∈ in0 e act pno) :
    ∃ h m, (1 ≤ h ∧ h ≤ 9) ∧ (1 ≤ m ∧ m ≤ 250) ∧
      (u = .kill (node e h m) ∨ u = .set (node e h m) (y e m)) := by
  have hroot := getD_root h1 h10
  cases act with
  | kill =>
    obtain ⟨⟨h, m⟩, hv, rfl⟩ := List.mem_map.mp hu
    obtain ⟨hh, hm⟩ := (mem_visits_root hroot).mp hv
    exact ⟨h, m, hh, hm, Or.inl rfl⟩
  | set =>
    obtain ⟨⟨h, m⟩, hv, rfl⟩ := List.mem_map.mp hu
    obtain ⟨hh, hm⟩ := (mem_visits_root hroot).mp hv
    exact ⟨h, m, hh, hm, Or.inr rfl⟩
  | ver => exact absurd hu List.not_mem_nil

theorem lasti_ne {job : Nat} : (lit "^lasti", [job]) ≠ (global e g, l) := by
  intro h
  have hl := (List.cons.inj (List.cons.inj (congrArg Prod.fst h)).2).1
  have hall : ∀ k, regname.getD k 0 ≠ 108 := by
    intro k
    by_cases hk : k < 9
    · have hsmall : ∀ k < 9, regname.getD k 0 ≠ 108 := by decide
      exact hsmall k hk
    · have hlen : regname.length ≤ k := Nat.le_of_not_lt hk
      rw [List.getD_eq_getElem?_getD, List.getElem?_eq_none hlen]
      decide
  exact hall (g - 1) hl.symm

theorem lasti_at {job loop : Nat} : (lasti job loop).at (global e g, l) r = r :=
  if_neg lasti_ne

theorem look_set (h1 : 1 ≤ pno) (h10 : pno ≤ 10) (hg : 1 ≤ g ∧ g ≤ 9) (hn : 1 ≤ n ∧ n ≤ 250) :
    look (in0 e .set pno) (node e g n) r = some (y e n) := by
  refine look_const (fun u hu => ?_) ?_ r
  · obtain ⟨⟨h, m⟩, hv, rfl⟩ := List.mem_map.mp hu
    by_cases heq : node e h m = node e g n
    · have hm : m = n := by
        have := congrArg Prod.snd heq
        exact (List.cons.inj this).1
      subst hm
      exact Or.inr fun r => if_pos heq
    · exact Or.inl fun r => if_neg heq
  · have hv := (mem_visits_root (getD_root h1 h10)).mpr ⟨hg, hn⟩
    exact ⟨_, List.mem_map.mpr ⟨_, hv, rfl⟩, fun r => if_pos rfl⟩

/-- What the jobs update: the nodes of the nine globals and their own `^lasti`. -/
def Known (e : Env) (u : Upd Str Nat Str) : Prop :=
  (∃ h m, (1 ≤ h ∧ h ≤ 9) ∧ (1 ≤ m ∧ m ≤ 250) ∧
    (u = .kill (node e h m) ∨ u = .set (node e h m) (y e m))) ∨ ∃ job loop, u = lasti job loop

theorem Known.plain (h : Known e u) : Plain u := by
  obtain ⟨_, _, _, _, rfl | rfl⟩ | ⟨_, _, rfl⟩ := h <;> exact trivial

theorem Known.other (h : Known e u) (hl : ∀ n, 1 ≤ n ∧ n ≤ 250 → l ≠ [n]) :
    u.at (global e g, l) none = none := by
  obtain ⟨h, m, _, hm, rfl | rfl⟩ | ⟨_, _, rfl⟩ := h
  · exact ite_self _
  · exact if_neg fun heq => hl m hm (congrArg Prod.snd heq).symm
  · exact lasti_at

theorem known_in0 (h1 : 1 ≤ pno) (h10 : pno ≤ 10) (hu : u ∈ in0 e act pno) : Known e u :=
  Or.inl (mem_in0 h1 h10 hu)

theorem mem_loops {body : Nat → List Atom} (h : a ∈ loops iterate body) : ∃ loop, a ∈ body loop := by
  obtain ⟨k, _, hk⟩ := List.mem_flatMap.mp h
  exact ⟨k + 1, hk⟩

section Jobs

theorem lasti_known {job loop : Nat} (hu : u ∈ [lasti job loop]) : Known e u :=
  Or.inr ⟨job, loop, List.mem_singleton.mp hu⟩

theorem known_job1 (ha : a ∈ job1 e iterate) (hu : u ∈ a) : Known e u := by
  obtain ⟨loop, ha⟩ := mem_loops ha
  simp only [each, List.mem_append, List.mem_map, List.mem_singleton] at ha
  obtain (⟨w, hw, rfl⟩ | ⟨w, hw, rfl⟩) | rfl := ha
  · obtain rfl := List.mem_singleton.mp hu
    exact known_in0 (by omega) (by omega) hw
  · obtain rfl := List.mem_singleton.mp hu
    exact known_in0 (by omega) (by omega) hw
  · exact lasti_known hu

/-- An atom of a job that rolls back: nothing, or its `^lasti`. -/
def Quiet (a : Atom) : Prop := a = [] ∨ ∃ job loop, a = [lasti job loop]

structure Fills (e : Env) (a : Atom) : Prop where
  known : ∀ u ∈ a, Known e u
  value : ∀ g n, (1 ≤ g ∧ g ≤ 9) → (1 ≤ n ∧ n ≤ 250) → ∀ r,
    look a (node e g n) r = some (y e n)

theorem quiet_loops {us : Nat → List (Upd Str Nat Str)} {job : Nat}
    (ha : a ∈ loops iterate fun loop => [trollback (us loop), [lasti job loop]]) : Quiet a := by
  obtain ⟨loop, ha⟩ := mem_loops ha
  obtain rfl | ha := List.mem_cons.mp ha
  · exact Or.inl rfl
  · exact Or.inr ⟨job, loop, List.mem_singleton.mp ha⟩

theorem look_lasti {job loop : Nat} : look [lasti job loop] (global e g, l) r = r := lasti_at

theorem fills_commit {kpno spno job loop : Nat} (hk1 : 1 ≤ kpno) (hk : kpno ≤ 10)
    (hs1 : 1 ≤ spno) (hs : spno ≤ 10) :
    Fills e (tcommit (in0 e .kill kpno ++ in0 e .set spno ++ [lasti job loop])) where
  known u hu := by
    obtain hu | hu := List.mem_append.mp hu
    · obtain hu | hu := List.mem_append.mp hu
      · exact known_in0 hk1 hk hu
      · exact known_in0 hs1 hs hu
    · exact lasti_known hu
  value g n hg hn r := by
    rw [tcommit, look_append, look_lasti, look_append, look_set hs1 hs hg hn]

theorem fills_job6 (ha : a ∈ job6 e iterate) : Fills e a := by
  obtain ⟨loop, ha⟩ := mem_loops ha
  obtain rfl := List.mem_singleton.mp ha
  exact fills_commit (by omega) (by omega) (by omega) (by omega)

theorem fills_job7 (ha : a ∈ job7 e iterate) : Fills e a := by
  obtain ⟨loop, ha⟩ := mem_loops ha
  obtain rfl := List.mem_singleton.mp ha
  exact fills_commit (by omega) (by omega) (by omega) (by omega)

theorem look_loops (h1 : 1 ≤ iterate) {body : Nat → List Atom} {x : Node Str Nat} {c : Option Str}
    (hbody : ∀ loop r, look ((body loop).flatMap id) x r = c) :
    look ((loops iterate body).flatMap id) x r = c := by
  obtain ⟨k, rfl⟩ : ∃ k, iterate = k + 1 := ⟨iterate - 1, by omega⟩
  rw [loops, List.range_succ, List.flatMap_append, List.flatMap_append, look_append,
    List.flatMap_singleton, hbody]

theorem flatMap_each (us : List (Upd Str Nat Str)) : (each us).flatMap id = us := by
  rw [each, List.flatMap_id, ← List.flatMap_def, List.flatMap_singleton']

theorem look_job1 (h1 : 1 ≤ iterate) (hg : 1 ≤ g ∧ g ≤ 9) (hn : 1 ≤ n ∧ n ≤ 250) :
    look ((job1 e iterate).flatMap id) (node e g n) r = some (y e n) := by
  refine look_loops h1 fun loop r => ?_
  rw [List.flatMap_append, List.flatMap_append, flatMap_each, flatMap_each, look_append,
    look_append, look_set (by omega) (by omega) hg hn]
  exact look_lasti

theorem look_job6 (h1 : 1 ≤ iterate) (hg : 1 ≤ g ∧ g ≤ 9) (hn : 1 ≤ n ∧ n ≤ 250) :
    look ((job6 e iterate).flatMap id) (node e g n) r = some (y e n) := by
  refine look_loops h1 fun loop r => ?_
  rw [List.flatMap_singleton]
  exact (fills_commit (by omega) (by omega) (by omega) (by omega)).value g n hg hn r

end Jobs

section Mixes

variable {mix : Mix} {k : Nat} {db : Store Str Nat Str}

/-- A job that leaves the nodes with their values: the one without transactions, or else the
first that commits. -/
def leader : Mix → Nat
  | .rinttp1 | .rinttp3 => 1
  | .rinttp2 => 5

theorem others (hk : k ≠ leader mix) (ha : a ∈ thread e iterate mix k) : Quiet a ∨ Fills e a := by
  cases mix with
  | rinttp1 =>
    simp only [thread, thread1] at ha
    split at ha
    · exact absurd rfl hk
    · exact Or.inl (quiet_loops ha)
    · exact Or.inl (quiet_loops ha)
    · exact Or.inl (quiet_loops ha)
    · exact Or.inl (quiet_loops ha)
    · exact absurd ha List.not_mem_nil
  | rinttp2 =>
    simp only [thread, thread2] at ha
    split at ha
    · exact Or.inl (quiet_loops ha)
    · exact Or.inl (quiet_loops ha)
    · exact Or.inl (quiet_loops ha)
    · exact Or.inl (quiet_loops ha)
    · exact absurd rfl hk
    · exact Or.inr (fills_job7 ha)
    · exact absurd ha List.not_mem_nil
  | rinttp3 =>
    simp only [thread, thread3] at ha
    split at ha
    · exact absurd rfl hk
    · exact Or.inl (quiet_loops ha)
    · exact Or.inl (quiet_loops ha)
    · exact Or.inl (quiet_loops ha)
    · exact Or.inl (quiet_loops ha)
    · exact Or.inr (fills_job6 ha)
    · exact Or.inr (fills_job7 ha)
    · exact absurd ha List.not_mem_nil

theorem known_thread (ha : a ∈ thread e iterate mix k) (hu : u ∈ a) : Known e u := by
  by_cases hk : k = leader mix
  · subst hk
    cases mix with
    | rinttp1 | rinttp3 => exact known_job1 ha hu
    | rinttp2 => exact (fills_job6 ha).known u hu
  · obtain (rfl | ⟨job, loop, rfl⟩) | hf := others hk ha
    · exact absurd hu List.not_mem_nil
    · exact lasti_known hu
    · exact hf.known u hu

theorem look_leader (h1 : 1 ≤ iterate) (hg : 1 ≤ g ∧ g ≤ 9) (hn : 1 ≤ n ∧ n ≤ 250) :
    look ((thread e iterate mix (leader mix)).flatMap id) (node e g n) r = some (y e n) := by
  cases mix with
  | rinttp1 | rinttp3 => exact look_job1 h1 hg hn
  | rinttp2 => exact look_job6 h1 hg hn

/-- The jobs of a mix, one step of one of them after the other. -/
abbrev steps (e : Env) (iterate : Nat) (mix : Mix) : Nat → Sys Nat Str Nat Str → Sys Nat Str Nat Str :=
  step id (thread e iterate mix)

theorem right_value (h1 : 1 ≤ iterate) (hg : 1 ≤ g ∧ g ≤ 9) (hn : 1 ≤ n ∧ n ≤ 250) (ks : List Nat)
    (hthrough : Through (thread e iterate mix) (run (steps e iterate mix) (initial db) ks)
      (leader mix)) :
    get (run (steps e iterate mix) (initial db) ks).db (node e g n) = some (y e n) := by
  refine run_leader (w := leader mix) (fun a ha => ?_) (fun j hj a ha => ?_) ks ?_
  · exact decides_plain fun u hu => (known_thread ha hu).plain
  · obtain (rfl | ⟨job, loop, rfl⟩) | hf := others hj ha
    · rfl
    · exact look_lasti
    · exact hf.value g n hg hn _
  · rw [made_through _ _ hthrough]
    exact look_leader h1 hg hn

theorem no_other (hl : ∀ n, 1 ≤ n ∧ n ≤ 250 → l ≠ [n]) (h0 : get db (global e g, l) = none)
    (ks : List Nat) : get (run (steps e iterate mix) (initial db) ks).db (global e g, l) = none :=
  run_keeps (fun _ _ ha => look_keeps fun _ hu => (known_thread ha hu).other hl) h0 ks

/-- Whatever the jobs of a mix do to each other, in the end the nine globals have the nodes 1 to
250 with their values, no others, and `in0^pfill("ver",1)` finds nothing wrong. -/
theorem one_final_state (e : Env) (iterate : Nat) (h1 : 1 ≤ iterate) (mix : Mix)
    (db : Store Str Nat Str)
    (hdb : ∀ g l, (1 ≤ g ∧ g ≤ 9) → get db (global e g, l) ≠ none →
      ∃ n, (1 ≤ n ∧ n ≤ 250) ∧ l = [n])
    (ks : List Nat)
    (hthrough : ∀ k, Through (thread e iterate mix) (run (steps e iterate mix) (initial db) ks) k) :
    (∀ g l v, (1 ≤ g ∧ g ≤ 9) →
      (get (run (steps e iterate mix) (initial db) ks).db (global e g, l) = some v ↔
        ∃ n, (1 ≤ n ∧ n ≤ 250) ∧ l = [n] ∧ v = justify e.utf8 (dec n) 15)) ∧
    in0Fails e 1 (run (steps e iterate mix) (initial db) ks).db = [] := by
  have hvalue : ∀ g n, (1 ≤ g ∧ g ≤ 9) → (1 ≤ n ∧ n ≤ 250) →
      get (run (steps e iterate mix) (initial db) ks).db (node e g n) = some (y e n) :=
    fun g n hg hn => right_value h1 hg hn ks (hthrough _)
  refine ⟨fun g l v hg => ?_, ?_⟩
  · by_cases hl : ∃ n, (1 ≤ n ∧ n ≤ 250) ∧ l = [n]
    · obtain ⟨n, hn, rfl⟩ := hl
      rw [hvalue g n hg hn, Option.some.injEq]
      constructor
      · rintro rfl
        exact ⟨n, hn, rfl, rfl⟩
      · rintro ⟨m, _, hm, rfl⟩
        rw [(List.cons.inj hm).1]
        rfl
    · have hne : ∀ n, 1 ≤ n ∧ n ≤ 250 → l ≠ [n] := fun n hn h => hl ⟨n, hn, h⟩
      have h0 : get db (global e g, l) = none := by
        by_contra h
        exact hl (hdb g l hg h)
      rw [no_other hne h0]
      refine iff_of_false (fun h => by cases h) ?_
      rintro ⟨n, hn, h, _⟩
      exact hne n hn h
  · refine List.filter_eq_nil_iff.mpr fun ⟨g, n⟩ hv => ?_
    obtain ⟨hg, hn⟩ := (mem_visits_root (getD_root (le_refl 1) (by omega))).mp hv
    simp [hvalue g n hg hn]

/-- One iteration of the six jobs of the second mix, on an empty database. -/
theorem one_final_state_mix2 : in0Fails ⟨false, false⟩ 1
    (run (steps ⟨false, false⟩ 1 .rinttp2) (initial []) [1, 2, 3, 1, 2, 4, 6, 3, 4, 5]).db = [] := by
  refine (one_final_state ⟨false, false⟩ 1 (le_refl 1) .rinttp2 [] (fun g l _ h => absurd rfl h)
    [1, 2, 3, 1, 2, 4, 6, 3, 4, 5] fun k => ?_).2
  match k with
  | 1 | 2 | 3 | 4 | 5 | 6 => exact Nat.le_refl _
  | 0 | _ + 7 => exact Nat.zero_le _

end Mixes

end YdbTest.Rinttp
