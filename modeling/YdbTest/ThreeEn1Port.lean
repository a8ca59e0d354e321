import YdbTest.ThreeEn1Simple

namespace YdbTest.ThreeEn1.Simple

open MString CInt Globals Decimal

variable {l : Problem} {db db' : Db} {g : Glb} {s t : Sys} {x x' : Worker}

theorem round_keeps (tmp last current : Int) : (s.round tmp last current).glb = s.glb ∧
    (s.round tmp last current).pc ≠ .done := by
  unfold Sys.round
  split
  · exact ⟨rfl, Pc.noConfusion⟩
  · exact ⟨rfl, Pc.noConfusion⟩

theorem stop_keeps {tmp last current i n : Int} (h : s.stop tmp last current i n = some t) :
    t.glb = s.glb ∧ t.pc ≠ .done := by
  unfold Sys.stop at h
  split at h
  · obtain rfl := Option.some.inj h
    refine ⟨rfl, ?_⟩
    simp only
    split
    · exact Pc.noConfusion
    · exact Pc.noConfusion
  · obtain ⟨c, -, rfl⟩ := Option.map_eq_some_iff.mp h
    exact round_keeps tmp last c

theorem forward_keeps {tmp last current i n : Int} (h : s.forward tmp last current i n = some t) :
    t.glb = s.glb ∧ t.pc ≠ .done := by
  simp only [Sys.forward, Option.bind_eq_bind, Option.bind_eq_some_iff] at h
  obtain ⟨n', -, i', -, h⟩ := h
  obtain rfl := Option.some.inj h
  exact ⟨rfl, Pc.noConfusion⟩

theorem step_reads (h : step s = some t) (hpc : s.pc ≠ .stats) :
    t.glb.reads = s.glb.reads ∧ t.pc ≠ .done := by
  cases hp : s.pc with
  | limits count tmp =>
    simp only [step, hp] at h
    split at h
    · simp only [Option.bind_eq_bind, Option.bind_eq_some_iff] at h
      obtain ⟨tmp', -, next, -, h⟩ := h
      obtain rfl := Option.some.inj h
      exact ⟨rfl, Pc.noConfusion⟩
    · obtain rfl := Option.some.inj h
      exact ⟨rfl, Pc.noConfusion⟩
  | scan tmp =>
    simp only [step, hp, Option.bind_eq_bind, Option.bind_eq_some_iff] at h
    obtain ⟨tmp', -, h⟩ := h
    obtain rfl := Option.some.inj h
    refine ⟨rfl, ?_⟩
    simp only
    split
    · exact Pc.noConfusion
    · exact Pc.noConfusion
  | claim tmp =>
    simp only [step, hp] at h
    split at h
    · obtain rfl := Option.some.inj h
      exact ⟨rfl, Pc.noConfusion⟩
    · simp only [Option.bind_eq_bind, Option.bind_eq_some_iff] at h
      obtain ⟨first, -, value, -, h⟩ := h
      obtain rfl := Option.some.inj h
      refine ⟨?_, (round_keeps _ _ _).2⟩
      rw [(round_keeps _ _ _).1]
  | walk tmp last current i n =>
    simp only [step, hp] at h
    split at h
    · obtain ⟨h1, h2⟩ := stop_keeps h
      exact ⟨by rw [h1], h2⟩
    · obtain ⟨subscr, -, h⟩ := Option.bind_eq_some_iff.mp h
      split at h
      · obtain ⟨h1, h2⟩ := stop_keeps h
        exact ⟨by rw [h1], h2⟩
      · obtain ⟨h1, h2⟩ := forward_keeps h
        exact ⟨by rw [h1], h2⟩
  | known tmp last current i n =>
    simp only [step, hp, Option.bind_eq_bind, Option.bind_eq_some_iff] at h
    obtain ⟨subscr, -, value, -, steps, -, i', -, h⟩ := h
    obtain rfl := Option.some.inj h
    exact ⟨rfl, Pc.noConfusion⟩
  | maximum tmp last current i =>
    simp only [step, hp] at h
    obtain rfl := Option.some.inj h
    refine ⟨?_, Pc.noConfusion⟩
    unfold tp_setmaximum
    simp only
    split
    all_goals
      split
      · rfl
      · rfl
  | store tmp last current i tmp1 =>
    simp only [step, hp] at h
    split at h
    · obtain ⟨c, -, rfl⟩ := Option.map_eq_some_iff.mp h
      exact ⟨by rw [(round_keeps _ _ _).1], (round_keeps _ _ _).2⟩
    · simp only [Option.bind_eq_bind, Option.bind_eq_some_iff] at h
      obtain ⟨subscr, -, value, -, h⟩ := h
      obtain rfl := Option.some.inj h
      exact ⟨rfl, Pc.noConfusion⟩
  | stats => exact absurd hp hpc
  | done =>
    simp only [step, hp] at h
    exact absurd h (Option.some_ne_none _).symm

theorem stats_reads (h : step s = some t) (hpc : s.pc = .stats) :
    t.glb.reads = some (incr s.glb.reads (lit "reads")) := by
  simp only [step, hpc] at h
  obtain rfl := Option.some.inj h
  simp only [tp_gvstatsincr]
  split
  all_goals
    split
    · rfl
    · rfl

theorem reads_of_run {r : Option Str}
    (h : Relation.ReflTransGen (fun s t => step s = some t) s t) (hs : s.glb.reads = r)
    (hpc : s.pc ≠ .done) :
    t.pc = .done ∧ t.glb.reads = some (incr r (lit "reads")) ∨ t.pc ≠ .done ∧ t.glb.reads = r := by
  induction h with
  | refl => exact Or.inr ⟨hpc, hs⟩
  | @tail u t _ hstep ih =>
    obtain ⟨hdone, -⟩ | ⟨-, hread⟩ := ih
    · simp only [step, hdone] at hstep
      exact absurd hstep (Option.some_ne_none _).symm
    · by_cases hstats : u.pc = .stats
      · have hdone : t.pc = .done := by
          simp only [step, hstats] at hstep
          rw [← Option.some.inj hstep]
        exact Or.inl ⟨hdone, by rw [stats_reads hstep hstats, hread]⟩
      · obtain ⟨h1, h2⟩ := step_reads hstep hstats
        exact Or.inr ⟨h2, h1.trans hread⟩

theorem num_dec (n : Nat) : num (dec n) = n := by
  unfold num
  rw [number_dec]
  rfl

theorem incr_name (o : Option Nat) : incr (o.map dec) (lit "reads") = dec (o.getD 0) := by
  have hname : num (lit "reads") = 0 := by decide
  have hold : num ((o.map dec).getD []) = o.getD 0 := by
    cases o with
    | none => decide
    | some r => exact num_dec r
  unfold incr
  rw [hname, hold, Int.add_zero, sprintd, if_neg (by omega), Int.natAbs_natCast]

theorem runs_reads (h : Runs l db g) : g.reads = some (dec (db.reads.getD 0)) := by
  obtain ⟨s, t, hs, hrun, hdone, rfl⟩ := h
  have hstart : s.glb.reads = db.reads.map dec ∧ s.pc ≠ .done := by
    simp only [start, Option.bind_eq_bind, Option.bind_eq_some_iff] at hs
    obtain ⟨i, -, j, -, k, -, blk, -, hs⟩ := hs
    split at hs
    · exact absurd hs (Option.some_ne_none _).symm
    · simp only [Option.bind_eq_some_iff] at hs
      obtain ⟨d, -, d', -, tmp, -, hs⟩ := hs
      obtain rfl := Option.some.inj hs
      exact ⟨rfl, Pc.noConfusion⟩
  obtain ⟨-, hread⟩ | ⟨hne, -⟩ := reads_of_run hrun hstart.1 hstart.2
  · rw [hread, incr_name]
  · exact absurd hdone hne

def Read (x : Worker) (claimed : Nat → Nat) : Prop :=
  match x.pc with
  | .scan tmp => tmp = 0 ∧ claimed 1 = 0 ∨ 0 < x.reads
  | .claim tmp => tmp = 1 ∧ claimed 1 = 0 ∨ 0 < x.reads
  | .walk _ _ _ _ => True
  | _ => 0 < x.reads

theorem limit_one : (l.limit 1).isSome := by
  have hi := l.one_le
  have hj := l.le
  obtain ⟨tmp, -, -, heq⟩ := Problem.limitsFrom_of_lt (show l.i - 1 < l.j by omega)
  rw [Problem.limit, if_neg Nat.one_ne_zero, Problem.limits, heq]
  rfl

theorem advance_read (tmp c : Nat) (h : 0 < x.reads) {claimed : Nat → Nat} {p : Prop} :
    Read (x.advance l tmp c) claimed ∧ (db.reads = db.reads ∧ (x.advance l tmp c).pc ≠ .unlock ∨ p) := by
  unfold Worker.advance
  split
  · exact ⟨trivial, Or.inl ⟨rfl, ThreeEn1.Pc.noConfusion⟩⟩
  · exact ⟨Or.inr h, Or.inl ⟨rfl, ThreeEn1.Pc.noConfusion⟩⟩

theorem work_read (hx : Read x db.claimed) (hw : work l db x = some (db', x')) :
    Read x' db'.claimed ∧ (db'.reads = db.reads ∧ x'.pc ≠ .unlock ∨
      0 < x'.reads ∧ db'.reads = some (db.reads.getD 0 + x'.reads) ∧ x'.pc = .unlock) := by
  unfold Read at hx
  cases hpc : x.pc with
  | decr =>
    rw [hpc] at hx
    simp only [work, hpc] at hw
    obtain ⟨rfl, rfl⟩ := Prod.mk.inj (Option.some.inj hw)
    exact ⟨hx, Or.inl ⟨rfl, ThreeEn1.Pc.noConfusion⟩⟩
  | scan tmp =>
    rw [hpc] at hx
    simp only [work, hpc] at hw
    split at hw
    · obtain ⟨rfl, rfl⟩ := Prod.mk.inj (Option.some.inj hw)
      refine ⟨hx.imp (fun h => ⟨?_, h.2⟩) id, Or.inl ⟨rfl, ThreeEn1.Pc.noConfusion⟩⟩
      rw [h.1]
    · rename_i hnone
      obtain ⟨rfl, rfl⟩ := Prod.mk.inj (Option.some.inj hw)
      refine ⟨hx.resolve_left fun h => hnone ?_, Or.inl ⟨rfl, ThreeEn1.Pc.noConfusion⟩⟩
      rw [h.1]
      exact limit_one
  | claim tmp =>
    rw [hpc] at hx
    simp only [work, hpc] at hw
    split at hw
    · obtain ⟨rfl, rfl⟩ := Prod.mk.inj (Option.some.inj hw)
      exact ⟨trivial, Or.inl ⟨rfl, ThreeEn1.Pc.noConfusion⟩⟩
    · rename_i hone
      obtain ⟨rfl, rfl⟩ := Prod.mk.inj (Option.some.inj hw)
      refine ⟨Or.inr (hx.resolve_left fun h => hone ?_), Or.inl ⟨rfl, ThreeEn1.Pc.noConfusion⟩⟩
      rw [h.1, h.2]
  | walk tmp c p n =>
    simp only [work, hpc] at hw
    split_ifs at hw
    all_goals obtain ⟨rfl, rfl⟩ := Prod.mk.inj (Option.some.inj hw)
    · exact advance_read tmp c (Nat.succ_pos _)
    · exact ⟨Nat.succ_pos _, Or.inl ⟨rfl, ThreeEn1.Pc.noConfusion⟩⟩
    · exact ⟨Nat.succ_pos _, Or.inl ⟨rfl, ThreeEn1.Pc.noConfusion⟩⟩
    · exact ⟨trivial, Or.inl ⟨rfl, ThreeEn1.Pc.noConfusion⟩⟩
  | known tmp c p n =>
    rw [hpc] at hx
    simp only [work, hpc] at hw
    obtain ⟨rfl, rfl⟩ := Prod.mk.inj (Option.some.inj hw)
    exact ⟨hx, Or.inl ⟨rfl, ThreeEn1.Pc.noConfusion⟩⟩
  | maximum tmp c p i =>
    rw [hpc] at hx
    simp only [work, hpc] at hw
    obtain ⟨rfl, rfl⟩ := Prod.mk.inj (Option.some.inj hw)
    refine ⟨hx, Or.inl ⟨?_, ThreeEn1.Pc.noConfusion⟩⟩
    split
    · rfl
    · rfl
  | store tmp c todo =>
    rw [hpc] at hx
    simp only [work, hpc] at hw
    cases todo with
    | nil =>
      obtain ⟨rfl, rfl⟩ := Prod.mk.inj (Option.some.inj hw)
      exact advance_read tmp c hx
    | cons e todo =>
      obtain ⟨rfl, rfl⟩ := Prod.mk.inj (Option.some.inj hw)
      exact ⟨hx, Or.inl ⟨rfl, ThreeEn1.Pc.noConfusion⟩⟩
  | finish =>
    rw [hpc] at hx
    simp only [work, hpc] at hw
    obtain ⟨rfl, rfl⟩ := Prod.mk.inj (Option.some.inj hw)
    refine ⟨hx, Or.inr ⟨hx, ?_, rfl⟩⟩
    unfold Db.statistics
    simp only
    split_ifs
    all_goals rfl
  | absent | lockL2 | lockL1 | unlock | done =>
    simp only [work, hpc] at hw
    exact absurd hw (Option.some_ne_none _).symm

theorem works_reads (h : Works l db db') : ∃ n, 0 < n ∧ db'.reads = some (db.reads.getD 0 + n) := by
  obtain ⟨x, hrun, hpc⟩ := h
  have hinv : ∀ t : Db × Worker, Relation.ReflTransGen
      (fun (s t : Db × Worker) => work l s.1 s.2 = some t)
      ((ThreeEn1.start db).db, { Worker.new with pc := .scan 0 }) t →
      t.2.pc = .unlock ∧ (∃ n, 0 < n ∧ t.1.reads = some (db.reads.getD 0 + n)) ∨
        Read t.2 t.1.claimed ∧ t.1.reads = db.reads ∧ t.2.pc ≠ .unlock := by
    intro t ht
    induction ht with
    | refl => exact Or.inr ⟨Or.inl ⟨rfl, rfl⟩, rfl, ThreeEn1.Pc.noConfusion⟩
    | @tail u t _ hstep ih =>
      obtain ⟨hdone, -⟩ | ⟨hread, hreads, -⟩ := ih
      · simp only [work, hdone] at hstep
        exact absurd hstep (Option.some_ne_none _).symm
      · obtain ⟨hr, ⟨he, hne⟩ | ⟨hpos, he, hun⟩⟩ := work_read hread hstep
        · exact Or.inr ⟨hr, he.trans hreads, hne⟩
        · exact Or.inl ⟨hun, t.2.reads, hpos, by rw [he, hreads]⟩
  obtain ⟨-, hn⟩ | ⟨-, -, hne⟩ := hinv (db', x) hrun
  · exact hn
  · exact absurd hpc hne

/-- On no line do the two programs leave the same database. -/
theorem simpleapi_differs (hm : Works l db db') (hc : Runs l db g) : ¬ Same db' g := by
  intro hsame
  obtain ⟨n, hpos, hn⟩ := works_reads hm
  have heq := hsame.reads
  rw [runs_reads hc, hn] at heq
  have := dec_injective (Option.some.inj heq)
  omega

def steps {α : Type} (f : α → Option α) : Nat → α → Option α
  | 0, a => some a
  | n + 1, a => (f a).bind (steps f n)

theorem steps_run {α : Type} {f : α → Option α} {n : Nat} {a b : α} (h : steps f n a = some b) :
    Relation.ReflTransGen (fun a b => f a = some b) a b := by
  induction n generalizing a with
  | zero => exact Option.some.inj h ▸ Relation.ReflTransGen.refl
  | succ n ih =>
    obtain ⟨c, hc, hb⟩ := Option.bind_eq_some_iff.mp h
    exact Relation.ReflTransGen.head hc (ih hb)

theorem exists_works (l : Problem) (db : Db) (n : Nat) {α : Type} (f : Db → α) {v : α}
    (h : (steps (fun (s : Db × Worker) => work l s.1 s.2) n
      ((ThreeEn1.start db).db, { Worker.new with pc := .scan 0 })).map
        (fun t => (t.2.pc, f t.1)) = some (.unlock, v)) : ∃ db', Works l db db' ∧ f db' = v := by
  obtain ⟨⟨db', x⟩, hrun, heq⟩ := Option.map_eq_some_iff.mp h
  obtain ⟨hpc, hv⟩ := Prod.mk.inj heq
  exact ⟨db', ⟨x, steps_run hrun, hpc⟩, hv⟩

theorem exists_runs (l : Problem) (db : Db) (n : Nat) {α : Type} (f : Glb → α) {v : α}
    (h : ((start l db).bind (steps step n)).map (fun t => (t.pc, f t.glb)) = some (.done, v)) :
    ∃ g, Runs l db g ∧ f g = v := by
  obtain ⟨t, hrun, heq⟩ := Option.map_eq_some_iff.mp h
  obtain ⟨s, hs, hrun⟩ := Option.bind_eq_some_iff.mp hrun
  obtain ⟨hpc, hv⟩ := Prod.mk.inj heq
  exact ⟨t.glb, ⟨s, t, hs, steps_run hrun, hpc, rfl⟩, hv⟩

theorem simpleapi_differs_one_two : ∃ db' g, Works oneTwo newDb db' ∧ Runs oneTwo newDb g ∧
    ¬ Same db' g := by
  obtain ⟨db', hm, -⟩ := exists_works oneTwo newDb 10 (fun _ => true)
    (v := true) (by decide +kernel)
  obtain ⟨g, hc, -⟩ := exists_runs oneTwo newDb 12 (fun _ => true)
    (v := true) (by decide +kernel)
  exact ⟨db', g, hm, hc, simpleapi_differs hm hc⟩

/-- The range from 1 to 2: the same table and the same result, and no other value. -/
theorem one_two_differs : ∃ db' g, Works oneTwo newDb db' ∧ Runs oneTwo newDb g ∧
    db'.highest = some 1 ∧ g.highest = some (dec 2) ∧ db'.reads = some 3 ∧
    g.reads = some (dec 0) ∧ db'.updates = some 1 ∧ g.updates = some (dec 0) ∧ ¬ Same db' g := by
  obtain ⟨db', hm, hv⟩ := exists_works oneTwo newDb 10
    (fun db => (db.highest, db.reads, db.updates)) (v := (some 1, some 3, some 1))
    (by decide +kernel)
  obtain ⟨g, hc, hg⟩ := exists_runs oneTwo newDb 12
    (fun g => (g.highest, g.reads, g.updates))
    (v := (some (dec 2), some (dec 0), some (dec 0))) (by decide +kernel)
  simp only [Prod.mk.injEq] at hv hg
  refine ⟨db', g, hm, hc, hv.1, hg.1, hv.2.1, hg.2.1, hv.2.2, hg.2.2, fun hsame => ?_⟩
  have heq := hsame.highest
  rw [hv.1, hg.1] at heq
  exact absurd heq (by decide)

end YdbTest.ThreeEn1.Simple
