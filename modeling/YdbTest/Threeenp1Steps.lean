import YdbTest.Claims
import YdbTest.Threeenp1Blocks
import YdbTest.ThreeEn1Answer

namespace YdbTest.Threeenp1

open Function Orbits
open ThreeEn1 (collatz)

/-- What is reached from a number on the way to 1, by a step at least. -/
abbrev Reached : Nat → Nat → Prop := Walked collatz 1 fun _ => False

def InRange (l : Line) (c : Nat) : Prop := 1 ≤ c ∧ c ≤ l.endnum

def members (limits : Nat → Option Nat) (index : Nat) : List Nat :=
  List.range' (before limits index + 1) ((limits index).getD 0 - before limits index)

/-- What holds of the globals; `B` are the numbers up to the highest one that any worker has
seen. -/
structure Globals (l : Line) (B : Nat → Prop) (db : Db) : Prop where
  cut : ∃ k b, Cut db.limits l.endnum k b
  counted : ∀ t, db.claimed t ≠ 0 → db.limits t ≠ none
  sound : ∀ n k, db.step n = some k → Steps collatz 1 n k
  resultLow : ∀ n k, db.step n = some k → k ≤ db.result.getD 0
  resultUp : db.result.getD 0 = 0 ∨
    ∃ c k, InRange l c ∧ Steps collatz 1 c k ∧ db.result = some k
  highLow : ∀ n v, db.step n ≠ none → Reached n v → B v
  highUp : db.highest.getD 0 = 0 ∨ ∃ c v, InRange l c ∧ Reached c v ∧ db.highest = some v

/-- `current` is in the block. -/
structure InBlock (limits : Nat → Option Nat) (index blkend current : Nat) : Prop where
  last : limits index = some blkend
  first : before limits index < current
  le : current ≤ blkend

/-- The way from `current` to `n`, with nothing above the highest number after `current`. -/
structure Going (limits : Nat → Option Nat) (highest : Nat) (currpath : List Nat)
    (index blkend current n : Nat) : Prop where
  block : InBlock limits index blkend current
  leads : Leads collatz 1 (fun _ => False) current currpath n
  tail : ∀ m ∈ currpath.tail, m ≤ highest
  last : currpath ≠ [] → n ≤ highest

structure Way (B : Nat → Prop) (current i : Nat) (currpath : List Nat) : Prop where
  mem : current ∈ currpath
  steps : Steps collatz 1 current i
  rest : ∀ m j, (m, j) ∈ currpath.zipIdx → Steps collatz 1 m (i - j)
  bound : ∀ m ∈ currpath, ∀ v, Reached m v → B v

def Place (B : Nat → Prop) (db : Db) (lcl : Lcl) : Pc → Prop
  | .claim index | .fetch index => db.limits index ≠ none
  | .walk index blkend current n =>
      Going db.limits lcl.highest lcl.currpath index blkend current n
  | .known index blkend current n =>
      Going db.limits lcl.highest lcl.currpath index blkend current n ∧
        lcl.currpath ≠ [] ∧ db.step n ≠ none
  | .maximum index blkend current i => InBlock db.limits index blkend current ∧
      Way B current i lcl.currpath
  | .store index blkend current i n => InBlock db.limits index blkend current ∧
      Way B current i lcl.currpath ∧ i ≤ db.result.getD 0 ∧
      ∀ m ∈ lcl.currpath.take n, db.step m ≠ none
  | .done => lcl.highest ≤ db.highest.getD 0
  | _ => True

/-- The numbers of its blocks are what a worker has dealt with, up to `current` in the last. -/
def Share (limits : Nat → Option Nat) (x : Worker) (index current : Nat) : Prop :=
  ∃ bs, x.blocks = bs ++ [index] ∧ x.processed = bs.flatMap (members limits) ++
    List.range' (before limits index + 1) (current - (before limits index + 1))

def Shared (limits : Nat → Option Nat) (x : Worker) : Prop :=
  match x.pc with
  | .fetch index => Share limits x index (before limits index + 1)
  | .walk index _ current _ | .known index _ current _ | .maximum index _ current _
  | .store index _ current _ _ => Share limits x index current
  | .panicked => True
  | _ => x.processed = x.blocks.flatMap (members limits)

/-- The blocks that have been counted up, as far as a worker knows that began at `w`. -/
def Passed (w : Nat) (db : Db) : Pc → Prop
  | .scan index | .fetch index | .walk index _ _ _ | .known index _ _ _ | .maximum index _ _ _
  | .store index _ _ _ _ => ∀ t, w < t → t ≤ index → db.claimed t ≠ 0
  | .claim index => ∀ t, w < t → t < index → db.claimed t ≠ 0
  | .finish | .done => ∀ t, w < t → db.limits t ≠ none → db.claimed t ≠ 0
  | .init | .panicked => True

/-- The invariant of the worker that began at `w`. -/
structure Job (l : Line) (w : Nat) (B : Nat → Prop) (s : View) : Prop where
  high : s.worker.pc = .init ∨ s.worker.pc = .panicked ∨ s.lcl.highest = 0 ∨
    ∃ c, InRange l c ∧ Reached c s.lcl.highest
  place : Place B s.db s.lcl s.worker.pc
  taken : ∀ t ∈ s.worker.blocks, s.db.limits t ≠ none
  shared : Shared s.db.limits s.worker
  solved : ∀ c ∈ s.worker.processed, c = 1 ∨ s.db.step c ≠ none
  passed : Passed w s.db s.worker.pc

structure Grows (db db' : Db) : Prop where
  limits : db'.limits = db.limits
  claimed : ∀ t, db.claimed t ≠ 0 → db'.claimed t ≠ 0
  known : ∀ n, db.step n ≠ none → db'.step n ≠ none
  result : db.result.getD 0 ≤ db'.result.getD 0
  highest : db.highest.getD 0 ≤ db'.highest.getD 0

variable {l : Line} {w : Nat} {B B' : Nat → Prop} {db db' : Db} {s s' : View} {lcl : Lcl} {pc : Pc}
  {limits : Nat → Option Nat} {index blkend current i k n m v : Nat} {p : List Nat}

theorem next_eq (n : Nat) : next n = collatz n := by
  unfold next collatz
  rw [Nat.and_one_is_mod]
  exact if_congr eq_comm rfl rfl

theorem Grows.refl (db : Db) : Grows db db :=
  ⟨rfl, fun _ h => h, fun _ h => h, Nat.le_refl _, Nat.le_refl _⟩

theorem Globals.mono (h : Globals l B db) (hB : ∀ v, B v → B' v) : Globals l B' db :=
  { h with highLow := fun n v hn hv => hB v (h.highLow n v hn hv) }

theorem Way.mono (h : Way B current i p) (hB : ∀ v, B v → B' v) : Way B' current i p :=
  { h with bound := fun m hm v hv => hB v (h.bound m hm v hv) }

theorem Place.mono (h : Place B db lcl pc) (hB : ∀ v, B v → B' v) (hg : Grows db db') :
    Place B' db' lcl pc := by
  cases pc with
  | claim index | fetch index =>
    rw [Place, hg.limits]
    exact h
  | walk index blkend current n =>
    rw [Place, hg.limits]
    exact h
  | known index blkend current n =>
    rw [Place, hg.limits]
    exact ⟨h.1, h.2.1, hg.known n h.2.2⟩
  | maximum index blkend current i =>
    rw [Place, hg.limits]
    exact ⟨h.1, h.2.mono hB⟩
  | store index blkend current i n =>
    rw [Place, hg.limits]
    obtain ⟨hb, hw, hi, hn⟩ := h
    exact ⟨hb, hw.mono hB, hi.trans hg.result, fun m hm => hg.known m (hn m hm)⟩
  | done => exact Nat.le_trans h hg.highest
  | init | scan index | finish | panicked => trivial

theorem Passed.mono (h : Passed w db pc) (hg : Grows db db') : Passed w db' pc := by
  cases pc with
  | init | panicked => trivial
  | finish | done =>
    intro t ht hl
    rw [hg.limits] at hl
    exact hg.claimed t (h t ht hl)
  | _ => exact fun t ht hle => hg.claimed t (h t ht hle)

theorem Job.mono (h : Job l w B s) (hB : ∀ v, B v → B' v) (hg : Grows s.db db') :
    Job l w B' { s with db := db' } where
  high := h.high
  place := h.place.mono hB hg
  taken := by
    rw [hg.limits]
    exact h.taken
  shared := by
    rw [hg.limits]
    exact h.shared
  solved c hc := (h.solved c hc).imp_right (hg.known c)
  passed := h.passed.mono hg

theorem InBlock.inRange (hg : Globals l B db) (h : InBlock db.limits index blkend current) :
    InRange l current := by
  obtain ⟨k, b, hcut⟩ := hg.cut
  exact ⟨Nat.lt_of_le_of_lt (Nat.zero_le _) h.first, h.le.trans (hcut.range h.last).2⟩

/-- What holds once the steps from `n`, where the way has come to, are known. -/
theorem Going.way {highest : Nat} (h : Going limits highest p index blkend current n)
    (hp : p ≠ []) (hk : Steps collatz 1 n k) (hB : ∀ v ≤ highest, B v)
    (hn : ∀ v, Reached n v → B v) : Way B current (p.length + k) p := by
  obtain ⟨hsteps, hrest⟩ := h.leads.steps hk
  refine ⟨h.leads.head_mem hp, hsteps, hrest, ?_⟩
  exact h.leads.bound (fun m hm => hB m (h.tail m hm)) (fun hp => hB n (h.last hp)) hn

theorem known_pos (hg : Globals l B db) (h : db.step n ≠ none) : n ≠ 0 := by
  rintro rfl
  obtain ⟨k, hk⟩ := Option.ne_none_iff_exists'.mp h
  have hfix : collatz^[k] 0 = 0 := iterate_fixed rfl k
  exact absurd (hfix.symm.trans (hg.sound 0 k hk).1) (by decide)

structure Moved (l : Line) (w : Nat) (B : Nat → Prop) (s s' : View) : Prop where
  globals : Globals l B s'.db
  job : Job l w B s'
  grows : Grows s.db s'.db
  takes : s'.db.claimed = s.db.claimed ∧ s'.worker.blocks = s.worker.blocks ∨
    ∃ t, s'.db.claimed = update s.db.claimed t (s.db.claimed t + 1) ∧
      s'.worker.blocks =
        if s.db.claimed t = 0 then s.worker.blocks ++ [t] else s.worker.blocks
  high : s.worker.pc ≠ .init → s.lcl.highest ≤ s'.lcl.highest
  started : s'.worker.pc ≠ .init

theorem still (hg : Globals l B s.db) (hdb : s'.db = s.db)
    (hb : s'.worker.blocks = s.worker.blocks) (hj : Job l w B s')
    (hh : s.worker.pc ≠ .init → s.lcl.highest ≤ s'.lcl.highest)
    (hs : s'.worker.pc ≠ .init) : Moved l w B s s' where
  globals := hdb ▸ hg
  job := hj
  grows := hdb ▸ Grows.refl s.db
  takes := Or.inl ⟨congrArg Db.claimed hdb, hb⟩
  high := hh
  started := hs

namespace View

theorem turn_db : (s.turn index blkend current).db = s.db := by
  unfold turn
  split
  all_goals rfl

theorem turn_blocks : (s.turn index blkend current).worker.blocks = s.worker.blocks := by
  unfold turn
  split
  all_goals rfl

theorem turn_highest : (s.turn index blkend current).lcl.highest = s.lcl.highest := by
  unfold turn
  split
  all_goals rfl

theorem turn_started : (s.turn index blkend current).worker.pc ≠ .init := by
  unfold turn
  split
  all_goals exact Pc.noConfusion

end View

theorem members_of_last (h : limits index = some blkend) : members limits index =
    List.range' (before limits index + 1) (blkend + 1 - (before limits index + 1)) := by
  rw [members, h, Nat.add_sub_add_right]
  rfl

theorem turn_job (hhigh : s.lcl.highest = 0 ∨ ∃ c, InRange l c ∧ Reached c s.lcl.highest)
    (htaken : ∀ t ∈ s.worker.blocks, s.db.limits t ≠ none)
    (hsolved : ∀ c ∈ s.worker.processed, c = 1 ∨ s.db.step c ≠ none)
    (hlast : s.db.limits index = some blkend) (hfirst : before s.db.limits index < current)
    (hle : current ≤ blkend + 1) (hshare : Share s.db.limits s.worker index current)
    (hpassed : ∀ t, w < t → t ≤ index → s.db.claimed t ≠ 0) :
    Job l w B (s.turn index blkend current) := by
  unfold View.turn
  split
  · rename_i hcur
    refine ⟨Or.inr (Or.inr hhigh), ?_, htaken, hshare, hsolved, hpassed⟩
    refine ⟨⟨hlast, hfirst, hcur⟩, Leads.nil, ?_, fun hne => absurd rfl hne⟩
    exact fun m hm => absurd hm List.not_mem_nil
  · rename_i hcur
    obtain rfl : current = blkend + 1 := by omega
    refine ⟨Or.inr (Or.inr hhigh), trivial, htaken, ?_, hsolved, hpassed⟩
    obtain ⟨bs, hb, hp⟩ := hshare
    change s.worker.processed = s.worker.blocks.flatMap (members s.db.limits)
    rw [hp, hb, List.flatMap_append, List.flatMap_singleton, members_of_last hlast]

theorem endTurn_job (hhigh : s.lcl.highest = 0 ∨ ∃ c, InRange l c ∧ Reached c s.lcl.highest)
    (htaken : ∀ t ∈ s.worker.blocks, s.db.limits t ≠ none)
    (hsolved : ∀ c ∈ s.worker.processed, c = 1 ∨ s.db.step c ≠ none)
    (hblock : InBlock s.db.limits index blkend current)
    (hshare : Share s.db.limits s.worker index current)
    (hpassed : ∀ t, w < t → t ≤ index → s.db.claimed t ≠ 0)
    (hc : current = 1 ∨ s.db.step current ≠ none) :
    Job l w B (s.endTurn index blkend current) := by
  have hfirst := hblock.first
  have hle := hblock.le
  refine turn_job hhigh htaken ?_ hblock.last (by dsimp only; omega) (by omega) ?_ hpassed
  · intro c hmem
    obtain hmem | hmem := List.mem_append.mp hmem
    · exact hsolved c hmem
    · rwa [List.mem_singleton.mp hmem]
  · obtain ⟨bs, hb, hp⟩ := hshare
    refine ⟨bs, hb, ?_⟩
    have hlen : current + 1 - (before s.db.limits index + 1) =
        current - (before s.db.limits index + 1) + 1 := by omega
    have hend : before s.db.limits index + 1 + (current - (before s.db.limits index + 1)) =
        current := by omega
    dsimp only
    rw [hp, List.append_assoc, hlen, List.range'_1_concat, hend]

section Work

variable (hg : Globals l B s.db) (hj : Job l w B s)

include hj in
theorem high_of (h0 : s.worker.pc ≠ .init) (h1 : s.worker.pc ≠ .panicked) :
    s.lcl.highest = 0 ∨ ∃ c, InRange l c ∧ Reached c s.lcl.highest :=
  (hj.high.resolve_left h0).resolve_left h1

theorem panicked_job (htaken : ∀ t ∈ s.worker.blocks, s.db.limits t ≠ none)
    (hsolved : ∀ c ∈ s.worker.processed, c = 1 ∨ s.db.step c ≠ none) :
    Job l w B (s.goto .panicked) :=
  ⟨Or.inr (Or.inl rfl), trivial, htaken, trivial, hsolved, trivial⟩

include hg hj

theorem init_moved (hpc : s.worker.pc = .init) (hw : s.work w = some s') : Moved l w B s s' := by
  have hshared := hj.shared
  rw [Shared, hpc] at hshared
  simp only [View.work, hpc] at hw
  split at hw
  · obtain rfl := Option.some.inj hw
    refine still hg rfl rfl (panicked_job hj.taken hj.solved) (fun h => absurd hpc h) ?_
    exact Pc.noConfusion
  · obtain rfl := Option.some.inj hw
    refine still hg rfl rfl ?_ (fun h => absurd hpc h) Pc.noConfusion
    refine ⟨Or.inr (Or.inr (Or.inl rfl)), trivial, hj.taken, hshared, hj.solved, ?_⟩
    intro t ht hle
    omega

theorem scan_moved (hpc : s.worker.pc = .scan index) (hw : s.work w = some s') :
    Moved l w B s s' := by
  have hhigh := high_of hj (by rw [hpc]; exact Pc.noConfusion) (by rw [hpc]; exact Pc.noConfusion)
  have hshared := hj.shared
  have hpassed := hj.passed
  rw [Shared, hpc] at hshared
  rw [hpc] at hpassed
  simp only [View.work, hpc] at hw
  split at hw
  · obtain rfl := Option.some.inj hw
    refine still hg rfl rfl (panicked_job hj.taken hj.solved) (fun _ => Nat.le_refl _) ?_
    exact Pc.noConfusion
  split at hw
  · rename_i hnone
    obtain rfl := Option.some.inj hw
    refine still hg rfl rfl ?_ (fun _ => Nat.le_refl _) Pc.noConfusion
    refine ⟨Or.inr (Or.inr hhigh), trivial, hj.taken, hshared, hj.solved, fun t ht hl => ?_⟩
    obtain ⟨k, b, hcut⟩ := hg.cut
    refine hpassed t ht (Nat.not_lt.mp fun hlt => ?_)
    have hsome := hcut.isSome_of_le (Option.isSome_iff_ne_none.mpr hl) (Nat.succ_pos index) hlt
    rw [hnone.1] at hsome
    cases hsome
  · rename_i hsome
    obtain rfl := Option.some.inj hw
    refine still hg rfl rfl ?_ (fun _ => Nat.le_refl _) Pc.noConfusion
    refine ⟨Or.inr (Or.inr hhigh), ?_, hj.taken, hshared, hj.solved, fun t ht hlt => ?_⟩
    · exact fun hnone => hsome ⟨hnone, not_not.mp fun hc => hg.counted _ hc hnone⟩
    · exact hpassed t ht (Nat.le_of_lt_succ hlt)

theorem claim_moved (hpc : s.worker.pc = .claim index) (hw : s.work w = some s') :
    Moved l w B s s' := by
  have hhigh := high_of hj (by rw [hpc]; exact Pc.noConfusion) (by rw [hpc]; exact Pc.noConfusion)
  have hplace := hj.place
  have hshared := hj.shared
  have hpassed := hj.passed
  rw [hpc] at hplace hpassed
  rw [Shared, hpc] at hshared
  have hgrows : Grows s.db { s.db with
      claimed := update s.db.claimed index (s.db.claimed index + 1) } :=
    { Grows.refl s.db with claimed := fun t ht => Claims.counted_iff.mpr (Or.inr ht) }
  have hglobals : Globals l B { s.db with
      claimed := update s.db.claimed index (s.db.claimed index + 1) } :=
    { hg with
      counted := fun t ht => (Claims.counted_iff.mp ht).elim (fun h => h ▸ hplace) (hg.counted t) }
  have hup : ∀ t, w < t → t ≤ index →
      update s.db.claimed index (s.db.claimed index + 1) t ≠ 0 := by
    intro t ht hle
    obtain rfl | hlt := Nat.eq_or_lt_of_le hle
    · exact Claims.counted_iff.mpr (Or.inl rfl)
    · exact Claims.counted_iff.mpr (Or.inr (hpassed t ht hlt))
  simp only [View.work, hpc] at hw
  split at hw
  · rename_i hne
    have h0 : s.db.claimed index ≠ 0 := by omega
    obtain rfl := Option.some.inj hw
    refine ⟨hglobals, ⟨Or.inr (Or.inr hhigh), trivial, hj.taken, hshared, hj.solved, hup⟩, hgrows,
      Or.inr ⟨index, rfl, (if_neg h0).symm⟩, fun _ => Nat.le_refl _, Pc.noConfusion⟩
  · rename_i hone
    have h0 : s.db.claimed index = 0 := by omega
    obtain rfl := Option.some.inj hw
    refine ⟨hglobals, ⟨Or.inr (Or.inr hhigh), hplace, ?_, ?_, hj.solved, hup⟩, hgrows,
      Or.inr ⟨index, rfl, (if_pos h0).symm⟩, fun _ => Nat.le_refl _, Pc.noConfusion⟩
    · intro t ht
      obtain ht | ht := List.mem_append.mp ht
      · exact hj.taken t ht
      · exact List.mem_singleton.mp ht ▸ hplace
    · refine ⟨s.worker.blocks, rfl, ?_⟩
      rw [Nat.sub_self, List.range'_zero, List.append_nil]
      exact hshared

theorem fetch_moved (hpc : s.worker.pc = .fetch index) (hw : s.work w = some s') :
    Moved l w B s s' := by
  have hhigh := high_of hj (by rw [hpc]; exact Pc.noConfusion) (by rw [hpc]; exact Pc.noConfusion)
  have hplace := hj.place
  have hshared := hj.shared
  have hpassed := hj.passed
  rw [hpc] at hplace hpassed
  rw [Shared, hpc] at hshared
  obtain ⟨e, he⟩ := Option.ne_none_iff_exists'.mp hplace
  obtain ⟨k, b, hcut⟩ := hg.cut
  simp only [View.work, hpc, he, Option.getD_some] at hw
  obtain rfl := Option.some.inj hw
  refine still hg View.turn_db View.turn_blocks ?_ (fun _ => ?_) View.turn_started
  · have hlt := (hcut.range he).1
    exact turn_job hhigh hj.taken hj.solved he (Nat.lt_succ_self _) (by omega) hshared hpassed
  · rw [View.turn_highest]

theorem walk_moved (hpc : s.worker.pc = .walk index blkend current n)
    (hw : s.work w = some s') (hB : ∀ v ≤ s'.lcl.highest, B v) : Moved l w B s s' := by
  have hhigh := high_of hj (by rw [hpc]; exact Pc.noConfusion) (by rw [hpc]; exact Pc.noConfusion)
  have hgo := hj.place
  have hshared := hj.shared
  have hpassed := hj.passed
  rw [hpc] at hgo hpassed
  rw [Shared, hpc] at hshared
  rw [Place] at hgo
  simp only [View.work, hpc] at hw
  split at hw
  · obtain rfl := Option.some.inj hw
    refine still hg rfl rfl (panicked_job hj.taken hj.solved) (fun _ => Nat.le_refl _) ?_
    exact Pc.noConfusion
  split at hw
  · rename_i hstop
    split at hw
    · rename_i hlen
      have hp : s.lcl.currpath ≠ [] := List.length_pos_iff.mp hlen
      split at hw
      · rename_i hn
        obtain rfl := Option.some.inj hw
        refine still hg rfl rfl ?_ (fun _ => Nat.le_refl _) Pc.noConfusion
        exact ⟨Or.inr (Or.inr hhigh), ⟨hgo, hp, hstop.resolve_right (by omega)⟩, hj.taken,
          hshared, hj.solved, hpassed⟩
      · rename_i hn
        have h1 : n = 1 := by
          have h0 := known_pos hg (n := n)
          have : n ≠ 0 ∨ 1 = n := hstop.imp_left h0
          omega
        subst h1
        obtain rfl := Option.some.inj hw
        refine still hg rfl rfl ?_ (fun _ => Nat.le_refl _) Pc.noConfusion
        refine ⟨Or.inr (Or.inr hhigh), ⟨hgo.block, ?_⟩, hj.taken, hshared, hj.solved, hpassed⟩
        exact hgo.way hp steps_self hB fun v hv => absurd rfl (walked_iff.mp hv).1
    · rename_i hlen
      have hp : s.lcl.currpath = [] := List.length_eq_zero_iff.mp (Nat.eq_zero_of_not_pos hlen)
      have hn : n = current := leads_nil (hp ▸ hgo.leads)
      obtain rfl := Option.some.inj hw
      refine still hg View.turn_db View.turn_blocks ?_ (fun _ => ?_) View.turn_started
      · refine endTurn_job hhigh hj.taken hj.solved hgo.block hshared hpassed ?_
        rw [← hn]
        exact hstop.symm.imp_left Eq.symm
      · rw [View.endTurn, View.turn_highest]
  · rename_i hstop
    have hnot := not_or.mp hstop
    have hn : n ≠ 1 := fun h => hnot.2 h.symm
    have hleads := hgo.leads.snoc hn id
    rw [← next_eq] at hleads
    have htail : ∀ m ∈ (s.lcl.currpath ++ [n]).tail, m ≤ s.lcl.highest := by
      intro m hm
      by_cases hp : s.lcl.currpath = []
      · rw [hp] at hm
        exact absurd hm List.not_mem_nil
      · rw [List.tail_append_of_ne_nil hp] at hm
        obtain hm | hm := List.mem_append.mp hm
        · exact hgo.tail m hm
        · exact List.mem_singleton.mp hm ▸ hgo.last hp
    split at hw
    · rename_i hgt
      obtain rfl := Option.some.inj hw
      refine still hg rfl rfl ?_ (fun _ => Nat.le_of_lt hgt) Pc.noConfusion
      refine ⟨Or.inr (Or.inr (Or.inr ⟨current, hgo.block.inRange hg, ?_⟩)),
        ⟨hgo.block, hleads, ?_, fun _ => Nat.le_refl _⟩, hj.taken, hshared, hj.solved, hpassed⟩
      · exact hleads.walked (List.append_ne_nil_of_right_ne_nil _ (List.cons_ne_nil n []))
      · exact fun m hm => (htail m hm).trans (Nat.le_of_lt hgt)
    · rename_i hgt
      obtain rfl := Option.some.inj hw
      refine still hg rfl rfl ?_ (fun _ => Nat.le_refl _) Pc.noConfusion
      exact ⟨Or.inr (Or.inr hhigh), ⟨hgo.block, hleads, htail, fun _ => Nat.not_lt.mp hgt⟩,
        hj.taken, hshared, hj.solved, hpassed⟩

theorem known_moved (hpc : s.worker.pc = .known index blkend current n)
    (hw : s.work w = some s') (hB : ∀ v ≤ s'.lcl.highest, B v) : Moved l w B s s' := by
  have hhigh := high_of hj (by rw [hpc]; exact Pc.noConfusion) (by rw [hpc]; exact Pc.noConfusion)
  have hplace := hj.place
  have hshared := hj.shared
  have hpassed := hj.passed
  rw [hpc] at hplace hpassed
  rw [Shared, hpc] at hshared
  obtain ⟨hgo, hp, hk⟩ := hplace
  obtain ⟨k, hk'⟩ := Option.ne_none_iff_exists'.mp hk
  simp only [View.work, hpc, hk', Option.getD_some] at hw
  obtain rfl := Option.some.inj hw
  refine still hg rfl rfl ?_ (fun _ => Nat.le_refl _) Pc.noConfusion
  refine ⟨Or.inr (Or.inr hhigh), ⟨hgo.block, ?_⟩, hj.taken, hshared, hj.solved, hpassed⟩
  exact hgo.way hp (hg.sound n k hk') hB fun v hv => hg.highLow n v hk hv

theorem maximum_moved (hpc : s.worker.pc = .maximum index blkend current i)
    (hw : s.work w = some s') : Moved l w B s s' := by
  have hhigh := high_of hj (by rw [hpc]; exact Pc.noConfusion) (by rw [hpc]; exact Pc.noConfusion)
  have hplace := hj.place
  have hshared := hj.shared
  have hpassed := hj.passed
  rw [hpc] at hplace hpassed
  rw [Shared, hpc] at hshared
  obtain ⟨hb, hway⟩ := hplace
  have htake : ∀ m ∈ s.lcl.currpath.take 0, s.db.step m ≠ none :=
    fun m hm => absurd hm List.not_mem_nil
  simp only [View.work, hpc, View.maximum] at hw
  obtain rfl := Option.some.inj hw
  split
  · rename_i hi
    have hgrows : Grows s.db { s.db with result := some i } :=
      { Grows.refl s.db with result := Nat.le_of_lt hi }
    refine ⟨{ hg with
        resultLow := fun n k hk => (hg.resultLow n k hk).trans (Nat.le_of_lt hi)
        resultUp := Or.inr ⟨current, i, hb.inRange hg, hway.steps, rfl⟩ }, ?_, hgrows,
      Or.inl ⟨rfl, rfl⟩, fun _ => Nat.le_refl _, Pc.noConfusion⟩
    exact ⟨Or.inr (Or.inr hhigh), ⟨hb, hway, Nat.le_refl _, htake⟩, hj.taken, hshared, hj.solved,
      hpassed⟩
  · rename_i hi
    refine still hg rfl rfl ?_ (fun _ => Nat.le_refl _) Pc.noConfusion
    exact ⟨Or.inr (Or.inr hhigh), ⟨hb, hway, Nat.not_lt.mp hi, htake⟩, hj.taken, hshared,
      hj.solved, hpassed⟩

theorem store_moved (hpc : s.worker.pc = .store index blkend current i n)
    (hw : s.work w = some s') : Moved l w B s s' := by
  have hhigh := high_of hj (by rw [hpc]; exact Pc.noConfusion) (by rw [hpc]; exact Pc.noConfusion)
  have hplace := hj.place
  have hshared := hj.shared
  have hpassed := hj.passed
  rw [hpc] at hplace hpassed
  rw [Shared, hpc] at hshared
  obtain ⟨hb, hway, hi, htake⟩ := hplace
  simp only [View.work, hpc] at hw
  split at hw
  · rename_i hend
    obtain rfl := Option.some.inj hw
    refine still hg View.turn_db View.turn_blocks ?_ (fun _ => ?_) View.turn_started
    · rw [List.getElem?_eq_none_iff] at hend
      rw [List.take_of_length_le hend] at htake
      exact endTurn_job hhigh hj.taken hj.solved hb hshared hpassed
        (Or.inr (htake current hway.mem))
    · rw [View.endTurn, View.turn_highest]
  · rename_i m hm
    have hmem : (m, n) ∈ s.lcl.currpath.zipIdx := List.mem_zipIdx_iff_getElem?.mpr hm
    have hsteps := hway.rest m n hmem
    have hknown : ∀ c, update s.db.step m (some (i - n)) c ≠ none ↔
        c = m ∨ s.db.step c ≠ none := by
      intro c
      obtain rfl | hc := eq_or_ne c m
      · rw [update_self]
        exact iff_of_true (Option.some_ne_none _) (Or.inl rfl)
      · rw [update_of_ne hc, or_iff_right hc]
    have hvalue : ∀ c k, update s.db.step m (some (i - n)) c = some k →
        c = m ∧ k = i - n ∨ s.db.step c = some k := by
      intro c k hk
      obtain rfl | hc := eq_or_ne c m
      · rw [update_self] at hk
        exact Or.inl ⟨rfl, (Option.some.inj hk).symm⟩
      · rw [update_of_ne hc] at hk
        exact Or.inr hk
    have hgrows : Grows s.db { s.db with step := update s.db.step m (some (i - n)) } :=
      { Grows.refl s.db with known := fun c hc => (hknown c).mpr (Or.inr hc) }
    obtain rfl := Option.some.inj hw
    refine ⟨{ hg with sound := ?_, resultLow := ?_, highLow := ?_ }, ?_, hgrows,
      Or.inl ⟨rfl, rfl⟩, fun _ => Nat.le_refl _, Pc.noConfusion⟩
    · intro c k hk
      obtain ⟨rfl, rfl⟩ | hk := hvalue c k hk
      · exact hsteps
      · exact hg.sound c k hk
    · intro c k hk
      obtain ⟨-, rfl⟩ | hk := hvalue c k hk
      · exact (Nat.sub_le i n).trans hi
      · exact hg.resultLow c k hk
    · intro c v hc hv
      obtain rfl | hc := (hknown c).mp hc
      · exact hway.bound c (List.mem_of_getElem? hm) v hv
      · exact hg.highLow c v hc hv
    · refine ⟨Or.inr (Or.inr hhigh), ⟨hb, hway, hi, ?_⟩, hj.taken, hshared, ?_, hpassed⟩
      · intro c hc
        change c ∈ s.lcl.currpath.take (n + 1) at hc
        rw [List.take_add_one, hm] at hc
        obtain hc | hc := List.mem_append.mp hc
        · exact (hknown c).mpr (Or.inr (htake c hc))
        · exact (hknown c).mpr (Or.inl (List.mem_singleton.mp hc))
      · exact fun c hc => (hj.solved c hc).imp_right fun h => (hknown c).mpr (Or.inr h)

theorem finish_moved (hpc : s.worker.pc = .finish) (hw : s.work w = some s') :
    Moved l w B s s' := by
  have hhigh := high_of hj (by rw [hpc]; exact Pc.noConfusion) (by rw [hpc]; exact Pc.noConfusion)
  have hshared := hj.shared
  have hpassed := hj.passed
  rw [hpc] at hpassed
  rw [Shared, hpc] at hshared
  simp only [View.work, hpc, View.finish] at hw
  obtain rfl := Option.some.inj hw
  split
  · rename_i hlt
    have hup : ∃ c v, InRange l c ∧ Reached c v ∧ some s.lcl.highest = some v := by
      obtain h0 | ⟨c, hc, hr⟩ := hhigh
      · omega
      · exact ⟨c, s.lcl.highest, hc, hr, rfl⟩
    refine ⟨{ hg with highUp := Or.inr hup }, ?_, ?_, Or.inl ⟨rfl, rfl⟩, fun _ => Nat.le_refl _,
      Pc.noConfusion⟩
    · exact ⟨Or.inr (Or.inr hhigh), Nat.le_refl _, hj.taken, hshared, hj.solved, hpassed⟩
    · exact { Grows.refl s.db with highest := Nat.le_of_lt hlt }
  · rename_i hlt
    refine ⟨{ hg with }, ?_, { Grows.refl s.db with }, Or.inl ⟨rfl, rfl⟩, fun _ => Nat.le_refl _,
      Pc.noConfusion⟩
    exact ⟨Or.inr (Or.inr hhigh), Nat.not_lt.mp hlt, hj.taken, hshared, hj.solved, hpassed⟩

theorem work_moved (hw : s.work w = some s') (hB : ∀ v ≤ s'.lcl.highest, B v) :
    Moved l w B s s' := by
  cases hpc : s.worker.pc with
  | init => exact init_moved hg hj hpc hw
  | scan index => exact scan_moved hg hj hpc hw
  | claim index => exact claim_moved hg hj hpc hw
  | fetch index => exact fetch_moved hg hj hpc hw
  | walk index blkend current n => exact walk_moved hg hj hpc hw hB
  | known index blkend current n => exact known_moved hg hj hpc hw hB
  | maximum index blkend current i => exact maximum_moved hg hj hpc hw
  | store index blkend current i n => exact store_moved hg hj hpc hw
  | finish => exact finish_moved hg hj hpc hw
  | done | panicked =>
    rw [View.work, hpc] at hw
    cases hw

end Work

end YdbTest.Threeenp1
