import YdbTest.StressPort
import YdbTest.StressRuns

namespace YdbTest.Stress

open MString TreeStore Checked CInt
open PseudoBank (sprintd atoi atoi_sprintd)

variable {c : Cfg} {s s' s'' : Port} {us vs : List (Upd Gbl Str Str)} {g : Gbl} {gs : List Gbl}
  {n i it jobno ndx k prime root loop : Nat} {v : Str} {db : Db} {ks : List Nat}

namespace Port

structure Wrote (us : List (Upd Gbl Str Str)) (s s' : Port) : Prop where
  db : s'.db = applyAll us s.db
  writes : s'.writes = s.writes ++ us
  err : s'.err = s.err

theorem Wrote.refl (s : Port) : Wrote [] s s := ⟨rfl, (List.append_nil _).symm, rfl⟩

theorem Wrote.trans (h : Wrote us s s') (h' : Wrote vs s' s'') : Wrote (us ++ vs) s s'' where
  db := by rw [h'.db, h.db, applyAll_append]
  writes := by rw [h'.writes, h.writes, List.append_assoc]
  err := h'.err.trans h.err

theorem node_congr (h : s'.subscr = s.subscr) : s'.node g n = s.node g n := by
  unfold node
  rw [h]

variable (s gs n) in
theorem foldl_set : Wrote (gs.map fun g => .set (s.node g n) (s.subscr 0)) s
      (gs.foldl (fun s g => s.ydb_set_s g n (s.subscr 0)) s) ∧
    (gs.foldl (fun s g => s.ydb_set_s g n (s.subscr 0)) s).subscr = s.subscr := by
  induction gs generalizing s with
  | nil => exact ⟨Wrote.refl s, rfl⟩
  | cons g gs ih =>
    have hone : Wrote [.set (s.node g n) (s.subscr 0)] s (s.ydb_set_s g n (s.subscr 0)) :=
      ⟨rfl, rfl, rfl⟩
    have hrest := ih (s.ydb_set_s g n (s.subscr 0))
    exact ⟨hone.trans hrest.1, hrest.2⟩

variable (s gs n) in
theorem foldl_delete : Wrote (gs.map fun g => .kill (s.node g n)) s
      (gs.foldl (fun s g => s.ydb_delete_s g n) s) ∧
    (gs.foldl (fun s g => s.ydb_delete_s g n) s).subscr = s.subscr := by
  induction gs generalizing s with
  | nil => exact ⟨Wrote.refl s, rfl⟩
  | cons g gs ih =>
    have hone : Wrote [.kill (s.node g n)] s (s.ydb_delete_s g n) := ⟨rfl, rfl, rfl⟩
    have hrest := ih (s.ydb_delete_s g n)
    exact ⟨hone.trans hrest.1, hrest.2⟩

theorem sprintd_natCast (n : Nat) : sprintd (n : Int) = dec n := by
  rw [sprintd, if_neg (by omega), Int.natAbs_natCast]

theorem addPrime_none (h : get s.db (s.node g 4) = none) (hp : prime ≤ 2147483647) :
    ∃ s', s.addPrime prime g = some s' ∧ Wrote [.set (s.node g 4) (dec prime)] s s' ∧
      s'.subscr = s.subscr := by
  have hadd : add 0 (prime : Int) = some (prime : Int) := by
    rw [add, zero_add]
    exact int_eq (by omega) (by omega)
  simp only [addPrime, h, Option.bind_eq_bind, Option.bind_some, hadd, sprintd_natCast]
  exact ⟨_, rfl, ⟨rfl, rfl, rfl⟩, rfl⟩

theorem foldlM_addPrime (hgs : gs.Nodup) (h : ∀ g ∈ gs, get s.db (s.node g 4) = none)
    (hp : prime ≤ 2147483647) :
    ∃ s', gs.foldlM (fun s g => s.addPrime prime g) s = some s' ∧
      Wrote (gs.map fun g => .set (s.node g 4) (dec prime)) s s' := by
  induction gs generalizing s with
  | nil => exact ⟨s, rfl, Wrote.refl s⟩
  | cons g gs ih =>
    rw [List.nodup_cons] at hgs
    rw [List.forall_mem_cons] at h
    obtain ⟨s1, hs1, hw1, hsub⟩ := addPrime_none h.1 hp
    obtain ⟨s2, hs2, hw2⟩ := ih (s := s1) hgs.2 fun g' hg' => by
      rw [node_congr hsub, hw1.db, get_applyAll, look_of_not_hits, h.2 g' hg']
      intro u hu
      obtain rfl := List.mem_singleton.mp hu
      refine decide_eq_false fun heq => hgs.1 ?_
      rwa [show g = g' from congrArg Prod.fst heq]
    refine ⟨s2, ?_, ?_⟩
    · rw [List.foldlM_cons, hs1]
      exact hs2
    · simp only [node_congr hsub] at hw2
      exact hw1.trans hw2

variable (s gs n) in
theorem foldlM_exam (h : ∀ g ∈ gs, get s.db (s.node g n) = some s.tmp1) :
    ∃ s', gs.foldlM (fun s g => s.exam g n) s = some s' ∧ Wrote [] s s' ∧
      s'.subscr = s.subscr := by
  induction gs generalizing s with
  | nil => exact ⟨s, rfl, Wrote.refl s, rfl⟩
  | cons g gs ih =>
    rw [List.forall_mem_cons] at h
    have hone : s.exam g n = some { s with tmp2 := s.tmp1 } := by
      simp [exam, ydb_get_s, h.1, m_EXAM_randfill]
    obtain ⟨s', hs', hw, hsub⟩ := ih { s with tmp2 := s.tmp1 } h.2
    refine ⟨s', ?_, ⟨hw.db, hw.writes, hw.err⟩, hsub⟩
    rw [List.foldlM_cons, hone]
    exact hs'

end Port

namespace Cfg

open Port

def order : List Gbl := shared ++ own

theorem node_subscripts (hg : g.own = false) :
    (c.subscripts it ndx s).node g 3 = c.node jobno it ndx g := by
  have hrange : List.range 3 = [0, 1, 2] := rfl
  simp [Port.node, Cfg.node, hg, hrange, subscripts, copy, sprintd_natCast]

theorem node_shift (hs : s'.subscr = (c.subscripts it ndx s).subscr) (hg : g.own = true) :
    (c.shift jobno s').node g 4 = c.node jobno it ndx g := by
  have hrange : List.range 4 = [0, 1, 2, 3] := rfl
  simp [Port.node, Cfg.node, hg, hrange, shift, copy, hs, subscripts, sprintd_natCast]

theorem subscr_zero : (c.subscripts it ndx s).subscr 0 = dec ndx := by
  simp [subscripts, copy, sprintd_natCast]

theorem not_own_of_shared (hg : g ∈ shared) : g.own = false := by
  revert hg
  cases g <;> decide

theorem own_of_own (hg : g ∈ own) : g.own = true := by
  revert hg
  cases g <;> decide

theorem wrote_subscripts : Wrote [] s (c.subscripts it ndx s) :=
  ⟨rfl, (List.append_nil _).symm, rfl⟩

theorem wrote_shift : Wrote [] s (c.shift jobno s) := ⟨rfl, (List.append_nil _).symm, rfl⟩

theorem map_order (f f' : Gbl → Upd Gbl Str Str) {w : Gbl → Upd Gbl Str Str}
    (hf : ∀ g ∈ shared, f g = w g) (hf' : ∀ g ∈ own, f' g = w g) :
    [] ++ shared.map f ++ ([] ++ own.map f') = order.map w := by
  rw [List.nil_append, List.nil_append, order, List.map_append, List.map_congr_left hf,
    List.map_congr_left hf']

theorem turn_kill : ∃ s', c.m_turn jobno .kill prime it ndx s = some s' ∧
    Wrote (order.map fun g => .kill (c.node jobno it ndx g)) s s' := by
  obtain ⟨hshared, hsub⟩ := foldl_delete (c.subscripts it ndx s) shared 3
  unfold m_turn
  dsimp only
  generalize shared.foldl (fun s g => s.ydb_delete_s g 3) (c.subscripts it ndx s) = s1 at *
  have hown := (foldl_delete (c.shift jobno s1) own 4).1
  refine ⟨_, rfl, ?_⟩
  rw [← map_order (fun g => .kill ((c.subscripts it ndx s).node g 3))
    (fun g => .kill ((c.shift jobno s1).node g 4))
    (fun g hg => by rw [node_subscripts (not_own_of_shared hg)])
    (fun g hg => by rw [node_shift hsub (own_of_own hg)])]
  exact (wrote_subscripts.trans hshared).trans (wrote_shift.trans hown)

theorem val_shared (hg : g ∈ shared) : c.val ndx g = dec ndx := by
  rw [val, not_own_of_shared hg]
  rfl

theorem val_own (hg : g ∈ own) : c.val ndx g = dec c.prime := by
  rw [val, own_of_own hg]
  rfl

theorem turn_set (h : ∀ g ∈ own, get s.db (c.node jobno it ndx g) = none)
    (hp : c.prime ≤ 2147483647) : ∃ s', c.m_turn jobno .set c.prime it ndx s = some s' ∧
    Wrote (order.map fun g => .set (c.node jobno it ndx g) (c.val ndx g)) s s' := by
  obtain ⟨hshared, hsub⟩ := foldl_set (c.subscripts it ndx s) shared 3
  have hsets : (shared.map fun g => Upd.set ((c.subscripts it ndx s).node g 3)
      ((c.subscripts it ndx s).subscr 0)) = c.sets jobno it shared [ndx] := by
    rw [sets, List.flatMap_singleton, subscr_zero]
    refine List.map_congr_left fun g hg => ?_
    rw [node_subscripts (not_own_of_shared hg), val_shared hg]
  unfold m_turn
  dsimp only
  generalize shared.foldl (fun s g => s.ydb_set_s g 3 (s.subscr 0))
    (c.subscripts it ndx s) = s1 at *
  have hnone : ∀ g ∈ own, get (c.shift jobno s1).db ((c.shift jobno s1).node g 4) = none := by
    intro g hg
    have hdb : (c.shift jobno s1).db = applyAll (c.sets jobno it shared [ndx]) s.db := by
      rw [← hsets]
      exact hshared.db
    rw [node_shift hsub (own_of_own hg), hdb, get_sets_of_ne, h g hg]
    refine Or.inr fun hmem => ?_
    have hno := not_own_of_shared hmem
    rw [own_of_own hg] at hno
    cases hno
  obtain ⟨s2, hs2, hown⟩ := foldlM_addPrime (by decide) hnone hp
  refine ⟨s2, hs2, ?_⟩
  rw [← map_order (fun g => .set ((c.subscripts it ndx s).node g 3)
      ((c.subscripts it ndx s).subscr 0))
    (fun g => .set ((c.shift jobno s1).node g 4) (dec c.prime))
    (fun g hg => by rw [node_subscripts (not_own_of_shared hg), subscr_zero, val_shared hg])
    (fun g hg => by rw [node_shift hsub (own_of_own hg), val_own hg])]
  exact (wrote_subscripts.trans hshared).trans (wrote_shift.trans hown)

theorem turn_ver (h : ∀ g ∈ order, get s.db (c.node jobno it ndx g) = some (c.val ndx g)) :
    ∃ s', c.m_turn jobno .ver c.prime it ndx s = some s' ∧ Wrote [] s s' := by
  have hget : ∀ g ∈ shared, get (c.subscripts it ndx s).db ((c.subscripts it ndx s).node g 3) =
      some (c.subscripts it ndx s).tmp1 := by
    intro g hg
    have htmp : (c.subscripts it ndx s).tmp1 = c.val ndx g :=
      (sprintd_natCast ndx).trans (val_shared hg).symm
    have hnode : (c.subscripts it ndx s).node g 3 = c.node jobno it ndx g :=
      node_subscripts (not_own_of_shared hg)
    rw [hnode, htmp]
    exact h g (List.mem_append_left _ hg)
  obtain ⟨s1, hs1, hw1, hsub⟩ := foldlM_exam _ shared 3 hget
  obtain ⟨s2, hs2, hw2, -⟩ :=
    foldlM_exam { c.shift jobno s1 with tmp1 := sprintd c.prime } own 4 fun g hg => by
      have hdb : (c.shift jobno s1).db = s.db := hw1.db
      have hnode : ({ c.shift jobno s1 with tmp1 := sprintd c.prime } : Port).node g 4 =
        c.node jobno it ndx g := node_shift hsub (own_of_own hg)
      have hval : sprintd c.prime = c.val ndx g := (sprintd_natCast _).trans (val_own hg).symm
      rw [hnode, hval]
      exact hdb ▸ h g (List.mem_append_right _ hg)
  refine ⟨s2, ?_, ⟨hw2.db.trans hw1.db, hw2.writes.trans ?_, hw2.err.trans hw1.err⟩⟩
  · simp only [m_turn, hs1, Option.bind_eq_bind, Option.bind_some]
    exact hs2
  · rw [List.append_nil]
    exact hw1.writes

/-- The largest product fits an `int`. -/
def Small (c : Cfg) (r : Nat) : Prop := (c.prime - 1) * r ≤ 2147483647

theorem Small.prime_le (h : c.Small root) (hr : 0 < root) : c.prime ≤ 2147483647 := by
  have hle : c.prime - 1 ≤ 2147483647 := (Nat.le_mul_of_pos_right _ hr).trans h
  have hprime := c.prime_prime
  by_contra hlt
  have heq : c.prime = 2 ^ 31 := by omega
  rw [heq] at hprime
  exact Nat.Prime.not_prime_pow (by omega) hprime

theorem next_ndx (h : c.Small root) (hr : 0 < root) (hndx : ndx < c.prime) :
    mul (ndx : Int) root = some ((ndx * root : Nat) : Int) ∧
      mod ((ndx * root : Nat) : Int) c.prime = some ((ndx * root % c.prime : Nat) : Int) := by
  have hle : ndx * root ≤ (c.prime - 1) * root := Nat.mul_le_mul_right root (by omega)
  exact ⟨mul_natCast (hle.trans h), mod_natCast c.prime_prime.pos (h.prime_le hr)⟩

theorem m_turns_wrote {act : Act} (w : Nat → List (Upd Gbl Str Str)) (Ok : List Nat → Port → Prop)
    (hturn : ∀ ndx ks s, Ok (ndx :: ks) s →
      ∃ s', c.m_turn jobno act c.prime it ndx s = some s' ∧ Wrote (w ndx) s s' ∧ Ok ks s')
    (h : c.Small root) (hr : 0 < root) (hndx : ndx < c.prime) (herr : s.err = 0)
    (hok : Ok (ModWalk.residues c.prime root k ndx) s) :
    ∃ s', c.m_turns jobno act c.prime root it k ndx s = some s' ∧
      Wrote ((ModWalk.residues c.prime root k ndx).flatMap w) s s' := by
  induction k generalizing ndx s with
  | zero => exact ⟨s, rfl, Wrote.refl s⟩
  | succ k ih =>
    obtain ⟨s1, hs1, hw1, hok1⟩ := hturn ndx _ s hok
    obtain ⟨hmul, hmod⟩ := next_ndx h hr hndx
    have herr1 : s1.err = 0 := hw1.err.trans herr
    obtain ⟨s2, hs2, hw2⟩ := ih (Nat.mod_lt _ c.prime_prime.pos) herr1 hok1
    refine ⟨s2, ?_, hw1.trans hw2⟩
    have hmax : ¬ s1.err > (MAXERR : Int) := by
      rw [herr1]
      decide
    rw [m_turns, hs1, Option.bind_eq_bind, Option.bind_some, hmul]
    simp only [Option.bind_eq_bind, Option.bind_some, hmod, if_neg hmax]
    exact hs2

theorem root_pos (h1 : 1 ≤ i) (h10 : i ≤ 10) : 0 < c.root i := by
  have : Fact c.prime.Prime := ⟨c.prime_prime⟩
  have hdvd := ModWalk.not_dvd_of_order (c.primitive i h1 h10)
  exact Nat.pos_of_ne_zero fun h => hdvd (h ▸ Nat.dvd_zero _)

theorem Small.exact (h : c.Small (c.root i)) (h1 : 1 ≤ i) (h10 : i ≤ 10) : c.Exact i :=
  ⟨h1, h10, Nat.lt_of_le_of_lt h (by decide)⟩

theorem atoi_dec (h : n ≤ 2147483647) : atoi (dec n) = some (n : Int) := by
  rw [← sprintd_natCast, atoi_sprintd]
  exact int_eq (by omega) (by omega)

variable (s jobno it) in
theorem m_randfill_wrote (act : Act) (w : Nat → List (Upd Gbl Str Str))
    (Ok : List Nat → Port → Prop)
    (hturn : ∀ ndx ks s, Ok (ndx :: ks) s →
      ∃ s', c.m_turn jobno act c.prime it ndx s = some s' ∧ Wrote (w ndx) s s' ∧ Ok ks s')
    (h : c.Small (c.root i)) (h1 : 1 ≤ i) (h10 : i ≤ 10)
    (hok : ∀ s', s'.db = s.db → Ok (c.walk i) s') :
    ∃ s', c.m_randfill jobno act i it s = some s' ∧
      s'.db = applyAll ((c.walk i).flatMap w) s.db ∧
      s'.writes = s.writes ++ (c.walk i).flatMap w := by
  have hr := root_pos (c := c) h1 h10
  have hp := h.prime_le hr
  have hroot : c.root i ≤ 2147483647 := by
    have hpos : 0 < c.prime - 1 := Nat.sub_pos_of_lt c.prime_prime.one_lt
    exact (Nat.le_mul_of_pos_left _ hpos).trans h
  have hturns : ((c.prime : Int) - 1).toNat = c.prime - 1 := by omega
  rw [walk_eq (h.exact h1 h10)] at *
  obtain ⟨s', hs', hw⟩ :=
    m_turns_wrote (s := { s.copy 0 (sprintd i) with err := 0 }) w Ok hturn h hr
    c.prime_prime.one_lt rfl (hok _ rfl)
  refine ⟨s', ?_, hw.db, hw.writes⟩
  simp only [m_randfill, Int.toNat_natCast, atoi_dec hroot, atoi_dec hp, Option.bind_eq_bind,
    Option.bind_some, m_filling_randfill, hturns]
  exact hs'

theorem m_calls_wrote (h : c.Small (c.root i)) (h1 : 1 ≤ i) (h10 : i ≤ 10) :
    ∃ s', c.m_calls jobno i it s = some s' ∧ s'.writes = s.writes ++
      (c.kills jobno it order (c.walk i) ++ c.sets jobno it order (c.walk i)) := by
  have hexact := h.exact h1 h10
  have hp := h.prime_le (root_pos h1 h10)
  obtain ⟨s1, hs1, hdb1, hwr1⟩ := m_randfill_wrote s it jobno .kill
    (fun ndx => order.map fun g => .kill (c.node jobno it ndx g)) (fun _ _ => True)
    (fun ndx ks s _ => by
      obtain ⟨s', hs', hw⟩ := turn_kill (s := s)
      exact ⟨s', hs', hw, trivial⟩) h h1 h10 fun _ _ => trivial
  obtain ⟨s2, hs2, hdb2, hwr2⟩ := m_randfill_wrote s1 it jobno .set
    (fun ndx => order.map fun g => .set (c.node jobno it ndx g) (c.val ndx g))
    (fun ks s => ks.Nodup ∧ ∀ ndx ∈ ks, ∀ g ∈ own, get s.db (c.node jobno it ndx g) = none)
    (fun ndx ks s hok => by
      obtain ⟨hks, hnone⟩ := hok
      rw [List.nodup_cons] at hks
      rw [List.forall_mem_cons] at hnone
      obtain ⟨s', hs', hw⟩ := turn_set (s := s) hnone.1 hp
      refine ⟨s', hs', hw, hks.2, fun ndx' hndx' g hg => ?_⟩
      have hsets : (order.map fun g => Upd.set (c.node jobno it ndx g) (c.val ndx g)) =
        c.sets jobno it order [ndx] := (List.flatMap_singleton _ _).symm
      rw [hw.db, hsets, get_sets_of_ne, hnone.2 ndx' hndx' g hg]
      refine Or.inl fun hmem => hks.1 ?_
      rwa [← List.mem_singleton.mp hmem]) h h1 h10 fun s' hs' => by
        refine ⟨nodup_walk hexact, fun ndx hndx g hg => ?_⟩
        rw [hs', hdb1]
        exact get_kills hndx (List.mem_append_right _ hg)
  obtain ⟨s3, hs3, -, hwr3⟩ := m_randfill_wrote s2 it jobno .ver
    (fun _ => [])
    (fun ks s => ∀ ndx ∈ ks, ∀ g ∈ order, get s.db (c.node jobno it ndx g) = some (c.val ndx g))
    (fun ndx ks s hok => by
      rw [List.forall_mem_cons] at hok
      obtain ⟨s', hs', hw⟩ := turn_ver (s := s) hok.1
      refine ⟨s', hs', hw, fun ndx' hndx' g hg => ?_⟩
      rw [hw.db]
      exact hok.2 ndx' hndx' g hg) h h1 h10 fun s' hs' ndx hndx g hg => by
        rw [hs', hdb2]
        exact get_sets hndx hg
  refine ⟨s3, ?_, ?_⟩
  · rw [m_calls, hs1, Option.bind_eq_bind, Option.bind_some, hs2]
    exact hs3
  · have hnil : ((c.walk i).flatMap fun _ => ([] : List (Upd Gbl Str Str))) = [] :=
      List.flatMap_eq_nil_iff.mpr fun _ _ => rfl
    rw [hwr3, hnil, List.append_nil, hwr2, hwr1, List.append_assoc]
    rfl

theorem filter_turn {f : Gbl → Upd Gbl Str Str} (hf : ∀ g, (f g).var = g) :
    (order.map f).filter (fun u => u.var = g) = (globals.map f).filter (fun u => u.var = g) := by
  have hcomp : (fun u : Upd Gbl Str Str => decide (u.var = g)) ∘ f = fun g' => decide (g' = g) := by
    funext g'
    rw [Function.comp_apply, hf]
  have horder : order.filter (fun g' => g' = g) = globals.filter (fun g' => g' = g) := by
    cases g <;> rfl
  rw [List.filter_map, List.filter_map, hcomp, horder]

/-- The port sets and kills `^ffill` before `^efill`, each at the same nodes in the same order. -/
theorem same_order : SameWrites (c.kills jobno it order ks ++ c.sets jobno it order ks)
    (c.kills jobno it globals ks ++ c.sets jobno it globals ks) := by
  intro g
  rw [List.filter_append, List.filter_append, kills, kills, sets, sets, List.filter_flatMap,
    List.filter_flatMap, List.filter_flatMap, List.filter_flatMap]
  refine congrArg₂ (· ++ ·) (List.flatMap_congr fun ndx _ => filter_turn fun g => node_fst)
    (List.flatMap_congr fun ndx _ => filter_turn fun g => node_fst)

variable (s it jobno db) in
theorem m_calls_same (h : c.Small (c.root i)) (h1 : 1 ≤ i) (h10 : i ≤ 10) :
    ∃ s', c.m_calls jobno i it { s with writes := [] } = some s' ∧
      SameWrites s'.writes (writes (c.calls jobno i it) db none) := by
  obtain ⟨s', hs', hw⟩ := m_calls_wrote (s := { s with writes := [] }) h h1 h10
  refine ⟨s', hs', ?_⟩
  rw [hw, writes_calls (h.exact h1 h10)]
  exact same_order

theorem m_tpflag_eq (h : 1 ≤ jobno) : c.m_tpflag jobno = c.tpflag jobno := (tpflag_eq h).symm

theorem pno_eq (h : loop < 2 ^ 30) : (mul 2 loop).bind (fun m => (mod m 10).bind (add · 1)) =
    some (pno loop : Int) := by
  have hle : 2 * loop ≤ 2147483647 := by omega
  have hmul : mul 2 (loop : Int) = some ((2 * loop : Nat) : Int) := mul_natCast hle
  have hmod : mod ((2 * loop : Nat) : Int) 10 = some ((2 * loop % 10 : Nat) : Int) :=
    mod_natCast (by decide) (by decide)
  have hadd : add ((2 * loop % 10 : Nat) : Int) 1 = some ((2 * loop % 10 + 1 : Nat) : Int) := by
    rw [add, Nat.cast_succ]
    exact int_eq (by omega) (by omega)
  rw [hmul, Option.bind_some, hmod, Option.bind_some, hadd, pno, ← Nat.two_mul,
    ThreeEn1.mnum_eq (by omega)]

theorem same_of_small (hloop : c.iterate < 2 ^ 30)
    (h : ∀ i, Used i → c.Small (c.root i)) : c.SamePort := by
  refine ⟨fun jobno i loop s _ _ hu _ => m_calls_same s loop jobno s.db (h i hu) hu.one_le hu.le,
    fun jobno loop s hj _ _ hle => ?_⟩
  have hpno := pno_eq (Nat.lt_of_le_of_lt hle hloop)
  have hu : Used (pno loop) := pno_used
  obtain ⟨s', hs', hsame⟩ := m_calls_same s loop jobno s.db (h _ hu) hu.one_le hu.le
  have hjob : ∃ status, c.job_stress_tpfn jobno loop { s with writes := [] } = some (s', status) ∧
      (if c.m_tpflag jobno ≠ .NTP then some (decide (status = .YDB_OK)) else none) =
        (c.tpflag jobno).transaction := by
    have hcall : c.job_stress_tpfn jobno loop { s with writes := [] } =
        if c.m_tpflag jobno = .TPR then some (s', .YDB_TP_ROLLBACK) else some (s', .YDB_OK) := by
      rw [job_stress_tpfn]
      cases hmul : mul 2 (loop : Int) with
      | none =>
        rw [hmul] at hpno
        cases hpno
      | some m =>
        rw [hmul, Option.bind_some] at hpno
        cases hmod : mod m 10 with
        | none =>
          rw [hmod] at hpno
          cases hpno
        | some m' =>
          rw [hmod, Option.bind_some] at hpno
          simp only [Option.bind_eq_bind, Option.bind_some, hmod, hpno, hs']
    rw [hcall, m_tpflag_eq hj]
    cases c.tpflag jobno with
    | NTP => exact ⟨.YDB_OK, rfl, rfl⟩
    | TPR => exact ⟨.YDB_TP_ROLLBACK, rfl, rfl⟩
    | TPC => exact ⟨.YDB_OK, rfl, rfl⟩
  obtain ⟨status, hstatus, htx⟩ := hjob
  refine ⟨⟨if c.m_tpflag jobno ≠ .NTP then some (decide (status = .YDB_OK)) else none, s'.writes,
    .set (.lasti, [sprintd jobno, c.instance_]) (sprintd loop)⟩, ?_, htx, hsame, ?_⟩
  · rw [m_job_stress, hstatus]
    rfl
  · dsimp only
    rw [sprintd_natCast, sprintd_natCast]
    rfl

theorem int_some {x y : Int} (h : int x = some y) : y = x ∧ x ≤ 2147483647 := by
  unfold int at h
  split_ifs at h with hx
  exact ⟨(Option.some.inj h).symm, hx.2⟩

theorem products_of_turns (hndx : ndx < c.prime) (herr : s.err = 0)
    (h : c.m_turns jobno .kill c.prime root it k ndx s = some s') :
    ∀ n ∈ ModWalk.residues c.prime root k ndx, n * root ≤ 2147483647 := by
  induction k generalizing ndx s with
  | zero => exact fun n hn => absurd hn List.not_mem_nil
  | succ k ih =>
    obtain ⟨s1, hs1, hw1⟩ := turn_kill (c := c) (s := s)
    rw [m_turns, hs1, Option.bind_eq_bind, Option.bind_some] at h
    obtain ⟨m, hmul, hbind⟩ := Option.bind_eq_some_iff.mp h
    obtain ⟨ndx', hmod, hrest⟩ := Option.bind_eq_some_iff.mp hbind
    obtain ⟨rfl, hle⟩ := int_some hmul
    have hprod : ndx * root ≤ 2147483647 := by
      rw [← Nat.cast_mul] at hle
      omega
    have hprime : (c.prime : Int) ≠ 0 := by
      have := c.prime_prime.pos
      omega
    have hndx' : ndx' = ((ndx * root % c.prime : Nat) : Int) := by
      rw [mod, if_neg hprime, ← Nat.cast_mul] at hmod
      exact (int_some hmod).1
    have herr1 : s1.err = 0 := hw1.err.trans herr
    have hmax : ¬ s1.err > (MAXERR : Int) := by
      rw [herr1]
      decide
    rw [if_neg hmax, hndx'] at hrest
    intro n hn
    obtain rfl | hn := List.mem_cons.mp hn
    · exact hprod
    · exact ih (Nat.mod_lt _ c.prime_prime.pos) herr1 hrest n hn

theorem small_of_calls (h1 : 1 ≤ i) (h10 : i ≤ 10) (h : c.m_calls jobno i it s = some s') :
    c.Small (c.root i) := by
  have : Fact c.prime.Prime := ⟨c.prime_prime⟩
  have hprime := c.prime_prime.two_le
  obtain ⟨s1, hkill, -⟩ := Option.bind_eq_some_iff.mp h
  obtain ⟨root, hroot, hkill⟩ := Option.bind_eq_some_iff.mp hkill
  obtain ⟨prime, hp, hkill⟩ := Option.bind_eq_some_iff.mp hkill
  rw [← sprintd_natCast, atoi_sprintd] at hroot hp
  obtain ⟨rfl, -⟩ := int_some hroot
  obtain ⟨rfl, -⟩ := int_some hp
  have hturns : ((c.prime : Int) - 1).toNat = c.prime - 1 := by omega
  rw [m_filling_randfill, hturns] at hkill
  have hlast : c.prime - 1 ∈ ModWalk.residues c.prime (c.root i) (c.prime - 1) 1 :=
    ModWalk.mem_residues (c.primitive i h1 h10) (by omega) (by omega)
  exact products_of_turns c.prime_prime.one_lt rfl hkill _ hlast

theorem few_of_same (h : c.SamePort) : c.iterate < 2 ^ 30 := by
  by_contra hlarge
  obtain ⟨t, ht, -⟩ := h.2 1 (2 ^ 30) ⟨[], [], fun _ => [], [], [], [], 0⟩ (Nat.le_refl 1)
    one_le_tpcj (by decide) (Nat.le_of_not_lt hlarge)
  have hnone : mul 2 ((2 ^ 30 : Nat) : Int) = none := by decide
  rw [m_job_stress, job_stress_tpfn, hnone] at ht
  cases ht

/-- The workload verifies, and the port does what the M program does, exactly where the port's
`int` arithmetic holds its numbers: `2 * loop`, and the products with each root that is used. -/
theorem verifies_and_same (c : Cfg) : c.Verifies ∧ c.SamePort ↔
    c.iterate < 2 ^ 30 ∧ ∀ i, Used i → (c.prime - 1) * c.root i ≤ 2147483647 := by
  constructor
  · rintro ⟨-, hsame⟩
    refine ⟨few_of_same hsame, fun i hu => ?_⟩
    obtain ⟨s', hs', -⟩ := hsame.1 1 i 1 ⟨[], [], fun _ => [], [], [], [], 0⟩ (Nat.le_refl 1)
      one_le_tpcj hu (by decide)
    exact small_of_calls hu.one_le hu.le hs'
  · rintro ⟨hfew, hsmall⟩
    exact ⟨verifies_of_exact fun i hu => Small.exact (hsmall i hu) hu.one_le hu.le,
      same_of_small hfew hsmall⟩

/-- Ten jobs with the smallest table, for 2^30 iterations. -/
def long : Cfg where
  toTable := Table.lsmall
  instance_ := [65]
  cust := dec
  pid := id
  tprj := 5
  tpcj := 10
  iterate := 1073741824
  one_le := by decide
  le := by decide
  pid_inj _ _ _ _ _ _ h := h

theorem not_same_long : ¬ (long.Verifies ∧ long.SamePort) := by
  rintro ⟨-, hsame⟩
  exact absurd (few_of_same hsame) (by decide)

end Cfg

end YdbTest.Stress
