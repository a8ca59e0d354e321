import YdbTest.Stress
import YdbTest.Decimal
import YdbTest.ThreeEn1Answer

namespace YdbTest.Stress

open MString TreeStore Checked ModWalk Decimal
open Dbcargs (num canon)
open ThreeEn1 (mnum)

variable {c : Cfg} {i j it it' jobno jobno' ndx ndx' n r k : Nat} {g g' : Gbl} {act : Act}

theorem indices_eq (h : (c.prime - 1) * r < 10 ^ 18) (hx : ndx < c.prime) :
    indices c.prime r k ndx = residues c.prime r k ndx := by
  induction k generalizing ndx with
  | zero => rfl
  | succ k ih =>
    have hle : ndx * r ≤ (c.prime - 1) * r := Nat.mul_le_mul_right r (by omega)
    rw [indices, residues, ThreeEn1.mnum_eq (Nat.lt_of_le_of_lt hle h),
      ih (Nat.mod_lt _ c.prime_prime.pos)]

namespace Cfg

def Exact (c : Cfg) (i : Nat) : Prop := 1 ≤ i ∧ i ≤ 10 ∧ (c.prime - 1) * c.root i < 10 ^ 18

def walk (c : Cfg) (i : Nat) : List Nat := indices c.prime (c.root i) (c.prime - 1) 1

theorem walk_eq (h : c.Exact i) : c.walk i = residues c.prime (c.root i) (c.prime - 1) 1 :=
  indices_eq h.2.2 c.prime_prime.one_lt

theorem mem_walk (h : c.Exact i) : ndx ∈ c.walk i ↔ 1 ≤ ndx ∧ ndx < c.prime := by
  have : Fact c.prime.Prime := ⟨c.prime_prime⟩
  have hroot := c.primitive i h.1 h.2.1
  rw [walk_eq h]
  exact ⟨residues_bounds (not_dvd_of_order hroot), fun hn => mem_residues hroot hn.1 hn.2⟩

theorem nodup_walk (h : c.Exact i) : (c.walk i).Nodup := by
  have hroot := c.primitive i h.1 h.2.1
  rw [walk_eq h, residues_eq _ c.prime_prime.one_lt]
  refine List.Nodup.map_on ?_ List.nodup_range
  intro a ha b hb hab
  rw [List.mem_range, ← hroot] at ha hb
  rw [Nat.one_mul, Nat.one_mul] at hab
  exact pow_mod_injective _ ha hb hab

theorem node_fst : (c.node jobno it ndx g).1 = g := by
  unfold node
  split <;> rfl

theorem node_shared (h : g.own = false) : c.node jobno it ndx g = c.node jobno' it ndx g := by
  unfold node
  rw [h]
  rfl

theorem node_inj (h : c.node jobno it ndx g = c.node jobno' it' ndx' g') :
    g = g' ∧ ndx = ndx' ∧ it = it' ∧ (g.own = true → c.pid jobno = c.pid jobno') := by
  have hg := congrArg Prod.fst h
  rw [node_fst, node_fst] at hg
  subst hg
  cases hown : g.own with
  | true =>
    simp only [node, hown, if_true, Prod.mk.injEq, List.cons.injEq] at h
    exact ⟨rfl, dec_injective h.2.1, dec_injective h.2.2.2.2.1, fun _ => dec_injective h.2.2.2.1⟩
  | false =>
    simp only [node, hown, Bool.false_eq_true, if_false, Prod.mk.injEq, List.cons.injEq] at h
    exact ⟨rfl, dec_injective h.2.1, dec_injective h.2.2.2.1, fun hf => by cases hf⟩

theorem node_length : (c.node jobno it ndx g).2.length = if g.own then 4 else 3 := by
  unfold node
  split <;> rfl

theorem below_node (h : below (c.node jobno it ndx g) (c.node jobno' it' ndx' g') = true) :
    c.node jobno it ndx g = c.node jobno' it' ndx' g' := by
  obtain ⟨hg, hpre⟩ := below_iff.mp h
  rw [node_fst, node_fst] at hg
  subst hg
  have hlen : (c.node jobno it ndx g).2.length = (c.node jobno' it' ndx' g).2.length := by
    rw [node_length, node_length]
  exact Prod.ext (by rw [node_fst, node_fst]) (hpre.eq_of_length hlen)

theorem hits_kill (h : (Upd.kill (c.node jobno it ndx g) : Upd Gbl Str Str).hits
    (c.node jobno' it' ndx' g') = true) : c.node jobno it ndx g = c.node jobno' it' ndx' g' :=
  below_node h

end Cfg

theorem canon_natCast (n : Nat) : canon (n : Rat) = dec n := by
  have hfloor : ⌊|(n : Rat)| * (10 ^ 18 : Nat)⌋₊ = n * 10 ^ 18 := by
    rw [Nat.abs_cast, ← Nat.cast_mul, Nat.floor_natCast]
  have hneg : ¬ (n : Rat) < 0 := not_lt.mpr (Nat.cast_nonneg n)
  unfold canon
  rw [if_neg hneg, hfloor]
  have hzero : lastDigits 18 (n * 10 ^ 18) = List.replicate 18 0 := lastDigits_mul_pow 18 n
  have hfrac : fracDigits 18 (n * 10 ^ 18) = [] := by
    rw [fracDigits, hzero]
    rfl
  rw [decimal, if_pos hfrac, Nat.mul_div_cancel _ (by decide)]

namespace Cfg

theorem plus_none : c.plus none = dec c.prime := by
  have hnum : num (Option.getD none ([] : Str)) = 0 := rfl
  rw [plus, hnum, zero_add, canon_natCast]

def val (c : Cfg) (ndx : Nat) (g : Gbl) : Str := if g.own then dec c.prime else dec ndx

def kills (c : Cfg) (jobno it : Nat) (gs : List Gbl) (ks : List Nat) : List (Upd Gbl Str Str) :=
  ks.flatMap fun ndx => gs.map fun g => .kill (c.node jobno it ndx g)

def sets (c : Cfg) (jobno it : Nat) (gs : List Gbl) (ks : List Nat) : List (Upd Gbl Str Str) :=
  ks.flatMap fun ndx => gs.map fun g => .set (c.node jobno it ndx g) (c.val ndx g)

variable {gs : List Gbl} {ks : List Nat} {db : Db} {u : Upd Gbl Str Str}
  {o : Checked.Op Gbl Str Str} {q : Option Str}

theorem mem_kills : u ∈ c.kills jobno it gs ks ↔
    ∃ ndx ∈ ks, ∃ g ∈ gs, .kill (c.node jobno it ndx g) = u := by
  simp only [kills, List.mem_flatMap, List.mem_map]

theorem mem_sets : u ∈ c.sets jobno it gs ks ↔
    ∃ ndx ∈ ks, ∃ g ∈ gs, .set (c.node jobno it ndx g) (c.val ndx g) = u := by
  simp only [sets, List.mem_flatMap, List.mem_map]

theorem sets_cons : c.sets jobno it gs (ndx :: ks) =
    (gs.map fun g => .set (c.node jobno it ndx g) (c.val ndx g)) ++ c.sets jobno it gs ks :=
  List.flatMap_cons

theorem at_kill {m x : Node Gbl Str} : (∀ r, (Upd.kill m : Upd Gbl Str Str).at x r = r) ∨
    ∀ r, (Upd.kill m : Upd Gbl Str Str).at x r = none := by
  by_cases hm : below m x = true
  · exact Or.inr fun r => if_pos hm
  · exact Or.inl fun r => if_neg hm

theorem get_kills (hndx : ndx ∈ ks) (hg : g ∈ gs) :
    get (applyAll (c.kills jobno it gs ks) db) (c.node jobno it ndx g) = none := by
  rw [get_applyAll]
  refine look_const (fun u hu => ?_) ⟨_, mem_kills.mpr ⟨ndx, hndx, g, hg, rfl⟩, fun r => ?_⟩ _
  · obtain ⟨ndx', -, g', -, rfl⟩ := mem_kills.mp hu
    exact at_kill
  · exact if_pos (below_iff.mpr ⟨rfl, List.prefix_rfl⟩)

theorem get_sets (hndx : ndx ∈ ks) (hg : g ∈ gs) :
    get (applyAll (c.sets jobno it gs ks) db) (c.node jobno it ndx g) = some (c.val ndx g) := by
  rw [get_applyAll]
  refine look_const (fun u hu => ?_) ⟨_, mem_sets.mpr ⟨ndx, hndx, g, hg, rfl⟩, fun r => ?_⟩ _
  · obtain ⟨ndx', -, g', -, rfl⟩ := mem_sets.mp hu
    by_cases heq : c.node jobno it ndx' g' = c.node jobno it ndx g
    · obtain ⟨rfl, rfl, -⟩ := node_inj heq
      exact Or.inr fun r => if_pos rfl
    · exact Or.inl fun r => if_neg heq
  · exact if_pos rfl

theorem get_sets_of_ne (h : ndx ∉ ks ∨ g ∉ gs) :
    get (applyAll (c.sets jobno it gs ks) db) (c.node jobno it ndx g) =
      get db (c.node jobno it ndx g) := by
  rw [get_applyAll]
  refine look_of_not_hits (fun u hu => ?_) _
  obtain ⟨ndx', hndx, g', hg, rfl⟩ := mem_sets.mp hu
  refine decide_eq_false fun heq => ?_
  obtain ⟨rfl, rfl, -⟩ := node_inj heq
  exact h.elim (fun hn => hn hndx) fun hn => hn hg

theorem holds_kill : Holds (c.randfill jobno .kill n it) db q := by
  refine ⟨trivial, holds_pass fun turn hturn db r => ?_⟩
  obtain ⟨ndx, -, rfl⟩ := List.mem_map.mp hturn
  exact holds_flatMap fun g _ db r => ⟨trivial, trivial⟩

theorem holds_update_set : Holds (c.update jobno it ndx .set g) db q := by
  unfold update
  dsimp only
  split
  · exact ⟨trivial, rfl, trivial⟩
  · exact ⟨trivial, trivial⟩

theorem holds_turn_set : Holds (c.turn jobno it .set ndx) db q :=
  holds_flatMap fun _ _ _ _ => holds_update_set

theorem holds_set : Holds (c.randfill jobno .set n it) db q := by
  refine ⟨trivial, holds_pass fun turn hturn db r => ?_⟩
  obtain ⟨ndx, -, rfl⟩ := List.mem_map.mp hturn
  exact holds_turn_set

theorem upds_randfill : upds (c.randfill jobno act n it) =
    (c.walk n).flatMap fun ndx => globals.flatMap fun g => upds (c.update jobno it ndx act g) := by
  rw [randfill, filling, upds_cons, upds_pass, List.flatMap_map]
  exact List.flatMap_congr fun ndx _ => List.flatMap_assoc

theorem writes_kill : writes (c.randfill jobno .kill n it) db q =
    c.kills jobno it globals (c.walk n) := by
  rw [writes_eq_upds, upds_randfill]
  · rfl
  · intro o ho r
    obtain rfl | ho := List.mem_cons.mp ho
    · rfl
    obtain ⟨turn, hturn, ho⟩ | ⟨rest, rfl⟩ := mem_pass ho
    · obtain ⟨ndx, -, rfl⟩ := List.mem_map.mp hturn
      obtain ⟨g, -, ho⟩ := List.mem_flatMap.mp ho
      obtain rfl := List.mem_singleton.mp ho
      rfl
    · rfl

theorem writes_update_set (h : get db (c.node jobno it ndx g) = none) :
    writes (c.update jobno it ndx .set g) db q = c.sets jobno it [g] [ndx] := by
  have hsets : c.sets jobno it [g] [ndx] = [.set (c.node jobno it ndx g) (c.val ndx g)] := rfl
  rw [hsets, val, update]
  split
  · change [Upd.set (c.node jobno it ndx g) (c.plus (get db (c.node jobno it ndx g)))] = _
    rw [h, plus_none]
  · rfl

theorem writes_flatMap_set (hgs : gs.Nodup)
    (h : ∀ g ∈ gs, get db (c.node jobno it ndx g) = none) :
    writes (gs.flatMap (c.update jobno it ndx .set)) db q = c.sets jobno it gs [ndx] := by
  induction gs generalizing db q with
  | nil => rfl
  | cons g gs ih =>
    rw [List.nodup_cons] at hgs
    rw [List.forall_mem_cons] at h
    have hhead := writes_update_set (q := q) h.1
    rw [List.flatMap_cons, writes_append holds_update_set, hhead, ih hgs.2]
    · rfl
    · intro g' hg'
      rw [← holds_update_set.writes_eq, hhead, get_sets_of_ne]
      · exact h.2 g' hg'
      · refine Or.inr fun hmem => hgs.1 ?_
        rwa [← List.mem_singleton.mp hmem]

theorem writes_pass_set (hks : ks.Nodup)
    (h : ∀ ndx ∈ ks, ∀ g ∈ globals, get db (c.node jobno it ndx g) = none) :
    writes (pass (ks.map (c.turn jobno it .set))) db q = c.sets jobno it globals ks := by
  induction ks generalizing db q with
  | nil => rfl
  | cons ndx ks ih =>
    rw [List.nodup_cons] at hks
    rw [List.forall_mem_cons] at h
    have hhead : writes (c.turn jobno it .set ndx) db q = c.sets jobno it globals [ndx] :=
      writes_flatMap_set (by decide) h.1
    rw [List.map_cons, Checked.pass, writes_append holds_turn_set, hhead, sets_cons]
    have hclear : ∀ ndx' ∈ ks, ∀ g ∈ globals,
        get (applyAll (upds (c.turn jobno it .set ndx)) db) (c.node jobno it ndx' g) = none := by
      intro ndx' hndx' g hg
      rw [← holds_turn_set.writes_eq (r := q), hhead, get_sets_of_ne]
      · exact h.2 ndx' hndx' g hg
      · refine Or.inl fun hmem => hks.1 ?_
        rwa [← List.mem_singleton.mp hmem]
    exact congrArg₂ (· ++ ·) (List.append_nil _) (ih hks.2 hclear)

theorem writes_kill_set (h : c.Exact n) :
    writes (c.randfill jobno .kill n it ++ c.randfill jobno .set n it) db q =
      c.kills jobno it globals (c.walk n) ++ c.sets jobno it globals (c.walk n) := by
  rw [writes_append holds_kill, ← holds_kill.writes_eq (r := q), writes_kill]
  refine congrArg _ (writes_pass_set (nodup_walk h) fun ndx hndx g hg => ?_)
  exact get_kills hndx hg

theorem holds_kill_set :
    Holds (c.randfill jobno .kill n it ++ c.randfill jobno .set n it) db q :=
  holds_append.mpr ⟨holds_kill, holds_set⟩

theorem holds_ver (h : ∀ ndx ∈ c.walk n, ∀ g ∈ globals,
    get db (c.node jobno it ndx g) = some (c.val ndx g)) :
    Holds (c.randfill jobno .ver n it) db q := by
  refine holds_of_exams fun o ho => ?_
  obtain rfl | ho := List.mem_cons.mp ho
  · exact ⟨rfl, fun _ => trivial⟩
  obtain ⟨turn, hturn, ho⟩ | ⟨rest, rfl⟩ := mem_pass ho
  · obtain ⟨ndx, hndx, rfl⟩ := List.mem_map.mp hturn
    obtain ⟨g, hg, ho⟩ := List.mem_flatMap.mp ho
    obtain rfl := List.mem_singleton.mp ho
    exact ⟨rfl, fun _ => h ndx hndx g hg⟩
  · exact ⟨rfl, fun _ => trivial⟩

theorem get_kill_set (h : c.Exact n) (hndx : ndx ∈ c.walk n) (hg : g ∈ globals) :
    get (applyAll (upds (c.randfill jobno .kill n it ++ c.randfill jobno .set n it)) db)
      (c.node jobno it ndx g) = some (c.val ndx g) := by
  rw [← holds_kill_set.writes_eq (r := none), writes_kill_set h, applyAll_append]
  exact get_sets hndx hg

theorem holds_calls (h : c.Exact n) : Holds (c.calls jobno n it) db q :=
  holds_append.mpr ⟨holds_kill_set, holds_ver fun _ hndx _ hg => get_kill_set h hndx hg⟩

theorem upds_ver : upds (c.randfill jobno .ver n it) = [] := by
  rw [upds_randfill, List.flatMap_eq_nil_iff]
  intro ndx _
  rw [List.flatMap_eq_nil_iff]
  exact fun g _ => rfl

theorem writes_calls (h : c.Exact n) : writes (c.calls jobno n it) db q =
    c.kills jobno it globals (c.walk n) ++ c.sets jobno it globals (c.walk n) := by
  have hver : writes (c.randfill jobno .ver n it)
      (applyAll (upds (c.randfill jobno .kill n it ++ c.randfill jobno .set n it)) db)
      (Checked.val (c.randfill jobno .kill n it ++ c.randfill jobno .set n it) db q) = [] := by
    rw [writes_eq_upds, upds_ver]
    intro o ho r
    obtain rfl | ho := List.mem_cons.mp ho
    · rfl
    obtain ⟨turn, hturn, ho⟩ | ⟨rest, rfl⟩ := mem_pass ho
    · obtain ⟨ndx, -, rfl⟩ := List.mem_map.mp hturn
      obtain ⟨g, -, ho⟩ := List.mem_flatMap.mp ho
      obtain rfl := List.mem_singleton.mp ho
      rfl
    · rfl
  rw [calls, writes_append holds_kill_set, hver, List.append_nil, writes_kill_set h]

end Cfg

end YdbTest.Stress
