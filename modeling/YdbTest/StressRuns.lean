import YdbTest.StressWalk

namespace YdbTest.Stress

open MString TreeStore Checked Schedule

namespace Cfg

variable {c : Cfg} {i j it it' jobno jobno' ndx ndx' n loop : Nat} {g g' : Gbl} {db : Db}
  {a : Atom Gbl Str Str} {u : Upd Gbl Str Str} {o : Checked.Op Gbl Str Str} {q : Option Str}

theorem tpflagAfter_eq (I : Nat) : c.tpflagAfter (I + 1) =
    if I + 1 < c.tprj then .TPR else .TPC := by
  induction I with
  | zero =>
    have := c.one_le
    rw [tpflagAfter]
    by_cases h : 1 = c.tprj
    · rw [if_pos h, if_neg (by omega)]
    · rw [if_neg h, if_pos rfl, if_pos (by omega)]
  | succ I ih =>
    rw [tpflagAfter]
    by_cases h : I + 1 + 1 = c.tprj
    · rw [if_pos h, if_neg (by omega)]
    · rw [if_neg h, if_neg (by omega), ih]
      by_cases hlt : I + 1 < c.tprj
      · rw [if_pos hlt, if_pos (by omega)]
      · rw [if_neg hlt, if_neg (by omega)]

theorem tpflag_eq (h : 1 ≤ jobno) : c.tpflag jobno =
    if jobno ≤ 1 then .NTP else if jobno ≤ c.tprj then .TPR else .TPC := by
  obtain rfl | ⟨I, rfl⟩ : jobno = 1 ∨ ∃ I, jobno = I + 1 + 1 := by
    obtain h | h := Nat.eq_or_lt_of_le h
    · exact Or.inl h.symm
    · exact Or.inr ⟨jobno - 2, by omega⟩
  · rfl
  · have hI : c.tpflag (I + 1 + 1) = c.tpflagAfter (I + 1) := rfl
    have hle : ¬ I + 1 + 1 ≤ 1 := by omega
    rw [hI, tpflagAfter_eq, if_neg hle]
    rfl

theorem tpflag_one : c.tpflag 1 = .NTP := rfl

theorem eq_one_of_NTP (h : 1 ≤ jobno) (hf : c.tpflag jobno = .NTP) : jobno = 1 := by
  rw [tpflag_eq h] at hf
  by_contra hne
  rw [if_neg (by omega)] at hf
  split at hf
  · cases hf
  · cases hf

theorem mnum_double (n : Nat) : ThreeEn1.mnum (n + n) % 2 = 0 := by
  unfold ThreeEn1.mnum
  dsimp only
  cases (Nat.digits 10 (n + n)).length - 18 with
  | zero =>
    rw [Nat.pow_zero, Nat.div_one, Nat.mul_one]
    omega
  | succ k => rw [Nat.pow_succ, ← Nat.mul_assoc, Nat.mul_mod, Nat.mul_zero, Nat.zero_mod]

theorem pno_used : Used (pno loop) := by
  have heven := mnum_double loop
  unfold Used pno
  omega

theorem mem_job (h : a ∈ c.job jobno) : 1 ≤ jobno ∧ jobno ≤ c.tpcj ∧
    ∃ loop, 1 ≤ loop ∧ loop ≤ c.iterate ∧ (a = .op (.upd (c.lasti jobno loop)) ∨
      c.tpflag jobno = .NTP ∧ (∃ o ∈ c.calls jobno (pno loop) loop, a = .op o) ∨
      ∃ commit, (c.tpflag jobno).transaction = some commit ∧
        a = .tp commit (c.calls jobno (pno loop) loop)) := by
  unfold job at h
  split_ifs at h with hj
  · obtain ⟨loop, hloop, ha⟩ := List.mem_flatMap.mp h
    rw [List.mem_range'_1] at hloop
    refine ⟨hj.1, hj.2, loop, hloop.1, by omega, ?_⟩
    unfold iteration at ha
    obtain ha | ha := List.mem_append.mp ha
    · refine Or.inr ?_
      cases hf : c.tpflag jobno with
      | NTP =>
        rw [hf] at ha
        obtain ⟨o, ho, rfl⟩ := List.mem_map.mp ha
        exact Or.inl ⟨rfl, o, ho, rfl⟩
      | TPR =>
        rw [hf] at ha
        exact Or.inr ⟨false, rfl, List.mem_singleton.mp ha⟩
      | TPC =>
        rw [hf] at ha
        exact Or.inr ⟨true, rfl, List.mem_singleton.mp ha⟩
    · exact Or.inl (List.mem_singleton.mp ha)
  · exact absurd h List.not_mem_nil

theorem mem_randfill (h : o ∈ c.randfill jobno act n it) : o = .begin ∨ (∃ rest, o = .quit rest) ∨
    ∃ ndx ∈ c.walk n, ∃ g ∈ globals, o ∈ c.update jobno it ndx act g := by
  obtain rfl | h := List.mem_cons.mp h
  · exact Or.inl rfl
  obtain ⟨turn, hturn, ho⟩ | hquit := mem_pass h
  · obtain ⟨ndx, hndx, rfl⟩ := List.mem_map.mp hturn
    obtain ⟨g, hg, ho⟩ := List.mem_flatMap.mp ho
    exact Or.inr (Or.inr ⟨ndx, hndx, g, hg, ho⟩)
  · exact Or.inr (Or.inl hquit)

theorem mem_calls (h : o ∈ c.calls jobno n it) : o = .begin ∨ (∃ rest, o = .quit rest) ∨
    ∃ act, ∃ ndx ∈ c.walk n, ∃ g ∈ globals, o ∈ c.update jobno it ndx act g := by
  have hact : ∃ act, o ∈ c.randfill jobno act n it := by
    obtain h | h := List.mem_append.mp h
    · obtain h | h := List.mem_append.mp h
      · exact ⟨.kill, h⟩
      · exact ⟨.set, h⟩
    · exact ⟨.ver, h⟩
  obtain ⟨act, h⟩ := hact
  exact (mem_randfill h).imp_right fun h => h.imp_right fun h => ⟨act, h⟩

theorem mem_update (h : o ∈ c.update jobno it ndx act g) :
    o = .upd (.kill (c.node jobno it ndx g)) ∨
    (g.own = false ∧ o = .upd (.set (c.node jobno it ndx g) (dec ndx))) ∨
    (g.own = true ∧ (o = .fetch (c.node jobno it ndx g) ∨
      o = .put (c.node jobno it ndx g) c.plus)) ∨
    o = .exam (c.node jobno it ndx g) (c.val ndx g) := by
  cases act with
  | kill => exact Or.inl (List.mem_singleton.mp h)
  | ver => exact Or.inr (Or.inr (Or.inr (List.mem_singleton.mp h)))
  | set =>
    cases hown : g.own with
    | true =>
      simp only [update, hown, if_true, List.mem_cons, List.not_mem_nil, or_false] at h
      exact Or.inr (Or.inr (Or.inl ⟨rfl, h⟩))
    | false =>
      simp only [update, hown, Bool.false_eq_true, if_false, List.mem_singleton] at h
      exact Or.inr (Or.inl ⟨rfl, h⟩)

theorem node_of_hits (h : o ∈ c.update jobno it ndx act g) (hu : u ∈ o.upds)
    (hhits : u.hits (c.node jobno' it' ndx' g') = true) :
    c.node jobno it ndx g = c.node jobno' it' ndx' g' := by
  obtain rfl | ⟨-, rfl⟩ | ⟨-, rfl | rfl⟩ | rfl := mem_update h
  · obtain rfl := List.mem_singleton.mp hu
    exact hits_kill hhits
  · obtain rfl := List.mem_singleton.mp hu
    exact of_decide_eq_true hhits
  · exact absurd hu List.not_mem_nil
  · obtain rfl := List.mem_singleton.mp hu
    exact of_decide_eq_true hhits
  · exact absurd hu List.not_mem_nil

theorem same_of_hits (h : o ∈ c.calls jobno n it) (hu : u ∈ o.upds)
    (hhits : u.hits (c.node jobno' it' ndx' g') = true) :
    it = it' ∧ (g'.own = true → c.pid jobno = c.pid jobno') := by
  obtain rfl | ⟨rest, rfl⟩ | ⟨act, ndx, -, g, -, ho⟩ := mem_calls h
  · exact absurd hu List.not_mem_nil
  · exact absurd hu List.not_mem_nil
  · obtain ⟨rfl, -, hit, hpid⟩ := node_inj (node_of_hits ho hu hhits)
    exact ⟨hit, hpid⟩

def Apart (c : Cfg) (jobno it jobno' it' : Nat) (g : Gbl) : Prop :=
  it ≠ it' ∨ g.own = true ∧ c.pid jobno ≠ c.pid jobno'

theorem look_op_keep (hap : c.Apart jobno it jobno' it' g) (h : o ∈ c.calls jobno n it)
    (r : Option Str) : look o.upds (c.node jobno' it' ndx g) r = r := by
  refine look_of_not_hits (fun u hu => ?_) r
  by_contra hhits
  obtain ⟨hit, hpid⟩ := same_of_hits h hu (by simpa using hhits)
  exact hap.elim (fun hne => hne hit) fun hne => hne.2 (hpid hne.1)

theorem look_calls_keep (hap : c.Apart jobno it jobno' it' g) (r : Option Str) :
    look (upds (c.calls jobno n it)) (c.node jobno' it' ndx g) r = r := by
  refine look_of_not_hits (fun u hu => ?_) r
  obtain ⟨o, ho, hu⟩ := List.mem_flatMap.mp hu
  by_contra hhits
  obtain ⟨hit, hpid⟩ := same_of_hits ho hu (by simpa using hhits)
  exact hap.elim (fun hne => hne hit) fun hne => hne.2 (hpid hne.1)

theorem look_lasti (hg : g ∈ globals) (r : Option Str) :
    look [c.lasti jobno loop] (c.node jobno' it' ndx g) r = r := by
  refine look_of_not_hits (fun u hu => ?_) r
  obtain rfl := List.mem_singleton.mp hu
  refine decide_eq_false fun heq => ?_
  have hlasti : Gbl.lasti = g := (congrArg Prod.fst heq).trans node_fst
  rw [← hlasti] at hg
  exact absurd hg (by decide)

theorem look_calls (h : c.Exact n) (h1 : 1 ≤ ndx) (hndx : ndx < c.prime) (hg : g ∈ globals)
    (r : Option Str) :
    look (upds (c.calls jobno n it)) (c.node jobno it ndx g) r = some (c.val ndx g) := by
  obtain ⟨db, rfl⟩ : ∃ db : Db, get db (c.node jobno it ndx g) = r := by
    cases r with
    | none => exact ⟨[], rfl⟩
    | some v => exact ⟨set (c.node jobno it ndx g) v [], (get_set _ _ _ _).trans (if_pos rfl)⟩
  rw [calls, upds_append, upds_ver, List.append_nil, ← get_applyAll]
  exact get_kill_set h ((mem_walk h).mpr ⟨h1, hndx⟩) hg

theorem private_node (hi : 1 ≤ i) (hle : i ≤ c.tpcj) (hown : g.own = true) (hg : g ∈ globals) :
    Private c.job i (c.node i it ndx g) := by
  intro j hj a ha r
  obtain ⟨hj1, hjle, loop, -, -, h⟩ := mem_job ha
  have hap : c.Apart j loop i it g :=
    Or.inr ⟨hown, fun hpid => hj (c.pid_inj j i hj1 hjle hi hle hpid)⟩
  obtain rfl | ⟨-, o, ho, rfl⟩ | ⟨commit, -, rfl⟩ := h
  · exact look_lasti hg r
  · exact look_op_keep hap ho r
  · cases commit with
    | true => exact look_calls_keep hap r
    | false => rfl

theorem led_node (hexact : ∀ i, Used i → c.Exact i) (h1 : 1 ≤ ndx) (hndx : ndx < c.prime)
    (hown : g.own = false) (hg : g ∈ globals) :
    Led c.job 1 (c.node 1 it ndx g) (c.val ndx g) := by
  constructor
  · intro a ha
    obtain ⟨-, -, loop, -, -, h⟩ := mem_job ha
    obtain rfl | ⟨-, o, ho, rfl⟩ | ⟨commit, htx, rfl⟩ := h
    · exact Or.inl (look_lasti hg)
    · change Interleave.Decides o.upds _
      obtain rfl | ⟨rest, rfl⟩ | ⟨act, ndx', -, g', -, ho⟩ := mem_calls ho
      · exact Or.inl fun _ => rfl
      · exact Or.inl fun _ => rfl
      · obtain rfl | ⟨-, rfl⟩ | ⟨hg', rfl | rfl⟩ | rfl := mem_update ho
        · exact Interleave.decides_plain (List.forall_mem_singleton.mpr trivial)
        · exact Interleave.decides_plain (List.forall_mem_singleton.mpr trivial)
        · exact Or.inl fun _ => rfl
        · refine Or.inl (look_of_not_hits fun u hu => ?_)
          obtain rfl := List.mem_singleton.mp hu
          refine decide_eq_false fun heq => ?_
          obtain ⟨rfl, -⟩ := node_inj heq
          rw [hown] at hg'
          cases hg'
        · exact Or.inl fun _ => rfl
    · rw [tpflag_one] at htx
      cases htx
  · intro j hj a ha
    obtain ⟨hj1, -, loop, -, -, h⟩ := mem_job ha
    obtain rfl | ⟨hf, -⟩ | ⟨commit, -, rfl⟩ := h
    · exact look_lasti hg _
    · exact absurd (eq_one_of_NTP hj1 hf) hj
    · cases commit with
      | false => rfl
      | true =>
        change look (upds (c.calls j (pno loop) loop)) _ _ = _
        have hnode : c.node 1 it ndx g = c.node j it ndx g := node_shared hown
        rw [hnode]
        by_cases hit : loop = it
        · subst hit
          exact look_calls (hexact _ pno_used) h1 hndx hg _
        · exact look_calls_keep (Or.inl hit) _

def ops (c : Cfg) : Ops :=
  (List.range' 1 c.iterate).flatMap fun loop =>
    c.calls 1 (pno loop) loop ++ [.upd (c.lasti 1 loop)]

theorem one_le_tpcj : 1 ≤ c.tpcj := c.one_le.trans c.le

theorem job_one : c.job 1 = c.ops.map .op := by
  have hiter : ∀ loop, c.iteration 1 loop =
      (c.calls 1 (pno loop) loop ++ [Op.upd (c.lasti 1 loop)]).map .op := by
    intro loop
    rw [List.map_append]
    rfl
  rw [job, if_pos ⟨Nat.le_refl 1, one_le_tpcj⟩, ops, List.map_flatMap]
  exact List.flatMap_congr fun loop _ => hiter loop

theorem holds_ops (hexact : ∀ i, Used i → c.Exact i) (db : Db) : Holds c.ops db q := by
  refine holds_flatMap fun loop _ db r => holds_append.mpr ⟨?_, trivial, trivial⟩
  exact holds_calls (hexact _ pno_used)

theorem safe_ops (hexact : ∀ i, Used i → c.Exact i) (ho : o ∈ c.ops) :
    o.Safe c.job 1 := by
  obtain ⟨loop, -, ho⟩ := List.mem_flatMap.mp ho
  obtain ho | ho := List.mem_append.mp ho
  · obtain rfl | ⟨rest, rfl⟩ | ⟨act, ndx, hndx, g, hg, ho⟩ := mem_calls ho
    · trivial
    · trivial
    · have hpriv : g.own = true → Private c.job 1 (c.node 1 loop ndx g) := fun hown =>
      private_node (Nat.le_refl 1) one_le_tpcj hown hg
      obtain rfl | ⟨-, rfl⟩ | ⟨hown, rfl | rfl⟩ | rfl := mem_update ho
      · trivial
      · trivial
      · exact hpriv hown
      · exact hpriv hown
      · obtain ⟨h1, hlt⟩ := (mem_walk (hexact _ pno_used)).mp hndx
        cases hown : g.own with
        | true => exact Or.inl (hpriv hown)
        | false => exact Or.inr (led_node hexact h1 hlt hown hg)
  · obtain rfl := List.mem_singleton.mp ho
    trivial

/-- What the job without transactions has in its local variable. -/
def Fits (c : Cfg) (db : Db) (jobno pos : Nat) (r : Option Str) : Prop :=
  jobno = 1 → r = Checked.val (c.ops.take pos) db none

variable (db) in
theorem run_plain (hexact : ∀ i, Used i → c.Exact i) (acts : List (Checked.Act Nat)) :
    ∃ is, (run c.step (Checked.initial db) acts).db =
        (run (plainStep c.job) (Interleave.initial db) is).db ∧
      (run c.step (Checked.initial db) acts).pos =
        (run (plainStep c.job) (Interleave.initial db) is).pos ∧
      Clean (run c.step (Checked.initial db) acts) := by
  have hclean := run_checked MAXERR c.job db (c.Fits db)
    (fun _ _ => rfl) ?_ ?_ acts
  · obtain ⟨is, hdb, hpos, hloc⟩ := hclean
    exact ⟨is, hdb, hpos, fun i => (hloc i).imp fun r hr => hr.1⟩
  · intro is i a r ha hr
    obtain ⟨-, -, loop, -, -, h⟩ := mem_job (List.mem_of_getElem? ha)
    by_cases hi : i = 1
    · subst hi
      obtain rfl := hr rfl
      obtain ⟨o, ho, rfl⟩ : ∃ o, c.ops[(run (plainStep c.job) (Interleave.initial db) is).pos 1]? =
          some o ∧ a = .op o := by
        rw [job_one, List.getElem?_map, Option.map_eq_some_iff] at ha
        exact ha.imp fun o h => ⟨h.1, h.2.symm⟩
      obtain ⟨hholds, hval⟩ := op_checked job_one (fun db => holds_ops hexact db)
        (fun o ho => safe_ops hexact ho) is ho
      exact ⟨hholds, fun _ => hval⟩
    · refine ⟨?_, fun h1 => absurd h1 hi⟩
      obtain rfl | ⟨hf, -⟩ | ⟨commit, -, rfl⟩ := h
      · trivial
      · exact absurd (eq_one_of_NTP (mem_job (List.mem_of_getElem? ha)).1 hf) hi
      · exact holds_calls (hexact _ pno_used)
  · intro i p commit ops r ha h1
    subst h1
    rw [job_one, List.getElem?_map, Option.map_eq_some_iff] at ha
    obtain ⟨o, -, ho⟩ := ha
    cases ho

theorem upds_iteration (hf : c.tpflag jobno ≠ .TPR) : (c.iteration jobno loop).flatMap Atom.upds =
    upds (c.calls jobno (pno loop) loop) ++ [c.lasti jobno loop] := by
  rw [iteration, List.flatMap_append]
  refine congrArg₂ (· ++ ·) ?_ rfl
  cases h : c.tpflag jobno with
  | NTP => exact List.flatMap_map Atom.op Atom.upds (c.calls jobno (pno loop) loop)
  | TPR => exact absurd h hf
  | TPC => exact List.append_nil _

theorem look_job (hexact : ∀ i, Used i → c.Exact i) (hj : 1 ≤ jobno) (hle : jobno ≤ c.tpcj)
    (hf : c.tpflag jobno ≠ .TPR) (h1 : 1 ≤ it) (hit : it ≤ c.iterate) (hn1 : 1 ≤ ndx)
    (hndx : ndx < c.prime) (hg : g ∈ globals) (r : Option Str) :
    look ((c.job jobno).flatMap Atom.upds) (c.node jobno it ndx g) r = some (c.val ndx g) := by
  have hupds : (c.job jobno).flatMap Atom.upds = (List.range' 1 c.iterate).flatMap fun loop =>
      upds (c.calls jobno (pno loop) loop) ++ [c.lasti jobno loop] := by
    rw [job, if_pos ⟨hj, hle⟩, List.flatMap_assoc]
    exact List.flatMap_congr fun loop _ => upds_iteration hf
  have hown : ∀ r, look (upds (c.calls jobno (pno it) it) ++ [c.lasti jobno it])
      (c.node jobno it ndx g) r = some (c.val ndx g) := by
    intro r
    rw [look_append, look_calls (hexact _ pno_used) hn1 hndx hg, look_lasti hg]
  rw [hupds]
  refine look_flatMap_const (fun loop _ => ?_) ⟨it, ?_, hown⟩ r
  · by_cases heq : loop = it
    · subst heq
      exact Or.inr hown
    · refine Or.inl fun r => ?_
      rw [look_append, look_calls_keep (Or.inl heq), look_lasti hg]
  · rw [List.mem_range'_1]
    omega

theorem get_through (hexact : ∀ i, Used i → c.Exact i) (is : List Nat)
    (hthrough : ∀ jobno, (c.job jobno).length ≤
      (run (plainStep c.job) (Interleave.initial db) is).pos jobno)
    (hj : 1 ≤ jobno) (hle : jobno ≤ c.tpcj) (hf : c.tpflag jobno ≠ .TPR) (h1 : 1 ≤ it)
    (hit : it ≤ c.iterate) (hn1 : 1 ≤ ndx) (hndx : ndx < c.prime) (hg : g ∈ globals) :
    get (run (plainStep c.job) (Interleave.initial db) is).db (c.node jobno it ndx g) =
      some (c.val ndx g) := by
  cases hown : g.own with
  | true =>
    rw [Interleave.run_own (private_node hj hle hown hg) is,
      Interleave.made_through Atom.upds c.job (hthrough jobno)]
    exact look_job hexact hj hle hf h1 hit hn1 hndx hg _
  | false =>
    have hled : Led c.job 1 (c.node 1 it ndx g) (c.val ndx g) :=
      led_node hexact hn1 hndx hown hg
    have hnode : c.node jobno it ndx g = c.node 1 it ndx g := node_shared hown
    rw [hnode]
    refine Interleave.run_leader hled.1 hled.2 is ?_
    rw [Interleave.made_through Atom.upds c.job (hthrough 1)]
    refine look_job hexact (Nat.le_refl 1) one_le_tpcj ?_ h1 hit hn1 hndx hg _
    rw [tpflag_one]
    decide

theorem mem_ver {x : Node Gbl Str} {v : Str} : .exam x v ∈ c.randfill jobno .ver n it ↔
    ∃ ndx ∈ c.walk n, ∃ g ∈ globals, x = c.node jobno it ndx g ∧ v = c.val ndx g := by
  constructor
  · intro h
    obtain h | ⟨rest, h⟩ | ⟨ndx, hndx, g, hg, ho⟩ := mem_randfill h
    · cases h
    · cases h
    · obtain ⟨hx, hv⟩ := Op.exam.inj (List.mem_singleton.mp ho)
      exact ⟨ndx, hndx, g, hg, hx, hv⟩
  · rintro ⟨ndx, hndx, g, hg, rfl, rfl⟩
    refine List.mem_cons_of_mem _ (mem_pass_of_turn (List.mem_map.mpr ⟨ndx, hndx, rfl⟩) ?_)
    exact List.mem_flatMap.mpr ⟨g, hg, List.mem_singleton.mpr rfl⟩

theorem verifies_of_exact (hexact : ∀ i, Used i → c.Exact i) : c.Verifies := by
  intro db acts σ
  obtain ⟨is, hdb, hpos, hclean⟩ := run_plain db hexact acts
  refine ⟨hclean, fun hthrough jobno veriter hj hle hf h1 hit => ⟨fun x v hx => ?_, ?_⟩⟩
  · obtain ⟨ndx, hndx, g, hg, rfl, rfl⟩ := mem_ver.mp hx
    rw [mem_walk (hexact _ pno_used)] at hndx
    exact mem_ver.mpr ⟨ndx, (mem_walk (hexact 1 (by decide))).mpr hndx, g, hg, rfl, rfl⟩
  · have hholds : Holds (c.randfill jobno .ver 1 veriter) σ.db none := by
      refine holds_ver fun ndx hndx g hg => ?_
      obtain ⟨hn1, hlt⟩ := (mem_walk (hexact 1 (by decide))).mp hndx
      have hthrough' : ∀ jobno, (c.job jobno).length ≤
          (run (plainStep c.job) (Interleave.initial db) is).pos jobno := by
        intro j
        rw [← hpos]
        exact hthrough j
      rw [show σ.db = _ from hdb]
      exact get_through hexact is hthrough' hj hle hf h1 hit hn1 hlt hg
    refine ⟨Checked.val (c.randfill jobno .ver 1 veriter) σ.db none, ?_⟩
    rw [execAll_clean hholds, upds_ver]
    rfl

end Cfg

end YdbTest.Stress
