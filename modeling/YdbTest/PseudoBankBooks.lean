import YdbTest.PseudoBankTransfer
import Mathlib.Algebra.BigOperators.Ring.Finset

namespace YdbTest.PseudoBank

open MString CInt Decimal Pieces

variable {n : Nat} {user now cid s d : Int} {db db' : Database} {σ σ' : State} {t : Transfer}
  {v : Str}

/-- The books of one account: the balance is the opening one and the amounts of the history, whose
records are numbered from 1 on. -/
structure Kept (db : Database) (cid : Int) : Prop where
  held : Holds db cid (balance db cid) (histSeq db cid)
  started : 1 ≤ histSeq db cid
  balanced : balance db cid = 10000000 +
    ∑ s ∈ Finset.range (histSeq db cid).toNat, amount db cid ((s : Int) + 1)
  numbered : ∀ s, (db.hist cid s).isSome ↔ 1 ≤ s ∧ s ≤ histSeq db cid
  opened : db.hist cid 1 = some (lit "Account Create||10000000")

theorem Kept.congr (h : Kept db cid) (ha : db'.acn cid = db.acn cid)
    (hh : db'.hist cid = db.hist cid) : Kept db' cid := by
  have hb : balance db' cid = balance db cid := by rw [balance, ha, balance]
  have hs : histSeq db' cid = histSeq db cid := by rw [histSeq, ha, histSeq]
  have hm : amount db' cid = amount db cid := by
    funext s
    rw [amount, hh, amount]
  obtain ⟨held, started, balanced, numbered, opened⟩ := h
  refine ⟨?_, by rwa [hs], by rwa [hb, hs, hm], by rwa [hs, hh], by rwa [hh]⟩
  rw [hb, hs]
  exact ⟨ha.trans held.1, held.2⟩

theorem Kept.entry (h : Kept db cid)
    (ha : Holds db' cid (balance db cid + d) (histSeq db cid + 1))
    (hh : db'.hist cid = Function.update (db.hist cid) (histSeq db cid + 1) (some v))
    (hv : atoi (piece v bar 2) = some d) : Kept db' cid := by
  have hb := balance_holds ha
  have hs := histSeq_holds ha
  have hstart := h.started
  have hnew : amount db' cid (histSeq db cid + 1) = d := by
    rw [amount, hh, Function.update_self, Option.bind_some, hv]
    rfl
  have hold : ∀ s, s ≠ histSeq db cid + 1 → amount db' cid s = amount db cid s := by
    intro s hne
    rw [amount, hh, Function.update_of_ne hne, amount]
  refine ⟨by rwa [hb, hs], by omega, ?_, ?_, ?_⟩
  · have hlen : (histSeq db' cid).toNat = (histSeq db cid).toNat + 1 := by omega
    have hlast : (((histSeq db cid).toNat : Nat) : Int) + 1 = histSeq db cid + 1 := by omega
    rw [hlen, Finset.sum_range_succ, hlast, hnew, hb, h.balanced, add_assoc]
    congr 2
    apply Finset.sum_congr rfl
    intro s hmem
    have := Finset.mem_range.mp hmem
    exact (hold _ (by omega)).symm
  · intro s
    rw [hh, hs]
    by_cases he : s = histSeq db cid + 1
    · rw [he, Function.update_self]
      simp
      omega
    · rw [Function.update_of_ne he, h.numbered]
      omega
  · rw [hh, Function.update_of_ne (by omega), h.opened]

theorem atoi_amount (comment : Str) (hc : bar ∉ comment) (cid seq amt bal user : Int)
    (ha : int amt = some amt) :
    atoi (piece (HistRecord.value ⟨cid, seq, comment, amt, bal, user⟩) bar 2) = some amt := by
  have hw : ∀ w ∈ [comment, sprintd amt, sprintd bal, sprintd user], bar ∉ w := by
    simp [hc, bar_not_mem_sprintd]
  have hp := piece_intercalate (k := 1) hw (by simp)
  rw [HistRecord.value, hp]
  exact (atoi_sprintd amt).trans ha

theorem piece_log (g : TrnLog) (now : Int) : piece (g.value now) bar 3 = sprintd g.cid ∧
    piece (g.value now) bar 4 = sprintd g.amt ∧ piece (g.value now) bar 5 = sprintd g.endBal := by
  have hw : ∀ w ∈ [sprintd g.guid, sprintd now, sprintd g.cid, sprintd g.amt, sprintd g.endBal,
      sprintd g.user], bar ∉ w := by simp [bar_not_mem_sprintd]
  exact ⟨piece_intercalate (k := 2) hw (by simp), piece_intercalate (k := 3) hw (by simp),
    piece_intercalate (k := 4) hw (by simp)⟩

def Between (t : Transfer) : Prop :=
  t.args.amt = TRAN_AMT ∧ ∃ i < ACC_NEEDED, ∃ j < ACC_NEEDED, i ≠ j ∧
    t.args.from_ = START_CID + (i : Nat) ∧ t.args.to_ = START_CID + (j : Nat)

def Continues (t : Transfer) (db : Database) : Prop :=
  t.fromSeq = histSeq db t.args.from_ + 1 ∧ t.fromBal = balance db t.args.from_ - t.args.amt ∧
    t.toSeq = histSeq db t.args.to_ + 1 ∧ t.toBal = balance db t.args.to_ + t.args.amt

theorem Between.ne (hb : Between t) : t.args.from_ ≠ t.args.to_ := by
  obtain ⟨-, i, -, j, -, hij, hi, hj⟩ := hb
  omega

section Step

variable (hb : Between t) (hc : Continues t db) (hfits : t.Fits)
include hb hc hfits

theorem kept_after (hk : Kept db cid) : Kept (t.after now db) cid := by
  have hne := hb.ne
  obtain ⟨c1, c2, c3, c4⟩ := hc
  have hamt := hb.1
  by_cases hf : cid = t.args.from_
  · subst hf
    have hd : int (-t.args.amt) = some (-t.args.amt) := by rw [hamt]; rfl
    have hh := holds_from db now hne hfits
    rw [c2, c1, sub_eq_add_neg] at hh
    have hhist := hist_from db now hne
    rw [c1] at hhist
    exact hk.entry hh hhist (atoi_amount _ (by simp [bar_not_mem_sprintd]; decide) _ _ _ _ _ hd)
  · by_cases ht : cid = t.args.to_
    · subst ht
      have hd : int t.args.amt = some t.args.amt := by rw [hamt]; rfl
      have hh := holds_to db now hfits
      rw [c4, c3] at hh
      have hhist := hist_to db now hne
      rw [c3] at hhist
      exact hk.entry hh hhist (atoi_amount _ (by simp [bar_not_mem_sprintd]; decide) _ _ _ _ _ hd)
    · exact hk.congr (acn_other _ _ hf ht) (hist_other _ _ hf ht)

theorem balance_after (cid : Int) : balance (t.after now db) cid = balance db cid +
    (if cid = t.args.to_ then t.args.amt else 0) - if cid = t.args.from_ then t.args.amt else 0 := by
  have hne := hb.ne
  by_cases hf : cid = t.args.from_
  · rw [hf, balance_holds (holds_from _ _ hne hfits), if_neg hne, if_pos rfl, hc.2.1, add_zero]
  · by_cases ht : cid = t.args.to_
    · rw [ht, balance_holds (holds_to _ _ hfits), if_pos rfl, if_neg hne.symm, hc.2.2.2, sub_zero]
    · rw [balance, acn_other _ _ hf ht, if_neg hf, if_neg ht, add_zero, sub_zero, balance]

theorem total_after : ∑ i ∈ Finset.range ACC_NEEDED, balance (t.after now db) (START_CID + (i : Nat)) =
    ∑ i ∈ Finset.range ACC_NEEDED, balance db (START_CID + (i : Nat)) := by
  have hat : ∀ k < ACC_NEEDED, ∑ i ∈ Finset.range ACC_NEEDED,
      (if START_CID + (i : Int) = START_CID + (k : Int) then t.args.amt else 0) = t.args.amt := by
    intro k hk
    have heq : ∀ i : Nat, (START_CID + (i : Int) = START_CID + (k : Int)) = (k = i) := by
      intro i
      apply propext
      omega
    simp only [heq]
    rw [Finset.sum_ite_eq, if_pos (Finset.mem_range.mpr hk)]
  obtain ⟨-, i, hi, j, hj, -, hfrom, hto⟩ := id hb
  simp only [balance_after hb hc hfits]
  rw [Finset.sum_sub_distrib, Finset.sum_add_distrib, hfrom, hto, hat i hi, hat j hj]
  ring

omit hfits in
theorem hist_kept (hf : Kept db t.args.from_) (ht : Kept db t.args.to_)
    (h : db.hist cid s = some v) : (t.after now db).hist cid s = some v := by
  have hne := hb.ne
  have hsome : (db.hist cid s).isSome := by rw [h]; rfl
  by_cases hcf : cid = t.args.from_
  · subst hcf
    have hle := ((hf.numbered s).mp hsome).2
    have hs : s ≠ t.fromSeq := by
      have := hc.1
      omega
    rw [hist_from _ _ hne, Function.update_of_ne hs, h]
  · by_cases hct : cid = t.args.to_
    · subst hct
      have hle := ((ht.numbered s).mp hsome).2
      have hs : s ≠ t.toSeq := by
        have := hc.2.2.1
        omega
      rw [hist_to _ _ hne, Function.update_of_ne hs, h]
    · rw [hist_other _ _ hcf hct, h]

end Step

section Init

variable {i : Nat}

theorem initAccounts (m : Nat) :
    (∀ i < m, ((List.range m).foldl initAccount empty).acn (START_CID + (i : Nat)) =
        some (lit "1|10000000") ∧
      ((List.range m).foldl initAccount empty).hist (START_CID + (i : Nat)) =
        Function.update (fun _ => none) 1 (some (lit "Account Create||10000000"))) ∧
      ∀ i, m ≤ i → ((List.range m).foldl initAccount empty).hist (START_CID + (i : Nat)) =
        fun _ => none := by
  induction m with
  | zero => exact ⟨fun i hi => absurd hi (Nat.not_lt_zero i), fun _ _ => rfl⟩
  | succ m ih =>
    rw [List.range_succ, List.foldl_append, List.foldl_cons, List.foldl_nil]
    obtain ⟨hold, hnew⟩ := ih
    refine ⟨?_, ?_⟩
    · intro i hi
      by_cases he : i = m
      · subst he
        refine ⟨Function.update_self _ _ _, (Function.update_self _ _ _).trans ?_⟩
        rw [hnew i le_rfl]
      · have hcid : START_CID + (i : Int) ≠ START_CID + (m : Int) := by omega
        obtain ⟨ha, hh⟩ := hold i (by omega)
        exact ⟨(Function.update_of_ne hcid _ _).trans ha, (Function.update_of_ne hcid _ _).trans hh⟩
    · intro i hi
      have hcid : START_CID + (i : Int) ≠ START_CID + (m : Int) := by omega
      exact (Function.update_of_ne hcid _ _).trans (hnew i (by omega))

theorem holds_init (hi : i < ACC_NEEDED) :
    Holds (initData empty) (START_CID + (i : Nat)) 10000000 1 := by
  have ha := ((initAccounts ACC_NEEDED).1 i hi).1
  rw [← initData] at ha
  refine ⟨ha.trans ?_, rfl, rfl⟩
  rw [value_eq]
  rfl

theorem kept_init (hi : i < ACC_NEEDED) : Kept (initData empty) (START_CID + (i : Nat)) := by
  have hh := holds_init hi
  have hb := balance_holds hh
  have hs := histSeq_holds hh
  have hhist := ((initAccounts ACC_NEEDED).1 i hi).2
  rw [← initData] at hhist
  have hopen : (initData empty).hist (START_CID + (i : Nat)) 1 =
      some (lit "Account Create||10000000") := by
    rw [hhist, Function.update_self]
  refine ⟨by rwa [hb, hs], by omega, ?_, ?_, hopen⟩
  · rw [hb, hs, Int.toNat_one, Finset.sum_range_one, amount, Nat.cast_zero, zero_add, hopen]
    decide
  · intro s
    rw [hs, hhist]
    by_cases he : s = 1
    · subst he
      simp
    · rw [Function.update_of_ne he]
      simp
      omega

theorem total_init : ∑ i ∈ Finset.range ACC_NEEDED, balance (initData empty) (START_CID + (i : Nat)) =
    ACC_NEEDED * 10000000 := by
  have hb : ∀ i ∈ Finset.range ACC_NEEDED, balance (initData empty) (START_CID + (i : Nat)) =
      10000000 := fun i hi => balance_holds (holds_init (Finset.mem_range.mp hi))
  rw [Finset.sum_congr rfl hb, Finset.sum_const, Finset.card_range, nsmul_eq_mul]

end Init

end YdbTest.PseudoBank
