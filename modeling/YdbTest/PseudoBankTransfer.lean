import YdbTest.PseudoBank
import YdbTest.Pieces
import Mathlib.Algebra.BigOperators.Intervals
import Mathlib.Data.List.TakeWhile

namespace YdbTest.PseudoBank

open MString CInt Decimal Pieces

variable {n guid numRuns rand1 rand2 : Nat} {user now cid bal seq : Int} {args : tpArgs}
  {db db' : Database}

theorem readNumber_true_dec (m : Nat) : (readNumber true 0 0 (dec m)).1 = m := by
  by_cases hm : m = 0
  · subst hm
    rfl
  · rw [dec_eq_digits hm, digits, ← List.append_nil (digitsStr _), readNumber_digitsStr _ _ _ _ _
      (fun d hd => Nat.digits_lt_base (by omega) hd), Nat.ofDigits_digits]
    simp [readNumber]

theorem atoi_sprintd (x : Int) : atoi (sprintd x) = int x := by
  by_cases hx : x < 0
  · rw [sprintd, if_pos hx, atoi, readNumber_true_dec]
    congr 1
    omega
  · rw [sprintd, if_neg hx]
    have hread : atoi (dec x.natAbs) = int (readNumber true 0 0 (dec x.natAbs)).1 := by
      unfold atoi
      split
      · rename_i s hs
        have hd := dec_digit (m := x.natAbs) (c := 45) (hs ▸ List.mem_cons_self)
        omega
      · rfl
    rw [hread, readNumber_true_dec]
    congr 1
    omega

theorem bar_not_mem_sprintd (x : Int) : bar ∉ sprintd x := by
  intro h
  unfold sprintd at h
  split at h
  · obtain h | h := List.mem_cons.mp h
    · exact absurd h (by decide)
    · exact absurd (dec_digit h) (by decide)
  · exact absurd (dec_digit h) (by decide)

theorem sprintd_ne_nil (x : Int) : sprintd x ≠ [] := by
  unfold sprintd
  split
  · exact List.cons_ne_nil _ _
  · exact dec_ne_nil _

theorem dropWhile_bar {w : Str} (hne : w ≠ []) (hw : bar ∉ w) (s : Str) :
    (w ++ s).dropWhile (· = bar) = w ++ s := by
  cases w with
  | nil => exact absurd rfl hne
  | cons c w =>
    have hc : c ≠ bar := fun h => hw (h ▸ List.mem_cons_self)
    rw [List.cons_append, List.dropWhile_cons_of_neg (by simpa using hc)]

theorem strtok_append {w s : Str} (hne : w ≠ []) (hw : bar ∉ w) :
    strtok (w ++ bar :: s) = some (w, s) := by
  have hall : ∀ c ∈ w, decide (c ≠ bar) = true := by
    intro c hc
    exact decide_eq_true fun h => hw (h ▸ hc)
  rw [strtok, dropWhile_bar hne hw, if_neg (by simp [hne]), List.takeWhile_append_of_pos hall,
    List.dropWhile_append_of_pos hall]
  simp

theorem strtok_last {w : Str} (hne : w ≠ []) (hw : bar ∉ w) : strtok w = some (w, []) := by
  have hall : ∀ c ∈ w, decide (c ≠ bar) = true := by
    intro c hc
    exact decide_eq_true fun h => hw (h ▸ hc)
  have hd := dropWhile_bar hne hw []
  rw [List.append_nil] at hd
  rw [strtok, hd, if_neg hne, List.takeWhile_eq_self_iff.mpr hall,
    List.dropWhile_eq_nil_iff.mpr hall, List.drop_nil]

def Holds (db : Database) (cid bal seq : Int) : Prop :=
  db.acn cid = some (Account.value ⟨cid, bal, seq⟩) ∧ int bal = some bal ∧ int seq = some seq

theorem value_eq (cid bal seq : Int) :
    Account.value ⟨cid, bal, seq⟩ = sprintd seq ++ bar :: sprintd bal := by
  simp [Account.value, List.intercalate]

theorem Account_Load_holds (h : Holds db cid bal seq) :
    Account_Load db cid = some ⟨cid, bal, seq⟩ := by
  obtain ⟨ha, hb, hs⟩ := h
  have hfirst : strtok (Account.value ⟨cid, bal, seq⟩) = some (sprintd seq, sprintd bal) := by
    rw [value_eq]
    exact strtok_append (sprintd_ne_nil seq) (bar_not_mem_sprintd seq)
  have hsecond : strtok (sprintd bal) = some (sprintd bal, []) :=
    strtok_last (sprintd_ne_nil bal) (bar_not_mem_sprintd bal)
  simp [Account_Load, ha, hfirst, hsecond, atoi_sprintd, hb, hs]

theorem piece_account (cid bal seq : Int) :
    piece (Account.value ⟨cid, bal, seq⟩) bar 1 = sprintd seq ∧
      piece (Account.value ⟨cid, bal, seq⟩) bar 2 = sprintd bal := by
  have hw : ∀ w ∈ [sprintd seq, sprintd bal], bar ∉ w := by
    intro w hw
    obtain rfl | rfl : w = sprintd seq ∨ w = sprintd bal := by simpa using hw
    · exact bar_not_mem_sprintd seq
    · exact bar_not_mem_sprintd bal
  exact ⟨piece_intercalate (k := 0) hw Nat.zero_lt_two, piece_intercalate (k := 1) hw Nat.one_lt_two⟩

theorem balance_holds (h : Holds db cid bal seq) : balance db cid = bal := by
  rw [balance, h.1, Option.bind_some, (piece_account cid bal seq).2, atoi_sprintd, h.2.1]
  rfl

theorem histSeq_holds (h : Holds db cid bal seq) : histSeq db cid = seq := by
  rw [histSeq, h.1, Option.bind_some, (piece_account cid bal seq).1, atoi_sprintd, h.2.2]
  rfl

theorem childThread_spec (h : childThread n guid numRuns rand1 rand2 user = some args) :
    args.ref = ((guid + numRuns * 10 ^ idShift n : Nat) : Int) ∧ args.amt = TRAN_AMT ∧
      ∃ i < ACC_NEEDED, ∃ j < ACC_NEEDED, i ≠ j ∧ args.from_ = START_CID + (i : Nat) ∧
        args.to_ = START_CID + (j : Nat) := by
  have hi : rand1 % 1000 < 1000 := Nat.mod_lt _ (by decide)
  have hj : rand2 % 999 < 999 := Nat.mod_lt _ (by decide)
  simp only [childThread, Option.bind_eq_bind, Option.bind_eq_some_iff, Option.some.injEq] at h
  obtain ⟨ref, href, rfl⟩ := h
  have hr : ref = (guid : Int) + numRuns * 10 ^ idShift n := by
    unfold int at href
    split at href
    · exact (Option.some.inj href).symm
    · exact absurd href (Option.some_ne_none ref).symm
  refine ⟨by rw [hr]; push_cast; rfl, rfl, ?_⟩
  by_cases he : rand1 % 1000 = rand2 % 999
  · refine ⟨rand1 % 1000, hi, rand2 % 999 + 1, ?_, by omega, rfl, ?_⟩
    · exact Nat.lt_of_lt_of_le (Nat.succ_lt_succ hj) (by decide)
    · simp [START_CID, ACC_NEEDED, he]
      ring
  · refine ⟨rand1 % 1000, hi, rand2 % 999, Nat.lt_trans hj (by decide), he, rfl, ?_⟩
    have hne : ¬ (rand1 : Int) % 1000 = rand2 % 999 := by omega
    simp [START_CID, ACC_NEEDED, hne]

namespace Transfer

variable (t : Transfer)

def histFrom : HistRecord :=
  ⟨t.args.from_, t.fromSeq, lit "Transfer to " ++ sprintd t.args.to_, -t.args.amt, t.fromBal,
    t.args.ref⟩

def histTo : HistRecord :=
  ⟨t.args.to_, t.toSeq, lit "Transfer from " ++ sprintd t.args.from_, t.args.amt, t.toBal,
    t.args.ref⟩

def trnLogFrom : TrnLog := ⟨t.args.ref, 1, t.args.from_, -t.args.amt, t.fromBal, t.args.user⟩

def trnLogTo : TrnLog := ⟨t.args.ref, 2, t.args.from_, t.args.amt, t.fromBal, t.args.user⟩

def after (now : Int) (db : Database) : Database where
  acn := Function.update
    (Function.update db.acn t.args.from_ (some (Account.value ⟨t.args.from_, t.fromBal, t.fromSeq⟩)))
    t.args.to_ (some (Account.value ⟨t.args.to_, t.toBal, t.toSeq⟩))
  hist := set (set db.hist t.args.from_ t.fromSeq t.histFrom.value) t.args.to_ t.toSeq t.histTo.value
  trnlog := set (set db.trnlog t.args.ref 1 (t.trnLogFrom.value now)) t.args.ref 2
    (t.trnLogTo.value now)

/-- The accounts after the transfer, as `int` values. -/
def Fits : Prop :=
  int t.fromSeq = some t.fromSeq ∧ int t.fromBal = some t.fromBal ∧
    int t.toSeq = some t.toSeq ∧ int t.toBal = some t.toBal

end Transfer

theorem int_some {x y : Int} (h : int x = some y) : y = x ∧ int x = some x := by
  have hx : y = x := by
    unfold int at h
    split at h
    · exact (Option.some.inj h).symm
    · exact absurd h (Option.some_ne_none y).symm
  exact ⟨hx, hx ▸ h⟩

theorem postTransfer_spec {balFrom seqFrom balTo seqTo : Int}
    (hf : Holds db args.from_ balFrom seqFrom) (ht : Holds db args.to_ balTo seqTo)
    (h : postTransfer now args db = some db') :
    Transfer.Fits ⟨args, seqFrom + 1, seqTo + 1, balFrom - args.amt, balTo + args.amt⟩ ∧
      db' = Transfer.after ⟨args, seqFrom + 1, seqTo + 1, balFrom - args.amt, balTo + args.amt⟩
        now db := by
  simp only [postTransfer, Account_Load_holds hf, Account_Load_holds ht, add, Option.bind_eq_bind,
    Option.bind_some, Option.bind_eq_some_iff, Option.some.injEq] at h
  obtain ⟨fromSeq, h1, fromBal, h2, toSeq, h3, toBal, h4, minusAmt, h5, rfl⟩ := h
  obtain ⟨rfl, h1⟩ := int_some h1
  obtain ⟨rfl, h2⟩ := int_some h2
  obtain ⟨rfl, h3⟩ := int_some h3
  obtain ⟨rfl, h4⟩ := int_some h4
  obtain ⟨rfl, -⟩ := int_some h5
  exact ⟨⟨h1, h2, h3, h4⟩, rfl⟩

section After

variable {t : Transfer} (db : Database) (now : Int)

theorem holds_from (hne : t.args.from_ ≠ t.args.to_) (h : t.Fits) :
    Holds (t.after now db) t.args.from_ t.fromBal t.fromSeq := by
  refine ⟨?_, h.2.1, h.1⟩
  exact (Function.update_of_ne hne _ _).trans (Function.update_self _ _ _)

theorem holds_to (h : t.Fits) : Holds (t.after now db) t.args.to_ t.toBal t.toSeq :=
  ⟨Function.update_self _ _ _, h.2.2.2, h.2.2.1⟩

theorem acn_other (hf : cid ≠ t.args.from_) (ht : cid ≠ t.args.to_) :
    (t.after now db).acn cid = db.acn cid :=
  (Function.update_of_ne ht _ _).trans (Function.update_of_ne hf _ _)

theorem hist_other (hf : cid ≠ t.args.from_) (ht : cid ≠ t.args.to_) :
    (t.after now db).hist cid = db.hist cid :=
  (Function.update_of_ne ht _ _).trans (Function.update_of_ne hf _ _)

theorem hist_from (hne : t.args.from_ ≠ t.args.to_) :
    (t.after now db).hist t.args.from_ =
      Function.update (db.hist t.args.from_) t.fromSeq (some t.histFrom.value) :=
  (Function.update_of_ne hne _ _).trans (Function.update_self _ _ _)

theorem hist_to (hne : t.args.from_ ≠ t.args.to_) :
    (t.after now db).hist t.args.to_ =
      Function.update (db.hist t.args.to_) t.toSeq (some t.histTo.value) := by
  refine (Function.update_self _ _ _).trans ?_
  congr 1
  exact Function.update_of_ne hne.symm _ _

theorem trnlog_other (hr : cid ≠ t.args.ref) : (t.after now db).trnlog cid = db.trnlog cid :=
  (Function.update_of_ne hr _ _).trans (Function.update_of_ne hr _ _)

theorem trnlog_self :
    (t.after now db).trnlog t.args.ref 1 = some (t.trnLogFrom.value now) ∧
      (t.after now db).trnlog t.args.ref 2 = some (t.trnLogTo.value now) := by
  constructor
  · simp [Transfer.after, set]
  · simp [Transfer.after, set]

end After

end YdbTest.PseudoBank
