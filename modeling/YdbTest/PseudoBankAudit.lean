import YdbTest.PseudoBankBooks

namespace YdbTest.PseudoBank

open MString CInt Decimal

variable {n guid rand1 rand2 : Nat} {user now cid seq : Int} {args : tpArgs} {db db' : Database}
  {σ σ' : State} {t : Transfer} {v : Option Str}

/-- A log record with this account, this amount and this resulting balance. -/
def Names (v : Option Str) (cid amt endBal : Int) : Prop :=
  ∃ s, v = some s ∧ piece s bar 3 = sprintd cid ∧ piece s bar 4 = sprintd amt ∧
    piece s bar 5 = sprintd endBal

/-- The books without the credited half of the log: the total is constant, each account's balance
is that of its history, whose records stand as they were written, and every transfer has a
reference of its own, under which the debited account is logged. -/
structure Books (σ : State) : Prop where
  total : ∑ i ∈ Finset.range ACC_NEEDED, balance σ.db (START_CID + (i : Nat)) = ACC_NEEDED * 10000000
  kept : ∀ i < ACC_NEEDED, Kept σ.db (START_CID + (i : Nat))
  between : ∀ t ∈ σ.posted, Between t
  recorded : ∀ t ∈ σ.posted,
    σ.db.hist t.args.from_ t.fromSeq = some t.histFrom.value ∧
      σ.db.hist t.args.to_ t.toSeq = some t.histTo.value
  references : (σ.posted.map fun t => t.args.ref).Nodup
  debits : ∀ t ∈ σ.posted, Names (σ.db.trnlog t.args.ref 1) t.args.from_ (-t.args.amt) t.fromBal

/-- Both log records of every transfer name their account, its amount and its balance. -/
def AuditTrail (σ : State) : Prop :=
  ∀ t ∈ σ.posted, Names (σ.db.trnlog t.args.ref 1) t.args.from_ (-t.args.amt) t.fromBal ∧
    Names (σ.db.trnlog t.args.ref 2) t.args.to_ t.args.amt t.toBal

/-- What holds of the log: the references come from the numbers of the processes and of their
runs, and the records are as they were written. -/
structure Logged (n : Nat) (σ : State) : Prop where
  numbered : ∀ t ∈ σ.posted, ∃ guid < n, ∃ run < σ.numRuns guid,
    t.args.ref = ((guid + run * 10 ^ idShift n : Nat) : Int)
  stands : ∀ t ∈ σ.posted, ∃ now,
    σ.db.trnlog t.args.ref 1 = some (t.trnLogFrom.value now) ∧
      σ.db.trnlog t.args.ref 2 = some (t.trnLogTo.value now)

theorem reference_unique {guid' run run' : Nat} (hg : guid < n) (hg' : guid' < n)
    (h : guid + run * 10 ^ idShift n = guid' + run' * 10 ^ idShift n) : guid = guid' ∧ run = run' := by
  have hn : n ≤ 10 ^ idShift n := Nat.le_pow_clog (by decide) n
  have hmod := congrArg (· % 10 ^ idShift n) h
  simp only [Nat.add_mul_mod_self_right] at hmod
  rw [Nat.mod_eq_of_lt (by omega), Nat.mod_eq_of_lt (by omega)] at hmod
  subst hmod
  have hmul : run * 10 ^ idShift n = run' * 10 ^ idShift n := by omega
  exact ⟨rfl, Nat.eq_of_mul_eq_mul_right (Nat.pow_pos (by decide)) hmul⟩

theorem names_from (t : Transfer) (now : Int) :
    Names (some (t.trnLogFrom.value now)) t.args.from_ (-t.args.amt) t.fromBal :=
  ⟨_, rfl, piece_log t.trnLogFrom now⟩

theorem sprintd_account {i j : Nat} (hi : i < ACC_NEEDED) (hj : j < ACC_NEEDED)
    (h : sprintd (START_CID + (i : Nat)) = sprintd (START_CID + (j : Nat))) : i = j := by
  have hint : ∀ k < ACC_NEEDED, int (START_CID + (k : Int)) = some (START_CID + (k : Int)) := by
    intro k hk
    have : k < 1000 := hk
    exact int_eq (by simp [START_CID]; omega) (by simp [START_CID]; omega)
  have hread := congrArg atoi h
  rw [atoi_sprintd, atoi_sprintd, hint i hi, hint j hj] at hread
  have := Option.some.inj hread
  omega

theorem not_names_to (hb : Between t) (now : Int) :
    ¬ Names (some (t.trnLogTo.value now)) t.args.to_ t.args.amt t.toBal := by
  rintro ⟨s, hs, hcid, -⟩
  obtain rfl := Option.some.inj hs
  rw [(piece_log t.trnLogTo now).1] at hcid
  obtain ⟨-, i, hi, j, hj, hne, hfrom, hto⟩ := hb
  have hcid : sprintd t.args.from_ = sprintd t.args.to_ := hcid
  rw [hfrom, hto] at hcid
  exact hne (sprintd_account hi hj hcid)

theorem commit_spec (hk : ∀ i < ACC_NEEDED, Kept db (START_CID + (i : Nat)))
    {numRuns : Nat} (ha : childThread n guid numRuns rand1 rand2 user = some args)
    (hp : postTransfer now args db = some db') :
    ∃ t : Transfer, t.args.ref = ((guid + numRuns * 10 ^ idShift n : Nat) : Int) ∧ Between t ∧
      Continues t db ∧ t.Fits ∧ db' = t.after now db ∧
      (⟨args, histSeq db' args.from_, histSeq db' args.to_, balance db' args.from_,
        balance db' args.to_⟩ : Transfer) = t := by
  obtain ⟨href, hamt, i, hi, j, hj, hne, hfrom, hto⟩ := childThread_spec ha
  have hf := (hk i hi).held
  have ht := (hk j hj).held
  rw [← hfrom] at hf
  rw [← hto] at ht
  obtain ⟨hfits, hdb⟩ := postTransfer_spec hf ht hp
  have hb : Between ⟨args, histSeq db args.from_ + 1, histSeq db args.to_ + 1,
      balance db args.from_ - args.amt, balance db args.to_ + args.amt⟩ :=
    ⟨hamt, i, hi, j, hj, hne, hfrom, hto⟩
  have hfrom' := holds_from db now hb.ne hfits
  have hto' := holds_to db now hfits
  refine ⟨_, href, hb, ⟨rfl, rfl, rfl, rfl⟩, hfits, hdb, ?_⟩
  rw [← hdb] at hfrom' hto'
  exact Transfer.mk.injEq .. ▸ ⟨rfl, histSeq_holds hfrom', histSeq_holds hto', balance_holds hfrom',
    balance_holds hto'⟩

theorem reference_fresh (hl : Logged n σ) (hg : guid < n)
    (href : t.args.ref = ((guid + σ.numRuns guid * 10 ^ idShift n : Nat) : Int)) :
    ∀ u ∈ σ.posted, u.args.ref ≠ t.args.ref := by
  intro u hu he
  obtain ⟨guid', hg', run, hrun, hu⟩ := hl.numbered u hu
  rw [hu, href] at he
  obtain ⟨rfl, rfl⟩ := reference_unique hg' hg (Int.ofNat.inj he)
  exact absurd hrun (Nat.lt_irrefl _)

section Commit

variable (hi : Books σ) (hl : Logged n σ) (hg : guid < n)
  (href : t.args.ref = ((guid + σ.numRuns guid * 10 ^ idShift n : Nat) : Int))
  (hb : Between t) (hc : Continues t σ.db) (hfits : t.Fits)
include hl hg href

theorem logged_commit : Logged n ⟨t.after now σ.db,
    Function.update σ.numRuns guid (σ.numRuns guid + 1), σ.posted ++ [t]⟩ := by
  have hfresh := reference_fresh hl hg href
  have hruns : σ.numRuns ≤ Function.update σ.numRuns guid (σ.numRuns guid + 1) :=
    le_update_self_iff.mpr (Nat.le_succ _)
  constructor
  · intro u hu
    obtain hu | hu := List.mem_append.mp hu
    · obtain ⟨guid', hg', run, hrun, hu⟩ := hl.numbered u hu
      exact ⟨guid', hg', run, Nat.lt_of_lt_of_le hrun (hruns guid'), hu⟩
    · obtain rfl := List.mem_singleton.mp hu
      have hself := Function.update_self guid (σ.numRuns guid + 1) σ.numRuns
      exact ⟨guid, hg, σ.numRuns guid, Nat.lt_of_lt_of_eq (Nat.lt_succ_self _) hself.symm, href⟩
  · intro u hu
    obtain hu | hu := List.mem_append.mp hu
    · have hother := trnlog_other σ.db now (hfresh u hu)
      exact hother ▸ hl.stands u hu
    · obtain rfl := List.mem_singleton.mp hu
      exact ⟨now, trnlog_self _ _⟩

include hi hb hc hfits

theorem books_commit : Books ⟨t.after now σ.db,
    Function.update σ.numRuns guid (σ.numRuns guid + 1), σ.posted ++ [t]⟩ := by
  have hfresh := reference_fresh hl hg href
  obtain ⟨-, i, hi', j, hj, -, hfrom, hto⟩ := id hb
  have hkf : Kept σ.db t.args.from_ := hfrom ▸ hi.kept i hi'
  have hkt : Kept σ.db t.args.to_ := hto ▸ hi.kept j hj
  refine ⟨?_, ?_, ?_, ?_, ?_, ?_⟩
  · exact (total_after hb hc hfits).trans hi.total
  · exact fun i hi' => kept_after hb hc hfits (hi.kept i hi')
  · intro u hu
    obtain hu | hu := List.mem_append.mp hu
    · exact hi.between u hu
    · exact List.mem_singleton.mp hu ▸ hb
  · intro u hu
    obtain hu | hu := List.mem_append.mp hu
    · obtain ⟨h1, h2⟩ := hi.recorded u hu
      exact ⟨hist_kept hb hc hkf hkt h1, hist_kept hb hc hkf hkt h2⟩
    · obtain rfl := List.mem_singleton.mp hu
      have h1 := hist_from σ.db now hb.ne
      have h2 := hist_to σ.db now hb.ne
      exact ⟨h1 ▸ Function.update_self _ _ _, h2 ▸ Function.update_self _ _ _⟩
  · rw [List.map_append, List.map_singleton, List.nodup_append]
    refine ⟨hi.references, List.nodup_singleton _, ?_⟩
    intro a ha b hb
    obtain ⟨u, hu, rfl⟩ := List.mem_map.mp ha
    rw [List.mem_singleton.mp hb]
    exact hfresh u hu
  · intro u hu
    obtain hu | hu := List.mem_append.mp hu
    · have hother := trnlog_other σ.db now (hfresh u hu)
      exact hother ▸ hi.debits u hu
    · obtain rfl := List.mem_singleton.mp hu
      exact (trnlog_self σ.db now).1 ▸ names_from u now

end Commit

theorem initial_books : Books initial ∧ Logged n initial := by
  have hnone : ∀ t, t ∉ initial.posted := fun t => List.not_mem_nil
  have hdb : initial.db = initData empty := by rw [initial]
  constructor
  · refine ⟨?_, ?_, ?_, ?_, List.nodup_nil, ?_⟩
    · rw [hdb, total_init]
    · intro i hi
      rw [hdb]
      exact kept_init hi
    all_goals exact fun t ht => absurd ht (hnone t)
  · constructor
    all_goals exact fun t ht => absurd ht (hnone t)

theorem step_books (hs : Step n user σ σ') (hi : Books σ) (hl : Logged n σ) :
    Books σ' ∧ Logged n σ' := by
  cases hs with
  | restart => exact ⟨hi, hl⟩
  | commit guid rand1 rand2 now args db hg ha hp =>
    obtain ⟨t, href, hb, hc, hfits, hdb, ht⟩ := commit_spec hi.kept ha hp
    rw [ht, hdb]
    exact ⟨books_commit hi hl hg href hb hc hfits, logged_commit hl hg href⟩

theorem reaches_books (h : Reaches n user σ) : Books σ ∧ Logged n σ := by
  induction h with
  | initial => exact initial_books
  | step _ hs ih => exact step_books hs ih.1 ih.2

theorem not_audited (hi : Books σ) (hl : Logged n σ) (ht : t ∈ σ.posted) : ¬ AuditTrail σ := by
  intro h
  obtain ⟨now, -, hto⟩ := hl.stands t ht
  have hnames := (h t ht).2
  rw [hto] at hnames
  exact not_names_to (hi.between t ht) now hnames

/-- The first run of the first of ten processes. -/
def firstTransfer : Transfer := ⟨⟨0, 100001, 100002, 1, 5⟩, 2, 2, 9999999, 10000001⟩

theorem postTransfer_first (hf : Holds db 100001 10000000 1) (ht : Holds db 100002 10000000 1) :
    postTransfer 0 firstTransfer.args db = some (firstTransfer.after 0 db) := by
  have hf : Account_Load db firstTransfer.args.from_ = _ := Account_Load_holds hf
  have ht : Account_Load db firstTransfer.args.to_ = _ := Account_Load_holds ht
  rw [postTransfer, hf, ht]
  rfl

theorem posted_first (hf : Holds db 100001 9999999 2) (ht : Holds db 100002 10000001 2) :
    (⟨firstTransfer.args, histSeq db firstTransfer.args.from_, histSeq db firstTransfer.args.to_,
      balance db firstTransfer.args.from_, balance db firstTransfer.args.to_⟩ : Transfer) =
    firstTransfer := by
  have h1 : histSeq db firstTransfer.args.from_ = 2 := histSeq_holds hf
  have h2 : histSeq db firstTransfer.args.to_ = 2 := histSeq_holds ht
  have h3 : balance db firstTransfer.args.from_ = 9999999 := balance_holds hf
  have h4 : balance db firstTransfer.args.to_ = 10000001 := balance_holds ht
  rw [h1, h2, h3, h4]
  rfl

theorem first_reached : ∃ σ, Reaches 10 5 σ ∧ σ.posted = [firstTransfer] := by
  have hdb : initial.db = initData empty := by rw [initial]
  have hf : Holds initial.db 100001 10000000 1 := hdb ▸ holds_init (i := 0) (by decide)
  have ht : Holds initial.db 100002 10000000 1 := hdb ▸ holds_init (i := 1) (by decide)
  have ha : childThread 10 0 (initial.numRuns 0) 0 1 5 = some firstTransfer.args := by
    simp [childThread, initial, int, firstTransfer, START_CID, ACC_NEEDED, TRAN_AMT]
  have hfits : firstTransfer.Fits := ⟨rfl, rfl, rfl, rfl⟩
  have hne : firstTransfer.args.from_ ≠ firstTransfer.args.to_ := by decide
  have hstep := Step.commit initial 0 0 1 0 _ _ (by decide) ha (postTransfer_first hf ht)
  rw [posted_first (holds_from _ _ hne hfits) (holds_to _ _ hfits)] at hstep
  exact ⟨_, Reaches.step Reaches.initial hstep, rfl⟩

/-- All books are kept in every run, but for the log: it is right as long as no transfer has been
posted. -/
theorem books_kept (h : Reaches n user σ) : Books σ ∧ (AuditTrail σ ↔ σ.posted = []) := by
  obtain ⟨hi, hl⟩ := reaches_books h
  refine ⟨hi, ?_, ?_⟩
  · intro haudit
    cases hp : σ.posted with
    | nil => rfl
    | cons t ts => exact absurd haudit (not_audited hi hl (hp ▸ List.mem_cons_self))
  · intro hnil t ht
    rw [hnil] at ht
    exact absurd ht List.not_mem_nil

theorem books_kept_first : ∃ σ, Reaches 10 5 σ ∧ Books σ ∧ (AuditTrail σ ↔ σ.posted = []) := by
  obtain ⟨σ, h, -⟩ := first_reached
  exact ⟨σ, h, books_kept h⟩

/-- After one transfer the log names the debited account twice. -/
theorem audit_trail_false : ∃ σ, Reaches 10 5 σ ∧ σ.posted = [firstTransfer] ∧ ¬ AuditTrail σ := by
  obtain ⟨σ, h, hp⟩ := first_reached
  obtain ⟨hi, hl⟩ := reaches_books h
  exact ⟨σ, h, hp, not_audited hi hl (hp ▸ List.mem_cons_self)⟩

end YdbTest.PseudoBank
