import YdbTest.Outstream

namespace YdbTest.Outstream

open Regexp RegexpSyntax

variable {c : Setup} {st : State} {l l' : Text} {log log' : List Text} {b : Block} {i j : Nat}

inductive Stage where
  | skip (res : List Text)
  | block (b : Block)

def mask : List Stage → Text → Option Text
  | [], l => some l
  | .skip res :: ss, l => if res.any (fun re => contains re l) then none else mask ss l
  | .block b :: ss, l => mask ss (b.run l)

def stages (c : Setup) (inTable : Bool) : List Stage :=
  [.skip [ignored], .block rename] ++ (earlyRules c).map .block ++
    (if inTable then [.block (row c)] else []) ++ (journalRules c).map .block ++
    [.block endiancvt, .block dbendian] ++ fileHeader.map .block ++
    (if c.keep_muinstfrozen then [] else [.skip frozen]) ++ lastRules.map .block

def early (c : Setup) (l : Text) : Text := runBlocks (earlyRules c) (rename.run l)

def RowLike (c : Setup) (l : Text) : Prop := (runSubs (row c).subs (early c l)).2 ≠ 0

/-- The process table, the ignored lines aside: the header, directly behind it the dashes, and then
its rows. -/
def InTable (c : Setup) (preceding : List Text) : Prop :=
  ∃ ls h d rows, preceding.filter (fun l => !contains ignored l) = ls ++ h :: d :: rows ∧
    contains header (early c h) = true ∧ contains dashes (early c d) = true ∧
    ∀ r ∈ rows, RowLike c r

structure Bare (l : Text) : Prop where
  renamed : rename.applies l = true
  unmasked : (runSubs rename.subs l).2 = 0

structure Clean (c : Setup) (st : State) (preceding : List Text) (l : Text) : Prop where
  name : Bare l → st.substatus = 0
  table : RowLike c l → (st.jnl_flag1line = 2 ↔ InTable c preceding)

def Sub.keeps (s : Sub) (l : Text) : List Text :=
  match parse s.re with
  | none => [l]
  | some r => kept s.all r l

/-- Substitution by substitution as many matches are replaced in both, until the texts differ only
in what a substitution takes out of them. -/
def AlikeSubs : List Sub → Text → Text → Prop
  | [], l, l' => l = l'
  | s :: ss, l, l' => s.keeps l = s.keeps l' ∨
      (s.run l).2 = (s.run l').2 ∧ AlikeSubs ss (s.run l).1 (s.run l').1

def Alike : List Stage → Text → Text → Prop
  | [], l, l' => l = l'
  | .skip res :: ss, l, l' =>
    res.any (fun re => contains re l) = res.any (fun re => contains re l') ∧ Alike ss l l'
  | .block b :: ss, l, l' =>
    b.applies l = true ∧ b.applies l' = true ∧ AlikeSubs b.subs l l' ∨ Alike ss (b.run l) (b.run l')

structure DifferInMasked (c : Setup) (log log' : List Text) : Prop where
  length : log.length = log'.length
  tables : ∀ i, InTable c (log.take i) ↔ InTable c (log'.take i)
  lines : ∀ i l l', log[i]? = some l → log'[i]? = some l' → ∀ inTable,
    (inTable = true ↔ InTable c (log.take i)) → Alike (stages c inTable) l l'

/-- In a log each line meets nothing that is left over. -/
def CleanLog (c : Setup) (log : List Text) : Prop :=
  ∀ i l, log[i]? = some l → Clean c (after c start (log.take i)) (log.take i) l

theorem Sub.run_eq_of_keeps {s : Sub} (h : s.keeps l = s.keeps l') : s.run l = s.run l' := by
  rw [Sub.run, Sub.run]
  rw [Sub.keeps, Sub.keeps] at h
  cases hp : parse s.re with
  | none =>
    rw [hp] at h
    rw [List.singleton_inj.mp h]
  | some r =>
    rw [hp] at h
    exact Prod.ext (replace_eq_of_kept h) (matched_eq_of_kept h)

theorem runSubs_eq_of_alike {ss : List Sub} (h : AlikeSubs ss l l') :
    runSubs ss l = runSubs ss l' := by
  induction ss generalizing l l' with
  | nil => exact congrArg (·, 0) h
  | cons s ss ih =>
    obtain h | ⟨hcount, h⟩ := h
    · rw [runSubs, runSubs, Sub.run_eq_of_keeps h]
    · rw [runSubs, runSubs, ih h, hcount]

theorem mask_eq_of_alike {ss : List Stage} (h : Alike ss l l') : mask ss l = mask ss l' := by
  induction ss generalizing l l' with
  | nil => exact congrArg some h
  | cons s ss ih =>
    cases s with
    | skip res =>
      obtain ⟨hskip, h⟩ := h
      rw [mask, mask, hskip, ih h]
    | block b =>
      obtain ⟨happ, happ', h⟩ | h := h
      · have hrun : b.run l = b.run l' := by
          rw [Block.run, Block.run, if_pos happ, if_pos happ', runSubs_eq_of_alike h]
        rw [mask, mask, hrun]
      · exact ih h

theorem Sub.run_of_none {s : Sub} (h : (s.run l).2 = 0) : (s.run l).1 = l := by
  rw [Sub.run] at h ⊢
  cases hp : parse s.re with
  | none => rfl
  | some r =>
    rw [hp] at h
    exact replace_of_none (matched_eq_zero.mp h)

theorem mask_append (ss ss' : List Stage) (l : Text) :
    mask (ss ++ ss') l = (mask ss l).bind (mask ss') := by
  induction ss generalizing l with
  | nil => rfl
  | cons s ss ih =>
    cases s with
    | skip res =>
      rw [List.cons_append, mask, mask]
      split_ifs
      · rfl
      · exact ih l
    | block b => exact ih (b.run l)

theorem mask_blocks (bs : List Block) : mask (bs.map .block) = fun l => some (runBlocks bs l) := by
  funext l
  induction bs generalizing l with
  | nil => rfl
  | cons b bs ih => apply ih (b.run l)

theorem marked_of_pos {n m : Nat} (hn : n ≠ 0) (hm : m ≠ 0) : marked n l = marked m l := by
  rw [marked, marked, if_neg hn, if_neg hm]

theorem marked_add {n : Nat} (h : b.applies l = true → (runSubs b.subs l).2 = 0 → n = 0)
    (hmark : b.mark = true) :
    (if b.applies l then marked (n + (runSubs b.subs l).2) (runSubs b.subs l).1 else l) =
      b.run l := by
  rw [Block.run, hmark, if_pos rfl]
  by_cases happ : b.applies l = true
  · rw [if_pos happ, if_pos happ]
    by_cases hcount : (runSubs b.subs l).2 = 0
    · rw [h happ hcount, Nat.zero_add]
    · exact marked_of_pos (fun h => hcount (Nat.add_eq_zero_iff.mp h).2) hcount
  · rw [if_neg happ, if_neg happ]

theorem renameLine_fst (h : Bare l → st.substatus = 0) : (renameLine st l).1 = rename.run l := by
  have hrename := marked_add (fun happ hcount => h ⟨happ, hcount⟩) (rfl : rename.mark = true)
  rw [← hrename, renameLine]
  by_cases happ : rename.applies l = true
  · rw [if_pos happ, if_pos happ]
  · rw [if_neg happ, if_neg happ]

theorem renameLine_flag (st : State) (l : Text) :
    (renameLine st l).2.jnl_flag1line = st.jnl_flag1line := by
  rw [renameLine]
  generalize runSubs rename.subs l = p
  split_ifs <;> rfl

theorem row_run (c : Setup) (l : Text) : (row c).run l = (runSubs (row c).subs l).1 := by
  have happ : (row c).applies l = true := rfl
  have hmark : (row c).mark = false := rfl
  rw [Block.run, happ, if_pos rfl, hmark, if_neg Bool.false_ne_true]

theorem tableLine_fst (c : Setup) (st : State) (l : Text) :
    (tableLine c st l).1 = if st.jnl_flag1line = 2 then (row c).run l else l := by
  rw [tableLine, row_run]
  generalize runSubs (row c).subs l = p
  split_ifs <;> rfl

theorem endianLine_fst (b : Block) (st : State) (l : Text) : (endianLine b st l).1 = b.run l := by
  rw [endianLine, Block.run]
  split_ifs <;> rfl

theorem runSubs_of_none {ss : List Sub} (h : (runSubs ss l).2 = 0) : (runSubs ss l).1 = l := by
  induction ss generalizing l with
  | nil => rfl
  | cons s ss ih =>
    rw [runSubs] at h ⊢
    obtain ⟨hs, hss⟩ := Nat.add_eq_zero_iff.mp h
    rw [Sub.run_of_none hs] at hss ⊢
    exact ih hss

theorem row_run_of_none (h : (runSubs (row c).subs l).2 = 0) : (row c).run l = l := by
  rw [row_run, runSubs_of_none h]

theorem tableLine_run (h : RowLike c l → (st.jnl_flag1line = 2 ↔ InTable c log))
    {inTable : Bool} (ht : inTable = true ↔ InTable c log)
    (hl : l' = early c l) :
    (tableLine c st l').1 = if inTable then (row c).run l' else l' := by
  rw [tableLine_fst]
  by_cases hrow : RowLike c l
  · rw [← ht] at h
    exact if_congr (h hrow) rfl rfl
  · have hself : (row c).run l' = l' := by
      apply row_run_of_none
      rw [hl]
      exact not_not.mp hrow
    rw [hself, ite_self, ite_self]

theorem mask_table (c : Setup) (inTable : Bool) (l : Text) :
    mask (if inTable then [.block (row c)] else []) l =
      some (if inTable then (row c).run l else l) := by
  cases inTable <;> rfl

theorem mask_frozen (c : Setup) (l : Text) :
    mask (if c.keep_muinstfrozen then [] else [.skip frozen]) l =
      if frozen.any (fun re => contains re l) && !c.keep_muinstfrozen then none else some l := by
  cases c.keep_muinstfrozen with
  | false => rw [if_neg Bool.false_ne_true, mask, Bool.not_false, Bool.and_true, mask]
  | true => rw [if_pos rfl, Bool.not_true, Bool.and_false, if_neg Bool.false_ne_true, mask]

theorem mask_two (a b : Block) (l : Text) :
    mask [.block a, .block b] l = some (b.run (a.run l)) := rfl

theorem mask_ignored (l : Text) : mask [.skip [ignored], .block rename] l =
    if contains ignored l then none else some (rename.run l) := by
  rw [mask, List.any_cons, List.any_nil, Bool.or_false]
  rfl

theorem filterLine_fst (h : Clean c st log l) {inTable : Bool}
    (ht : inTable = true ↔ InTable c log) : (filterLine c st l).1 = mask (stages c inTable) l := by
  have hflag : RowLike c l → ((renameLine st l).2.jnl_flag1line = 2 ↔ InTable c log) := by
    rw [renameLine_flag]
    exact h.table
  have htable := tableLine_run hflag ht rfl
  rw [early, ← renameLine_fst h.name] at htable
  rw [filterLine, stages]
  simp only [mask_append, mask_ignored]
  by_cases hignored : contains ignored l = true
  · rw [if_pos hignored, if_pos hignored]
    rfl
  · rw [if_neg hignored, if_neg hignored]
    simp only [Option.bind_some, mask_blocks, mask_table, ← renameLine_fst h.name, ← htable,
      mask_two, endianLine_fst, mask_frozen]
    split_ifs <;> rfl

theorem getElem?_forms (c : Setup) (st : State) (log : List Text) (i : Nat) :
    (forms c st log)[i]? =
      log[i]?.map fun l => (filterLine c (after c st (log.take i)) l).1 := by
  induction log generalizing st i with
  | nil => rfl
  | cons l log ih =>
    cases i with
    | zero => rfl
    | succ i => exact ih _ i

end YdbTest.Outstream
