import YdbTest.MExpr

namespace YdbTest.BoolTest

open MExpr

/-- What `$random` is still going to draw. -/
abbrev Draws := Nat → Nat

def random (n : Nat) (ρ : Draws) : Nat × Draws := (ρ 0 % n, fun i => ρ (i + 1))

abbrev Gen := Draws → Text × Draws

def leaves (dlrtest : Bool) : Bool → List String
  | false => ["0", "('true)", "false", if dlrtest then "'$test" else "$test"]
  | true => ["1", "('false)", "true", if dlrtest then "$test" else "'$test"]

/-- The results at a larger depth: `(l op r)`, `(l text)`, `('l)` and `$select`, where `true`
stands for `$$one` and `false` for `$$zero`. -/
inductive Template where
  | binary (l : Bool) (op : String) (r : Bool)
  | suffix (l : Bool) (text : String)
  | negated (l : Bool)
  | selected (ret : Bool)

open Template in
/-- The templates of `zero` and of `one`, by the number that is drawn. -/
def templates : Bool → List Template
  | false =>
    [binary true "=" false, binary false "=" true, binary false "'=" false, binary true "'=" true,
     binary false ">" true, binary true "<" false, binary false "'<" true, binary true "'>" false,
     binary false ">=" true, binary true "<=" false, binary true "[" false,
     binary false "[" true, binary false "]" true, binary false "]]" true,
     binary true "'[" true, binary false "'[" false, binary true "']" false,
     binary true "']]" false, suffix true "?1\"0\"", suffix false "?1\"1\"",
     suffix true "'?1\"1\"", suffix false "'?1\"0\"", negated true, binary false "&" false,
     binary true "&" false, binary false "&" true, binary true "'&" true, binary false "!" false,
     binary false "'!" true, binary true "'!" false, binary true "'!" true, negated true,
     selected false]
  | true =>
    [binary false "=" false, binary true "=" true, binary true "'=" false, binary false "'=" true,
     binary true ">" false, binary false "<" true, binary true "'<" false, binary false "'>" true,
     binary true ">=" false, binary false "<=" true, binary false "[" false,
     binary true "[" true, binary true "]" false, binary true "]]" false,
     binary false "'[" true, binary true "'[" false, binary false "']" true,
     binary false "']]" true, suffix true "?1\"1\"", suffix false "?1\"0\"",
     suffix true "'?1\"0\"", suffix false "'?1\"1\"", negated false, binary true "!" true,
     binary true "!" false, binary false "!" true, binary false "'!" false, binary true "&" true,
     binary false "'&" true, binary true "'&" false, binary false "'&" false, negated false,
     selected true]

/-- `anyexpr`, where `g₂` gives the expressions of `depth2`. -/
def anyexpr (g₂ : Bool → Gen) : Gen := fun ρ =>
  let (rand, ρ) := random 2 ρ
  if rand = 0 then g₂ false ρ else g₂ true ρ

/-- One turn of the loop of `selecthelper`. -/
def term (g₁ g₂ : Bool → Gen) (retexpr : Text) : Gen := fun ρ =>
  let (choice, ρ) := random 3 ρ
  if choice = 1 then
    let (c, ρ) := g₁ true ρ
    (c ++ ':' :: retexpr, ρ)
  else
    let (c, ρ) := g₁ false ρ
    let (v, ρ) := anyexpr g₂ ρ
    (c ++ ':' :: v, ρ)

def terms (g₁ g₂ : Bool → Gen) (retexpr : Text) : Nat → Gen
  | 0, ρ => ([], ρ)
  | n + 1, ρ =>
    let (t, ρ) := term g₁ g₂ retexpr ρ
    let (ts, ρ) := terms g₁ g₂ retexpr n ρ
    (t ++ ',' :: ts, ρ)

def selecthelper (g₁ g₂ : Bool → Gen) (ret : Bool) : Gen := fun ρ =>
  let (numterms, ρ) := random 4 ρ
  let (retexpr, ρ) := g₂ ret ρ
  let (ts, ρ) := terms g₁ g₂ retexpr numterms ρ
  let (c, ρ) := g₁ true ρ
  ("($select(".toList ++ ts ++ c ++ ':' :: retexpr ++ "))".toList, ρ)

def Template.fill (g₁ g₂ : Bool → Gen) : Template → Gen
  | .binary l op r, ρ =>
    let (a, ρ) := g₁ l ρ
    let (b, ρ) := g₂ r ρ
    ('(' :: a ++ op.toList ++ b ++ [')'], ρ)
  | .suffix l text, ρ =>
    let (a, ρ) := g₁ l ρ
    ('(' :: a ++ text.toList ++ [')'], ρ)
  | .negated l, ρ =>
    let (a, ρ) := g₁ l ρ
    ('(' :: '\'' :: a ++ [')'], ρ)
  | .selected ret, ρ => selecthelper g₁ g₂ ret ρ

/-- `zero` and `one`, which differ in their leaves and templates. -/
def gen (dlrtest : Bool) (value : Bool) (depth : Nat) (ρ : Draws) : Text × Draws :=
  match depth with
  | 0 =>
    let (rand, ρ) := random 4 ρ
    (((leaves dlrtest value).getD rand "").toList, ρ)
  | n + 1 =>
    let depth1 := ρ 0 % (n + 1)
    let depth2 := ρ 1 % (n + 1)
    let (rand, ρ) := random 33 fun i => ρ (i + 2)
    ((templates value).getD rand (.selected value)).fill
      (fun value => gen dlrtest value depth1) (fun value => gen dlrtest value depth2) ρ
termination_by depth
decreasing_by all_goals exact Nat.mod_lt _ (Nat.succ_pos n)

def zero (dlrtest : Bool) : Nat → Gen := gen dlrtest false

def one (dlrtest : Bool) : Nat → Gen := gen dlrtest true

/-- The variables of `booltest` that the expressions use. -/
def env (dlrtest : Bool) : Env where
  var name :=
    if name = "false".toList then some (bit false)
    else if name = "true".toList then some (bit true)
    else none
  test := dlrtest

/-- The text is an operand with this value, in which every `$select` finds its term. -/
def Good (dlrtest value : Bool) (s : Text) : Prop :=
  ∃ e, Reads s e ∧ e.eval (env dlrtest) = some (bit value) ∧ e.Reaches (env dlrtest)

variable {dlrtest value : Bool} {s t : Text} {g₁ g₂ : Bool → Gen} {n : Nat} {ρ : Draws}

theorem truth_bit (b : Bool) : truth (bit b) = b := by
  cases b <;> decide +kernel

theorem Good.paren (h : Good dlrtest value s) : Good dlrtest value ('(' :: s ++ [')']) := by
  obtain ⟨e, hr, he⟩ := h
  exact ⟨e, hr.paren, he⟩

theorem Good.not (h : Good dlrtest value s) : Good dlrtest (!value) ('\'' :: s) := by
  obtain ⟨e, hr, heval, hreach⟩ := h
  refine ⟨.not e, reads_not hr, ?_, hreach⟩
  rw [Expr.eval, heval, Option.map_some, truth_bit]

theorem good_var (b : Bool) : Good dlrtest b (if b then "true".toList else "false".toList) := by
  cases b with
  | false => exact ⟨.var "false".toList, reads_name (by decide) (List.all_eq_true.mp rfl), rfl, trivial⟩
  | true => exact ⟨.var "true".toList, reads_name (by decide) (List.all_eq_true.mp rfl), rfl, trivial⟩

theorem good_test : Good dlrtest dlrtest "$test".toList :=
  ⟨.test, reads_test, rfl, trivial⟩

theorem good_leaf : ∀ u ∈ leaves dlrtest value, Good dlrtest value u.toList := by
  have htest : ∀ b, Good dlrtest b (if dlrtest = b then "$test" else "'$test").toList := by
    intro b
    split_ifs with h
    · exact h ▸ good_test
    · have hb : b = !dlrtest := Bool.eq_not.mpr (Ne.symm h)
      exact hb ▸ good_test.not
  cases value with
  | false =>
    simp only [leaves, List.forall_mem_cons]
    refine ⟨⟨.num 0, reads_digit rfl, rfl, trivial⟩, (good_var true).not.paren, good_var false,
      ?_, fun _ h => absurd h List.not_mem_nil⟩
    cases dlrtest <;> exact htest false
  | true =>
    simp only [leaves, List.forall_mem_cons]
    refine ⟨⟨.num 1, reads_digit rfl, rfl, trivial⟩, (good_var false).not.paren, good_var true,
      ?_, fun _ h => absurd h List.not_mem_nil⟩
    cases dlrtest <;> exact htest true

/-- What makes a template of `zero` or `one` right. -/
def Template.Sound (value : Bool) : Template → Prop
  | .binary l op r => ∃ neg o, op.toList = opText neg o ∧
      (o.holds (bit l) (bit r) ^^ neg) = value
  | .suffix l text => ∃ neg b, text.toList = (if neg then ['\'', '?'] else ['?']) ++
      '1' :: '"' :: (if b then ['1'] else ['0']) ++ ['"'] ∧ ((l == b) ^^ neg) = value
  | .negated l => l = !value
  | .selected ret => ret = value

theorem templates_sound : ∀ t ∈ templates value, t.Sound value := by
  cases value with
  | false =>
    simp only [templates, List.forall_mem_cons]
    refine ⟨⟨false, .eq, rfl, ?_⟩, ⟨false, .eq, rfl, ?_⟩, ⟨true, .eq, rfl, ?_⟩,
      ⟨true, .eq, rfl, ?_⟩, ⟨false, .gt, rfl, ?_⟩, ⟨false, .lt, rfl, ?_⟩, ⟨true, .lt, rfl, ?_⟩,
      ⟨true, .gt, rfl, ?_⟩, ⟨false, .ge, rfl, ?_⟩, ⟨false, .le, rfl, ?_⟩,
      ⟨false, .contains, rfl, ?_⟩, ⟨false, .contains, rfl, ?_⟩, ⟨false, .follows, rfl, ?_⟩,
      ⟨false, .sortsAfter, rfl, ?_⟩, ⟨true, .contains, rfl, ?_⟩, ⟨true, .contains, rfl, ?_⟩,
      ⟨true, .follows, rfl, ?_⟩, ⟨true, .sortsAfter, rfl, ?_⟩, ⟨false, false, rfl, rfl⟩,
      ⟨false, true, rfl, rfl⟩, ⟨true, true, rfl, rfl⟩, ⟨true, false, rfl, rfl⟩, rfl,
      ⟨false, .and, rfl, ?_⟩, ⟨false, .and, rfl, ?_⟩, ⟨false, .and, rfl, ?_⟩,
      ⟨true, .and, rfl, ?_⟩, ⟨false, .or, rfl, ?_⟩, ⟨true, .or, rfl, ?_⟩, ⟨true, .or, rfl, ?_⟩,
      ⟨true, .or, rfl, ?_⟩, rfl, rfl, fun _ h => absurd h List.not_mem_nil⟩
    all_goals decide +kernel
  | true =>
    simp only [templates, List.forall_mem_cons]
    refine ⟨⟨false, .eq, rfl, ?_⟩, ⟨false, .eq, rfl, ?_⟩, ⟨true, .eq, rfl, ?_⟩,
      ⟨true, .eq, rfl, ?_⟩, ⟨false, .gt, rfl, ?_⟩, ⟨false, .lt, rfl, ?_⟩, ⟨true, .lt, rfl, ?_⟩,
      ⟨true, .gt, rfl, ?_⟩, ⟨false, .ge, rfl, ?_⟩, ⟨false, .le, rfl, ?_⟩,
      ⟨false, .contains, rfl, ?_⟩, ⟨false, .contains, rfl, ?_⟩, ⟨false, .follows, rfl, ?_⟩,
      ⟨false, .sortsAfter, rfl, ?_⟩, ⟨true, .contains, rfl, ?_⟩, ⟨true, .contains, rfl, ?_⟩,
      ⟨true, .follows, rfl, ?_⟩, ⟨true, .sortsAfter, rfl, ?_⟩, ⟨false, true, rfl, rfl⟩,
      ⟨false, false, rfl, rfl⟩, ⟨true, false, rfl, rfl⟩, ⟨true, true, rfl, rfl⟩, rfl,
      ⟨false, .or, rfl, ?_⟩, ⟨false, .or, rfl, ?_⟩, ⟨false, .or, rfl, ?_⟩,
      ⟨true, .or, rfl, ?_⟩, ⟨false, .and, rfl, ?_⟩, ⟨true, .and, rfl, ?_⟩,
      ⟨true, .and, rfl, ?_⟩, ⟨true, .and, rfl, ?_⟩, rfl, rfl,
      fun _ h => absurd h List.not_mem_nil⟩
    all_goals decide +kernel

/-- The terms that have been written, with a last one that is true, give the value. -/
structure GoodTerms (dlrtest value : Bool) (s : Text) (ts : Terms) : Prop where
  reads : ReadsTerms s ts
  eval : ts.eval (env dlrtest) = some (bit value)
  hit : ts.Hit (env dlrtest)
  reaches : ts.Reaches (env dlrtest)

theorem goodTerms_last (hc : Good dlrtest true s) (hv : Good dlrtest value t) :
    ∃ ts, GoodTerms dlrtest value (s ++ ':' :: t) ts := by
  obtain ⟨c, hc, hceval, hcreach⟩ := hc
  obtain ⟨v, hv, hveval, hvreach⟩ := hv
  refine ⟨.last c v, readsTerms_last hc hv, ?_, ⟨_, hceval, truth_bit true⟩, hcreach, hvreach⟩
  rw [Terms.eval, hceval, Option.bind_some, truth_bit, if_pos rfl, hveval]

theorem goodTerms_more {b w : Bool} {u : Text} {ts : Terms} (hc : Good dlrtest b s)
    (hv : Good dlrtest w t) (hbw : b = true → w = value) (hts : GoodTerms dlrtest value u ts) :
    ∃ ts, GoodTerms dlrtest value (s ++ ':' :: t ++ ',' :: u) ts := by
  obtain ⟨c, hc, hceval, hcreach⟩ := hc
  obtain ⟨v, hv, hveval, hvreach⟩ := hv
  refine ⟨.more c v ts, readsTerms_more hc hv hts.reads, ?_, Or.inr hts.hit, hcreach, hvreach,
    hts.reaches⟩
  rw [Terms.eval, hceval, Option.bind_some, truth_bit]
  split_ifs with hb
  · rw [hveval, hbw hb]
  · exact hts.eval

section Generators

variable (h₁ : ∀ value ρ, Good dlrtest value (g₁ value ρ).1)
  (h₂ : ∀ value ρ, Good dlrtest value (g₂ value ρ).1)

include h₂ in
theorem anyexpr_good (ρ : Draws) : ∃ w, Good dlrtest w (anyexpr g₂ ρ).1 := by
  unfold anyexpr
  by_cases h : (random 2 ρ).1 = 0
  · exact ⟨false, by simpa only [if_pos h] using h₂ false _⟩
  · exact ⟨true, by simpa only [if_neg h] using h₂ true _⟩

include h₁ h₂ in
theorem term_good (hs : Good dlrtest value s) (ρ : Draws) : ∃ b w c v,
    (term g₁ g₂ s ρ).1 = c ++ ':' :: v ∧ Good dlrtest b c ∧ Good dlrtest w v ∧
      (b = true → w = value) := by
  unfold term
  by_cases h : (random 3 ρ).1 = 1
  · exact ⟨true, value, (g₁ true (random 3 ρ).2).1, s, by simp only [if_pos h], h₁ true _, hs,
      fun _ => rfl⟩
  · obtain ⟨w, hw⟩ := anyexpr_good h₂ (g₁ false (random 3 ρ).2).2
    exact ⟨false, w, (g₁ false (random 3 ρ).2).1, _, by simp only [if_neg h], h₁ false _, hw,
      fun h => Bool.noConfusion h⟩

include h₁ h₂ in
theorem terms_good (hs : Good dlrtest value s) {u : Text}
    (hu : ∃ ts, GoodTerms dlrtest value u ts) (n : Nat) (ρ : Draws) :
    ∃ ts, GoodTerms dlrtest value ((terms g₁ g₂ s n ρ).1 ++ u) ts := by
  induction n generalizing ρ with
  | zero => exact hu
  | succ n ih =>
    obtain ⟨b, w, c, v, heq, hc, hv, hbw⟩ := term_good h₁ h₂ hs ρ
    obtain ⟨ts, hts⟩ := ih (term g₁ g₂ s ρ).2
    have htext : (terms g₁ g₂ s (n + 1) ρ).1 ++ u =
        c ++ ':' :: v ++ ',' :: ((terms g₁ g₂ s n (term g₁ g₂ s ρ).2).1 ++ u) := by
      simp [terms, heq]
    rw [htext]
    exact goodTerms_more hc hv hbw hts

include h₁ h₂ in
theorem selecthelper_good (ρ : Draws) : Good dlrtest value (selecthelper g₁ g₂ value ρ).1 := by
  let n := (random 4 ρ).1
  let ρ₁ := (random 4 ρ).2
  let s := (g₂ value ρ₁).1
  let ρ₂ := (g₂ value ρ₁).2
  let ρ₃ := (terms g₁ g₂ s n ρ₂).2
  obtain ⟨ts, hts⟩ := terms_good h₁ h₂ (h₂ value ρ₁)
    (goodTerms_last (h₁ true ρ₃) (h₂ value ρ₁)) n ρ₂
  refine ⟨.select ts, ?_, hts.eval, hts.hit, hts.reaches⟩
  have htext : (selecthelper g₁ g₂ value ρ).1 = '(' :: ("$select(".toList ++
      ((terms g₁ g₂ s n ρ₂).1 ++ ((g₁ true ρ₃).1 ++ ':' :: s)) ++ [')']) ++ [')'] := by
    have hopen : "($select(".toList = '(' :: "$select(".toList := rfl
    have hclose : "))".toList = [')'] ++ [')'] := rfl
    change "($select(".toList ++ (terms g₁ g₂ s n ρ₂).1 ++ (g₁ true ρ₃).1 ++ ':' :: s ++
      "))".toList = _
    rw [hopen, hclose]
    simp only [List.append_assoc, List.cons_append]
  rw [htext]
  exact reads_select hts.reads

include h₁ h₂ in
theorem fill_good {t : Template} (ht : t.Sound value) (ρ : Draws) :
    Good dlrtest value (t.fill g₁ g₂ ρ).1 := by
  cases t with
  | binary l op r =>
    obtain ⟨neg, o, hop, hvalue⟩ := ht
    obtain ⟨el, hl, hleval, hlreach⟩ := h₁ l ρ
    obtain ⟨er, hr, hreval, hrreach⟩ := h₂ r (g₁ l ρ).2
    refine ⟨.bin neg o el er, ?_, ?_, hlreach, hrreach⟩
    · have htext : (Template.fill g₁ g₂ (.binary l op r) ρ).1 =
          '(' :: ((g₁ l ρ).1 ++ opText neg o ++ (g₂ r (g₁ l ρ).2).1) ++ [')'] := by
        change '(' :: (g₁ l ρ).1 ++ op.toList ++ (g₂ r (g₁ l ρ).2).1 ++ [')'] = _
        rw [hop, List.cons_append, List.cons_append]
      rw [htext]
      exact reads_bin hl hr
    · rw [Expr.eval, hleval, hreval, Option.bind_some, Option.map_some, hvalue]
  | suffix l text =>
    obtain ⟨neg, b, htext, hvalue⟩ := ht
    obtain ⟨el, hl, hleval, hlreach⟩ := h₁ l ρ
    refine ⟨.pat neg el 1 (if b then ['1'] else ['0']), ?_, ?_, hlreach⟩
    · have htext : (Template.fill g₁ g₂ (.suffix l text) ρ).1 = '(' :: ((g₁ l ρ).1 ++
          ((if neg then ['\'', '?'] else ['?']) ++ '1' :: '"' :: (if b then ['1'] else ['0']) ++
            ['"'])) ++ [')'] := by
        change '(' :: (g₁ l ρ).1 ++ text.toList ++ [')'] = _
        rw [htext, List.cons_append]
      rw [htext]
      exact reads_pat hl rfl (by cases b <;> decide)
    · have hpat : decide (bit l = (List.replicate 1
          ((if b then ['1'] else ['0']).map Char.toNat)).flatten) = (l == b) := by
        cases l <;> cases b <;> rfl
      rw [Expr.eval, hleval, Option.map_some, hpat, hvalue]
  | negated l =>
    have hl := (h₁ l ρ).not.paren
    rw [show l = !value from ht, Bool.not_not] at hl
    have hvalue : l = !value := ht
    subst hvalue
    exact hl
  | selected ret =>
    obtain rfl : ret = value := ht
    exact selecthelper_good h₁ h₂ ρ

end Generators

theorem gen_good (dlrtest value : Bool) (depth : Nat) (ρ : Draws) :
    Good dlrtest value (gen dlrtest value depth ρ).1 := by
  induction depth using Nat.strong_induction_on generalizing value ρ with
  | _ depth ih =>
    cases depth with
    | zero =>
      rw [gen]
      have hlen : ∀ b, (leaves dlrtest b).length = 4 := fun b => by cases b <;> rfl
      have hlt : ρ 0 % 4 < (leaves dlrtest value).length := by
        rw [hlen]
        exact Nat.mod_lt _ (by decide)
      simp only [random, List.getD_eq_getElem?_getD, List.getElem?_eq_getElem hlt, Option.getD_some]
      exact good_leaf _ (List.getElem_mem hlt)
    | succ n =>
      rw [gen]
      have hlen : ∀ b, (templates b).length = 33 := fun b => by cases b <;> rfl
      have hlt : ρ 2 % 33 < (templates value).length := by
        rw [hlen]
        exact Nat.mod_lt _ (by decide)
      refine fill_good (fun value ρ' => ih _ (Nat.mod_lt _ (Nat.succ_pos n)) value ρ')
        (fun value ρ' => ih _ (Nat.mod_lt _ (Nat.succ_pos n)) value ρ') ?_ _
      simp only [List.getD_eq_getElem?_getD]
      rw [List.getElem?_eq_getElem hlt, Option.getD_some]
      exact templates_sound _ (List.getElem_mem hlt)

/-- `$$zero(depth)` and `$$one(depth)` are expressions with the values 0 and 1, and no `$select`
in them runs out of terms. -/
theorem zero_one (dlrtest : Bool) (depth : Nat) (ρ : Draws) :
    (∃ e, parse (zero dlrtest depth ρ).1 = some e ∧ e.eval (env dlrtest) = some (bit false) ∧
      e.Reaches (env dlrtest)) ∧
    ∃ e, parse (one dlrtest depth ρ).1 = some e ∧ e.eval (env dlrtest) = some (bit true) ∧
      e.Reaches (env dlrtest) := by
  have hgood : ∀ value, ∃ e, parse (gen dlrtest value depth ρ).1 = some e ∧
      e.eval (env dlrtest) = some (bit value) ∧ e.Reaches (env dlrtest) := by
    intro value
    obtain ⟨e, hr, he⟩ := gen_good dlrtest value depth ρ
    exact ⟨e, parse_of_reads hr, he⟩
  exact ⟨hgood false, hgood true⟩

end YdbTest.BoolTest
