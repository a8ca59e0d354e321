import YdbTest.Parens

namespace YdbTest.MSyntax

open Parens

def IsName : Text → Prop
  | [] => False
  | c :: t => (c.isAlpha ∨ c = '%') ∧ ∀ c ∈ t, c.isAlphanum

def IsNumber (t : Text) : Prop := t ≠ [] ∧ ∀ c ∈ t, c.isDigit

def unaryOps : List Char := ['-', '+', '\'']

def binaryOps : List String :=
  ["+", "-", "*", "/", "\\", "#", "**", "_", "&", "!", "=", "<", ">", "[", "]", "]]",
    "'&", "'!", "'=", "'<", "'>", "'[", "']", "']]"]

/-- A variable is local or global, or what it is is known when the program runs. -/
inductive Kind where
  | loc | glob | indirect
  deriving DecidableEq

def functions : List (String × List Kind) :=
  [("$data", [.loc, .glob, .indirect]), ("$get", [.loc, .glob, .indirect]),
    ("$next", [.loc, .glob, .indirect]), ("$order", [.loc, .glob, .indirect]),
    ("$query", [.loc, .glob, .indirect]), ("$zprevious", [.loc, .glob, .indirect]),
    ("$zahandle", [.loc, .indirect]), ("$zqgblmod", [.glob, .indirect])]

def functions2 : List String := ["$get", "$order", "$Incr"]

mutual

/-- Expressions: operands with binary operators between them. -/
inductive IsExpr : Text → Prop
  | atom {a : Text} (ha : IsAtom a) : IsExpr a
  | binary {e a : Text} {o : String} (he : IsExpr e) (ho : o ∈ binaryOps) (ha : IsAtom a) :
      IsExpr (e ++ o.toList ++ a)

inductive IsAtom : Text → Prop
  | number {t : Text} (ht : IsNumber t) : IsAtom t
  | unary {u : Char} {a : Text} (hu : u ∈ unaryOps) (ha : IsAtom a) : IsAtom (u :: a)
  | paren {e : Text} (he : IsExpr e) : IsAtom ('(' :: (e ++ [')']))
  | var {k : Kind} {v : Text} (hv : IsGlvn k v) : IsAtom v
  | test : IsAtom "$test".toList
  | function {f : String} {ks : List Kind} {k : Kind} {v : Text} (hf : (f, ks) ∈ functions)
      (hk : k ∈ ks) (hv : IsGlvn k v) : IsAtom (f.toList ++ '(' :: (v ++ [')']))
  | function2 {f : String} {k : Kind} {v e : Text} (hf : f ∈ functions2) (hv : IsGlvn k v)
      (he : IsExpr e) : IsAtom (f.toList ++ '(' :: (v ++ ',' :: e ++ [')']))
  | select {ts : Text} (hts : IsTerms ts) : IsAtom ("$select".toList ++ '(' :: (ts ++ [')']))
  | extrinsic {l : Text} (hl : IsName l) : IsAtom ('$' :: '$' :: l)
  | extrinsicOf {l as : Text} (hl : IsName l) (has : IsActuals as) :
      IsAtom ('$' :: '$' :: l ++ '(' :: (as ++ [')']))

inductive IsGlvn : Kind → Text → Prop
  | loc {n : Text} (hn : IsName n) : IsGlvn .loc n
  | locOf {n s : Text} (hn : IsName n) (hs : IsExprs s) : IsGlvn .loc (n ++ '(' :: (s ++ [')']))
  | glob {n : Text} (hn : IsName n) : IsGlvn .glob ('^' :: n)
  | globOf {n s : Text} (hn : IsName n) (hs : IsExprs s) :
      IsGlvn .glob ('^' :: n ++ '(' :: (s ++ [')']))
  | indirect {a : Text} (ha : IsAtom a) : IsGlvn .indirect ('@' :: a)
  | indirectOf {a s : Text} (ha : IsAtom a) (hs : IsExprs s) :
      IsGlvn .indirect ('@' :: a ++ '@' :: '(' :: (s ++ [')']))

inductive IsExprs : Text → Prop
  | one {e : Text} (he : IsExpr e) : IsExprs e
  | more {e s : Text} (he : IsExpr e) (hs : IsExprs s) : IsExprs (e ++ ',' :: s)

/-- The conditions and values of `$select`. -/
inductive IsTerms : Text → Prop
  | one {c v : Text} (hc : IsExpr c) (hv : IsExpr v) : IsTerms (c ++ ':' :: v)
  | more {c v ts : Text} (hc : IsExpr c) (hv : IsExpr v) (hts : IsTerms ts) :
      IsTerms (c ++ ':' :: (v ++ ',' :: ts))

/-- The arguments of an extrinsic function, by value or by reference. -/
inductive IsActuals : Text → Prop
  | value {e : Text} (he : IsExpr e) : IsActuals e
  | reference {n : Text} (hn : IsName n) : IsActuals ('.' :: n)
  | more {a as : Text} (ha : IsActuals a) (has : IsActuals as) : IsActuals (a ++ ',' :: as)

end

theorem alphanum_plain {c : Char} (h : c.isAlphanum) : c ≠ '(' ∧ c ≠ ')' := by
  refine ⟨?_, ?_⟩
  · rintro rfl
    exact absurd h (by decide)
  · rintro rfl
    exact absurd h (by decide)

theorem name_balanced {n : Text} (h : IsName n) : Balanced n := by
  cases n with
  | nil => exact Balanced.nil
  | cons c t =>
    refine (Balanced.plain fun c hc => alphanum_plain (h.2 c hc)).cons ?_ ?_
    · rintro rfl
      exact absurd h.1 (by decide)
    · rintro rfl
      exact absurd h.1 (by decide)

theorem number_balanced {t : Text} (h : IsNumber t) : Balanced t := by
  refine Balanced.plain fun c hc => ⟨?_, ?_⟩
  · rintro rfl
    exact absurd (h.2 _ hc) (by decide)
  · rintro rfl
    exact absurd (h.2 _ hc) (by decide)

theorem plain_balanced {t : Text} (h : t.all fun c => c != '(' && c != ')') : Balanced t := by
  refine Balanced.plain fun c hc => ?_
  have := List.all_eq_true.mp h c hc
  simpa using this

theorem binaryOps_balanced {o : String} (h : o ∈ binaryOps) : Balanced o.toList := by
  have hall : binaryOps.all fun o => o.toList.all fun c => c != '(' && c != ')' := by decide
  exact plain_balanced (List.all_eq_true.mp hall o h)

theorem functions_balanced {f : String} {ks : List Kind} (h : (f, ks) ∈ functions) :
    Balanced f.toList := by
  have hall : functions.all fun f => f.1.toList.all fun c => c != '(' && c != ')' := by decide
  exact plain_balanced (List.all_eq_true.mp hall (f, ks) h)

theorem functions2_balanced {f : String} (h : f ∈ functions2) : Balanced f.toList := by
  have hall : functions2.all fun f => f.toList.all fun c => c != '(' && c != ')' := by decide
  exact plain_balanced (List.all_eq_true.mp hall f h)

theorem unary_balanced {u : Char} (hu : u ∈ unaryOps) {a : Text} (ha : Balanced a) :
    Balanced (u :: a) := by
  refine ha.cons ?_ ?_
  · rintro rfl
    exact absurd hu (by decide)
  · rintro rfl
    exact absurd hu (by decide)

theorem dollars_balanced {l : Text} (hl : IsName l) : Balanced ('$' :: '$' :: l) :=
  Balanced.cons (by decide) (by decide) ((name_balanced hl).cons (by decide) (by decide))

theorem glob_balanced {n : Text} (hn : IsName n) : Balanced ('^' :: n) :=
  (name_balanced hn).cons (by decide) (by decide)

theorem indirect_balanced {a : Text} (ha : Balanced a) : Balanced ('@' :: a) :=
  ha.cons (by decide) (by decide)

mutual

theorem IsExpr.balanced {t : Text} : IsExpr t → Balanced t
  | .atom ha => ha.balanced
  | .binary he ho ha => (he.balanced.append (binaryOps_balanced ho)).append ha.balanced

theorem IsAtom.balanced {t : Text} : IsAtom t → Balanced t
  | .number ht => number_balanced ht
  | .unary hu ha => unary_balanced hu ha.balanced
  | .paren he => he.balanced.wrap
  | .var hv => hv.balanced
  | .test => plain_balanced (by decide)
  | .function hf _ hv => (functions_balanced hf).call hv.balanced
  | .function2 hf hv he =>
    (functions2_balanced hf).call (hv.balanced.sep (by decide) (by decide) he.balanced)
  | .select hts => Balanced.call (a := "$select".toList) (plain_balanced (by decide)) hts.balanced
  | .extrinsic hl => dollars_balanced hl
  | .extrinsicOf hl has => (dollars_balanced hl).call has.balanced

theorem IsGlvn.balanced {k : Kind} {t : Text} : IsGlvn k t → Balanced t
  | .loc hn => name_balanced hn
  | .locOf hn hs => (name_balanced hn).call hs.balanced
  | .glob hn => glob_balanced hn
  | .globOf hn hs => (glob_balanced hn).call hs.balanced
  | .indirect ha => indirect_balanced ha.balanced
  | .indirectOf ha hs =>
    (indirect_balanced ha.balanced).sep (by decide) (by decide) hs.balanced.wrap

theorem IsExprs.balanced {t : Text} : IsExprs t → Balanced t
  | .one he => he.balanced
  | .more he hs => he.balanced.sep (by decide) (by decide) hs.balanced

theorem IsTerms.balanced {t : Text} : IsTerms t → Balanced t
  | .one hc hv => hc.balanced.sep (by decide) (by decide) hv.balanced
  | .more hc hv hts => hc.balanced.sep (by decide) (by decide)
      (hv.balanced.sep (by decide) (by decide) hts.balanced)

theorem IsActuals.balanced {t : Text} : IsActuals t → Balanced t
  | .value he => he.balanced
  | .reference hn => (name_balanced hn).cons (by decide) (by decide)
  | .more ha has => ha.balanced.sep (by decide) (by decide) has.balanced

end

/-- What stands before an operand: nothing, or an expression and an operator. -/
inductive Lead : Text → Prop
  | nil : Lead []
  | op {e : Text} {o : String} (he : IsExpr e) (ho : o ∈ binaryOps) : Lead (e ++ o.toList)

/-- What stands before an expression inside `d` levels of parentheses. -/
inductive Levels : Nat → Text → Prop
  | nil : Levels 0 []
  | paren {d : Nat} {p l : Text} (hp : Levels d p) (hl : Lead l) : Levels (d + 1) (p ++ l ++ ['('])

def Waiting (d : Nat) (t : Text) : Prop := ∃ p l, t = p ++ l ∧ Levels d p ∧ Lead l

def Started (d : Nat) (t : Text) : Prop := ∃ p e, t = p ++ e ∧ Levels d p ∧ IsExpr e

section Writing

variable {d : Nat} {t a l : Text}

theorem Lead.atom (hl : Lead l) (ha : IsAtom a) : IsExpr (l ++ a) := by
  cases hl with
  | nil => exact .atom ha
  | op he ho => exact .binary he ho ha

theorem Waiting.paren (h : Waiting d t) : Waiting (d + 1) (t ++ ['(']) := by
  obtain ⟨p, l, rfl, hp, hl⟩ := h
  exact ⟨_, [], (List.append_nil _).symm, .paren hp hl, .nil⟩

theorem Waiting.operand (h : Waiting d t) (ha : IsAtom a) : Started d (t ++ a) := by
  obtain ⟨p, l, rfl, hp, hl⟩ := h
  exact ⟨p, l ++ a, List.append_assoc p l a, hp, hl.atom ha⟩

theorem Started.op {o : String} (h : Started d t) (ho : o ∈ binaryOps) :
    Waiting d (t ++ o.toList) := by
  obtain ⟨p, e, rfl, hp, he⟩ := h
  exact ⟨p, e ++ o.toList, List.append_assoc p e _, hp, .op he ho⟩

theorem Started.close (h : Started (d + 1) t) : Started d (t ++ [')']) := by
  obtain ⟨_, e, rfl, ⟨⟩ | @⟨_, p, l, hp, hl⟩, he⟩ := h
  refine ⟨p, l ++ '(' :: (e ++ [')']), ?_, hp, hl.atom (.paren he)⟩
  simp

theorem Started.expr (h : Started 0 t) : IsExpr t := by
  obtain ⟨_, e, rfl, ⟨⟩, he⟩ := h
  exact he

end Writing

end YdbTest.MSyntax
