import YdbTest.MSyntax
import YdbTest.RandomDraws

namespace YdbTest.BooleanExpr

open Parens MSyntax RandomDraws

/-- What `Init` sets. -/
structure Config where
  div0 : Bool
  dividends : Nat × Nat × Nat
  baseoprnpct : Nat
  basecprnpct : Nat
  nxtopandpct : Nat
  numterms : Nat

def Init (div0 : Bool) (dividends : Nat × Nat × Nat) : Config where
  div0 := div0
  dividends := dividends
  baseoprnpct := 33
  basecprnpct := 40
  nxtopandpct := 35
  numterms := 5

inductive TType where
  | constant | test | extrinsic | variable | relexpr | function | div0

def ttypes : Nat → TType
  | 0 => .constant
  | 1 => .test
  | 2 => .extrinsic
  | 3 => .variable
  | 4 => .relexpr
  | 5 => .function
  | _ => .div0

def div0indx : Nat := 6

def Config.ttypecnt (c : Config) : Nat := if c.div0 then 7 else 6

inductive TFunc where
  | increment | data | get | next | order | query | select | zahandle | zprevious | zqgblmod

def tfuncs : Nat → TFunc
  | 0 => .increment
  | 1 => .data
  | 2 => .get
  | 3 => .next
  | 4 => .order
  | 5 => .query
  | 6 => .select
  | 7 => .zahandle
  | 8 => .zprevious
  | _ => .zqgblmod

def tfunccnt : Nat := 10

def relop : Nat → String
  | 0 => "="
  | 1 => "'="
  | 2 => "<"
  | 3 => "'<"
  | 4 => ">"
  | 5 => "'>"
  | 6 => "["
  | 7 => "'["
  | 8 => "]"
  | 9 => "']"
  | 10 => "]]"
  | _ => "']]"

def relopcnt : Nat := 12

def num (n : Nat) : Text := Nat.toDigits 10 n

def less1 : Nat → Text
  | 0 => "-1".toList
  | n + 1 => num n

def minus1 : Nat → Text
  | 0 => num 1
  | 1 => num 0
  | n + 2 => '-' :: num (n + 1)

def Config.div0term (c : Config) : Nat → Text
  | 0 => '(' :: (num c.dividends.1 ++ "/0)".toList)
  | 1 => '(' :: (num c.dividends.2.1 ++ "\\0)".toList)
  | 2 => '(' :: (num c.dividends.2.2 ++ "#0)".toList)
  | _ => "(0**-1)".toList

def div0cnt : Nat := 4

abbrev Gen := RandomDraws.Gen Bool

def sel (c : Bool) (a b : String) : Text := if c then a.toList else b.toList

/-- `$random(2)` as a condition. -/
def coin : Gen Bool := either true false

/-- `$select(ind:"@",1:"")_$select($random(2):"^",1:"")_$select(ind:"i",1:"")_`
`$select($random(2):"TRUE",1:"FALSE")` -/
def truthVar (ind : Bool) : Gen Text := do
  let gbl ← coin
  let value ← coin
  return sel ind "@" "" ++ sel gbl "^" "" ++ sel ind "i" "" ++ sel value "TRUE" "FALSE"

def truthLocal (ind : Bool) : Gen Text := do
  let value ← coin
  return sel ind "@" "" ++ sel ind "i" "" ++ sel value "TRUE" "FALSE"

/-- `$select(ind:"@",1:"")_$select($random(2):"^",1:"")_$select(ind:"bogus",1:"unknwn")` -/
def unknownVar (ind : Bool) : Gen Text := do
  let gbl ← coin
  return sel ind "@" "" ++ sel gbl "^" "" ++ sel ind "bogus" "unknwn"

/-- `_$select($random(2):$select(ind:"@",1:"")_"("_$random(2)_")",1:"")` -/
def maybeSubs (ind : Bool) : Gen Text := do
  let subs ← coin
  if subs then do
    let n ← random 2
    return sel ind "@" "" ++ '(' :: (num n ++ [')'])
  else return []

/-- `_$select(ind:"@(",1:"(")_s_")"` -/
def subscripted (ind : Bool) (argvar s : Text) : Text := argvar ++ sel ind "@(" "(" ++ s ++ [')']

def GenFuncTerm : Gen Text := do
  let ftype ← random tfunccnt
  let ind ← coin
  match tfuncs ftype with
  | .increment => do
    let argvar := sel ind "@indincrvar" "incrvar"
    let incval ← random 3
    return "(0<($Incr(".toList ++ argvar ++ ",".toList ++ less1 incval ++ ")-$Incr(".toList ++
      argvar ++ ",".toList ++ minus1 incval ++ ")))".toList
  | .data => do
    let known ← coin
    let argvar ←
      if known then do
        let argvar ← truthVar ind
        let n ← random 2
        pure (subscripted ind argvar (num n))
      else unknownVar ind
    return "$data(".toList ++ argvar ++ [')']
  | .get => do
    let args := (← random 2) + 1
    if args = 1 then do
      let argvar ← truthVar ind
      let subs ← maybeSubs ind
      return "$get(".toList ++ (argvar ++ subs) ++ [')']
    else do
      let argvar ← unknownVar ind
      let n ← random 2
      return "$get(".toList ++ argvar ++ ",".toList ++ num n ++ [')']
  | .next => do
    let argvar ← truthVar ind
    let n ← random 2
    return "$next(".toList ++ subscripted ind argvar (less1 n) ++ [')']
  | .order => do
    let args := (← random 2) + 1
    let argvar ← truthVar ind
    if args = 1 then do
      let n ← random 2
      return "$order(".toList ++ subscripted ind argvar (less1 n) ++ [')']
    else do
      let dir ← coin
      let n ← random 2
      let argvar := subscripted ind argvar (if dir then num (n + 1) else less1 n)
      return "$order(".toList ++ argvar ++ ",".toList ++ sel dir "-1" "1" ++ [')']
  | .query => do
    let argvar ← truthVar ind
    let n ← random 2
    return "@($query(".toList ++ subscripted ind argvar (less1 n) ++ "))".toList
  | .select => do
    let argvar ← truthVar ind
    let subs ← maybeSubs ind
    return "$select(".toList ++ (argvar ++ subs) ++ ":1,1:0)".toList
  | .zahandle => do
    let argvar1 ← truthLocal ind
    let subs1 ← maybeSubs ind
    let argvar2 ← truthLocal ind
    let subs2 ← maybeSubs ind
    return "($zahandle(".toList ++ (argvar1 ++ subs1) ++ ")]$zahandle(".toList ++
      (argvar2 ++ subs2) ++ "))".toList
  | .zprevious => do
    let argvar ← truthVar ind
    let n ← random 2
    return "$zprevious(".toList ++ subscripted ind argvar (num (n + 1)) ++ [')']
  | .zqgblmod => do
    let value ← coin
    return "$zqgblmod(".toList ++
      (sel ind "@" "" ++ sel ind "^i" "^" ++ sel value "TRUE" "FALSE") ++ [')']

/-- One of `$$Always0`, `$$Always1`, `$$RetSame(x)` and `$$RetNot(x)`; `nextTerm` gives the
argument. -/
def extrinsicTerm (nextTerm : Gen Text) : Gen Text := do
  let arg ← coin
  if arg then do
    let termarg ← nextTerm
    let byref ← coin
    let termarg :=
      if byref && (termarg == "TRUE".toList || termarg == "FALSE".toList) then '.' :: termarg
      else termarg
    let same ← coin
    return "$$Ret".toList ++ sel same "Same" "Not" ++ '(' :: (termarg ++ [')'])
  else do
    let n ← random 2
    return "$$Always".toList ++ num n

def variableTerm (nextTerm : Gen Text) : Gen Text := do
  let idx ← coin
  let indr ← coin
  let lclgbl ← coin
  let value ← coin
  let term := sel indr "@" "" ++ sel lclgbl "" "^" ++ sel indr "i" "" ++ sel value "TRUE" "FALSE"
  if idx then do
    let subs ← nextTerm
    return term ++ sel indr "@" "" ++ '(' :: (subs ++ [')'])
  else return term

def relexprTerm (nextTerm : Gen Text) : Gen Text := do
  let left ← nextTerm
  let op ← random relopcnt
  let right ← nextTerm
  return '(' :: (left ++ (relop op).toList ++ right ++ [')'])

/-- The next term; `late` is `curtrm>(minterms-1)`. A term may have terms in it, down to `fuel`
levels. -/
def NextTerm (c : Config) (late : Bool) : Nat → Gen Text
  | 0 => fun _ => none
  | fuel + 1 => do
    let n ← random c.ttypecnt
    let ρ ← get
    let ttype := if c.div0 && !ρ.vars && late then div0indx else n
    match ttypes ttype with
    | .constant => do
      let n ← random 2
      return num n
    | .test => return "$test".toList
    | .extrinsic => extrinsicTerm (NextTerm c late fuel)
    | .variable => variableTerm (NextTerm c late fuel)
    | .relexpr => relexprTerm (NextTerm c late fuel)
    | .function => GenFuncTerm
    | .div0 => do
      let arg ← random div0cnt
      modify fun ρ => { ρ with vars := true }
      return c.div0term arg

def NextOp (c : Config) : Gen String := do
  let opp ← random 100
  return if c.nxtopandpct > opp then "&" else "!"

def NewParenLevel (c : Config) (prnnest : Nat) : Gen Bool := do
  let n ← random 100
  return decide ((n : Int) + c.baseoprnpct - 10 * prnnest > 99)

def CloseParenLevel (c : Config) (minterms curtrm prnnest : Nat) : Gen Bool :=
  if curtrm > minterms + 2 then return true
  else do
    let n ← random 100
    return decide ((n : Int) + c.basecprnpct + 10 * prnnest > 99)

inductive Token where
  | none | oparen | clparen | term | op
  deriving DecidableEq

/-- The variables of the loop; `extra` is whether the branch that closes one more parenthesis has
been taken. -/
structure Loop where
  expr : Text
  prnnest : Nat
  newlvl : Bool
  lastoprn : Nat → Nat
  lasttk : Nat → Token
  extra : Bool

section

variable (c : Config) (minterms curtrm : Nat)

def addOp (s : Loop) : Gen Loop :=
  if !s.newlvl && decide (curtrm < minterms + 2) then do
    let op ← NextOp c
    return { s with expr := s.expr ++ op.toList, lasttk := Function.update s.lasttk s.prnnest .op }
  else return s

def openParen (s : Loop) : Gen Loop := do
  let new ← (if s.prnnest = 0 then pure true else NewParenLevel c s.prnnest)
  if new && decide ((curtrm : Int) < minterms - s.prnnest - 3) then
    return { s with
      expr := s.expr ++ ['(']
      prnnest := s.prnnest + 1
      newlvl := true
      lastoprn := Function.update s.lastoprn (s.prnnest + 1) curtrm
      lasttk := Function.update s.lasttk (s.prnnest + 1) .oparen }
  else return s

def addTerm (s : Loop) : Gen Loop :=
  if curtrm < minterms + 2 then do
    let op ← (if !s.newlvl && s.lasttk s.prnnest != .op then NextOp c else pure "")
    let term ← fun ρ =>
      NextTerm c (decide ((curtrm : Int) > minterms - 1)) (ρ.draws.length + 1) ρ
    return { s with
      expr := s.expr ++ op.toList ++ term, lasttk := Function.update s.lasttk s.prnnest .term }
  else return s

def closeParen (s : Loop) : Gen Loop :=
  if 0 < s.prnnest ∧ ¬ (curtrm : Int) - 2 < s.lastoprn s.prnnest then do
    let close ← CloseParenLevel c minterms curtrm s.prnnest
    if close then
      let s := { s with expr := s.expr ++ [')'], prnnest := s.prnnest - 1 }
      if curtrm < minterms + 1 ∧ curtrm = s.lastoprn s.prnnest then
        return { s with
          expr := s.expr ++ [')']
          lasttk := Function.update s.lasttk s.prnnest .clparen
          extra := true }
      else return s
    else return s
  else return s

def round (s : Loop) : Gen Loop := do
  let s ← addOp c minterms curtrm s
  let s ← openParen c minterms curtrm s
  let s ← addTerm c minterms curtrm s
  closeParen c minterms curtrm { s with newlvl := false }

end

def rounds (c : Config) (minterms : Nat) : List Nat → Loop → Gen Loop
  | [], s => return s
  | curtrm :: rest, s =>
    if curtrm > minterms + 5 ∧ s.prnnest = 0 then return s
    else do
      let s ← round c minterms curtrm s
      rounds c minterms rest s

def start : Loop where
  expr := ['(']
  prnnest := 1
  newlvl := true
  lastoprn := Function.update (fun _ => 0) 1 1
  lasttk := Function.update (fun _ => .none) 1 .oparen
  extra := false

def generate (c : Config) : Gen Loop := do
  modify fun ρ => { ρ with vars := false }
  let minterms := (← random c.numterms) + 3
  rounds c minterms (List.range' 1 999) start

def Loop.result (s : Loop) : Text := '(' :: (s.expr ++ [')'])

def BooleanExprGen (c : Config) : Gen Text := do
  let s ← generate c
  return s.result

theorem num_number (n : Nat) : IsNumber (num n) :=
  ⟨Nat.toDigits_ne_nil, fun _ hc => Nat.isDigit_of_mem_toDigits (by decide) (by decide) hc⟩

theorem num_atom (n : Nat) : IsAtom (num n) := .number (num_number n)

theorem less1_atom (n : Nat) : IsAtom (less1 n) := by
  cases n with
  | zero => exact .unary (u := '-') (by decide) (num_atom 1)
  | succ n => exact num_atom n

theorem minus1_atom (n : Nat) : IsAtom (minus1 n) := by
  match n with
  | 0 => exact num_atom 1
  | 1 => exact num_atom 0
  | n + 2 => exact .unary (u := '-') (by decide) (num_atom (n + 1))

theorem div0term_atom (c : Config) (n : Nat) : IsAtom (c.div0term n) := by
  have hdivided (o : String) (ho : o ∈ binaryOps) (n : Nat) :
      IsAtom ('(' :: (num n ++ (o.toList ++ "0)".toList))) := by
    have h : IsAtom ('(' :: (num n ++ o.toList ++ num 0 ++ [')'])) :=
      .paren (.binary (.atom (num_atom n)) ho (num_atom 0))
    rwa [List.append_assoc, List.append_assoc] at h
  match n with
  | 0 => exact hdivided "/" (by decide) c.dividends.1
  | 1 => exact hdivided "\\" (by decide) c.dividends.2.1
  | 2 => exact hdivided "#" (by decide) c.dividends.2.2
  | n + 3 =>
    have hneg : IsAtom "-1".toList := less1_atom 0
    exact .paren (.binary (.atom (num_atom 0)) (o := "**") (by decide) hneg)

theorem isName_of_bool {t : Text}
    (h : (match t with
      | [] => false
      | c :: t => c.isAlpha && t.all fun c => c.isAlphanum) = true) : IsName t := by
  cases t with
  | nil => cases h
  | cons c t =>
    rw [Bool.and_eq_true] at h
    exact ⟨Or.inl h.1, fun c hc => List.all_eq_true.mp h.2 c hc⟩

def kindOf (ind gbl : Bool) : Kind := if ind then .indirect else if gbl then .glob else .loc

inductive IsVar : Kind → Text → Prop
  | loc {n : Text} (hn : IsName n) : IsVar .loc n
  | glob {n : Text} (hn : IsName n) : IsVar .glob ('^' :: n)
  | indirect {a : Text} (ha : IsAtom a) : IsVar .indirect ('@' :: a)

theorem IsVar.glvn {k : Kind} {t : Text} : IsVar k t → IsGlvn k t
  | .loc hn => .loc hn
  | .glob hn => .glob hn
  | .indirect ha => .indirect ha

theorem isVar_of_name (ind gbl : Bool) {n : Text} (hn : IsName n) :
    IsVar (kindOf ind gbl) (sel ind "@" "" ++ sel gbl "^" "" ++ n) := by
  match ind, gbl with
  | true, true => exact .indirect (.var (.glob hn))
  | true, false => exact .indirect (.var (.loc hn))
  | false, true => exact .glob hn
  | false, false => exact .loc hn

theorem subscripted_glvn {ind gbl : Bool} {t s : Text} (h : IsVar (kindOf ind gbl) t)
    (hs : IsExpr s) : IsGlvn (kindOf ind gbl) (subscripted ind t s) := by
  have hind (t : Text) : subscripted true t s = t ++ '@' :: '(' :: (s ++ [')']) := by
    simp [subscripted, sel]
  have hdir (t : Text) : subscripted false t s = t ++ '(' :: (s ++ [')']) := by
    simp [subscripted, sel]
  match ind, gbl, t, h with
  | true, true, _, .indirect ha => exact hind _ ▸ .indirectOf ha (.one hs)
  | true, false, _, .indirect ha => exact hind _ ▸ .indirectOf ha (.one hs)
  | false, true, _, .glob hn => exact hdir _ ▸ .globOf hn (.one hs)
  | false, false, _, .loc hn => exact hdir _ ▸ .locOf hn (.one hs)

theorem coin_quiet : Quiet coin fun _ => True := Quiet.either trivial trivial

theorem truth_name (ind value : Bool) : IsName (sel ind "i" "" ++ sel value "TRUE" "FALSE") := by
  match ind, value with
  | true, true => exact isName_of_bool (by decide)
  | true, false => exact isName_of_bool (by decide)
  | false, true => exact isName_of_bool (by decide)
  | false, false => exact isName_of_bool (by decide)

theorem unknown_name (ind : Bool) : IsName (sel ind "bogus" "unknwn") := by
  cases ind
  · exact isName_of_bool (by decide)
  · exact isName_of_bool (by decide)

theorem truthVar_quiet (ind : Bool) :
    Quiet (truthVar ind) fun t => ∃ gbl, IsVar (kindOf ind gbl) t := by
  refine coin_quiet.bind fun gbl _ => coin_quiet.bind fun value _ => Quiet.pure ⟨gbl, ?_⟩
  rw [List.append_assoc]
  exact isVar_of_name ind gbl (truth_name ind value)

theorem truthLocal_quiet (ind : Bool) : Quiet (truthLocal ind) (IsVar (kindOf ind false)) := by
  refine coin_quiet.bind fun value _ => Quiet.pure ?_
  have h := isVar_of_name ind false (truth_name ind value)
  have hnone : sel false "^" "" = [] := rfl
  rw [hnone, List.append_nil] at h
  rwa [List.append_assoc]

theorem unknownVar_quiet (ind : Bool) :
    Quiet (unknownVar ind) fun t => ∃ gbl, IsVar (kindOf ind gbl) t :=
  coin_quiet.bind fun gbl _ => Quiet.pure ⟨gbl, isVar_of_name ind gbl (unknown_name ind)⟩

theorem maybeSubs_quiet (ind : Bool) : Quiet (maybeSubs ind) fun u =>
    ∀ gbl t, IsVar (kindOf ind gbl) t → IsGlvn (kindOf ind gbl) (t ++ u) := by
  refine coin_quiet.bind fun subs _ => ?_
  cases subs with
  | true =>
    refine (Quiet.random 2).bind fun n _ => Quiet.pure fun gbl t ht => ?_
    have hshape : t ++ (sel ind "@" "" ++ '(' :: (num n ++ [')'])) = subscripted ind t (num n) := by
      cases ind <;> simp [subscripted, sel]
    rw [hshape]
    exact subscripted_glvn ht (.atom (num_atom n))
  | false =>
    refine Quiet.pure fun gbl t ht => ?_
    rw [List.append_nil]
    exact ht.glvn

theorem all_kinds (k : Kind) : k ∈ [Kind.loc, .glob, .indirect] := by cases k <;> decide

def anyVar : List String := ["$data", "$get", "$next", "$order", "$query", "$zprevious"]

theorem call_atom {f : String} (hf : f ∈ anyVar) {k : Kind} {v : Text} (hv : IsGlvn k v) :
    IsAtom ((f ++ "(").toList ++ v ++ [')']) := by
  have hmem : (f, [Kind.loc, .glob, .indirect]) ∈ functions := by
    have hall : ∀ f ∈ anyVar, (f, [Kind.loc, .glob, .indirect]) ∈ functions := by decide
    exact hall f hf
  rw [String.toList_append, List.append_assoc, List.append_assoc]
  exact .function hmem (all_kinds k) hv

theorem call2_atom {f : String} (hf : f ∈ functions2) {k : Kind} {v e : Text} (hv : IsGlvn k v)
    (he : IsExpr e) : IsAtom ((f ++ "(").toList ++ v ++ ",".toList ++ e ++ [')']) := by
  have h : IsAtom (f.toList ++ '(' :: (v ++ ',' :: e ++ [')'])) := .function2 hf hv he
  have hshape : (f ++ "(").toList ++ v ++ ",".toList ++ e ++ [')'] =
      f.toList ++ '(' :: (v ++ ',' :: e ++ [')']) := by
    simp
  rwa [hshape]

theorem increment_atom (ind : Bool) (n : Nat) :
    IsAtom ("(0<($Incr(".toList ++ sel ind "@indincrvar" "incrvar" ++ ",".toList ++ less1 n ++
      ")-$Incr(".toList ++ sel ind "@indincrvar" "incrvar" ++ ",".toList ++ minus1 n ++
      ")))".toList) := by
  obtain ⟨k, hv⟩ : ∃ k, IsGlvn k (sel ind "@indincrvar" "incrvar") := by
    cases ind with
    | true => exact ⟨_, .indirect (.var (.loc (n := "indincrvar".toList)
        (isName_of_bool (by decide))))⟩
    | false => exact ⟨_, .loc (isName_of_bool (by decide))⟩
  have hincr {e : Text} (he : IsAtom e) := call2_atom (f := "$Incr") (by decide) hv (.atom he)
  have hsub : IsExpr _ :=
    .binary (.atom (hincr (less1_atom n))) (o := "-") (by decide) (hincr (minus1_atom n))
  have h : IsAtom _ := .paren (.binary (.atom (num_atom 0)) (o := "<") (by decide) (.paren hsub))
  refine cast (congrArg IsAtom ?_) h
  simp [num]

theorem GenFuncTerm_quiet : Quiet GenFuncTerm IsAtom := by
  refine (Quiet.random tfunccnt).bind fun ftype _ => coin_quiet.bind fun ind _ => ?_
  cases tfuncs ftype with
  | increment =>
    refine (Quiet.random 3).bind fun n _ => Quiet.pure ?_
    exact increment_atom ind n
  | data =>
    refine coin_quiet.bind fun known _ => ?_
    cases known with
    | true =>
      refine (truthVar_quiet ind).bind fun v ⟨gbl, hv⟩ => (Quiet.random 2).bind fun n _ =>
        Quiet.pure ?_
      exact call_atom (f := "$data") (by decide) (subscripted_glvn hv (.atom (num_atom n)))
    | false =>
      refine (unknownVar_quiet ind).bind fun v ⟨gbl, hv⟩ => Quiet.pure ?_
      exact call_atom (f := "$data") (by decide) hv.glvn
  | get =>
    refine (Quiet.random 2).bind fun n _ => ?_
    by_cases hargs : n + 1 = 1
    · simp only [hargs, if_true]
      refine (truthVar_quiet ind).bind fun v ⟨gbl, hv⟩ => (maybeSubs_quiet ind).bind fun u hu =>
        Quiet.pure ?_
      exact call_atom (f := "$get") (by decide) (hu gbl v hv)
    · simp only [hargs, if_false]
      refine (unknownVar_quiet ind).bind fun v ⟨gbl, hv⟩ => (Quiet.random 2).bind fun n _ =>
        Quiet.pure ?_
      exact call2_atom (f := "$get") (by decide) hv.glvn (.atom (num_atom n))
  | next =>
    refine (truthVar_quiet ind).bind fun v ⟨gbl, hv⟩ => (Quiet.random 2).bind fun n _ =>
      Quiet.pure ?_
    exact call_atom (f := "$next") (by decide) (subscripted_glvn hv (.atom (less1_atom n)))
  | order =>
    refine (Quiet.random 2).bind fun n _ => (truthVar_quiet ind).bind fun v ⟨gbl, hv⟩ => ?_
    by_cases hargs : n + 1 = 1
    · simp only [hargs, if_true]
      refine (Quiet.random 2).bind fun n _ => Quiet.pure ?_
      exact call_atom (f := "$order") (by decide) (subscripted_glvn hv (.atom (less1_atom n)))
    · simp only [hargs, if_false]
      refine coin_quiet.bind fun dir _ => (Quiet.random 2).bind fun n _ => Quiet.pure ?_
      cases dir with
      | true =>
        exact call2_atom (f := "$order") (by decide)
          (subscripted_glvn hv (.atom (num_atom (n + 1)))) (.atom (less1_atom 0))
      | false =>
        exact call2_atom (f := "$order") (by decide) (subscripted_glvn hv (.atom (less1_atom n)))
          (.atom (num_atom 1))
  | query =>
    refine (truthVar_quiet ind).bind fun v ⟨gbl, hv⟩ => (Quiet.random 2).bind fun n _ =>
      Quiet.pure ?_
    have hquery := call_atom (f := "$query") (by decide)
      (subscripted_glvn hv (.atom (less1_atom n)))
    have h : IsAtom _ := .var (.indirect (.paren (.atom hquery)))
    refine cast (congrArg IsAtom ?_) h
    simp
  | select =>
    refine (truthVar_quiet ind).bind fun v ⟨gbl, hv⟩ => (maybeSubs_quiet ind).bind fun u hu =>
      Quiet.pure ?_
    have hvar : IsExpr (v ++ u) := .atom (.var (hu gbl v hv))
    have h : IsAtom _ := .select (.more hvar (.atom (num_atom 1))
      (.one (.atom (num_atom 1)) (.atom (num_atom 0))))
    have hone : num 1 = ['1'] := rfl
    have hzero : num 0 = ['0'] := rfl
    refine cast (congrArg IsAtom ?_) h
    simp [hone, hzero]
  | zahandle =>
    refine (truthLocal_quiet ind).bind fun v hv => (maybeSubs_quiet ind).bind fun u hu =>
      (truthLocal_quiet ind).bind fun w hw => (maybeSubs_quiet ind).bind fun x hx => Quiet.pure ?_
    have hk : kindOf ind false ∈ [Kind.loc, .indirect] := by cases ind <;> decide
    have hmem : ("$zahandle", [Kind.loc, .indirect]) ∈ functions := by decide
    have hzah {v : Text} (hv : IsGlvn (kindOf ind false) v) : IsAtom _ := .function hmem hk hv
    have h : IsAtom _ :=
      .paren (.binary (.atom (hzah (hu false v hv))) (o := "]") (by decide) (hzah (hx false w hw)))
    refine cast (congrArg IsAtom ?_) h
    simp
  | zprevious =>
    refine (truthVar_quiet ind).bind fun v ⟨gbl, hv⟩ => (Quiet.random 2).bind fun n _ =>
      Quiet.pure ?_
    exact call_atom (f := "$zprevious") (by decide) (subscripted_glvn hv (.atom (num_atom (n + 1))))
  | zqgblmod =>
    refine coin_quiet.bind fun value _ => Quiet.pure ?_
    have hvar : IsGlvn (kindOf ind true)
        (sel ind "@" "" ++ sel ind "^i" "^" ++ sel value "TRUE" "FALSE") := by
      refine cast ?_ (isVar_of_name ind true (truth_name ind value)).glvn
      cases ind <;> simp [sel]
    have hk : kindOf ind true ∈ [Kind.glob, .indirect] := by cases ind <;> decide
    have hmem : ("$zqgblmod", [Kind.glob, .indirect]) ∈ functions := by decide
    have h : IsAtom _ := .function hmem hk hvar
    refine cast (congrArg IsAtom ?_) h
    simp

def HasDiv0 (c : Config) (t : Text) : Prop := ∃ n, c.div0term n <:+: t

/-- A program that has drawn, and that has put a division by zero into a text if it says so. -/
structure Generated (c : Config) (ρ : Supply Bool) (t : Text) (ρ' : Supply Bool) : Prop where
  draws : ρ'.draws.length ≤ ρ.draws.length
  done : ρ.vars = true → ρ'.vars = true
  fresh : ρ'.vars = true → ρ.vars = true ∨ HasDiv0 c t

section Generated

variable {c : Config} {ρ ρ' ρ'' : Supply Bool} {t u w : Text}

theorem HasDiv0.mono (h : HasDiv0 c t) (htu : t <:+: u) : HasDiv0 c u := by
  obtain ⟨n, hn⟩ := h
  exact ⟨n, hn.trans htu⟩

theorem Generated.of_drawn (h : Drawn ρ ρ') : Generated c ρ t ρ' where
  draws := h.draws
  done := fun hv => h.vars.trans hv
  fresh := fun hv => Or.inl (h.vars.symm.trans hv)

theorem Generated.trans (h : Generated c ρ t ρ') (h' : Generated c ρ' u ρ'') (ht : t <:+: w)
    (hu : u <:+: w) : Generated c ρ w ρ'' where
  draws := Nat.le_trans h'.draws h.draws
  done := fun hv => h'.done (h.done hv)
  fresh := by
    intro hv
    cases h'.fresh hv with
    | inr hdiv => exact Or.inr (hdiv.mono hu)
    | inl hv =>
      cases h.fresh hv with
      | inl hv => exact Or.inl hv
      | inr hdiv => exact Or.inr (hdiv.mono ht)

theorem Generated.before (h : Drawn ρ ρ') (h' : Generated c ρ' t ρ'') : Generated c ρ t ρ'' :=
  (Generated.of_drawn h (t := [])).trans h' (List.nil_infix) (List.infix_refl t)

theorem Generated.after (h : Generated c ρ t ρ') (h' : Drawn ρ' ρ'') (htu : t <:+: u) :
    Generated c ρ u ρ'' :=
  h.trans (Generated.of_drawn h' (t := [])) htu (List.nil_infix)

end Generated

/-- What `NextTerm` gives. -/
structure IsTerm (c : Config) (late : Bool) (ρ : Supply Bool) (t : Text) (ρ' : Supply Bool) : Prop
    extends Generated c ρ t ρ' where
  atom : IsAtom t
  forced : c.div0 = true → late = true → ρ'.vars = true

section Terms

variable {c : Config} {late : Bool} {ρ : Supply Bool} {nextTerm : Gen Text}

theorem IsTerm.of_drawn {t : Text} {ρ' : Supply Bool} (h : Drawn ρ ρ') (ht : IsAtom t)
    (hlate : c.div0 = true → late = true → ρ.vars = true) : IsTerm c late ρ t ρ' where
  toGenerated := .of_drawn h
  atom := ht
  forced := fun hdiv hl => h.vars.trans (hlate hdiv hl)

theorem IsTerm.before {ρ₁ ρ' : Supply Bool} {t : Text} (h : Drawn ρ ρ₁)
    (ht : IsTerm c late ρ₁ t ρ') : IsTerm c late ρ t ρ' where
  toGenerated := .before h ht.toGenerated
  atom := ht.atom
  forced := ht.forced

theorem quiet_term {m : Gen Text} (h : Quiet m IsAtom)
    (hlate : c.div0 = true → late = true → ρ.vars = true) : Gives m ρ (IsTerm c late ρ) :=
  (h ρ).mono fun _ _ ⟨hd, ht⟩ => .of_drawn hd ht hlate

theorem ret_name (same : Bool) : IsName ("Ret".toList ++ sel same "Same" "Not") := by
  cases same <;> exact isName_of_bool (by decide)

theorem always_name (n : Nat) : IsName ("Always".toList ++ num n) := by
  refine ⟨Or.inl (by decide), fun c hc => ?_⟩
  cases List.mem_append.mp (show c ∈ "lways".toList ++ num n from hc) with
  | inl hc =>
    have hall : "lways".toList.all fun c => c.isAlphanum := by decide
    exact List.all_eq_true.mp hall c hc
  | inr hc =>
    rw [Char.isAlphanum, (num_number n).2 c hc, Bool.or_true]

theorem byref_actuals {t : Text} (ht : IsAtom t) (byref : Bool) : IsActuals
    (if byref && (t == "TRUE".toList || t == "FALSE".toList) then '.' :: t else t) := by
  split
  · next h =>
    rw [Bool.and_eq_true, Bool.or_eq_true, beq_iff_eq, beq_iff_eq] at h
    cases h.2 with
    | inl htrue => exact htrue ▸ .reference (isName_of_bool (by decide))
    | inr hfalse => exact hfalse ▸ .reference (isName_of_bool (by decide))
  · exact .value (.atom ht)

theorem infix_byref (t : Text) (byref : Bool) :
    t <:+: if byref && (t == "TRUE".toList || t == "FALSE".toList) then '.' :: t else t := by
  split
  · exact (List.suffix_cons '.' t).isInfix
  · exact List.infix_refl t

theorem infix_call (a t : Text) : t <:+: a ++ '(' :: (t ++ [')']) :=
  ⟨a ++ ['('], [')'], by simp⟩

/-- Shorter draws are given to the terms that are in a term. -/
def Nested (c : Config) (late : Bool) (ρ : Supply Bool) (nextTerm : Gen Text) : Prop :=
  ∀ ρ', ρ'.draws.length ≤ ρ.draws.length → Gives nextTerm ρ' (IsTerm c late ρ')

theorem extrinsic_gives (hnext : Nested c late ρ nextTerm)
    (hlate : c.div0 = true → late = true → ρ.vars = true) :
    Gives (extrinsicTerm nextTerm) ρ (IsTerm c late ρ) := by
  refine (coin_quiet ρ).bind fun arg ρ₁ ⟨h₁, _⟩ => ?_
  cases arg with
  | true =>
    refine (hnext ρ₁ h₁.draws).bind fun t ρ₂ ht => (coin_quiet ρ₂).bind fun byref ρ₃ ⟨h₃, _⟩ =>
      (coin_quiet ρ₃).bind fun same ρ₄ ⟨h₄, _⟩ => Gives.pure ?_
    have hatom : IsAtom ("$$Ret".toList ++ sel same "Same" "Not" ++ '(' :: ((if byref &&
        (t == "TRUE".toList || t == "FALSE".toList) then '.' :: t else t) ++ [')'])) :=
      .extrinsicOf (ret_name same) (byref_actuals ht.atom byref)
    have hinfix : t <:+: "$$Ret".toList ++ sel same "Same" "Not" ++ '(' :: ((if byref &&
        (t == "TRUE".toList || t == "FALSE".toList) then '.' :: t else t) ++ [')']) := by
      exact (infix_byref t byref).trans (infix_call _ _)
    exact {
      toGenerated := (Generated.before h₁ ht.toGenerated).after (h₃.trans h₄) hinfix
      atom := hatom
      forced := fun hdiv hl => (h₃.trans h₄).vars.trans (ht.forced hdiv hl) }
  | false =>
    refine (Quiet.random 2 ρ₁).bind fun n ρ₂ ⟨h₂, _⟩ => Gives.pure ?_
    exact .of_drawn (h₁.trans h₂) (.extrinsic (always_name n)) hlate

theorem variable_gives (hnext : Nested c late ρ nextTerm)
    (hlate : c.div0 = true → late = true → ρ.vars = true) :
    Gives (variableTerm nextTerm) ρ (IsTerm c late ρ) := by
  refine (coin_quiet ρ).bind fun idx ρ₁ ⟨h₁, _⟩ => (coin_quiet ρ₁).bind fun indr ρ₂ ⟨h₂, _⟩ =>
    (coin_quiet ρ₂).bind fun lclgbl ρ₃ ⟨h₃, _⟩ => (coin_quiet ρ₃).bind fun value ρ₄ ⟨h₄, _⟩ => ?_
  have hdrawn : Drawn ρ ρ₄ := ((h₁.trans h₂).trans h₃).trans h₄
  have hvar : IsVar (kindOf indr !lclgbl)
      (sel indr "@" "" ++ sel lclgbl "" "^" ++ sel indr "i" "" ++ sel value "TRUE" "FALSE") := by
    have h := isVar_of_name indr (!lclgbl) (truth_name indr value)
    rw [← List.append_assoc] at h
    refine cast (congrArg _ ?_) h
    cases lclgbl <;> rfl
  cases idx with
  | true =>
    refine (hnext ρ₄ hdrawn.draws).bind fun subs ρ₅ hs => Gives.pure ?_
    have hshape (term : Text) :
        term ++ sel indr "@" "" ++ '(' :: (subs ++ [')']) = subscripted indr term subs := by
      cases indr <;> simp [subscripted, sel]
    have hglvn := subscripted_glvn hvar (.atom hs.atom)
    rw [← hshape] at hglvn
    exact {
      toGenerated := (Generated.before hdrawn hs.toGenerated).after (Drawn.refl _) (infix_call _ _)
      atom := .var hglvn
      forced := hs.forced }
  | false => exact Gives.pure (.of_drawn hdrawn (.var hvar.glvn) hlate)

theorem relop_mem (n : Nat) : relop n ∈ binaryOps := by
  unfold relop
  split <;> decide

theorem relexpr_gives (hnext : Nested c late ρ nextTerm) :
    Gives (relexprTerm nextTerm) ρ (IsTerm c late ρ) := by
  refine (hnext ρ (Nat.le_refl _)).bind fun left ρ₁ hl =>
    (Quiet.random relopcnt ρ₁).bind fun op ρ₂ ⟨h₂, _⟩ => ?_
  refine (hnext ρ₂ (Nat.le_trans h₂.draws hl.draws)).bind fun right ρ₃ hr => Gives.pure ?_
  have hatom : IsAtom ('(' :: (left ++ (relop op).toList ++ right ++ [')'])) :=
    .paren (.binary (.atom hl.atom) (relop_mem op) hr.atom)
  have hleft : left <:+: '(' :: (left ++ (relop op).toList ++ right ++ [')']) :=
    ⟨['('], (relop op).toList ++ right ++ [')'], by simp⟩
  have hright : right <:+: '(' :: (left ++ (relop op).toList ++ right ++ [')']) :=
    ⟨'(' :: (left ++ (relop op).toList), [')'], by simp⟩
  exact {
    toGenerated := hl.toGenerated.trans (Generated.before h₂ hr.toGenerated) hleft hright
    atom := hatom
    forced := hr.forced }

end Terms

theorem NextTerm_gives (c : Config) (late : Bool) (fuel : Nat) (ρ : Supply Bool)
    (h : ρ.draws.length < fuel) : Gives (NextTerm c late fuel) ρ (IsTerm c late ρ) := by
  induction fuel generalizing ρ with
  | zero => cases h
  | succ fuel ih =>
    refine (random_gives c.ttypecnt ρ).bind fun n ρ₁ ⟨hlen, hvars, hzero⟩ => Gives.get ?_
    have hdrawn : Drawn ρ ρ₁ := ⟨hlen ▸ Nat.sub_le _ _, hvars⟩
    generalize htype : (if c.div0 && !ρ₁.vars && late then div0indx else n) = ttype
    -- a term with terms in it has used up a draw
    have hnext (hne : ttypes ttype ≠ .constant ∧ ttypes ttype ≠ .div0) :
        Nested c late ρ₁ (NextTerm c late fuel) := by
      intro ρ' hle
      refine ih ρ' ?_
      have hpos : ρ.draws ≠ [] := by
        intro hnil
        rw [hzero hnil] at htype
        split at htype
        · exact hne.2 (htype ▸ rfl)
        · exact hne.1 (htype ▸ rfl)
      have := List.length_pos_iff.mpr hpos
      omega
    have hlate (hne : ttypes ttype ≠ .div0) : c.div0 = true → late = true → ρ₁.vars = true := by
      intro hdiv hl
      by_contra hv
      rw [Bool.not_eq_true] at hv
      rw [hdiv, hl, hv] at htype
      exact hne (htype ▸ rfl)
    refine Gives.mono (P := IsTerm c late ρ₁) ?_ fun t ρ' ht => ht.before hdrawn
    dsimp only
    cases htt : ttypes ttype with
    | constant =>
      have hquiet : Quiet (σ := Bool) (random 2 >>= fun n => pure (num n)) IsAtom :=
        (Quiet.random 2).bind fun n _ => Quiet.pure (num_atom n)
      exact quiet_term hquiet (hlate (by simp [htt]))
    | test => exact quiet_term (Quiet.pure .test) (hlate (by simp [htt]))
    | extrinsic => exact extrinsic_gives (hnext (by simp [htt])) (hlate (by simp [htt]))
    | «variable» => exact variable_gives (hnext (by simp [htt])) (hlate (by simp [htt]))
    | relexpr => exact relexpr_gives (hnext (by simp [htt]))
    | function => exact quiet_term GenFuncTerm_quiet (hlate (by simp [htt]))
    | div0 =>
      refine (Quiet.random div0cnt ρ₁).bind fun arg ρ₂ ⟨h₂, _⟩ => Gives.modify (Gives.pure ?_)
      exact {
        draws := h₂.draws
        done := fun _ => rfl
        fresh := fun _ => Or.inr ⟨arg, List.infix_refl _⟩
        atom := div0term_atom c arg
        forced := fun _ _ => rfl }

/-- The levels of parentheses before the round of `curtrm`. -/
structure Nesting (minterms curtrm prnnest : Nat) (lastoprn : Nat → Nat) : Prop where
  nested : prnnest ≤ minterms
  ending : prnnest = 0 ∨ prnnest + curtrm ≤ 2 * minterms + 3
  mono : ∀ i < prnnest, lastoprn i ≤ lastoprn (i + 1)
  last : lastoprn prnnest ≤ curtrm
  early : lastoprn prnnest ≤ minterms

/-- Before the round of `curtrm`. -/
structure Inv (c : Config) (minterms curtrm : Nat) (s : Loop) (ρ : Supply Bool) : Prop where
  nesting : Nesting minterms curtrm s.prnnest s.lastoprn
  extra : s.extra = false
  fresh : s.newlvl = true → curtrm = 1 ∧ Waiting s.prnnest s.expr
  started : s.newlvl = false → Started s.prnnest s.expr
  noted : ρ.vars = true → HasDiv0 c s.expr
  forced : c.div0 = true → minterms < curtrm → ρ.vars = true

/-- In the round of `curtrm`, while a term is to come. -/
structure Ready (c : Config) (minterms curtrm : Nat) (s : Loop) (ρ : Supply Bool) : Prop where
  nesting : Nesting minterms curtrm s.prnnest s.lastoprn
  extra : s.extra = false
  waiting : curtrm < minterms + 2 → Waiting s.prnnest s.expr
  op : curtrm < minterms + 2 → s.newlvl = false → s.lasttk s.prnnest = .op
  started : ¬ curtrm < minterms + 2 → Started s.prnnest s.expr
  noted : ρ.vars = true → HasDiv0 c s.expr
  forced : c.div0 = true → minterms < curtrm → ρ.vars = true

section Loop

variable {c : Config} {m k p : Nat} {lo : Nat → Nat} {s : Loop} {ρ : Supply Bool}

theorem NextOp_quiet (c : Config) : Quiet (NextOp c) (· ∈ binaryOps) := by
  refine (Quiet.random 100).bind fun opp _ => Quiet.pure ?_
  split <;> decide

theorem NewParenLevel_quiet (c : Config) (prnnest : Nat) :
    Quiet (NewParenLevel c prnnest) fun _ => True :=
  (Quiet.random 100).bind fun _ _ => Quiet.pure trivial

theorem CloseParenLevel_quiet (c : Config) (m k p : Nat) :
    Quiet (CloseParenLevel c m k p) fun close => m + 2 < k → close = true := by
  unfold CloseParenLevel
  split
  · exact Quiet.pure fun _ => rfl
  · next h => exact (Quiet.random 100).bind fun _ _ => Quiet.pure fun hk => absurd hk h

theorem Nesting.opened (h : Nesting m k p lo) (hk : (k : Int) < m - p - 3) :
    Nesting m k (p + 1) (Function.update lo (p + 1) k) where
  nested := by omega
  ending := by omega
  mono := by
    intro i hi
    rw [Function.update_of_ne (by omega)]
    by_cases hp : i = p
    · rw [hp, Function.update_self]
      exact h.last
    · rw [Function.update_of_ne (by omega)]
      exact h.mono i (by omega)
  last := Nat.le_of_eq (Function.update_self ..)
  early := by
    have hself : Function.update lo (p + 1) k (p + 1) = k := Function.update_self ..
    omega

theorem Nesting.closed (h : Nesting m k (p + 1) lo) : Nesting m (k + 1) p lo where
  nested := by have := h.nested; omega
  ending := by have := h.ending; omega
  mono := fun i hi => h.mono i (by omega)
  last := by
    have := h.mono p (by omega)
    have := h.last
    omega
  early := Nat.le_trans (h.mono p (by omega)) h.early

theorem Nesting.kept (h : Nesting m k p lo) (hend : p = 0 ∨ k ≤ m + 2) :
    Nesting m (k + 1) p lo where
  nested := h.nested
  ending := by have := h.nested; omega
  mono := h.mono
  last := Nat.le_succ_of_le h.last
  early := h.early

theorem Nesting.may_close (h : Nesting m k p lo) (hk : m + 2 < k) : ¬ (k : Int) - 2 < lo p := by
  have := h.early
  omega

theorem Ready.drawn {ρ₁ : Supply Bool} (h : Ready c m k s ρ) (h₁ : Drawn ρ ρ₁) :
    Ready c m k s ρ₁ where
  nesting := h.nesting
  extra := h.extra
  waiting := h.waiting
  op := h.op
  started := h.started
  noted := fun hv => h.noted (h₁.vars.symm.trans hv)
  forced := fun hdiv hk => h₁.vars.trans (h.forced hdiv hk)

theorem addOp_gives (h : Inv c m k s ρ) (hm : 3 ≤ m) :
    Gives (addOp c m k s) ρ (Ready c m k) := by
  unfold addOp
  split
  · next hop =>
    rw [Bool.and_eq_true, Bool.not_eq_true', decide_eq_true_iff] at hop
    refine (NextOp_quiet c ρ).bind fun op ρ₁ ⟨h₁, hmem⟩ => Gives.pure ?_
    exact {
      nesting := h.nesting
      extra := h.extra
      waiting := fun _ => (h.started hop.1).op hmem
      op := fun _ _ => Function.update_self ..
      started := fun hk => absurd hop.2 hk
      noted := fun hv => (h.noted (h₁.vars.symm.trans hv)).mono (List.prefix_append _ _).isInfix
      forced := fun hdiv hk => h₁.vars.trans (h.forced hdiv hk) }
  · next hop =>
    rw [Bool.and_eq_true, Bool.not_eq_true', decide_eq_true_iff, not_and] at hop
    have hnew (hk : k < m + 2) : s.newlvl = true := by
      by_contra hn
      exact hop (Bool.eq_false_iff.mpr hn) hk
    refine Gives.pure ?_
    exact {
      nesting := h.nesting
      extra := h.extra
      waiting := fun hk => (h.fresh (hnew hk)).2
      op := fun hk hn => absurd (hnew hk) (Bool.eq_false_iff.mp hn)
      started := by
        intro hk
        refine h.started (Bool.eq_false_iff.mpr fun hn => hk ?_)
        have := (h.fresh hn).1
        omega
      noted := h.noted
      forced := h.forced }

theorem openParen_gives (h : Ready c m k s ρ) :
    Gives (openParen c m k s) ρ (Ready c m k) := by
  have hnew : Quiet (if s.prnnest = 0 then pure true else NewParenLevel c s.prnnest)
      fun _ => True := by
    split
    · exact Quiet.pure trivial
    · exact NewParenLevel_quiet c s.prnnest
  refine (hnew ρ).bind fun new ρ₁ ⟨h₁, _⟩ => ?_
  have h₁ := h.drawn h₁
  split
  · next hopen =>
    rw [Bool.and_eq_true, decide_eq_true_iff] at hopen
    refine Gives.pure ?_
    exact {
      nesting := h₁.nesting.opened hopen.2
      extra := h₁.extra
      waiting := fun hk => (h₁.waiting hk).paren
      op := fun _ hn => by cases hn
      started := fun hk => absurd hopen.2 (by omega)
      noted := fun hv => (h₁.noted hv).mono (List.prefix_append _ _).isInfix
      forced := h₁.forced }
  · exact Gives.pure h₁

theorem addTerm_gives (h : Ready c m k s ρ) : Gives (addTerm c m k s) ρ fun s' ρ' =>
    Nesting m k s'.prnnest s'.lastoprn ∧ s'.extra = false ∧ Started s'.prnnest s'.expr ∧
      (ρ'.vars = true → HasDiv0 c s'.expr) ∧ (c.div0 = true → m < k + 1 → ρ'.vars = true) := by
  unfold addTerm
  split
  · next hk =>
    -- an operator stands before the term already, or a level has just begun
    have hop : (if (!s.newlvl && s.lasttk s.prnnest != .op) = true then NextOp c else pure "") =
        pure "" := by
      cases hn : s.newlvl with
      | true => rfl
      | false =>
        rw [h.op hk hn]
        rfl
    rw [hop, pure_bind]
    have hterm : Gives (fun ρ => NextTerm c (decide ((k : Int) > m - 1)) (ρ.draws.length + 1) ρ) ρ
        (IsTerm c (decide ((k : Int) > m - 1)) ρ) := NextTerm_gives c _ _ ρ (Nat.lt_succ_self _)
    refine hterm.bind fun term ρ₁ ht => Gives.pure ?_
    refine ⟨h.nesting, h.extra, ?_, ?_, ?_⟩
    · change Started s.prnnest (s.expr ++ [] ++ term)
      rw [List.append_nil]
      exact (h.waiting hk).operand ht.atom
    · intro hv
      cases ht.fresh hv with
      | inl hv => exact (h.noted hv).mono (List.append_assoc .. ▸ (List.prefix_append _ _).isInfix)
      | inr hdiv => exact hdiv.mono (List.suffix_append _ _).isInfix
    · exact fun hdiv hk => ht.forced hdiv (decide_eq_true (by omega))
  · next hk =>
    refine Gives.pure ⟨h.nesting, h.extra, h.started hk, h.noted, fun hdiv _ => ?_⟩
    exact h.forced hdiv (by omega)

theorem closeParen_gives (hn : Nesting m k s.prnnest s.lastoprn) (he : s.extra = false)
    (hs : Started s.prnnest s.expr) : Gives (closeParen c m k s) ρ fun s' ρ' => Drawn ρ ρ' ∧
    Nesting m (k + 1) s'.prnnest s'.lastoprn ∧ s'.extra = false ∧ Started s'.prnnest s'.expr ∧
      s'.newlvl = s.newlvl ∧ s.expr <:+: s'.expr := by
  unfold closeParen
  split
  · next hcond =>
    refine (CloseParenLevel_quiet c m k s.prnnest ρ).bind fun close ρ₁ ⟨h₁, hclose⟩ => ?_
    have hprev : s.lastoprn (s.prnnest - 1) ≤ s.lastoprn s.prnnest := by
      have h := hn.mono (s.prnnest - 1) (by omega)
      rwa [Nat.sub_add_cancel hcond.1] at h
    cases close with
    | true =>
      have hlevel : s.prnnest - 1 + 1 = s.prnnest := Nat.sub_add_cancel hcond.1
      have hclosed := Nesting.closed (hlevel ▸ hn)
      have hstarted := Started.close (hlevel ▸ hs)
      -- the level below was opened in an earlier round
      have hextra : ¬ (k < m + 1 ∧ k = s.lastoprn (s.prnnest - 1)) := by omega
      dsimp only
      rw [if_pos rfl, if_neg hextra]
      exact Gives.pure ⟨h₁, hclosed, he, hstarted, rfl, (List.prefix_append _ _).isInfix⟩
    | false =>
      have hk : k ≤ m + 2 := by
        by_contra hk
        cases hclose (by omega)
      exact Gives.pure ⟨h₁, hn.kept (Or.inr hk), he, hs, rfl, List.infix_refl _⟩
  · next hcond =>
    have hend : s.prnnest = 0 ∨ k ≤ m + 2 := by
      by_contra hend
      rw [not_or] at hend
      exact hcond ⟨Nat.pos_of_ne_zero hend.1, hn.may_close (by omega)⟩
    exact Gives.pure ⟨.refl ρ, hn.kept hend, he, hs, rfl, List.infix_refl _⟩

theorem round_gives (h : Inv c m k s ρ) (hm : 3 ≤ m) :
    Gives (round c m k s) ρ (Inv c m (k + 1)) := by
  refine (addOp_gives h hm).bind fun s₁ ρ₁ h₁ => (openParen_gives h₁).bind fun s₂ ρ₂ h₂ =>
    (addTerm_gives h₂).bind fun s₃ ρ₃ ⟨hn, he, hs, hnoted, hforced⟩ => ?_
  refine (closeParen_gives (s := { s₃ with newlvl := false }) hn he hs).mono
    fun s₄ ρ₄ ⟨hd, hn₄, he₄, hs₄, hnew, hinfix⟩ => ?_
  exact {
    nesting := hn₄
    extra := he₄
    fresh := fun hnew' => absurd (hnew.symm.trans hnew') Bool.false_ne_true
    started := fun _ => hs₄
    noted := fun hv => (hnoted (hd.vars.symm.trans hv)).mono hinfix
    forced := fun hdiv hk => hd.vars.trans (hforced hdiv hk) }

/-- What the loop ends with. -/
structure Legal (c : Config) (s : Loop) : Prop where
  extra : s.extra = false
  expr : IsExpr s.expr
  div0 : c.div0 = true → HasDiv0 c s.expr

theorem Inv.legal (h : Inv c m k s ρ) (hk : m + 5 < k) (hp : s.prnnest = 0) : Legal c s where
  extra := h.extra
  expr := by
    have hnew : s.newlvl = false := by
      rw [Bool.eq_false_iff]
      intro hnew
      have := (h.fresh hnew).1
      omega
    exact (hp ▸ h.started hnew).expr
  div0 := fun hdiv => h.noted (h.forced hdiv (by omega))

theorem rounds_gives (n : Nat) (h : Inv c m k s ρ) (hm : 3 ≤ m) (hn : 2 * m + 3 < k + n) :
    Gives (rounds c m (List.range' k n) s) ρ fun s' _ => Legal c s' := by
  induction n generalizing k s ρ with
  | zero =>
    have hp : s.prnnest = 0 := by have := h.nesting.ending; omega
    exact Gives.pure (h.legal (by omega) hp)
  | succ n ih =>
    rw [List.range'_succ, rounds]
    split
    · next hquit => exact Gives.pure (h.legal hquit.1 hquit.2)
    · exact (round_gives h hm).bind fun s₁ ρ₁ h₁ => ih h₁ (by omega)

end Loop

theorem start_inv (c : Config) {m : Nat} (hm : 3 ≤ m) (ρ : Supply Bool) (hρ : ρ.vars = false) :
    Inv c m 1 start ρ where
  nesting := {
    nested := by change 1 ≤ m; omega
    ending := by right; change 1 + 1 ≤ _; omega
    mono := fun i hi => by
      obtain rfl : i = 0 := Nat.lt_one_iff.mp hi
      exact Nat.zero_le 1
    last := Nat.le_refl 1
    early := by change 1 ≤ m; omega }
  extra := rfl
  fresh := fun _ => ⟨rfl, Waiting.paren ⟨[], [], rfl, .nil, .nil⟩⟩
  started := fun hnew => by cases hnew
  noted := fun hv => by rw [hρ] at hv; cases hv
  forced := fun _ hm' => by omega

theorem generate_gives (c : Config) (hsize : 0 < c.numterms ∧ c.numterms ≤ 496) (ρ : Supply Bool) :
    Gives (generate c) ρ fun s _ => Legal c s := by
  refine Gives.modify ((Quiet.random_lt hsize.1 _).bind fun n ρ₁ ⟨h₁, hn⟩ => ?_)
  exact rounds_gives 999 (start_inv c (Nat.le_add_left 3 n) ρ₁ h₁.vars) (by omega) (by omega)

/-- Whatever is drawn: the expression is legal, its parentheses are balanced, one more parenthesis
is never needed, and there is a division by zero in it if that is asked for. `Init` asks for 5 terms,
and up to 496 the 999 rounds have room for all of them. -/
theorem BooleanExprGen_legal (c : Config) (hsize : 0 < c.numterms ∧ c.numterms ≤ 496)
    (ρ : Supply Bool) : ∃ s ρ', generate c ρ = some (s, ρ') ∧
      BooleanExprGen c ρ = some (s.result, ρ') ∧ s.extra = false ∧ IsExpr s.result ∧
      Balanced s.result ∧ (c.div0 = true → HasDiv0 c s.result) := by
  obtain ⟨s, ρ', hgen, hlegal⟩ := generate_gives c hsize ρ
  have hexpr : IsExpr s.result := .atom (.paren hlegal.expr)
  have hreturn : BooleanExprGen c ρ = some (s.result, ρ') := by
    change (generate c ρ).bind (fun p => some (p.1.result, p.2)) = _
    rw [hgen]
    rfl
  have hinfix : s.expr <:+: s.result := infix_call [] s.expr
  exact ⟨s, ρ', hgen, hreturn, hlegal.extra, hexpr, hexpr.balanced,
    fun hdiv => (hlegal.div0 hdiv).mono hinfix⟩

theorem BooleanExprGen_legal_init : ∃ s ρ',
    generate (Init true (7, 8, 9)) ⟨[2, 99, 5, 17], false⟩ = some (s, ρ') ∧
      BooleanExprGen (Init true (7, 8, 9)) ⟨[2, 99, 5, 17], false⟩ = some (s.result, ρ') ∧
      s.extra = false ∧ IsExpr s.result ∧ Balanced s.result ∧
      (true = true → HasDiv0 (Init true (7, 8, 9)) s.result) :=
  BooleanExprGen_legal (Init true (7, 8, 9)) ⟨by decide, by decide⟩ ⟨[2, 99, 5, 17], false⟩

end YdbTest.BooleanExpr
