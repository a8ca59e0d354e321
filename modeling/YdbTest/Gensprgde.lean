import Mathlib.Data.List.Lex
import Mathlib.Order.Lattice
import Mathlib.Tactic.Common

namespace YdbTest.Gensprgde

/-- The key of a section: the global and its subscripts, none for the unsubscripted variable. -/
structure Key (G S : Type) where
  gblname : G
  subs : List S

/-- How a name ends: `)`, `:)` or `:b)`. -/
inductive Suffix (S : Type) where
  | point
  | colon
  | to (b : S)

/-- `add -name gblname(subs...suffix) -region=region`. -/
structure AddName (G S R : Type) where
  gblname : G
  subs : List S
  suffix : Suffix S
  region : R

/-- What is looked up or drawn: the region that a global maps to, the globals and the regions that
are excluded, and the region of each section. -/
structure Setup (G R : Type) where
  region : G → R
  excludegbl : G → Bool
  excludereg : R → Bool
  currReg : Nat → R

variable {G S R : Type} [DecidableEq G] [DecidableEq S]

def names : List S → List S → List (List S)
  | _, [] => []
  | name, s :: ss => (name ++ [s]) :: names (name ++ [s]) ss

/-- `gvkey(i,0)`, which is empty for an unsubscripted variable. -/
def Key.zero (k : Key G S) : Option G := if k.subs = [] then none else some k.gblname

def firstNames (prevReg : R) (k : Key G S) : List (AddName G S R) :=
  (names [] (k.subs.take (k.subs.length - 1))).map fun name =>
    ⟨k.gblname, name, .point, prevReg⟩

def lastNames (currReg : R) (k : Key G S) : List (AddName G S R) :=
  (names [] k.subs).map fun name => ⟨k.gblname, name, .colon, currReg⟩

def matchsubs (k k' : List S) : Nat :=
  let minsubs := if k.length < k'.length then k.length else k'.length
  let j := ((List.range' 1 minsubs).find? fun j => k[j - 1]? ≠ k'[j - 1]?).getD minsubs
  if j < minsubs then j else if k[j - 1]? ≠ k'[j - 1]? then j else j + 1

def middleNames (currReg : R) (k k' : Key G S) : List (AddName G S R) :=
  let m := matchsubs k.subs k'.subs
  let pre := k.subs.take (m - 1)
  let add (name : List S) (suffix : Suffix S) : AddName G S R :=
    ⟨k.gblname, name, suffix, currReg⟩
  (match names pre (k.subs.drop (m - 1)), k'.subs.drop (m - 1) with
    | name :: ns, b :: _ => add name (.to b) :: ns.map (add · .colon)
    | _, _ => []) ++
  (if k.subs.length + 1 = m then [add pre .point] else []) ++
  (names pre ((k'.subs.take (k'.subs.length - 1)).drop (m - 1))).map (add · .point)

/-- The names of a section, by whether it is the first of its global and by the next key of it. -/
def keyNames (prevReg currReg : R) (first : Bool) (k : Key G S) (next : Option (Key G S)) :
    List (AddName G S R) :=
  (if first then firstNames prevReg k else []) ++
  match next with
  | none => lastNames currReg k
  | some k' => middleNames currReg k k'

def sectionNames (c : Setup G R) (keys : List (Key G S)) (i : Nat) : List (AddName G S R) :=
  match keys[i]? with
  | none => []
  | some k =>
    if k.subs = [] then []
    else if c.excludegbl k.gblname then []
    else if c.excludereg (c.region k.gblname) then []
    else
      keyNames (c.region k.gblname) (c.currReg i)
        (i = 0 ∨ (keys[i - 1]?.bind Key.zero) ≠ some k.gblname) k
        (keys[i + 1]?.filter fun k' => k'.zero = some k.gblname)

def gensprgde (c : Setup G R) (keys : List (Key G S)) : List (AddName G S R) :=
  (List.range keys.length).flatMap (sectionNames c keys)

section Meaning

variable {S : Type} [LinearOrder S]

def Span (subs : List S) (suffix : Suffix S) (x : List S) : Prop :=
  match suffix with
  | .point => subs <+: x
  | .colon => ∃ q a s, subs = q ++ [a] ∧ q ++ [s] <+: x ∧ a ≤ s
  | .to b => ∃ q a s, subs = q ++ [a] ∧ q ++ [s] <+: x ∧ a ≤ s ∧ s < b

def AddName.Covers (n : AddName G S R) (g : G) (x : List S) : Prop :=
  n.gblname = g ∧ Span n.subs n.suffix x

def AddName.Beats (n n' : AddName G S R) : Prop :=
  n'.subs.length < n.subs.length ∨
  n'.subs.length = n.subs.length ∧ n.suffix = .point ∧ n'.suffix ≠ .point ∨
  n'.subs.length = n.subs.length ∧ n.suffix ≠ .point ∧ n'.suffix ≠ .point ∧
    (∀ g x, n.Covers g x → n'.Covers g x) ∧ ¬ ∀ g x, n'.Covers g x → n.Covers g x

/-- The region of a node: that of the most specific name, or else the region before. -/
def MapsTo (ns : List (AddName G S R)) (before : R) (g : G) (x : List S) (r : R) : Prop :=
  (∃ n ∈ ns, n.Covers g x ∧ n.region = r ∧ ∀ n' ∈ ns, n'.Covers g x → n' ≠ n → n.Beats n') ∨
  (∀ n ∈ ns, ¬ n.Covers g x) ∧ r = before

end Meaning

end YdbTest.Gensprgde
