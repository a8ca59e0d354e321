import YdbTest.Positions
import YdbTest.Separated

namespace YdbTest.Extractkey

open Positions Separated

abbrev Text := List Char

/-- The variables of the scan; `subs` are the nodes `gvkey(linenum,1)` on, `name` is
`gvkey(linenum,0)`. -/
structure Scan where
  quotestate : Nat
  parenstate : Int
  name : Text
  subs : List Text
  previ : Nat

/-- A separator, or any other character that is not quoted, at position `i`; nothing at the equals
sign that ends the scan. -/
def separate (line : Text) (i : Nat) (c : Char) (σ : Scan) : Option Scan :=
  if c = '=' then none
  else if c = '(' then
    if σ.parenstate ≠ 0 then some { σ with parenstate := σ.parenstate + 2 }
    else some { σ with parenstate := 1, name := extract line 2 (i - 1), previ := i + 1 }
  else if c = ',' then
    if σ.parenstate ≠ 1 then some σ
    else some { σ with subs := σ.subs ++ [extract line σ.previ (i - 1)], previ := i + 1 }
  else if c = ')' then
    if σ.parenstate ≠ 1 then some { σ with parenstate := σ.parenstate - 2 }
    else some { σ with
      parenstate := 2, subs := σ.subs ++ [extract line σ.previ (i - 1)], previ := i + 1 }
  else some σ

def step (line : Text) (i : Nat) (c : Char) (σ : Scan) : Option Scan :=
  if c = '"' then some { σ with quotestate := if σ.quotestate = 1 then 2 else 1 }
  else
    let σ := { σ with quotestate := if σ.quotestate = 2 then 0 else σ.quotestate }
    if σ.quotestate = 0 then separate line i c σ else some σ

/-- The scan from position `i` on, and the position where it ends. -/
def scan (line : Text) : Text → Nat → Scan → Scan × Nat
  | [], i, σ => (σ, i)
  | c :: cs, i, σ =>
    match step line i c σ with
    | none => (σ, i)
    | some σ => scan line cs (i + 1) σ

/-- `gvkey(linenum)`: its value is the number of the subscripts. -/
structure Gvkey where
  nsubs : Nat
  name : Text
  subs : List Text
  KEY : Text
  deriving DecidableEq

def extractkey (line : Text) : Gvkey :=
  let (σ, i) := scan line line 1 ⟨0, 0, [], [], 0⟩
  ⟨σ.subs.length, if σ.subs.length = 0 then [] else σ.name, σ.subs, extract line 1 (i - 1)⟩

def Plain (t : Text) : Prop := ∀ c ∈ t, c ≠ '"' ∧ c ≠ '=' ∧ c ≠ '(' ∧ c ≠ ',' ∧ c ≠ ')'

mutual

/-- A subscript: a number, a string, a function of a list, such as `$C`, and a concatenation. -/
inductive Sub where
  | number (t : Text) (plain : Plain t)
  | string (s : Text)
  | call (function : Text) (plain : Plain function) (args : Args)
  | concat (a b : Sub)

inductive Args where
  | one (s : Sub)
  | more (s : Sub) (args : Args)

end

def doubled (s : Text) : Text := s.flatMap fun c => if c = '"' then ['"', '"'] else [c]

mutual

def Sub.text : Sub → Text
  | .number t _ => t
  | .string s => '"' :: (doubled s ++ ['"'])
  | .call function _ args => function ++ '(' :: (args.text ++ [')'])
  | .concat a b => a.text ++ '_' :: b.text

def Args.text : Args → Text
  | .one s => s.text
  | .more s args => s.text ++ ',' :: args.text

end

structure Ref where
  name : Text
  plain : Plain name
  subs : List Sub

def Ref.text (r : Ref) : Text :=
  match r.subs with
  | [] => '^' :: r.name
  | s :: subs => '^' :: (r.name ++ '(' :: (s.text ++ after ',' (subs.map Sub.text) ++ [')']))

/-- A line of an extract has a value behind the reference, a node that was found has none. -/
def lineOf (r : Ref) (value : Option Text) : Text := r.text ++ value.elim [] ('=' :: ·)

variable {line t r : Text} {i : Nat} {σ : Scan} {c : Char}

theorem scan_cons {τ : Scan} (h : step line i c σ = some τ) :
    scan line (c :: r) i σ = scan line r (i + 1) τ := by
  rw [scan, h]

theorem step_plain (hc : Plain [c]) (hq : σ.quotestate = 0) : step line i c σ = some σ := by
  obtain ⟨q, p, name, subs, previ⟩ := σ
  obtain rfl : q = 0 := hq
  obtain ⟨hquote, hequals, hopen, hcomma, hclose⟩ := hc c List.mem_cons_self
  simp [step, separate, hquote, hequals, hopen, hcomma, hclose]

theorem step_inside (hc : c ≠ '"') (hq : σ.quotestate = 1) : step line i c σ = some σ := by
  obtain ⟨q, p, name, subs, previ⟩ := σ
  obtain rfl : q = 1 := hq
  simp [step, hc]

theorem step_ended (hc : c ≠ '"') :
    step line i c { σ with quotestate := 2 } = step line i c { σ with quotestate := 0 } := by
  simp [step, hc]

theorem step_open_quote (hq : σ.quotestate ≠ 1) :
    step line i '"' σ = some { σ with quotestate := 1 } := by
  rw [step, if_pos rfl, if_neg hq]

theorem step_close_quote (hq : σ.quotestate = 1) :
    step line i '"' σ = some { σ with quotestate := 2 } := by
  rw [step, if_pos rfl, if_pos hq]

theorem scan_plain (ht : Plain t) (hq : σ.quotestate = 0) :
    scan line (t ++ r) i σ = scan line r (i + t.length) σ := by
  induction t generalizing i with
  | nil => rfl
  | cons c t ih =>
    obtain ⟨hc, ht⟩ := List.forall_mem_cons.mp ht
    rw [List.cons_append, scan_cons (step_plain (List.forall_mem_singleton.mpr hc) hq), ih ht,
      List.length_cons, Nat.add_assoc, Nat.add_comm 1]

theorem scan_doubled (s : Text) :
    scan line (doubled s ++ r) i { σ with quotestate := 1 } =
      scan line r (i + (doubled s).length) { σ with quotestate := 1 } := by
  induction s generalizing i with
  | nil => rfl
  | cons c s ih =>
    by_cases hc : c = '"'
    · have hsplit : doubled (c :: s) = '"' :: '"' :: doubled s := by
        rw [doubled, List.flatMap_cons, if_pos hc]
        rfl
      have hopen : ({ σ with quotestate := 2 } : Scan).quotestate ≠ 1 := fun h => by cases h
      rw [hsplit, List.cons_append, List.cons_append, scan_cons (step_close_quote rfl),
        scan_cons (step_open_quote hopen), ih]
      congr 1
      rw [List.length_cons, List.length_cons]
      omega
    · have hsplit : doubled (c :: s) = c :: doubled s := by
        rw [doubled, List.flatMap_cons, if_neg hc]
        rfl
      rw [hsplit, List.cons_append, scan_cons (step_inside hc rfl), ih, List.length_cons,
        Nat.add_assoc, Nat.add_comm 1]

/-- Behind a quote a character that ends the string, and not the scan. -/
def Ends (c : Char) : Prop := c ≠ '"' ∧ c ≠ '='

instance (c : Char) : Decidable (Ends c) := inferInstanceAs (Decidable (_ ∧ _))

theorem separate_isSome (hc : Ends c) : (separate line i c σ).isSome := by
  rw [separate, if_neg hc.2]
  split_ifs <;> rfl

theorem step_isSome (hc : Ends c) : (step line i c σ).isSome := by
  rw [step, if_neg hc.1]
  dsimp only
  by_cases hq : (if σ.quotestate = 2 then 0 else σ.quotestate) = 0
  · rw [if_pos hq]
    exact separate_isSome hc
  · rw [if_neg hq]
    rfl

theorem scan_ended (hc : Ends c) :
    scan line (c :: r) i { σ with quotestate := 2 } =
      scan line (c :: r) i { σ with quotestate := 0 } := by
  have hsome : (step line i c { σ with quotestate := 0 }).isSome := step_isSome hc
  obtain ⟨τ, hτ⟩ := Option.isSome_iff_exists.mp hsome
  rw [scan_cons hτ, scan_cons ((step_ended hc.1).trans hτ)]

theorem scan_string (s : Text) (hc : Ends c) (hq : σ.quotestate = 0) :
    scan line ((Sub.string s).text ++ c :: r) i σ =
      scan line (c :: r) (i + (Sub.string s).text.length) σ := by
  have hsame : ({ σ with quotestate := 0 } : Scan) = σ := by rw [← hq]
  have hends : scan line (c :: r) (i + (Sub.string s).text.length) { σ with quotestate := 2 } =
      scan line (c :: r) (i + (Sub.string s).text.length) { σ with quotestate := 0 } :=
    scan_ended hc
  rw [hsame] at hends
  rw [← hends, Sub.text, List.cons_append, List.append_assoc,
    scan_cons (step_open_quote (by rw [hq]; decide)), scan_doubled, List.singleton_append,
    scan_cons (step_close_quote rfl)]
  congr 1
  rw [List.length_cons, List.length_append, List.length_singleton]
  omega

theorem step_nested_open (hq : σ.quotestate = 0) (hp : 1 ≤ σ.parenstate) :
    step line i '(' σ = some { σ with parenstate := σ.parenstate + 2 } := by
  obtain ⟨q, p, name, subs, previ⟩ := σ
  obtain rfl : q = 0 := hq
  have hp : p ≠ 0 := by
    simp only at hp
    omega
  simp [step, separate, hp]

theorem step_nested_comma (hq : σ.quotestate = 0) (hp : 3 ≤ σ.parenstate) :
    step line i ',' σ = some σ := by
  obtain ⟨q, p, name, subs, previ⟩ := σ
  obtain rfl : q = 0 := hq
  have hp : p ≠ 1 := by
    simp only at hp
    omega
  simp [step, separate, hp]

theorem step_nested_close (hq : σ.quotestate = 0) (hp : 1 ≤ σ.parenstate) :
    step line i ')' { σ with parenstate := σ.parenstate + 2 } = some σ := by
  obtain ⟨q, p, name, subs, previ⟩ := σ
  obtain rfl : q = 0 := hq
  have hp : p + 2 ≠ 1 := by
    simp only at hp
    omega
  simp [step, separate, hp]

theorem step_concat (hq : σ.quotestate = 0) : step line i '_' σ = some σ := by
  refine step_plain ?_ hq
  intro c hc
  rw [List.mem_singleton.mp hc]
  decide

mutual

theorem scan_sub (line : Text) (s : Sub) (c : Char) (r : Text) (i : Nat) (σ : Scan)
    (hq : σ.quotestate = 0) (hp : 1 ≤ σ.parenstate) (hc : Ends c) :
    scan line (s.text ++ c :: r) i σ = scan line (c :: r) (i + s.text.length) σ := by
  cases s with
  | number t plain => exact scan_plain plain hq
  | string s => exact scan_string s hc hq
  | call function plain args =>
    have hargs := scan_args line args (c :: r) (i + function.length + 1)
      { σ with parenstate := σ.parenstate + 2 } hq (show 3 ≤ σ.parenstate + 2 by omega)
    rw [Sub.text, List.append_assoc, List.cons_append, List.append_assoc, scan_plain plain hq,
      scan_cons (step_nested_open hq hp), List.singleton_append, hargs,
      scan_cons (step_nested_close hq hp)]
    congr 1
    rw [List.length_append, List.length_cons, List.length_append, List.length_singleton]
    omega
  | concat a b =>
    rw [Sub.text, List.append_assoc, List.cons_append,
      scan_sub line a '_' (b.text ++ c :: r) i σ hq hp (by decide), scan_cons (step_concat hq),
      scan_sub line b c r (i + a.text.length + 1) σ hq hp hc]
    congr 1
    rw [List.length_append, List.length_cons]
    omega

theorem scan_args (line : Text) (args : Args) (r : Text) (i : Nat) (σ : Scan)
    (hq : σ.quotestate = 0) (hp : 3 ≤ σ.parenstate) :
    scan line (args.text ++ ')' :: r) i σ = scan line (')' :: r) (i + args.text.length) σ := by
  cases args with
  | one s => exact scan_sub line s ')' r i σ hq (by omega) (by decide)
  | more s args =>
    rw [Args.text, List.append_assoc, List.cons_append,
      scan_sub line s ',' (args.text ++ ')' :: r) i σ hq (by omega) (by decide),
      scan_cons (step_nested_comma hq hp),
      scan_args line args r (i + s.text.length + 1) σ hq hp]
    congr 1
    rw [List.length_append, List.length_cons]
    omega

end

/-- The separators at the top level: each one ends the subscript that began at `previ`. -/
theorem step_top_comma {name : Text} {subs : List Text} {previ : Nat} :
    step line i ',' ⟨0, 1, name, subs, previ⟩ =
      some ⟨0, 1, name, subs ++ [extract line previ (i - 1)], i + 1⟩ := by
  simp [step, separate]

theorem step_top_close {name : Text} {subs : List Text} {previ : Nat} :
    step line i ')' ⟨0, 1, name, subs, previ⟩ =
      some ⟨0, 2, name, subs ++ [extract line previ (i - 1)], i + 1⟩ := by
  simp [step, separate]

theorem step_top_open {name : Text} {subs : List Text} {previ : Nat} :
    step line i '(' ⟨0, 0, name, subs, previ⟩ =
      some ⟨0, 1, extract line 2 (i - 1), subs, i + 1⟩ := by
  simp [step, separate]

theorem extract_at (u : Text) (hi : i = u.length + t.length + 1) :
    extract (u ++ t ++ r) (u.length + 1) (i - 1) = t := by
  rw [hi, Nat.add_sub_cancel]
  exact extract_middle

theorem scan_subs (s : Sub) (subs : List Sub) (u name : Text) (done : List Text)
    (hline : line = u ++ (s.text ++ (after ',' (subs.map Sub.text) ++ ')' :: r))) :
    ∃ k, scan line (s.text ++ (after ',' (subs.map Sub.text) ++ ')' :: r)) (u.length + 1)
        ⟨0, 1, name, done, u.length + 1⟩ =
      scan line r k ⟨0, 2, name, done ++ (s :: subs).map Sub.text, k⟩ ∧
      k + r.length = line.length + 1 := by
  induction subs generalizing s u done with
  | nil =>
    have hline : line = u ++ s.text ++ ')' :: r := by rw [hline, ← List.append_assoc]; rfl
    refine ⟨u.length + 1 + s.text.length + 1, ?_, ?_⟩
    · rw [List.map_nil, after, List.flatMap_nil, List.nil_append,
        scan_sub line s ')' r _ _ rfl (Int.le_refl 1) (by decide), scan_cons step_top_close]
      rw [hline, extract_at u (by omega)]
      rfl
    · rw [hline, List.length_append, List.length_append, List.length_cons]
      omega
  | cons s' subs ih =>
    have hafter : after ',' ((s' :: subs).map Sub.text) ++ ')' :: r =
        ',' :: (s'.text ++ (after ',' (subs.map Sub.text) ++ ')' :: r)) := by
      rw [List.map_cons, after, List.flatMap_cons, List.append_assoc]
      rfl
    have hnext : line =
        (u ++ s.text ++ [',']) ++ (s'.text ++ (after ',' (subs.map Sub.text) ++ ')' :: r)) := by
      rw [hline, hafter, List.append_assoc, List.append_assoc]
      rfl
    have hcut : extract line (u.length + 1) (u.length + 1 + s.text.length - 1) = s.text := by
      rw [hnext, List.append_assoc (u ++ s.text), extract_at u (by omega)]
    obtain ⟨k, hscan, hk⟩ := ih s' _ (done ++ [s.text]) hnext
    refine ⟨k, ?_, hk⟩
    have hpos : (u ++ s.text ++ [',']).length = u.length + 1 + s.text.length := by
      rw [List.length_append, List.length_append, List.length_singleton]
      omega
    rw [hpos, List.append_assoc done] at hscan
    rw [hafter, scan_sub line s ',' _ _ _ rfl (Int.le_refl 1) (by decide), scan_cons step_top_comma,
      hcut, hscan]
    rfl

theorem scan_value (value : Option Text) {τ : Scan} (hτ : τ.quotestate = 0) :
    scan line (value.elim [] ('=' :: ·)) i τ = (τ, i) := by
  cases value with
  | none => rfl
  | some v =>
    have hend : step line i '=' τ = none := by
      obtain ⟨q, p, name, subs, previ⟩ := τ
      obtain rfl : q = 0 := hτ
      simp [step, separate]
    rw [Option.elim_some, scan, hend]

theorem plain_caret : Plain ['^'] := by
  intro c hc
  rw [List.mem_singleton.mp hc]
  decide

theorem scan_name (name : Text) (plain : Plain name) :
    scan line ('^' :: (name ++ t)) 1 ⟨0, 0, [], [], 0⟩ =
      scan line t (name.length + 2) ⟨0, 0, [], [], 0⟩ := by
  rw [scan_cons (step_plain plain_caret rfl), scan_plain plain rfl]
  congr 1
  omega

theorem extract_text (t value : Text) {k : Nat} (hk : k = t.length + 1) :
    extract (t ++ value) 1 (k - 1) = t := by
  rw [hk, Nat.add_sub_cancel, extract_prefix]

/-- The subscripts of a reference are found again, whatever they are. -/
theorem extractkey_lineOf (r : Ref) (value : Option Text) :
    extractkey (lineOf r value) =
      ⟨r.subs.length, if r.subs = [] then [] else r.name, r.subs.map Sub.text, r.text⟩ := by
  obtain ⟨name, plain, subs⟩ := r
  cases subs with
  | nil =>
    have hscan : scan (lineOf ⟨name, plain, []⟩ value) (lineOf ⟨name, plain, []⟩ value) 1
        ⟨0, 0, [], [], 0⟩ = (⟨0, 0, [], [], 0⟩, name.length + 2) := by
      exact (scan_name name plain).trans (scan_value value rfl)
    rw [extractkey, hscan]
    dsimp only
    rw [lineOf, extract_text _ _ (by rw [Ref.text, List.length_cons])]
    rfl
  | cons s subs =>
    generalize hline : lineOf ⟨name, plain, s :: subs⟩ value = line
    set behind := s.text ++ (after ',' (subs.map Sub.text) ++ ')' :: value.elim [] ('=' :: ·))
      with hbehind
    have hshape : line = '^' :: (name ++ '(' :: behind) := by
      rw [← hline, lineOf, Ref.text, hbehind]
      simp
    have hname : extract line 2 (name.length + 2 - 1) = name := by
      have hopen : line = ['^'] ++ name ++ '(' :: behind := by rw [hshape]; rfl
      rw [hopen]
      exact extract_at ['^'] (by rw [List.length_singleton]; omega)
    have hpast : line = '^' :: (name ++ ['(']) ++ behind := by
      rw [hshape, List.cons_append, List.append_assoc]
      rfl
    obtain ⟨k, hsubs, hk⟩ := scan_subs s subs _ name [] hpast
    have hlength : ('^' :: (name ++ ['('])).length + 1 = name.length + 2 + 1 := by
      rw [List.length_cons, List.length_append, List.length_singleton]
    rw [hlength] at hsubs
    have hscan := calc scan line line 1 ⟨0, 0, [], [], 0⟩
      _ = scan line ('^' :: (name ++ '(' :: behind)) 1 ⟨0, 0, [], [], 0⟩ :=
          congrArg (fun t => scan line t 1 _) hshape
      _ = scan line ('(' :: behind) (name.length + 2) ⟨0, 0, [], [], 0⟩ := scan_name name plain
      _ = scan line behind (name.length + 2 + 1) ⟨0, 1, name, [], name.length + 2 + 1⟩ := by
          rw [scan_cons step_top_open, hname]
      _ = scan line (value.elim [] ('=' :: ·)) k ⟨0, 2, name, (s :: subs).map Sub.text, k⟩ := hsubs
      _ = _ := scan_value value rfl
    have hend : k = (Ref.text ⟨name, plain, s :: subs⟩).length + 1 := by
      rw [← hline, lineOf, List.length_append] at hk
      omega
    rw [extractkey, hscan]
    dsimp only
    rw [← hline, lineOf, extract_text _ _ hend, List.length_map]
    rfl

end YdbTest.Extractkey
