import YdbTest.DbcargsWords
import YdbTest.Decimal

namespace YdbTest.Dbcargs

open MString Pieces Decimal
open DbcreateMulti (Opt Opts Entry argmnts entry test read)

/-- The words of a command line, which the shell has separated at blanks. -/
structure CommandLine where
  words : List Str
  plain : ∀ w ∈ words, w ≠ [] ∧ ∀ c ∈ w, c ≠ 32 ∧ c ≠ 9 ∧ c ≠ 10

/-- Some word is taken as the argument `a`. -/
def Given (ws : List Str) (a : Arg) : Prop :=
  ∃ i w v, ws[i]? = some w ∧ argOf (i + 1) (lower w) = some (a, v)

/-- Everything before `a` is given. -/
def Full (ws : List Str) (a : Arg) : Prop :=
  ∀ k ∈ defargs.takeWhile fun k => k.1 ≠ a, Given ws k.1

def Dropped (ws : List Str) (i : Nat) (w : Str) : Prop :=
  (∀ p, argOf i (lower w) = some p → ∀ k ∈ defargs, p.1 ≠ k.1) ∧
    ∀ o x, entry i w = some (.value o x) → ∀ k ∈ defargs, Given ws k.1 → opt k.1 ≠ o

def Item (y z : Str) : Prop := z ∈ y.splitOn comma ∨ ∃ q, z = canon q

variable {ws us vs : List Str} {a : Arg} {k : Arg × Str} {i : Nat} {w y z : Str} {q : Rat}
  {args args' : Args} {s s' s0 : Opts} {o : Opt}

theorem decimal_chars {m scale c : Nat} (h : c ∈ decimal m scale) : c = 46 ∨ 48 ≤ c ∧ c ≤ 57 := by
  have hdigits : ∀ n, c ∈ digits n → 48 ≤ c ∧ c ≤ 57 := fun n hc =>
    isDigit_of_mem_digitsStr (fun d hd => Nat.digits_lt_base (by omega) hd) hc
  rw [decimal] at h
  split at h
  · exact Or.inr (dec_digit h)
  · rw [List.mem_append, List.mem_cons] at h
    obtain h | rfl | h := h
    · exact Or.inr (hdigits _ h)
    · exact Or.inl rfl
    · refine Or.inr (isDigit_of_mem_digitsStr (fun d hd => ?_) h)
      exact lastDigits_lt scale m d (List.dropWhile_subset _ hd)

theorem canon_eq (q : Rat) : ∃ c s, (canon q = c :: s ∨ canon q = 45 :: c :: s) ∧
    ∀ d ∈ c :: s, d = 46 ∨ 48 ≤ d ∧ d ≤ 57 := by
  have h : ∀ m scale, ∃ c s, decimal m scale = c :: s ∧ ∀ d ∈ c :: s, d = 46 ∨ 48 ≤ d ∧ d ≤ 57 := by
    intro m scale
    obtain ⟨c, s, heq, -⟩ := decimal_head m scale
    exact ⟨c, s, heq, fun d hd => decimal_chars (heq ▸ hd)⟩
  obtain ⟨c, s, heq, hchars⟩ := h ⌊|q| * (10 ^ 18 : Nat)⌋₊ 18
  refine ⟨c, s, ?_, hchars⟩
  rw [canon, heq]
  split_ifs with hq
  · rw [neg]
    split_ifs with hz
    · exact Or.inl rfl
    · exact Or.inr rfl
  · exact Or.inl rfl

theorem test_sign {c : Nat} (hc : c < 97) {s : Str} (hf : ¬ lit "-f" <:+: 45 :: c :: s) :
    test (45 :: c :: s) = none := by
  have hne : ∀ n, 97 ≤ n → ¬ n = c := fun n hn h => by omega
  have hne' : ∀ n, 97 ≤ n → ¬ c = n := fun n hn h => by omega
  rw [DbcreateMulti.test_eq hf]
  simp [DbcreateMulti.tests, DbcreateMulti.Pat.fits, lit, hne, hne']

theorem canon_plain (q : Rat) : canon q ≠ [] ∧ equals ∉ canon q ∧ ¬ lit "-f" <:+: canon q ∧
    test (canon q) = none := by
  obtain ⟨c, s, heq, hchars⟩ := canon_eq q
  have hmem : ∀ d ∈ canon q, d = 45 ∨ d = 46 ∨ 48 ≤ d ∧ d ≤ 57 := by
    intro d hd
    obtain heq | heq := heq
    · exact Or.inr (hchars d (heq ▸ hd))
    · rw [heq, List.mem_cons] at hd
      exact hd.imp_right (hchars d)
  have hf : ¬ lit "-f" <:+: canon q := by
    intro h
    have h102 := hmem 102 (h.subset (by decide))
    omega
  have hc := hchars c List.mem_cons_self
  refine ⟨?_, ?_, hf, ?_⟩
  · obtain heq | heq := heq <;> rw [heq] <;> exact List.cons_ne_nil _ _
  · intro h
    have h61 := hmem 61 h
    omega
  · obtain heq | heq := heq
    · refine DbcreateMulti.test_plain ?_ hf
      rw [heq, List.head?_cons]
      intro h
      have h45 := Option.some.inj h
      omega
    · rw [heq] at hf ⊢
      exact test_sign (by omega) hf

/-- What `dbcargs` and `dbcreate_multi.awk` have read, where a word is written for an option. -/
structure Held (ws : List Str) (args : Args) (s : Opts) : Prop where
  given : ∀ k ∈ defargs, ∀ y, args k.1 = some y → Given ws k.1
  fit : ∀ k ∈ defargs, ∀ y, args k.1 = some y → Fit (Full ws) k y (s.value (opt k.1))

theorem Held.alike (h : Held ws args s) (hw : ws[i]? = some w) (ha : Alike (Full ws) (i + 1) w) :
    Held ws (setArg args (argOf (i + 1) (lower w))) (s.enter (entry (i + 1) w)) := by
  obtain ⟨k, hk, y, x, harg, hentry, hfit⟩ := ha
  rw [harg, hentry]
  have hset : ∀ j ∈ defargs, j ≠ k → j.1 ≠ k.1 ∧ opt j.1 ≠ opt k.1 := fun j hj hne =>
    ⟨fun heq => hne (opt_injective j hj k hk (congrArg opt heq)),
      fun heq => hne (opt_injective j hj k hk heq)⟩
  constructor
  · intro j hj v hv
    by_cases hjk : j = k
    · exact hjk ▸ ⟨i, w, y, hw, harg⟩
    · rw [setArg, Function.update_of_ne (hset j hj hjk).1] at hv
      exact h.given j hj v hv
  · intro j hj v hv
    rw [setArg] at hv
    change Fit (Full ws) j v (Function.update s.value (opt k.1) x (opt j.1))
    by_cases hjk : j = k
    · subst hjk
      rw [Function.update_self] at hv
      rw [Function.update_self, ← Option.some.inj hv]
      exact hfit
    · rw [Function.update_of_ne (hset j hj hjk).1] at hv
      rw [Function.update_of_ne (hset j hj hjk).2]
      exact h.fit j hj v hv

theorem Held.dropped (h : Held ws args s) (hd : Dropped ws i w) :
    Held ws (setArg args (argOf i (lower w))) (s.enter (entry i w)) := by
  have hargs : ∀ k ∈ defargs, setArg args (argOf i (lower w)) k.1 = args k.1 := by
    intro k hk
    cases harg : argOf i (lower w) with
    | none => rfl
    | some p => exact Function.update_of_ne (Ne.symm (hd.1 p harg k hk)) _ _
  have hvalue : ∀ k ∈ defargs, Given ws k.1 →
      (s.enter (entry i w)).value (opt k.1) = s.value (opt k.1) := by
    intro k hk hg
    cases hentry : entry i w with
    | none => rfl
    | some e =>
      cases e with
      | value o x => exact Function.update_of_ne (hd.2 o x hentry k hk hg) _ _
      | journal x => rfl
  constructor
  · intro k hk v hv
    exact h.given k hk v (hargs k hk ▸ hv)
  · intro k hk v hv
    rw [hargs k hk] at hv
    rw [hvalue k hk (h.given k hk v hv)]
    exact h.fit k hk v hv

def Sorted (ws : List Str) : Prop :=
  ∀ i w, ws[i]? = some w → Kept (Full ws) (i + 1) w ∨ Dropped ws (i + 1) w

theorem full_file_name : Full ws .file_name := by
  intro k hk
  exact absurd hk List.not_mem_nil

theorem Held.run (h : Held ws args s) (hsorted : Sorted ws) (i : Nat) (us : List Str)
    (hus : ∀ j w, us[j]? = some w → ws[i + j]? = some w) :
    Held ws (parseFrom args (i + 1) (us.map lower)) (read s (i + 1) us) := by
  induction us generalizing i args s with
  | nil => exact h
  | cons w us ih =>
    have hw : ws[i]? = some w := hus 0 w rfl
    have hstep : Held ws (setArg args (argOf (i + 1) (lower w))) (s.enter (entry (i + 1) w)) := by
      obtain hk | hd := hsorted i w hw
      · exact h.alike hw (alike_of_kept hk full_file_name)
      · exact h.dropped hd
    refine ih hstep (i + 1) fun j u hu => ?_
    rw [Nat.add_right_comm, Nat.add_assoc]
    exact hus (j + 1) u hu

theorem held_parse (hsorted : Sorted ws) (s0 : Opts) : Held ws (parseargs ws) (read s0 1 ws) := by
  have hnil : Held ws (fun _ => none) s0 :=
    ⟨fun _ _ _ h => absurd h (Option.some_ne_none _).symm,
      fun _ _ _ h => absurd h (Option.some_ne_none _).symm⟩
  refine hnil.run hsorted 0 ws fun j w hw => ?_
  rw [Nat.zero_add]
  exact hw

theorem setArg_isSome {p : Option (Arg × Str)} :
    (setArg args p a).isSome ↔ (args a).isSome ∨ ∃ v, p = some (a, v) := by
  cases p with
  | none => simp [setArg]
  | some p =>
    obtain ⟨b, v⟩ := p
    by_cases hab : a = b
    · subst hab
      simp [setArg]
    · have hba : ¬ b = a := fun h => hab h.symm
      simp [setArg, Function.update_of_ne hab, hba]

theorem parseFrom_isSome : (parseFrom args (i + 1) (us.map lower) a).isSome ↔ (args a).isSome ∨
    ∃ j w v, us[j]? = some w ∧ argOf (i + j + 1) (lower w) = some (a, v) := by
  induction us generalizing i args with
  | nil => simp [parseFrom]
  | cons u us ih =>
    rw [List.map_cons, parseFrom, ih, setArg_isSome, or_assoc]
    refine or_congr_right ⟨?_, ?_⟩
    · rintro (⟨v, hv⟩ | ⟨j, w, v, hw, hv⟩)
      · exact ⟨0, u, v, rfl, hv⟩
      · refine ⟨j + 1, w, v, hw, ?_⟩
        rw [← hv]
        congr 1
        omega
    · rintro ⟨j, w, v, hw, hv⟩
      cases j with
      | zero =>
        obtain rfl := Option.some.inj hw
        exact Or.inl ⟨v, hv⟩
      | succ j =>
        refine Or.inr ⟨j, w, v, hw, ?_⟩
        rw [← hv]
        congr 1
        omega

theorem parseargs_isSome : (parseargs ws a).isSome ↔ Given ws a := by
  rw [parseargs, ← Nat.zero_add 1, parseFrom_isSome]
  simp [Given]

/-- The other fields stay, and the field `a` may get an item of its list or range. -/
structure Drawn (a : Arg) (args args' : Args) : Prop where
  others : ∀ b ≠ a, args' b = args b
  field : (args' a = args a ∧ ∀ y, args a = some y → comma ∉ y) ∨
    ∃ y z, args a = some y ∧ (hyphen ∈ y ∨ comma ∈ y) ∧ args' a = some z ∧ Item y z

theorem mem_of_pieces {c : Nat} (h : 1 < pieces y c) : c ∈ y := by
  by_contra hc
  rw [pieces, List.splitOn_eq_singleton hc] at h
  exact absurd h (Nat.lt_irrefl 1)

theorem pieces_of_mem {c : Nat} (h : c ∈ y) : 1 < pieces y c := by
  obtain ⟨s, t, rfl⟩ := List.append_of_mem h
  rw [pieces, List.splitOn_append_cons_self, List.length_append]
  have hs := List.length_pos_iff.mpr (List.splitOn_ne_nil c s)
  have ht := List.length_pos_iff.mpr (List.splitOn_ne_nil c t)
  omega

theorem piece_mem {c n : Nat} (h1 : 1 ≤ n) (h2 : n ≤ pieces y c) :
    piece y c n ∈ y.splitOn c := by
  rw [pieces] at h2
  rw [piece, if_neg (by omega), List.getD_eq_getElem?_getD,
    List.getElem?_eq_getElem (show n - 1 < (y.splitOn c).length by omega), Option.getD_some]
  exact List.getElem_mem _

theorem random_lt {r m : Nat} {n : Int} (h : random r (n : Rat) = some m) : (m : Int) < n := by
  rw [random] at h
  split at h
  · exact absurd h (Option.some_ne_none _).symm
  · rename_i hn
    have h1 : (1 : Int) ≤ n := by
      have h1 : (1 : Rat) ≤ (n : Rat) := not_lt.mp hn
      exact_mod_cast h1
    obtain ⟨k, rfl⟩ := Int.eq_ofNat_of_zero_le (show 0 ≤ n by omega)
    have hfloor : ⌊((k : Int) : Rat)⌋₊ = k := by
      rw [Int.cast_natCast, Nat.floor_natCast]
    rw [hfloor] at h
    obtain rfl := Option.some.inj h
    have hlt := Nat.mod_lt r (show 0 < k by omega)
    exact_mod_cast hlt

theorem drawPiece_mem {r skip last : Nat} (hlast : last ≤ pieces y comma)
    (h : drawPiece r y skip last = some z) : z ∈ y.splitOn comma := by
  obtain ⟨m, hm, rfl⟩ := Option.map_eq_some_iff.mp h
  have hlt : (m : Int) < last - skip := random_lt hm
  exact piece_mem (by omega) (by omega)

theorem lastFit_le (p : Nat → Bool) : ∀ n, lastFit p n ≤ n
  | 0 => le_rfl
  | 1 => le_rfl
  | n + 2 => by
    rw [lastFit]
    split
    · exact le_rfl
    · exact (lastFit_le p (n + 1)).trans (Nat.le_succ _)

theorem getdef_plain : ∀ a ∈ sizes, hyphen ∉ getdef a ∧ comma ∉ getdef a := by decide

theorem setRange_eq {draw : Rat → Rat → Option Rat} (h : setRange args a y draw = some args') :
    args' = args ∨ hyphen ∈ y ∧ ∃ q, args' = Function.update args a (some (canon q)) := by
  rw [setRange] at h
  split at h
  · rename_i hr
    obtain ⟨q, -, rfl⟩ := Option.map_eq_some_iff.mp h
    exact Or.inr ⟨mem_of_pieces hr, q, rfl⟩
  · exact Or.inl (Option.some.inj h).symm

theorem setCollection_eq {draw : Nat → Option Str}
    (h : setCollection args a y draw = some args') :
    (args' = args ∧ comma ∉ y) ∨
      comma ∈ y ∧ ∃ z, draw (pieces y comma) = some z ∧
        args' = Function.update args a (some z) := by
  rw [setCollection] at h
  split at h
  · rename_i hr
    obtain ⟨z, hz, rfl⟩ := Option.map_eq_some_iff.mp h
    exact Or.inr ⟨mem_of_pieces hr, z, hz, rfl⟩
  · rename_i hr
    exact Or.inl ⟨(Option.some.inj h).symm, fun hc => hr (pieces_of_mem hc)⟩

theorem drawn_field {draw : Rat → Rat → Option Rat} {d : Args → Nat → Option Str}
    (ha : a ∈ sizes)
    (hd : ∀ args₁ z, d args₁ (pieces (valueOf args a) comma) = some z →
      z ∈ (valueOf args a).splitOn comma)
    (h : (setRange args a (valueOf args a) draw).bind (fun args₁ =>
      setCollection args₁ a (valueOf args a) (d args₁)) = some args') : Drawn a args args' := by
  obtain ⟨args₁, h₁, h₂⟩ := Option.bind_eq_some_iff.mp h
  have hothers₁ : ∀ b ≠ a, args₁ b = args b := by
    intro b hb
    obtain rfl | ⟨-, q, rfl⟩ := setRange_eq h₁
    · rfl
    · exact Function.update_of_ne hb _ _
  have hothers : ∀ b ≠ a, args' b = args b := by
    intro b hb
    obtain ⟨rfl, -⟩ | ⟨-, z, -, rfl⟩ := setCollection_eq h₂
    · exact hothers₁ b hb
    · rw [Function.update_of_ne hb]
      exact hothers₁ b hb
  refine ⟨hothers, ?_⟩
  cases hy : args a with
  | none =>
    -- the default is neither a range nor a list
    have hplain := getdef_plain a ha
    have hvalue : valueOf args a = getdef a := by rw [valueOf, hy, Option.getD_none]
    rw [hvalue] at h₁ h₂
    obtain rfl | ⟨hr, -⟩ := setRange_eq h₁
    · obtain ⟨rfl, -⟩ | ⟨hc, -⟩ := setCollection_eq h₂
      · exact Or.inl ⟨hy, fun y h => absurd h (Option.some_ne_none y).symm⟩
      · exact absurd hc hplain.2
    · exact absurd hr hplain.1
  | some y =>
    have hvalue : valueOf args a = y := by rw [valueOf, hy, Option.getD_some]
    rw [hvalue] at h₁ h₂ hd
    obtain ⟨rfl, hc⟩ | ⟨hc, z, hz, rfl⟩ := setCollection_eq h₂
    · obtain rfl | ⟨hr, q, rfl⟩ := setRange_eq h₁
      · exact Or.inl ⟨hy, fun v hv => Option.some.inj hv ▸ hc⟩
      · exact Or.inr ⟨y, canon q, rfl, Or.inl hr, Function.update_self _ _ _, Or.inr ⟨q, rfl⟩⟩
    · exact Or.inr ⟨y, z, rfl, Or.inr hc, Function.update_self _ _ _, Or.inl (hd args₁ z hz)⟩

section Fields

variable {e : Environ} {draws : Draws} {blkmax : Rat}

theorem drawn_randREG (h : randREG draws args = some args') : Drawn .n_regions args args' := by
  refine drawn_field (d := fun _ n => drawPiece (draws.collection .n_regions)
    (valueOf args .n_regions) 0 n) (by decide) (fun _ z hz => ?_) h
  exact drawPiece_mem le_rfl hz

theorem drawn_randKey (h : randKey e draws args = some args') : Drawn .key_size args args' := by
  refine drawn_field (d := fun _ n => drawPiece (draws.collection .key_size)
    (valueOf args .key_size) 0 (lastFit _ n)) (by decide) (fun _ z hz => ?_) h
  exact drawPiece_mem (lastFit_le _ _) hz

theorem drawn_randRec (h : randRec e draws blkmax args = some args') :
    Drawn .record_size args args' := by
  refine drawn_field (by decide) (fun args₁ z hz => ?_) h
  split at hz
  · exact drawPiece_mem le_rfl hz
  · obtain ⟨key_size, -, hz⟩ := Option.bind_eq_some_iff.mp hz
    exact drawPiece_mem (lastFit_le _ _) hz

theorem drawn_randBlk (h : randBlk e draws args = some args') : Drawn .block_size args args' := by
  refine drawn_field (by decide) (fun args₁ z hz => ?_) h
  obtain ⟨size, -, hz⟩ := Option.bind_eq_some_iff.mp hz
  exact drawPiece_mem le_rfl hz

theorem failsafe_eq (h : failsafe e args = some args') : args' = args := by
  rw [failsafe] at h
  split at h
  · exact (Option.some.inj h).symm
  · obtain ⟨key_size, -, h⟩ := Option.bind_eq_some_iff.mp h
    obtain ⟨record_size, -, h⟩ := Option.bind_eq_some_iff.mp h
    split at h
    · exact absurd h (Option.some_ne_none _).symm
    · exact (Option.some.inj h).symm

theorem drawn_randomize (h : randomize e draws args = some args') (a : Arg) :
    (args' a = args a ∧ (a ∈ sizes → ∀ y, args a = some y → comma ∉ y)) ∨
      a ∈ sizes ∧ ∃ y z, args a = some y ∧ (hyphen ∈ y ∨ comma ∈ y) ∧ args' a = some z ∧
        Item y z := by
  obtain ⟨args₁, h₁, h⟩ := Option.bind_eq_some_iff.mp h
  obtain ⟨args₂, h₂, h⟩ := Option.bind_eq_some_iff.mp h
  obtain ⟨args₃, h₃, h⟩ := Option.bind_eq_some_iff.mp h
  obtain ⟨args₄, h₄, h⟩ := Option.bind_eq_some_iff.mp h
  obtain rfl := failsafe_eq h
  have hreg := drawn_randREG h₁
  have hkey := drawn_randKey h₂
  have hrec := drawn_randRec h₃
  have hblk := drawn_randBlk h₄
  -- where `a` is drawn, and that it stays before and after
  obtain ⟨b, c, hd, hb, hc, ha⟩ | ⟨heq, ha⟩ : (∃ b c, Drawn a b c ∧ b a = args a ∧ c a = args' a ∧
      a ∈ sizes) ∨ args' a = args a ∧ a ∉ sizes := by
    by_cases hm : a ∈ sizes
    · left
      simp only [sizes, List.mem_cons, List.not_mem_nil, or_false] at hm
      obtain rfl | rfl | rfl | rfl := hm
      · refine ⟨args, args₁, hreg, rfl, ?_, by decide⟩
        rw [hblk.others _ (by decide), hrec.others _ (by decide), hkey.others _ (by decide)]
      · refine ⟨args₁, args₂, hkey, hreg.others _ (by decide), ?_, by decide⟩
        rw [hblk.others _ (by decide), hrec.others _ (by decide)]
      · refine ⟨args₂, args₃, hrec, ?_, (hblk.others _ (by decide)).symm, by decide⟩
        rw [hkey.others _ (by decide), hreg.others _ (by decide)]
      · refine ⟨args₃, args', hblk, ?_, rfl, by decide⟩
        rw [hrec.others _ (by decide), hkey.others _ (by decide), hreg.others _ (by decide)]
    · refine Or.inr ⟨?_, hm⟩
      simp only [sizes, List.mem_cons, List.not_mem_nil, or_false, not_or] at hm
      rw [hblk.others _ hm.2.2.2, hrec.others _ hm.2.2.1, hkey.others _ hm.2.1,
        hreg.others _ hm.1]
  · have hfield := hd.field
    rw [hb, hc] at hfield
    exact hfield.imp (fun h => ⟨h.1, fun _ => h.2⟩) fun h => ⟨ha, h⟩
  · exact Or.inl ⟨heq, fun h => absurd h ha⟩

end Fields

theorem sizes_named : ∀ k ∈ defargs, k.1 ∈ sizes → k ∈ named ∧ k ∈ defargs.take 15 := by decide

theorem carried_canon {full : Arg → Prop} (hk : k ∈ defargs) (hs : k.1 ∈ sizes) (q : Rat) :
    Carried full k (canon q) (canon q) := by
  obtain ⟨hne, heq, hf, ht⟩ := canon_plain q
  exact carried_named (sizes_named k hk hs).1 hne heq hf fun _ => ⟨(sizes_named k hk hs).2, ht⟩

theorem carried_randomize {e : Environ} {draws : Draws} (hheld : Held ws args s)
    (h : randomize e draws args = some args') (hk : k ∈ defargs) (hz : args' k.1 = some z) :
    Carried (Full ws) k z (if k.1 ∈ sizes then z else s.value (opt k.1)) := by
  obtain ⟨heq, hplain⟩ | ⟨hs, y, v, hy, -, hv, hitem⟩ := drawn_randomize h k.1
  · rw [heq] at hz
    have hfit := hheld.fit k hk z hz
    rw [Fit] at hfit
    split_ifs at hfit ⊢ with hs
    · refine hfit.2 z ?_
      rw [List.splitOn_eq_singleton (hplain hs z hz)]
      exact List.mem_cons_self
    · exact hfit
  · rw [if_pos hs]
    obtain rfl : v = z := Option.some.inj (hv.symm.trans hz)
    have hfit := hheld.fit k hk y hy
    rw [Fit, if_pos hs] at hfit
    obtain hmem | ⟨q, rfl⟩ := hitem
    · exact hfit.2 v hmem
    · exact carried_canon hk hs q

theorem read_writeFrom {full : Arg → Prop} {x : Arg → Str}
    (hc : ∀ k ∈ defargs, ∀ z, args k.1 = some z → Carried full k z (x k.1))
    (hfull : ∀ pre k post, defargs = pre ++ k :: post →
      (full k.1 ↔ ∀ j ∈ pre, (args j.1).isSome))
    (pre post : List (Arg × Str)) (hsplit : defargs = pre ++ post) (s : Opts) :
    let argc := (pre.filter fun k => (args k.1).isSome).length
    let ws := writeFrom args post (pre.length + 1) argc
    (∀ w ∈ ws, w ≠ []) ∧
      (∀ k ∈ post, (args k.1).isSome → (read s (argc + 1) ws).value (opt k.1) = x k.1) ∧
      (∀ o, (∀ k ∈ post, (args k.1).isSome → opt k.1 ≠ o) →
        (read s (argc + 1) ws).value o = s.value o) ∧
      (read s (argc + 1) ws).journals = s.journals := by
  induction post generalizing pre s with
  | nil =>
    exact ⟨fun w hw => absurd hw List.not_mem_nil, fun k hk => absurd hk List.not_mem_nil,
      fun o _ => rfl, rfl⟩
  | cons k post ih =>
    have hk : k ∈ defargs := hsplit ▸ List.mem_append_right _ List.mem_cons_self
    have hsplit' : defargs = (pre ++ [k]) ++ post := by
      rw [hsplit, List.append_assoc, List.singleton_append]
    have hlen : (pre ++ [k]).length = pre.length + 1 := List.length_append
    intro argc ws
    cases hz : args k.1 with
    | none =>
      have hcount : ((pre ++ [k]).filter fun k => (args k.1).isSome).length = argc := by
        simp [argc, hz]
      have hrest := ih (pre ++ [k]) hsplit' s
      simp only [hcount, hlen] at hrest
      have hws : ws = writeFrom args post (pre.length + 1 + 1) argc := by
        simp [ws, writeFrom, hz]
      rw [hws]
      refine ⟨hrest.1, ?_, ?_, hrest.2.2.2⟩
      · intro j hj hsome
        obtain rfl | hj := List.mem_cons.mp hj
        · rw [hz] at hsome
          exact absurd hsome (by decide)
        · exact hrest.2.1 j hj hsome
      · intro o ho
        exact hrest.2.2.1 o fun j hj => ho j (List.mem_cons_of_mem _ hj)
    | some z =>
      have hcount : ((pre ++ [k]).filter fun k => (args k.1).isSome).length = argc + 1 := by
        simp [argc, hz]
      have hws : ws = word k (pre.length + 1) (argc + 1) z ::
          writeFrom args post (pre.length + 1 + 1) (argc + 1) := by
        simp [ws, writeFrom, hz]
      -- the word stands at its own place when all before it are written too
      have hplace : argc + 1 = pre.length + 1 ↔ full k.1 := by
        rw [hfull pre k post hsplit, Nat.add_right_cancel_iff]
        exact List.length_filter_eq_length_iff
      have hget : defargs[pre.length + 1 - 1]? = some k := by
        rw [hsplit, Nat.add_sub_cancel, List.getElem?_append_right le_rfl, Nat.sub_self]
        rfl
      obtain ⟨hne, hentry⟩ := hc k hk z hz _ _ (Nat.succ_pos _) hget (Nat.succ_pos _) hplace
      have hrest := ih (pre ++ [k]) hsplit' (s.enter (some (.value (opt k.1) (x k.1))))
      simp only [hcount, hlen] at hrest
      have hread : read s (argc + 1) ws = read (s.enter (some (.value (opt k.1) (x k.1))))
          (argc + 1 + 1) (writeFrom args post (pre.length + 1 + 1) (argc + 1)) := by
        rw [hws, DbcreateMulti.read, hentry]
      rw [hread]
      refine ⟨?_, ?_, ?_, hrest.2.2.2⟩
      · rw [hws, List.forall_mem_cons]
        exact ⟨hne, hrest.1⟩
      · intro j hj hsome
        by_cases hmem : j ∈ post
        · exact hrest.2.1 j hmem hsome
        · obtain rfl : j = k := (List.mem_cons.mp hj).resolve_right hmem
          rw [hrest.2.2.1 (opt j.1)]
          · exact Function.update_self _ _ _
          · intro l hl _ heq
            have hlmem : l ∈ defargs := hsplit ▸ List.mem_append_right _ (List.mem_cons_of_mem _ hl)
            exact hmem (opt_injective l hlmem j hk heq ▸ hl)
      · intro o ho
        rw [hrest.2.2.1 o fun j hj => ho j (List.mem_cons_of_mem _ hj)]
        exact Function.update_of_ne (Ne.symm (ho k List.mem_cons_self (by rw [hz]; rfl))) _ _

end YdbTest.Dbcargs
