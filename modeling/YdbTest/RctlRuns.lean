import YdbTest.RctlValidate

namespace YdbTest.RctlValidate

open MString Decimal Delimiter TreeStore OrderWalk

variable {v w : Vars} {dir name error : Str} {q : List Str} {r : Option Str} {n : Node}
  {us : List (Upd Var Str Str)}

theorem look_dir : look (allUpdates v) (.cycles, [dir]) r =
    if dir ∈ subscripts v (.results, []) then some (dec 1) else r := by
  split_ifs with hdir
  · apply look_const
    · intro u hu
      rw [mem_allUpdates] at hu
      obtain ⟨d, -, rfl | ⟨m, -, rfl | rfl⟩ | rfl⟩ := hu
      · by_cases hd : d = dir
        · exact Or.inr fun r => if_pos (by rw [hd])
        · exact Or.inl fun r => if_neg (by simpa using hd)
      · exact Or.inl fun r => rfl
      · exact Or.inl fun r => if_neg (by simp)
      · exact Or.inl fun r => rfl
    · exact ⟨_, mem_allUpdates.mpr ⟨dir, hdir, Or.inl rfl⟩, fun r => if_pos rfl⟩
  · apply look_of_not_hits
    intro u hu
    rw [mem_allUpdates] at hu
    obtain ⟨d, hd, rfl | ⟨m, -, rfl | rfl⟩ | rfl⟩ := hu
    · exact decide_eq_false fun heq => hdir (by simp_all)
    · rfl
    · exact decide_eq_false (by simp)
    · rfl

theorem mem_dirs_of_mem_names (h : name ∈ subscripts v (.results, [dir])) :
    dir ∈ subscripts v (.results, []) := by
  obtain ⟨rest, a, ha⟩ := (mem_subscripts v _ _).mp h
  exact (mem_subscripts v _ _).mpr ⟨name :: rest, a, ha⟩

theorem look_file : look (allUpdates v) (.cycles, [dir, name]) r =
    if name ∈ subscripts v (.results, [dir]) then some (dec (cycle v dir name)) else r := by
  split_ifs with hname
  · apply look_const
    · intro u hu
      rw [mem_allUpdates] at hu
      obtain ⟨d, -, rfl | ⟨m, -, rfl | rfl⟩ | rfl⟩ := hu
      · exact Or.inl fun r => if_neg (by simp)
      · exact Or.inl fun r => rfl
      · by_cases hd : d = dir ∧ m = name
        · exact Or.inr fun r => by rw [hd.1, hd.2]; exact if_pos rfl
        · exact Or.inl fun r => if_neg (by simpa using hd)
      · exact Or.inl fun r => rfl
    · exact ⟨_, mem_allUpdates.mpr ⟨dir, mem_dirs_of_mem_names hname,
        Or.inr (Or.inl ⟨name, hname, Or.inr rfl⟩)⟩, fun r => if_pos rfl⟩
  · apply look_of_not_hits
    intro u hu
    rw [mem_allUpdates] at hu
    obtain ⟨d, -, rfl | ⟨m, hm, rfl | rfl⟩ | rfl⟩ := hu
    · exact decide_eq_false (by simp)
    · rfl
    · exact decide_eq_false fun heq => hname (by simp_all)
    · rfl

theorem look_deep (h1 : ∀ d, q ≠ [d]) (h2 : ∀ d m, q ≠ [d, m]) :
    look (allUpdates v) (.cycles, q) r = r := by
  apply look_of_not_hits
  intro u hu
  rw [mem_allUpdates] at hu
  obtain ⟨d, -, rfl | ⟨m, -, rfl | rfl⟩ | rfl⟩ := hu
  · exact decide_eq_false fun heq => h1 d (Prod.mk.inj heq).2.symm
  · rfl
  · exact decide_eq_false fun heq => h2 d m (Prod.mk.inj heq).2.symm
  · rfl

theorem look_expect : look (allUpdates v) (.expect, q) r = r := by
  apply look_of_not_hits
  intro u hu
  rw [mem_allUpdates] at hu
  obtain ⟨d, -, rfl | ⟨m, -, rfl | rfl⟩ | rfl⟩ := hu <;> rfl

theorem results_allUpdates (hv : get v (.results, []) = none) :
    get (applyAll (allUpdates v) v) (.results, q) = none := by
  rw [get_applyAll]
  cases q with
  | nil =>
    rw [hv]
    apply look_of_not_hits
    intro u hu
    rw [mem_allUpdates] at hu
    obtain ⟨d, -, rfl | ⟨m, -, rfl | rfl⟩ | rfl⟩ := hu <;> rfl
  | cons d q =>
    have hkeep : ∀ u ∈ allUpdates v, (∀ r, u.at (.results, d :: q) r = r) ∨
        ∀ r, u.at (.results, d :: q) r = none := by
      intro u hu
      rw [mem_allUpdates] at hu
      have hkill (m : Node) : (∀ r, (Upd.kill m : Upd Var Str Str).at (.results, d :: q) r = r) ∨
          ∀ r, (Upd.kill m : Upd Var Str Str).at (.results, d :: q) r = none := by
        by_cases hm : below m (.results, d :: q)
        · exact Or.inr fun r => if_pos hm
        · exact Or.inl fun r => if_neg hm
      obtain ⟨d', -, rfl | ⟨m, -, rfl | rfl⟩ | rfl⟩ := hu
      · exact Or.inl fun r => Upd.at_of_not_hits (by simp [Upd.hits]) r
      · exact hkill _
      · exact Or.inl fun r => Upd.at_of_not_hits (by simp [Upd.hits]) r
      · exact hkill _
    by_cases hd : d ∈ subscripts v (.results, [])
    · apply look_const hkeep
      have hbelow : below (Var.results, [d]) (Var.results, d :: q) = true :=
        below_iff.mpr ⟨rfl, List.prefix_append [d] q⟩
      exact ⟨.kill (.results, [d]), mem_allUpdates.mpr ⟨d, hd, Or.inr (Or.inr rfl)⟩,
        fun r => if_pos hbelow⟩
    · have hnone : get v (.results, d :: q) = none := by
        by_contra hsome
        obtain ⟨a, ha⟩ := Option.ne_none_iff_exists'.mp hsome
        exact hd ((mem_subscripts v _ _).mpr ⟨q, a, ha⟩)
      rw [hnone]
      apply look_keeps
      intro u hu
      exact (hkeep u hu).elim (fun h => h none) fun h => h none

def ErrorOk (v : Vars) (error : Str) : Prop :=
  if hasData v (.expect, [lit "error"]) then fullText v <:+: error else error = []

theorem fullText_ne_nil : fullText v ≠ [] := by
  apply List.append_ne_nil_of_left_ne_nil
  apply List.append_ne_nil_of_right_ne_nil
  decide

theorem validateError_eq_some (hv : hasData v (.results, []) = false) :
    validateError v error = some w ↔ ErrorOk v error ∧ w = v := by
  have hne (h : fullText v <:+: error) : error ≠ [] := by
    rintro rfl
    exact fullText_ne_nil (List.infix_nil.mp h)
  unfold validateError ErrorOk
  rw [if_neg (by rw [hv]; exact Bool.false_ne_true)]
  cases hasData v (.expect, [lit "error"]) with
  | false => by_cases he : error = [] <;> simp [he, eq_comm]
  | true =>
    by_cases he : error = []
    · rw [he] at hne ⊢
      exact iff_of_false (by simp) fun h => hne h.1 rfl
    · by_cases ht : fullText v <:+: error <;> simp [he, ht, eq_comm]

theorem validate_eq_some (hv : get v (.results, []) = none) : validate v error = some w ↔
    ((∀ dir ∈ subscripts v (.results, []), DirOk v dir) ∧ ErrorOk v error) ∧
      w = applyAll (allUpdates v) v := by
  have hexpect (q : List Str) :
      get (applyAll (allUpdates v) v) (.expect, q) = get v (.expect, q) := by
    rw [get_applyAll, look_expect]
  have hdata : hasData (applyAll (allUpdates v) v) (.expect, [lit "error"]) =
      hasData v (.expect, [lit "error"]) := by
    rw [Bool.eq_iff_iff, hasData_iff, hasData_iff]
    apply exists₂_congr
    rintro ⟨x, q⟩ a
    apply and_congr_right
    intro hx
    obtain rfl : .expect = x := (below_iff.mp hx).1
    rw [hexpect]
  have herror : ErrorOk (applyAll (allUpdates v) v) error ↔ ErrorOk v error := by
    rw [ErrorOk, ErrorOk, hdata, fullText, fullText, hexpect, hexpect]
  have hresults : hasData (applyAll (allUpdates v) v) (.results, []) = false := by
    apply hasData_eq_false
    rintro ⟨x, q⟩ hx
    obtain rfl : .results = x := (below_iff.mp hx).1
    exact results_allUpdates hv
  unfold validate
  simp only [Option.bind_eq_some_iff, dirs_eq_some]
  constructor
  · rintro ⟨u, ⟨hok, rfl⟩, hu⟩
    obtain ⟨herr, hw⟩ := (validateError_eq_some hresults).mp hu
    exact ⟨⟨hok, herror.mp herr⟩, hw⟩
  · rintro ⟨⟨hok, herr⟩, hw⟩
    exact ⟨_, ⟨hok, rfl⟩, (validateError_eq_some hresults).mpr ⟨herror.mpr herr, hw⟩⟩

namespace Zrupdate

variable (z : Zrupdate)

def listed : Vars := (getResults z.dump []).getD []

def relinkctls : List Str := subscripts z.listed (.results, [])

def routines (dir : Str) : List Str := subscripts z.listed (.results, [dir])

def Expects (dir : Str) : Prop :=
  (∃ d ∈ z.realDirs, d ++ slash = dir) ∨ ∃ u ∈ z.updates, u.1 ++ slash = dir

def bumps (dir name : Str) : Nat := z.updates.countP fun u => u.1 ++ slash = dir ∧ u.2 = name

end Zrupdate

variable {z : Zrupdate} {zs : List Zrupdate}

def writes : Upd Var Str Str → Option Node
  | .set n _ => some n
  | .modify n _ => some n
  | .kill _ => none
  | .zkill _ => none

theorem look_writes (hus : ∀ u ∈ us, writes u ≠ none) :
    look us n none ≠ none ↔ ∃ u ∈ us, writes u = some n := by
  induction us using List.reverseRecOn with
  | nil => simp [look_nil]
  | append_singleton us u ih =>
    have hrest := ih fun a ha => hus a (List.mem_append_left _ ha)
    have hu := hus u (List.mem_append_right _ List.mem_cons_self)
    rw [look_append, look_cons, look_nil]
    simp only [List.mem_append, List.mem_singleton, or_and_right, exists_or, exists_eq_left]
    rw [← hrest]
    cases u with
    | set m a => by_cases hm : m = n <;> simp [Upd.at, writes, hm]
    | modify m f => by_cases hm : m = n <;> simp [Upd.at, writes, hm]
    | kill m => exact absurd rfl hu
    | zkill m => exact absurd rfl hu

theorem hasData_writes (hus : ∀ u ∈ us, writes u ≠ none)
    (hv : ∀ m, below n m = true → get v m = none) :
    hasData (applyAll us v) n = true ↔ ∃ u ∈ us, ∃ m, writes u = some m ∧ below n m = true := by
  rw [hasData_iff]
  constructor
  · rintro ⟨m, a, hm, ha⟩
    rw [get_applyAll, hv m hm] at ha
    obtain ⟨u, hu, hw⟩ := (look_writes hus).mp (by rw [ha]; exact Option.some_ne_none a)
    exact ⟨u, hu, m, hw, hm⟩
  · rintro ⟨u, hu, m, hw, hm⟩
    obtain ⟨a, ha⟩ := Option.ne_none_iff_exists'.mp ((look_writes hus).mpr ⟨u, hu, hw⟩)
    exact ⟨m, a, hm, by rw [get_applyAll, hv m hm, ha]⟩

theorem mem_expectations {u : Upd Var Str Str} : u ∈ expectations z ↔
    (∃ d ∈ z.realDirs, .set (.expect, [d ++ slash]) (dec 1) = u) ∨
      (∃ b ∈ z.updates, .modify (.expect, [b.1 ++ slash, b.2]) increment = u) ∨
        ∃ e, z.expectError = some e ∧ (u = .set (.expect, [lit "error", lit "1"]) e.1 ∨
          u = .set (.expect, [lit "error", lit "2"]) e.2) := by
  rw [expectations, List.mem_append, List.mem_append, List.mem_map, List.mem_map, or_assoc]
  cases z.expectError <;> simp

theorem expectations_writes : ∀ u ∈ expectations z, writes u ≠ none := by
  intro u hu
  obtain ⟨d, -, rfl⟩ | ⟨b, -, rfl⟩ | ⟨e, -, rfl | rfl⟩ := mem_expectations.mp hu <;>
    exact Option.some_ne_none _

theorem slash_ne_error (d : Str) : d ++ slash ≠ lit "error" := by
  intro h
  have hslash : slash.getLast? = some 47 := by decide
  have herror : (lit "error").getLast? = some 114 := by decide
  have hlast := congrArg List.getLast? h
  rw [List.getLast?_append, hslash, herror] at hlast
  cases hlast

theorem get_killed {q : List Str} (m : Node) (hm : below (.expect, q) m = true) :
    get (kill (.expect, []) v) m = none := by
  rw [get_kill, if_pos]
  exact below_iff.mpr ⟨(below_iff.mp hm).1, List.nil_prefix⟩

theorem expects_iff (d : Str) :
    hasData (setExpectations z v) (.expect, [d ++ slash]) = true ↔ z.Expects (d ++ slash) := by
  rw [setExpectations, hasData_writes expectations_writes get_killed]
  constructor
  · rintro ⟨u, hu, m, hm, hb⟩
    obtain ⟨e, he, rfl⟩ | ⟨b, hb', rfl⟩ | ⟨e, -, rfl | rfl⟩ := mem_expectations.mp hu <;>
      obtain rfl := Option.some.inj hm <;> have hpre := (below_iff.mp hb).2
    · exact Or.inl ⟨e, he, (List.cons_prefix_cons.mp hpre).1.symm⟩
    · exact Or.inr ⟨b, hb', (List.cons_prefix_cons.mp hpre).1.symm⟩
    · exact absurd (List.cons_prefix_cons.mp hpre).1 (slash_ne_error d)
    · exact absurd (List.cons_prefix_cons.mp hpre).1 (slash_ne_error d)
  · rintro (⟨e, he, hd⟩ | ⟨b, hb, hd⟩)
    · refine ⟨_, mem_expectations.mpr (Or.inl ⟨e, he, rfl⟩), _, rfl, below_iff.mpr ⟨rfl, ?_⟩⟩
      rw [hd]
    · refine ⟨_, mem_expectations.mpr (Or.inr (Or.inl ⟨b, hb, rfl⟩)), _, rfl,
        below_iff.mpr ⟨rfl, ?_⟩⟩
      rw [hd]
      exact List.prefix_append [d ++ slash] [b.2]

theorem bumps_pos (d : Str) :
    hasData (setExpectations z v) (.expect, [d ++ slash, name]) = true ↔
      0 < z.bumps (d ++ slash) name := by
  rw [setExpectations, hasData_writes expectations_writes get_killed, Zrupdate.bumps,
    List.countP_pos_iff]
  constructor
  · rintro ⟨u, hu, m, hm, hb⟩
    obtain ⟨e, -, rfl⟩ | ⟨b, hb', rfl⟩ | ⟨e, -, rfl | rfl⟩ := mem_expectations.mp hu <;>
      obtain rfl := Option.some.inj hm <;> have hpre := (below_iff.mp hb).2
    · exact absurd hpre.length_le (by simp)
    · obtain ⟨h1, h2⟩ := List.cons_prefix_cons.mp hpre
      exact ⟨b, hb', decide_eq_true ⟨h1.symm, (List.cons_prefix_cons.mp h2).1.symm⟩⟩
    · exact absurd (List.cons_prefix_cons.mp hpre).1 (slash_ne_error d)
    · exact absurd (List.cons_prefix_cons.mp hpre).1 (slash_ne_error d)
  · rintro ⟨b, hb, hd⟩
    obtain ⟨h1, h2⟩ := of_decide_eq_true hd
    refine ⟨_, mem_expectations.mpr (Or.inr (Or.inl ⟨b, hb, rfl⟩)), _, rfl,
      below_iff.mpr ⟨rfl, ?_⟩⟩
    rw [h1, h2]

theorem look_increments (bs : List (Str × Str)) (r : Option Str) :
    toNat ((look (bs.map fun u => Upd.modify (Var.expect, [u.1 ++ slash, u.2]) increment)
        (Var.expect, [dir, name]) r).getD (dec 0)) =
      toNat (r.getD (dec 0)) + bs.countP fun u => u.1 ++ slash = dir ∧ u.2 = name := by
  induction bs generalizing r with
  | nil => rfl
  | cons b bs ih =>
    rw [List.map_cons, look_cons, ih, List.countP_cons, Upd.at]
    by_cases hb : b.1 ++ slash = dir ∧ b.2 = name
    · rw [if_pos (by rw [hb.1, hb.2]), if_pos (decide_eq_true hb), Option.getD_some, increment,
        toNat_dec]
      omega
    · rw [if_neg (by simpa using hb), if_neg (by simpa using hb)]
      rfl

theorem toNat_bumps (d : Str) :
    toNat ((get (setExpectations z v) (.expect, [d ++ slash, name])).getD (dec 0)) =
      z.bumps (d ++ slash) name := by
  have hdirs (r : Option Str) : look (z.realDirs.map fun e => Upd.set (Var.expect, [e ++ slash])
      (dec 1)) (Var.expect, [d ++ slash, name]) r = r := by
    apply look_of_not_hits
    rw [List.forall_mem_map]
    exact fun e _ => decide_eq_false (by simp)
  have herror (r : Option Str) : look (z.expectError.elim [] fun e =>
      [Upd.set (Var.expect, [lit "error", lit "1"]) e.1,
        .set (.expect, [lit "error", lit "2"]) e.2]) (Var.expect, [d ++ slash, name]) r = r := by
    cases z.expectError with
    | none => rfl
    | some e =>
      have hne : lit "error" ≠ d ++ slash := (slash_ne_error d).symm
      apply look_of_not_hits
      intro u hu
      obtain rfl | rfl : u = _ ∨ u = _ := by simpa using hu
      · exact decide_eq_false (by simp [hne])
      · exact decide_eq_false (by simp [hne])
  rw [setExpectations, get_applyAll, get_killed _ (below_iff.mpr ⟨rfl, List.prefix_rfl⟩),
    expectations, look_append, look_append, herror, hdirs, look_increments]
  exact Nat.zero_add _

theorem error_iff :
    hasData (setExpectations z v) (.expect, [lit "error"]) = true ↔ z.expectError ≠ none := by
  rw [setExpectations, hasData_writes expectations_writes get_killed, Option.ne_none_iff_exists']
  constructor
  · rintro ⟨u, hu, m, hm, hb⟩
    obtain ⟨e, -, rfl⟩ | ⟨b, -, rfl⟩ | ⟨e, he, -⟩ := mem_expectations.mp hu
    · obtain rfl := Option.some.inj hm
      exact absurd (List.cons_prefix_cons.mp (below_iff.mp hb).2).1.symm (slash_ne_error e)
    · obtain rfl := Option.some.inj hm
      exact absurd (List.cons_prefix_cons.mp (below_iff.mp hb).2).1.symm (slash_ne_error b.1)
    · exact ⟨e, he⟩
  · rintro ⟨e, he⟩
    exact ⟨_, mem_expectations.mpr (Or.inr (Or.inr ⟨e, he, Or.inl rfl⟩)), _, rfl,
      below_iff.mpr ⟨rfl, List.prefix_append [lit "error"] [lit "1"]⟩⟩

theorem fullText_eq {e : Str × Str} (he : z.expectError = some e) :
    fullText (setExpectations z v) = e.1 ++ lit ",%" ++ e.2 := by
  have h12 : lit "1" ≠ lit "2" := by decide
  have hlast (t : Str) : get (setExpectations z v) (.expect, [lit "error", t]) =
      look [Upd.set (Var.expect, [lit "error", lit "1"]) e.1,
        .set (.expect, [lit "error", lit "2"]) e.2] (Var.expect, [lit "error", t])
        (look (z.realDirs.map (fun d => .set (.expect, [d ++ slash]) (dec 1)) ++
          z.updates.map (fun u => .modify (.expect, [u.1 ++ slash, u.2]) increment))
            (Var.expect, [lit "error", t]) none) := by
    rw [setExpectations, get_applyAll, get_killed _ (below_iff.mpr ⟨rfl, List.prefix_rfl⟩),
      expectations, look_append, he]
    rfl
  rw [fullText, hlast, hlast]
  simp [look_cons, look_nil, Upd.at, h12, h12.symm]

theorem setExpectations_other {x : Var} (hx : x ≠ .expect) :
    get (setExpectations z v) (x, q) = get v (x, q) := by
  rw [setExpectations, get_applyAll, get_kill, if_neg fun h => hx (below_iff.mp h).1.symm]
  apply look_of_not_hits
  intro u hu
  obtain ⟨d, -, rfl⟩ | ⟨b, -, rfl⟩ | ⟨e, -, rfl | rfl⟩ := mem_expectations.mp hu <;>
    exact decide_eq_false fun h => hx (Prod.mk.inj h).1.symm

theorem resultSets_spec {dir : Option Str} {lines : List Str} (h : resultSets dir lines = some us)
    (hdir : ∀ d, dir = some d → ∃ e, d = e ++ slash) :
    ∀ u ∈ us, ∃ d q a, u = .set (.results, (d ++ slash) :: q) a := by
  induction lines generalizing dir us with
  | nil =>
    obtain rfl := Option.some.inj h
    exact fun u hu => absurd hu List.not_mem_nil
  | cons line lines ih =>
    rw [resultSets] at h
    split_ifs at h with hnil hobject hrec
    · obtain rfl := Option.some.inj h
      exact fun u hu => absurd hu List.not_mem_nil
    · obtain ⟨us', hus', rfl⟩ := Option.map_eq_some_iff.mp h
      refine List.forall_mem_cons.mpr ⟨⟨_, [], _, rfl⟩, ih hus' ?_⟩
      rintro d ⟨⟩
      exact ⟨_, rfl⟩
    · obtain ⟨d, hd, h⟩ := Option.bind_eq_some_iff.mp h
      obtain ⟨us', hus', rfl⟩ := Option.map_eq_some_iff.mp h
      obtain ⟨e, rfl⟩ := hdir d hd
      refine List.forall_mem_append.mpr ⟨?_, ih hus' ?_⟩
      · rw [List.forall_mem_cons, List.forall_mem_singleton]
        exact ⟨⟨e, _, _, rfl⟩, e, _, _, rfl⟩
      · rintro d ⟨⟩
        exact ⟨e, rfl⟩
    · exact ih h hdir

theorem listed_eq (h : resultSets none z.dump = some us) : z.listed = applyAll us [] := by
  rw [Zrupdate.listed, getResults, h]
  rfl

theorem listed_slash (h : get z.listed (.results, q) ≠ none) : ∃ d q', q = (d ++ slash) :: q' := by
  cases hus : resultSets none z.dump with
  | none =>
    rw [Zrupdate.listed, getResults, hus] at h
    exact absurd rfl h
  | some us =>
    have hspec := resultSets_spec hus fun d hd => absurd hd (Option.some_ne_none d).symm
    rw [listed_eq hus, get_applyAll, get_nil, look_writes] at h
    · obtain ⟨u, hu, hw⟩ := h
      obtain ⟨d, q', a, rfl⟩ := hspec u hu
      exact ⟨d, q', (Prod.mk.inj (Option.some.inj hw)).2.symm⟩
    · intro u hu
      obtain ⟨d, q', a, rfl⟩ := hspec u hu
      exact Option.some_ne_none _

theorem relinkctls_slash (h : dir ∈ z.relinkctls) : ∃ d, dir = d ++ slash := by
  obtain ⟨rest, a, ha⟩ := (mem_subscripts _ _ _).mp h
  obtain ⟨d, q', hq⟩ := listed_slash (by rw [ha]; exact Option.some_ne_none a)
  exact ⟨d, (List.cons.inj hq).1⟩

theorem routines_relinkctls (h : name ∈ z.routines dir) : dir ∈ z.relinkctls :=
  mem_dirs_of_mem_names h

theorem getResults_eq_some (hv : ∀ q, get v (.results, q) = none)
    (hw : getResults z.dump v = some w) :
    (∀ q, get w (.results, q) = get z.listed (.results, q)) ∧
      ∀ x, x ≠ .results → ∀ q, get w (x, q) = get v (x, q) := by
  obtain ⟨us, hus, rfl⟩ := Option.map_eq_some_iff.mp hw
  constructor
  · intro q
    rw [listed_eq hus, get_applyAll, get_applyAll, hv, get_nil]
  · intro x hx q
    rw [get_applyAll]
    apply look_of_not_hits
    intro u hu
    have hspec := resultSets_spec hus fun d hd => absurd hd (Option.some_ne_none d).symm
    obtain ⟨d, q', a, rfl⟩ := hspec u hu
    exact decide_eq_false fun h => hx (Prod.mk.inj h).1.symm

theorem getResults_isSome : (getResults z.dump v).isSome = (resultSets none z.dump).isSome :=
  Option.isSome_map

theorem hasData_congr {x : Var} (h : ∀ q, get v (x, q) = get w (x, q)) :
    hasData v (x, q) = hasData w (x, q) := by
  rw [Bool.eq_iff_iff, hasData_iff, hasData_iff]
  apply exists₂_congr
  rintro ⟨y, p⟩ a
  apply and_congr_right
  intro hy
  obtain rfl : x = y := (below_iff.mp hy).1
  rw [h]

theorem subscripts_congr {x : Var} (h : ∀ q, get v (x, q) = get w (x, q)) :
    name ∈ subscripts v (x, q) ↔ name ∈ subscripts w (x, q) := by
  rw [mem_subscripts, mem_subscripts]
  simp only [h]

def total (zs : List Zrupdate) (dir name : Str) : Nat :=
  ((zs.filter fun z => (z.routines dir).contains name).map fun z => z.bumps dir name).sum

structure Inv (zs : List Zrupdate) (v : Vars) : Prop where
  results : ∀ q, get v (.results, q) = none
  dir : ∀ dir, get v (.cycles, [dir]) = if ∃ z ∈ zs, dir ∈ z.relinkctls then some (dec 1) else none
  file : ∀ dir name, get v (.cycles, [dir, name]) =
    if ∃ z ∈ zs, name ∈ z.routines dir then some (dec (total zs dir name)) else none
  deep : ∀ q, (∀ d, q ≠ [d]) → (∀ d m, q ≠ [d, m]) → get v (.cycles, q) = none

/-- A ZRUPDATE that does what is expected after others. -/
structure Right (zs : List Zrupdate) (z : Zrupdate) : Prop where
  shown : (resultSets none z.dump).isSome = true
  relinkctl : ∀ dir ∈ z.relinkctls, z.Expects dir ∨ ∃ y ∈ zs, dir ∈ y.relinkctls
  routine : ∀ dir, ∀ name ∈ z.routines dir,
    0 < z.bumps dir name ∨ ∃ y ∈ zs, name ∈ y.routines dir
  cycle : ∀ dir, ∀ name ∈ z.routines dir, get z.listed (.results, [dir, name, lit "cycle"]) =
    some (dec (total zs dir name + z.bumps dir name))
  error : z.expectError.elim (z.error = []) fun e => e.1 ++ lit ",%" ++ e.2 <:+: z.error

theorem inv_nil : Inv [] [] where
  results _ := rfl
  dir _ := by simp [get_nil]
  file _ _ := by simp [get_nil]
  deep _ _ _ := rfl

theorem total_append : total (zs ++ [z]) dir name =
    total zs dir name + if name ∈ z.routines dir then z.bumps dir name else 0 := by
  rw [total, List.filter_append, List.map_append, List.sum_append, ← total]
  by_cases h : name ∈ z.routines dir <;> simp [h]

theorem total_eq_zero (h : ¬ ∃ z ∈ zs, name ∈ z.routines dir) : total zs dir name = 0 := by
  have hnil : zs.filter (fun z => (z.routines dir).contains name) = [] :=
    List.filter_eq_nil_iff.mpr fun z hz hd => h ⟨z, hz, List.contains_iff_mem.mp hd⟩
  rw [total, hnil]
  rfl

namespace Inv

variable (h : Inv zs v)

include h

theorem hasData_file :
    hasData v (.cycles, [dir, name]) = true ↔ ∃ z ∈ zs, name ∈ z.routines dir := by
  rw [hasData_iff]
  constructor
  · rintro ⟨⟨x, q⟩, a, hq, ha⟩
    obtain ⟨rfl, t, rfl⟩ := below_iff.mp hq
    cases t with
    | nil =>
      by_contra hnot
      have hnone := h.file dir name
      rw [if_neg hnot] at hnone
      cases hnone.symm.trans ha
    | cons b t =>
      have hnone := h.deep ([dir, name] ++ b :: t) (by simp) (by simp)
      cases hnone.symm.trans ha
  · intro hex
    exact ⟨_, _, below_iff.mpr ⟨rfl, List.prefix_rfl⟩, (h.file dir name).trans (if_pos hex)⟩

theorem hasData_dir : hasData v (.cycles, [dir]) = true ↔ ∃ z ∈ zs, dir ∈ z.relinkctls := by
  rw [hasData_iff]
  constructor
  · rintro ⟨⟨x, q⟩, a, hq, ha⟩
    obtain ⟨rfl, t, rfl⟩ := below_iff.mp hq
    cases t with
    | nil =>
      by_contra hnot
      have hnone := h.dir dir
      rw [if_neg hnot] at hnone
      cases hnone.symm.trans ha
    | cons name t =>
      have hdata : hasData v (.cycles, [dir, name]) = true :=
        (hasData_iff _ _).mpr ⟨(.cycles, [dir, name] ++ t), a,
          below_iff.mpr ⟨rfl, List.prefix_append [dir, name] t⟩, ha⟩
      obtain ⟨z, hz, hname⟩ := h.hasData_file.mp hdata
      exact ⟨z, hz, routines_relinkctls hname⟩
  · intro hex
    exact ⟨_, _, below_iff.mpr ⟨rfl, List.prefix_rfl⟩, (h.dir dir).trans (if_pos hex)⟩

theorem toNat_file : toNat ((get v (.cycles, [dir, name])).getD (dec 0)) = total zs dir name := by
  rw [h.file]
  split_ifs with hex
  · exact toNat_dec _
  · rw [total_eq_zero hex]
    exact toNat_dec 0

end Inv

/-- The arrays that `validate` starts from. -/
structure Ready (zs : List Zrupdate) (z : Zrupdate) (v u : Vars) : Prop where
  inv : Inv zs v
  results : ∀ q, get u (.results, q) = get z.listed (.results, q)
  expect : ∀ q, get u (.expect, q) = get (setExpectations z v) (.expect, q)
  cycles : ∀ q, get u (.cycles, q) = get v (.cycles, q)

variable {u : Vars}

theorem Inv.ready (h : Inv zs v) (hu : getResults z.dump (setExpectations z v) = some u) :
    Ready zs z v u := by
  have hv (q : List Str) : get (setExpectations z v) (.results, q) = none := by
    rw [setExpectations_other (by decide), h.results]
  obtain ⟨hresults, hother⟩ := getResults_eq_some hv hu
  refine ⟨h, hresults, hother .expect (by decide), fun q => ?_⟩
  rw [hother .cycles (by decide), setExpectations_other (by decide)]

namespace Ready

variable (h : Ready zs z v u)

include h

theorem mem_relinkctls : dir ∈ subscripts u (.results, []) ↔ dir ∈ z.relinkctls :=
  subscripts_congr h.results

theorem mem_routines : name ∈ subscripts u (.results, [dir]) ↔ name ∈ z.routines dir :=
  subscripts_congr h.results

theorem cycle_eq (d : Str) : cycle u (d ++ slash) name =
    total zs (d ++ slash) name + z.bumps (d ++ slash) name := by
  rw [cycle, h.cycles, h.expect, h.inv.toNat_file, toNat_bumps]

theorem fileOk (d : Str) : FileOk u (d ++ slash) name ↔
    (0 < z.bumps (d ++ slash) name ∨ ∃ y ∈ zs, name ∈ y.routines (d ++ slash)) ∧
      get z.listed (.results, [d ++ slash, name, lit "cycle"]) =
        some (dec (total zs (d ++ slash) name + z.bumps (d ++ slash) name)) := by
  rw [← h.inv.hasData_file, ← bumps_pos (v := v), ← hasData_congr h.expect,
    ← hasData_congr h.cycles, ← h.cycle_eq, ← h.results]
  exact ⟨fun ⟨h1, h2⟩ => ⟨h1, h2⟩, fun ⟨h1, h2⟩ => ⟨h1, h2⟩⟩

theorem dirOk (d : Str) : DirOk u (d ++ slash) ↔
    (z.Expects (d ++ slash) ∨ ∃ y ∈ zs, d ++ slash ∈ y.relinkctls) ∧
      ∀ name ∈ z.routines (d ++ slash), FileOk u (d ++ slash) name := by
  rw [← h.inv.hasData_dir, ← expects_iff (v := v), ← hasData_congr h.expect,
    ← hasData_congr h.cycles]
  simp only [← h.mem_routines]
  exact ⟨fun hd => ⟨hd.known, hd.files⟩, fun hd => ⟨hd.1, hd.2⟩⟩

theorem errorOk : ErrorOk u z.error ↔
    z.expectError.elim (z.error = []) fun e => e.1 ++ lit ",%" ++ e.2 <:+: z.error := by
  have hdata : hasData u (.expect, [lit "error"]) = true ↔ z.expectError ≠ none := by
    rw [hasData_congr h.expect, error_iff]
  have htext : fullText u = fullText (setExpectations z v) := by
    rw [fullText, fullText, h.expect, h.expect]
  rw [ErrorOk]
  cases he : z.expectError with
  | none => rw [if_neg fun hd => hdata.mp hd he]; rfl
  | some e =>
    rw [if_pos (hdata.mpr (by rw [he]; exact Option.some_ne_none e)), htext, fullText_eq he]
    rfl

theorem validate_eq_some (hz : (resultSets none z.dump).isSome = true) :
    validate u z.error = some w ↔ Right zs z ∧ w = applyAll (allUpdates u) u := by
  have hnil : get u (.results, []) = none := by
    by_contra hne
    rw [h.results] at hne
    obtain ⟨d, q', hq⟩ := listed_slash hne
    cases hq
  rw [RctlValidate.validate_eq_some hnil, h.errorOk]
  apply and_congr_left
  intro _
  constructor
  · rintro ⟨hdirs, herror⟩
    have hdir {dir : Str} (hd : dir ∈ z.relinkctls) := hdirs dir (h.mem_relinkctls.mpr hd)
    have hfile {dir name : Str} (hn : name ∈ z.routines dir) :=
      (hdir (routines_relinkctls hn)).files name (h.mem_routines.mpr hn)
    refine ⟨hz, fun dir hd => ?_, fun dir name hn => ?_, fun dir name hn => ?_, herror⟩
    · obtain ⟨d, rfl⟩ := relinkctls_slash hd
      exact ((h.dirOk d).mp (hdir hd)).1
    · obtain ⟨d, rfl⟩ := relinkctls_slash (routines_relinkctls hn)
      exact ((h.fileOk d).mp (hfile hn)).1
    · obtain ⟨d, rfl⟩ := relinkctls_slash (routines_relinkctls hn)
      exact ((h.fileOk d).mp (hfile hn)).2
  · rintro hright
    refine ⟨fun dir hd => ?_, hright.error⟩
    rw [h.mem_relinkctls] at hd
    obtain ⟨d, rfl⟩ := relinkctls_slash hd
    refine (h.dirOk d).mpr ⟨hright.relinkctl _ hd, fun name hn => ?_⟩
    exact (h.fileOk d).mpr ⟨hright.routine _ name hn, hright.cycle _ name hn⟩

theorem inv_append : Inv (zs ++ [z]) (applyAll (allUpdates u) u) where
  results q := by
    apply results_allUpdates
    by_contra hne
    rw [h.results] at hne
    obtain ⟨d, q', hq⟩ := listed_slash hne
    cases hq
  dir dir := by
    rw [get_applyAll, look_dir, h.cycles, h.inv.dir]
    simp only [h.mem_relinkctls, List.mem_append, List.mem_singleton, or_and_right, exists_or,
      exists_eq_left]
    by_cases hz : dir ∈ z.relinkctls <;> simp [hz]
  file dir name := by
    rw [get_applyAll, look_file, h.cycles, h.inv.file]
    simp only [h.mem_routines, List.mem_append, List.mem_singleton, or_and_right, exists_or,
      exists_eq_left]
    by_cases hz : name ∈ z.routines dir
    · obtain ⟨d, rfl⟩ := relinkctls_slash (routines_relinkctls hz)
      rw [if_pos hz, if_pos (Or.inr hz), h.cycle_eq, total_append, if_pos hz]
    · rw [if_neg hz, total_append, if_neg hz]
      simp [hz]
  deep q h1 h2 := by
    rw [get_applyAll, look_deep h1 h2, h.cycles]
    exact h.inv.deep q h1 h2

end Ready

theorem Inv.step (h : Inv zs v) (hw : zrupdate v z = some w) : Right zs z ∧ Inv (zs ++ [z]) w := by
  obtain ⟨u, hu, hw⟩ := Option.bind_eq_some_iff.mp hw
  have hz : (resultSets none z.dump).isSome = true := by
    rw [← getResults_isSome, hu]
    rfl
  obtain ⟨hright, rfl⟩ := ((h.ready hu).validate_eq_some hz).mp hw
  exact ⟨hright, (h.ready hu).inv_append⟩

theorem Inv.passes (h : Inv zs v) (hright : Right zs z) : (zrupdate v z).isSome = true := by
  obtain ⟨u, hu⟩ := Option.isSome_iff_exists.mp
    ((getResults_isSome (v := setExpectations z v)).trans hright.shown)
  have hpass := ((h.ready hu).validate_eq_some hright.shown).mpr ⟨hright, rfl⟩
  rw [zrupdate, hu, Option.bind_some, hpass]
  rfl

theorem foldlM_append_singleton : (zs ++ [z]).foldlM zrupdate [] =
    (zs.foldlM zrupdate []).bind fun v => zrupdate v z := by
  rw [List.foldlM_append]
  apply congrArg
  funext v
  rw [List.foldlM_cons]
  exact bind_pure (zrupdate v z)

theorem foldlM_inv (h : zs.foldlM zrupdate [] = some v) : Inv zs v := by
  induction zs using List.reverseRecOn generalizing v with
  | nil =>
    obtain rfl := Option.some.inj h
    exact inv_nil
  | append_singleton zs z ih =>
    rw [foldlM_append_singleton] at h
    obtain ⟨u, hu, hv⟩ := Option.bind_eq_some_iff.mp h
    exact ((ih hu).step hv).2

/-- A run of ZRUPDATEs passes the checks if and only if each of them is right after those in front
of it. -/
theorem zrupdates_pass_iff (zs : List Zrupdate) :
    (zs.foldlM zrupdate []).isSome = true ↔ ∀ ys z, ys ++ [z] <+: zs → Right ys z := by
  induction zs using List.reverseRecOn with
  | nil =>
    refine iff_of_true rfl fun ys z h => ?_
    exact absurd (List.prefix_nil.mp h) (by simp)
  | append_singleton zs z ih =>
    rw [foldlM_append_singleton]
    constructor
    · intro h ys y hy
      obtain ⟨w, hrun⟩ := Option.isSome_iff_exists.mp h
      obtain ⟨v, hv, hw⟩ := Option.bind_eq_some_iff.mp hrun
      obtain heq | hlt := List.prefix_concat_iff.mp hy
      · obtain ⟨rfl, rfl⟩ := List.append_singleton_inj.mp heq
        exact ((foldlM_inv hv).step hw).1
      · exact ih.mp (by rw [hv]; rfl) ys y hlt
    · intro h
      obtain ⟨v, hv⟩ := Option.isSome_iff_exists.mp
        (ih.mpr fun ys y hy => h ys y (hy.trans (List.prefix_append zs [z])))
      rw [hv]
      exact (foldlM_inv hv).passes (h zs z List.prefix_rfl)

end YdbTest.RctlValidate
