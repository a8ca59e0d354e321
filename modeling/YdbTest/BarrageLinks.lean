import YdbTest.Barrage

namespace YdbTest.Barrage

open MString Asserts Function

variable {A : Stop → Prop} {s s' s'' : Tables} {z : Zro} {l : Link} {pid p : Pid} {name n : Rtn}
  {dir d : Dir} {is js : List Nat} {ds : List Dir} {starred : Bool} {i j k : Nat}

/-- The cycle that a process knows is one that the directory has had. -/
def Known (s : Tables) (name : Rtn) (l : Link) (d : Dir) : Prop :=
  ∃ c c', l.cycle d = some c ∧ (s.OBJDIRS d name).cycle = some c' ∧ c ≤ c'

/-- The place of the linked directory in `$zroutines`, with the starred ones up to there. -/
def Valid (s : Tables) (pid : Pid) (name : Rtn) (l : Link) : Prop :=
  ∃ count is k js, (s.PROCS pid).zro.count = some count ∧ List.range' 1 count = is ++ k :: js ∧
    (s.PROCS pid).zro.dir k = some l.dir ∧ (s.PROCS pid).zro.star k = some true ∧
    ∀ i ∈ is ++ [k], ∀ d, (s.PROCS pid).zro.dir i = some d →
      (s.PROCS pid).zro.star i = some true → Known s name l d

def Zro.Filled (z : Zro) : Prop :=
  ∀ count, z.count = some count → ∀ i, 1 ≤ i → i ≤ count →
    (z.dir i).isSome ∧ (z.star i).isSome ∧
    ∃ srcs, z.srcs i = some srcs ∧ ∀ j, 1 ≤ j → j ≤ srcs → (z.src i j).isSome

def Obj.Compiled (o : Obj) : Prop :=
  o.here = true → o.ver.isSome ∧ o.time.isSome ∧ o.srcDir.isSome

structure Inv (s : Tables) : Prop where
  links : ∀ pid name l, (s.PROCS pid).rtns name = some l → l.star = true → Valid s pid name l
  refs : ∀ name v pid, (name, v, pid) ∈ s.RCTLSHM ↔
    ∃ w, v = some w ∧ s.PROCSRTNREFS pid name = some w
  files : ∀ dir name, (s.OBJDIRS dir name).Compiled
  zros : ∀ pid, (s.PROCS pid).zro.Filled

def Grows (s s' : Tables) : Prop :=
  ∀ d n c, (s.OBJDIRS d n).cycle = some c → ∃ c', (s'.OBJDIRS d n).cycle = some c' ∧ c ≤ c'

theorem Grows.refl (h : s'.OBJDIRS = s.OBJDIRS) : Grows s s' := by
  intro d n c hc
  exact ⟨c, by rw [h, hc], Nat.le_refl c⟩

theorem Grows.trans (h : Grows s s') (h' : Grows s' s'') : Grows s s'' := by
  intro d n c hc
  obtain ⟨c', hc', hle⟩ := h d n c hc
  obtain ⟨c'', hc'', hle'⟩ := h' d n c' hc'
  exact ⟨c'', hc'', hle.trans hle'⟩

theorem Known.grows (h : Known s name l d) (hg : Grows s s') : Known s' name l d := by
  obtain ⟨c, c', hc, hc', hle⟩ := h
  obtain ⟨c'', hc'', hle'⟩ := hg d name c' hc'
  exact ⟨c, c'', hc, hc'', hle.trans hle'⟩

theorem Valid.grows (h : Valid s pid name l) (hg : Grows s s')
    (hzro : (s'.PROCS pid).zro = (s.PROCS pid).zro) : Valid s' pid name l := by
  obtain ⟨count, is, k, js, hcount, hsplit, hdir, hstar, hknown⟩ := h
  refine ⟨count, is, k, js, hzro ▸ hcount, hsplit, hzro ▸ hdir, hzro ▸ hstar, ?_⟩
  intro i hi d hd hs
  rw [hzro] at hd hs
  exact (hknown i hi d hd hs).grows hg

theorem mem_range_split {count : Nat} (h : List.range' 1 count = is ++ k :: js)
    (hi : i ∈ is ++ [k]) : 1 ≤ i ∧ i ≤ count := by
  have hmem : i ∈ List.range' 1 count := by
    rw [h, List.append_cons]
    exact List.mem_append_left _ hi
  rw [List.mem_range'_1] at hmem
  omega

theorem checkCycles_unstarred (hs : (s.PROCS pid).zro.star i = some false) :
    checkCycles s pid name l (i :: is) = checkCycles s pid name l is := by
  rw [checkCycles, hs]
  rfl

theorem checkCycles_starred (hs : (s.PROCS pid).zro.star i = some true)
    (hd : (s.PROCS pid).zro.dir i = some d) (hk : Known s name l d)
    (hrest : d ≠ l.dir → Ensures A (checkCycles s pid name l is) fun _ => True) :
    Ensures A (checkCycles s pid name l (i :: is)) fun _ => True := by
  obtain ⟨known, cycle, hc, hc', hle⟩ := hk
  simp only [checkCycles, hs, hd, hc, hc', value_some, ok_bind, if_true, Option.isSome_some,
    assert_true, decide_eq_true hle]
  split
  · trivial
  split
  · trivial
  · rename_i hne
    exact hrest hne

theorem checkCycles_ensures
    (hfilled : ∀ i ∈ is ++ [k], ((s.PROCS pid).zro.dir i).isSome ∧
      ((s.PROCS pid).zro.star i).isSome)
    (hdir : (s.PROCS pid).zro.dir k = some l.dir) (hstar : (s.PROCS pid).zro.star k = some true)
    (hknown : ∀ i ∈ is ++ [k], ∀ d, (s.PROCS pid).zro.dir i = some d →
      (s.PROCS pid).zro.star i = some true → Known s name l d) :
    Ensures A (checkCycles s pid name l (is ++ k :: js)) fun _ => True := by
  induction is with
  | nil =>
    have hk := hknown k List.mem_cons_self l.dir hdir hstar
    exact checkCycles_starred hstar hdir hk fun hne => absurd rfl hne
  | cons i is ih =>
    rw [List.cons_append, List.forall_mem_cons] at hfilled hknown
    have hrest := ih hfilled.2 hknown.2
    obtain ⟨d, hd⟩ := Option.isSome_iff_exists.mp hfilled.1.1
    obtain ⟨starred, hs⟩ := Option.isSome_iff_exists.mp hfilled.1.2
    cases starred with
    | true => exact checkCycles_starred hs hd (hknown.1 d hd hs) fun _ => hrest
    | false =>
      rw [List.cons_append, checkCycles_unstarred hs]
      exact hrest

theorem Zro.Filled.isSome (hz : z.Filled) {count : Nat} (hcount : z.count = some count)
    (h : List.range' 1 count = is ++ k :: js) (hi : i ∈ is ++ [k]) :
    (z.dir i).isSome ∧ (z.star i).isSome := by
  obtain ⟨h1, hle⟩ := mem_range_split h hi
  obtain ⟨hd, hs, -⟩ := hz count hcount i h1 hle
  exact ⟨hd, hs⟩

theorem linkDirs_ensures (hz : ∀ i ∈ is, (z.dir i).isSome ∧ (z.star i).isSome) :
    Ensures A (linkDirs z dir is starred ds) fun r => ds ⊆ r.2.2 ∧ (r.2.1 = true → r.1 = true →
      ∃ is' k js, is = is' ++ k :: js ∧ z.dir k = some dir ∧ z.star k = some true ∧
        ∀ i ∈ is' ++ [k], ∀ d, z.dir i = some d → z.star i = some true → d ∈ r.2.2) := by
  induction is generalizing starred ds with
  | nil => exact ⟨List.Subset.refl ds, fun h => by cases h⟩
  | cons i is ih =>
    rw [List.forall_mem_cons] at hz
    obtain ⟨d, hd⟩ := Option.isSome_iff_exists.mp hz.1.1
    obtain ⟨star, hs⟩ := Option.isSome_iff_exists.mp hz.1.2
    have hhere : ∀ d', z.dir i = some d' → z.star i = some true →
        d' ∈ (if star then ds ++ [d] else ds) := by
      intro d' hd' hs'
      obtain rfl : star = true := Option.some.inj (hs.symm.trans hs')
      obtain rfl : d = d' := Option.some.inj (hd.symm.trans hd')
      rw [if_pos rfl]
      exact List.mem_append_right _ List.mem_cons_self
    have hsub : ds ⊆ if star then ds ++ [d] else ds := by
      split
      · exact List.subset_append_left ds [d]
      · exact List.Subset.refl ds
    simp only [linkDirs, hd, hs, value_some, ok_bind]
    split
    · rename_i heq
      subst heq
      refine ⟨hsub, fun _ hstar => ⟨[], i, is, rfl, hd, hs.trans (congrArg some hstar), ?_⟩⟩
      intro j hj
      obtain rfl := List.mem_singleton.mp hj
      exact hhere
    · refine (ih hz.2).mono fun r hr => ⟨List.Subset.trans hsub hr.1, fun hstop hstar => ?_⟩
      obtain ⟨is', k, js, rfl, hk, hks, hall⟩ := hr.2 hstop hstar
      refine ⟨i :: is', k, js, rfl, hk, hks, ?_⟩
      rw [List.cons_append, List.forall_mem_cons]
      exact ⟨fun d' hd' hs' => hr.1 (hhere d' hd' hs'), hall⟩

structure Frame (s s' : Tables) : Prop where
  src : s'.SRCDIRS = s.SRCDIRS
  procs : s'.PROCS = s.PROCS
  shm : s'.RCTLSHM = s.RCTLSHM
  refs : s'.PROCSRTNREFS = s.PROCSRTNREFS
  files : ∀ d n, ∃ c, s'.OBJDIRS d n = { s.OBJDIRS d n with cycle := c }
  grows : Grows s s'

theorem Frame.refl (s : Tables) : Frame s s :=
  ⟨rfl, rfl, rfl, rfl, fun _ _ => ⟨_, rfl⟩, Grows.refl rfl⟩

theorem Frame.trans (h : Frame s s') (h' : Frame s' s'') : Frame s s'' where
  src := h'.src.trans h.src
  procs := h'.procs.trans h.procs
  shm := h'.shm.trans h.shm
  refs := h'.refs.trans h.refs
  files d n := by
    obtain ⟨c, hc⟩ := h.files d n
    obtain ⟨c', hc'⟩ := h'.files d n
    exact ⟨c', by rw [hc', hc]⟩
  grows := h.grows.trans h'.grows

theorem Inv.frame (hi : Inv s) (h : Frame s s') : Inv s' where
  links pid name l hl hs := by
    rw [h.procs] at hl
    exact (hi.links pid name l hl hs).grows h.grows (by rw [h.procs])
  refs name v pid := by
    rw [h.shm, h.refs]
    exact hi.refs name v pid
  files dir name := by
    obtain ⟨c, hc⟩ := h.files dir name
    rw [hc]
    exact hi.files dir name
  zros pid := by
    rw [h.procs]
    exact hi.zros pid

theorem setObj_self (s : Tables) (dir : Dir) (name : Rtn) (o : Obj) :
    (s.setObj dir name o).OBJDIRS dir name = o := by
  simp [Tables.setObj]

theorem setObj_ne {o : Obj} (h : d ≠ dir ∨ n ≠ name) :
    (s.setObj dir name o).OBJDIRS d n = s.OBJDIRS d n := by
  by_cases hd : d = dir
  · subst hd
    have hn := h.resolve_left (fun hne => hne rfl)
    simp [Tables.setObj, hn]
  · simp [Tables.setObj, hd]

theorem frame_setCycle {c : Nat} (h : ∀ c0, (s.OBJDIRS dir name).cycle = some c0 → c0 ≤ c) :
    Frame s (s.setObj dir name { s.OBJDIRS dir name with cycle := some c }) where
  src := rfl
  procs := rfl
  shm := rfl
  refs := rfl
  files d n := by
    by_cases hdn : d = dir ∧ n = name
    · obtain ⟨rfl, rfl⟩ := hdn
      exact ⟨some c, setObj_self _ _ _ _⟩
    · exact ⟨(s.OBJDIRS d n).cycle, setObj_ne (not_and_or.mp hdn)⟩
  grows d n c0 hc0 := by
    by_cases hdn : d = dir ∧ n = name
    · obtain ⟨rfl, rfl⟩ := hdn
      exact ⟨c, by rw [setObj_self], h c0 hc0⟩
    · exact ⟨c0, by rw [setObj_ne (not_and_or.mp hdn), hc0], Nat.le_refl c0⟩

def Agrees (name : Rtn) (r : Tables × (Dir → Option Nat)) (d : Dir) : Prop :=
  ∃ c, r.2 d = some c ∧ (r.1.OBJDIRS d name).cycle = some c

theorem frame_linkCycle (name : Rtn) (r : Tables × (Dir → Option Nat)) (e : Dir) :
    Frame r.1 (linkCycle name r e).1 := by
  refine frame_setCycle fun c0 hc0 => ?_
  rw [hc0]
  exact Nat.le_refl c0

theorem agrees_linkCycle {r : Tables × (Dir → Option Nat)} {e : Dir}
    (h : d = e ∨ Agrees name r d) : Agrees name (linkCycle name r e) d := by
  by_cases hde : d = e
  · subst hde
    exact ⟨_, update_self _ _ _, by rw [linkCycle, setObj_self]⟩
  · obtain ⟨c, hc, hc'⟩ := h.resolve_left hde
    exact ⟨c, (update_of_ne hde _ _).trans hc,
      (congrArg Obj.cycle (setObj_ne (Or.inl hde))).trans hc'⟩

theorem foldl_linkCycle (name : Rtn) (ds : List Dir) (r : Tables × (Dir → Option Nat)) :
    Frame r.1 (ds.foldl (linkCycle name) r).1 ∧
      ∀ d, d ∈ ds ∨ Agrees name r d → Agrees name (ds.foldl (linkCycle name) r) d := by
  induction ds generalizing r with
  | nil => exact ⟨Frame.refl _, fun d h => h.resolve_left List.not_mem_nil⟩
  | cons e ds ih =>
    obtain ⟨hrest, hagrees⟩ := ih (linkCycle name r e)
    refine ⟨(frame_linkCycle name r e).trans hrest, fun d hd => hagrees d ?_⟩
    obtain hd | hd := hd
    · exact (List.mem_cons.mp hd).symm.imp_right fun heq => agrees_linkCycle (Or.inl heq)
    · exact Or.inr (agrees_linkCycle (Or.inr hd))

end YdbTest.Barrage
