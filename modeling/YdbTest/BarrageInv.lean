import YdbTest.BarrageLinks

namespace YdbTest.Barrage

open MString Asserts Function

variable {A : Stop → Prop} {s s' s'' : Tables} {z : Zro} {l : Link} {v : Variant} {pid p : Pid}
  {name n result error : Rtn} {dir d srcDir : Dir} {i j k ver time : Nat} {o : Obj} {e : Entry}

/-- The source files, the objects that are there, and the values of `$zroutines`. -/
structure Keeps (s s' : Tables) : Prop where
  src : s'.SRCDIRS = s.SRCDIRS
  here : ∀ d n, (s'.OBJDIRS d n).here = (s.OBJDIRS d n).here
  zro : ∀ p, (s'.PROCS p).zro = (s.PROCS p).zro

theorem Keeps.refl (s : Tables) : Keeps s s := ⟨rfl, fun _ _ => rfl, fun _ => rfl⟩

theorem Keeps.trans (h : Keeps s s') (h' : Keeps s' s'') : Keeps s s'' :=
  ⟨h'.src.trans h.src, fun d n => (h'.here d n).trans (h.here d n),
    fun p => (h'.zro p).trans (h.zro p)⟩

theorem Frame.keeps (h : Frame s s') : Keeps s s' where
  src := h.src
  here d n := by
    obtain ⟨c, hc⟩ := h.files d n
    rw [hc]
  zro p := by rw [h.procs]

theorem setLink_self (s : Tables) (pid : Pid) (name : Rtn) (l : Option Link) :
    ((s.setLink pid name l).PROCS pid).rtns name = l := by
  simp [Tables.setLink, Tables.setProc]

theorem setLink_ne {l : Option Link} (h : p ≠ pid ∨ n ≠ name) :
    ((s.setLink pid name l).PROCS p).rtns n = (s.PROCS p).rtns n := by
  by_cases hp : p = pid
  · subst hp
    have hn := h.resolve_left fun hne => hne rfl
    simp [Tables.setLink, Tables.setProc, hn]
  · simp [Tables.setLink, Tables.setProc, hp]

theorem setLink_zro (s : Tables) (pid : Pid) (name : Rtn) (l : Option Link) (p : Pid) :
    ((s.setLink pid name l).PROCS p).zro = (s.PROCS p).zro := by
  by_cases hp : p = pid
  · subst hp
    simp [Tables.setLink, Tables.setProc]
  · simp [Tables.setLink, Tables.setProc, hp]

theorem keeps_setLink (s : Tables) (pid : Pid) (name : Rtn) (l : Option Link) :
    Keeps s (s.setLink pid name l) := ⟨rfl, fun _ _ => rfl, setLink_zro s pid name l⟩

theorem inv_setLink (hi : Inv s) (h : l.star = true → Valid s pid name l) :
    Inv (s.setLink pid name (some l)) where
  links p n l' hl hs := by
    have hvalid : Valid s p n l' := by
      by_cases hpn : p = pid ∧ n = name
      · obtain ⟨rfl, rfl⟩ := hpn
        rw [setLink_self] at hl
        obtain rfl := Option.some.inj hl
        exact h hs
      · rw [setLink_ne (not_and_or.mp hpn)] at hl
        exact hi.links p n l' hl hs
    exact hvalid.grows (Grows.refl rfl) (setLink_zro s pid name _ p)
  refs := hi.refs
  files := hi.files
  zros p := by
    rw [setLink_zro]
    exact hi.zros p

theorem inv_clear (hi : Inv s) : Inv (clearRoutineSharedRefs pid name s) where
  links p n l hl hs := (hi.links p n l hl hs).grows (Grows.refl rfl) rfl
  refs n v p := by
    simp only [clearRoutineSharedRefs, List.mem_filter, hi.refs, decide_eq_true_eq]
    by_cases hpn : p = pid ∧ n = name
    · obtain ⟨rfl, rfl⟩ := hpn
      rw [update_self, update_self]
      constructor
      · rintro ⟨⟨w, rfl, hw⟩, hne⟩
        exact absurd (by rw [hw]) hne
      · rintro ⟨w, -, hw⟩
        cases hw
    · have hrefs : update s.PROCSRTNREFS pid (update (s.PROCSRTNREFS pid) name none) p n =
          s.PROCSRTNREFS p n := by
        by_cases hp : p = pid
        · subst hp
          rw [update_self, update_of_ne fun hn => hpn ⟨rfl, hn⟩]
        · rw [update_of_ne hp]
      rw [hrefs]
      refine and_iff_left fun heq => hpn ?_
      obtain ⟨hn, -, hp⟩ : n = name ∧ v = s.PROCSRTNREFS pid name ∧ p = pid := by
        simpa using heq
      exact ⟨hp, hn⟩
  files := hi.files
  zros := hi.zros

theorem clear_self : (clearRoutineSharedRefs pid name s).PROCSRTNREFS pid name = none := by
  simp [clearRoutineSharedRefs]

theorem inv_addRef (hi : Inv s) (h : s.PROCSRTNREFS pid name = none) :
    Inv (s.addRef pid name v) where
  links p n l hl hs := (hi.links p n l hl hs).grows (Grows.refl rfl) rfl
  refs n w p := by
    rw [Tables.addRef, List.mem_cons, hi.refs]
    by_cases hpn : p = pid ∧ n = name
    · obtain ⟨rfl, rfl⟩ := hpn
      dsimp only
      rw [update_self, update_self, h]
      constructor
      · rintro (heq | ⟨w', -, hw⟩)
        · simp only [Prod.mk.injEq] at heq
          exact ⟨v, heq.2.1, rfl⟩
        · cases hw
      · rintro ⟨w', rfl, hw⟩
        obtain rfl := Option.some.inj hw
        exact Or.inl rfl
    · have hrefs : update s.PROCSRTNREFS pid (update (s.PROCSRTNREFS pid) name (some v)) p n =
          s.PROCSRTNREFS p n := by
        by_cases hp : p = pid
        · subst hp
          rw [update_self, update_of_ne fun hn => hpn ⟨rfl, hn⟩]
        · rw [update_of_ne hp]
      dsimp only
      rw [hrefs]
      refine or_iff_right fun heq => hpn ?_
      simp only [Prod.mk.injEq] at heq
      exact ⟨heq.2.2, heq.1⟩
  files := hi.files
  zros := hi.zros

theorem frame_bump : Frame s (s.setObj dir name (s.OBJDIRS dir name).bump) := by
  refine frame_setCycle fun c0 hc0 => ?_
  rw [hc0]
  exact Nat.le_succ c0

theorem bumpAll_here (h : (s.OBJDIRS dir n).here = true) :
    (s.bumpAll dir).OBJDIRS dir n = (s.OBJDIRS dir n).bump := by
  rw [Tables.bumpAll]
  dsimp only
  rw [update_self, if_pos h]

theorem bumpAll_else (h : ¬ (d = dir ∧ (s.OBJDIRS d n).here = true)) :
    (s.bumpAll dir).OBJDIRS d n = s.OBJDIRS d n := by
  rw [Tables.bumpAll]
  dsimp only
  by_cases hd : d = dir
  · subst hd
    rw [update_self, if_neg fun hh => h ⟨rfl, hh⟩]
  · rw [update_of_ne hd]

theorem frame_bumpAll : Frame s (s.bumpAll dir) where
  src := rfl
  procs := rfl
  shm := rfl
  refs := rfl
  files d n := by
    by_cases h : d = dir ∧ (s.OBJDIRS d n).here = true
    · obtain ⟨rfl, hh⟩ := h
      exact ⟨_, bumpAll_here hh⟩
    · exact ⟨_, bumpAll_else h⟩
  grows d n c hc := by
    by_cases h : d = dir ∧ (s.OBJDIRS d n).here = true
    · obtain ⟨rfl, hh⟩ := h
      refine ⟨c + 1, ?_, Nat.le_succ c⟩
      rw [bumpAll_here hh, Obj.bump, hc]
      rfl
    · exact ⟨c, by rw [bumpAll_else h, hc], Nat.le_refl c⟩

theorem frame_fail (f : Fail) : Frame s (s.fail f) :=
  ⟨rfl, rfl, rfl, rfl, fun _ _ => ⟨_, rfl⟩, Grows.refl rfl⟩

theorem frame_zrupdate : Frame s (simulateZrupdate pid dir name result error s) := by
  have hcycles : Frame s (if name = lit "*" then s.bumpAll dir
      else s.setObj dir name (s.OBJDIRS dir name).bump) := by
    split
    · exact frame_bumpAll
    · exact frame_bump
  unfold simulateZrupdate
  dsimp only
  split
  · exact hcycles.trans (frame_fail _)
  · exact hcycles

theorem Valid.known (h : Valid s pid name l) : Known s name l l.dir := by
  obtain ⟨count, is, k, js, -, -, hdir, hstar, hknown⟩ := h
  exact hknown k (List.mem_append_right _ List.mem_cons_self) l.dir hdir hstar

theorem Valid.setCycle (h : Valid s pid name l) {c : Nat}
    (hc : (s.OBJDIRS dir name).cycle = some c) :
    Valid s pid name { l with cycle := update l.cycle dir (some c) } := by
  obtain ⟨count, is, k, js, hcount, hsplit, hdir, hstar, hknown⟩ := h
  refine ⟨count, is, k, js, hcount, hsplit, hdir, hstar, fun i hi d hd hs => ?_⟩
  by_cases hdd : d = dir
  · subst hdd
    exact ⟨c, c, update_self _ _ _, hc, Nat.le_refl c⟩
  · obtain ⟨c0, c1, h0, h1, hle⟩ := hknown i hi d hd hs
    exact ⟨c0, c1, (update_of_ne hdd _ _).trans h0, h1, hle⟩

def Linked (s : Tables) (pid : Pid) (name : Rtn) (s' : Tables) : Prop :=
  Inv s' ∧ Keeps s s' ∧ ∃ l, (s'.PROCS pid).rtns name = some l

theorem load_ensures (hi : Inv s) (hl : (s.PROCS pid).rtns name = some l) (hs : l.star = true)
    (hdir : l.dir = v.dir) : Ensures A (load pid name v s) (Linked s pid name) := by
  unfold load
  split
  · exact ⟨hi, Keeps.refl s, l, hl⟩
  · have hframe : Frame s (simulateZrupdate pid v.dir name (lit "success") [] s) := frame_zrupdate
    generalize simulateZrupdate pid v.dir name (lit "success") [] s = s1 at hframe
    have hvalid := (hi.links pid name l hl hs).grows hframe.grows (by rw [hframe.procs])
    obtain ⟨-, c, -, hc, -⟩ := hvalid.known
    rw [hdir] at hc
    rw [← hframe.procs] at hl
    simp only [hc, hl, value_some, ok_bind]
    exact ⟨inv_setLink (hi.frame hframe) fun _ => hvalid.setCycle hc,
      hframe.keeps.trans (keeps_setLink _ _ _ _), _, setLink_self _ _ _ _⟩

theorem share_ensures (hi : Inv s) (hl : (s.PROCS pid).rtns name = some l) (hdir : l.dir = dir)
    (hA : A .undef ∨ (s.OBJDIRS dir name).here = true) :
    Ensures A (share pid dir name ver l.star s) (Linked s pid name) := by
  unfold share
  split
  · rename_i hs
    refine (Ensures.value (hA.imp_right fun h => (hi.files dir name h).2.2)).bind fun srcDir _ => ?_
    refine (load_ensures (v := ⟨ver, dir, srcDir⟩) hi hl hs hdir).bind fun s1 h1 => ?_
    obtain ⟨hi1, hk1, l1, hl1⟩ := h1
    exact ⟨inv_addRef (inv_clear hi1) clear_self, hk1.trans ⟨rfl, fun _ _ => rfl, fun _ => rfl⟩,
      l1, hl1⟩
  · exact ⟨inv_clear hi, ⟨rfl, fun _ _ => rfl, fun _ => rfl⟩, l, hl⟩

theorem indices_ensures (hA : A .undef ∨ (s.PROCS pid).zro.count.isSome = true) :
    Ensures A (s.indices pid) fun is =>
      ∃ count, (s.PROCS pid).zro.count = some count ∧ is = List.range' 1 count :=
  (Ensures.value hA).bind fun count hcount => ⟨count, hcount, rfl⟩

theorem valid_link {cycle : Dir → Option Nat} {ds : List Dir} {starred stop : Bool} {count : Nat}
    (hcount : (s.PROCS pid).zro.count = some count)
    (hr : stop = true → starred = true → ∃ is k js, List.range' 1 count = is ++ k :: js ∧
      (s.PROCS pid).zro.dir k = some dir ∧ (s.PROCS pid).zro.star k = some true ∧
      ∀ i ∈ is ++ [k], ∀ d, (s.PROCS pid).zro.dir i = some d →
        (s.PROCS pid).zro.star i = some true → d ∈ ds)
    (hagrees : ∀ d ∈ if stop && starred then ds else [], Agrees name (s, cycle) d) :
    (stop && starred) = true → Valid s pid name ⟨stop && starred, dir, none, cycle⟩ := by
  intro h
  rw [h, if_pos rfl] at hagrees
  obtain ⟨hstop, hstarred⟩ := Bool.and_eq_true_iff.mp h
  obtain ⟨is, k, js, hsplit, hdir, hstar, hds⟩ := hr hstop hstarred
  refine ⟨count, is, k, js, hcount, hsplit, hdir, hstar, fun i hi d hd hs => ?_⟩
  obtain ⟨c, hc, hc'⟩ := hagrees d (hds i hi d hd hs)
  exact ⟨c, c, hc, hc', Nat.le_refl c⟩

theorem inv_setVer (hi : Inv s) (hl : (s.PROCS pid).rtns name = some l) (ver : Option Nat) :
    Inv (s.setLink pid name (some { l with ver := ver })) :=
  inv_setLink hi fun hs => hi.links pid name l hl hs

theorem Inv.entries (hi : Inv s) {count : Nat} (hcount : (s.PROCS pid).zro.count = some count)
    (hmem : i ∈ List.range' 1 count) :
    ((s.PROCS pid).zro.dir i).isSome ∧ ((s.PROCS pid).zro.star i).isSome := by
  rw [List.mem_range'_1] at hmem
  obtain ⟨hd, hs, -⟩ := hi.zros pid count hcount i hmem.1 (by omega)
  exact ⟨hd, hs⟩

theorem link_ensures (hi : Inv s) (hA : A .undef ∨
      (s.PROCS pid).zro.count.isSome = true ∧ (s.OBJDIRS dir name).here = true) :
    Ensures A (simulateLink pid dir name s) fun s' => Inv s' ∧ Keeps s s' := by
  have hver : A .undef ∨ (s.OBJDIRS dir name).ver.isSome = true :=
    hA.imp_right fun h => (hi.files dir name h.2).1
  refine (Ensures.value hver).bind fun ver _ => ?_
  refine (indices_ensures (hA.imp_right And.left)).bind fun is his => ?_
  obtain ⟨count, hcount, rfl⟩ := his
  refine (linkDirs_ensures fun i hmem => hi.entries hcount hmem).bind fun r hr => ?_
  obtain ⟨starred, stop, ds⟩ := r
  obtain ⟨hframe, hagrees⟩ :=
    foldl_linkCycle name (if stop && starred then ds else []) (s, fun _ => none)
  dsimp only
  generalize (if stop && starred then ds else []).foldl (linkCycle name) (s, fun _ => none) = t
    at hframe hagrees
  obtain ⟨s1, cycle⟩ := t
  rw [← hframe.procs] at hr hcount
  have hvalid := valid_link hcount hr.2 fun d hd => hagrees d (Or.inl hd)
  obtain ⟨l, hl⟩ : ∃ l : Link, l = ⟨stop && starred, dir, none, cycle⟩ := ⟨_, rfl⟩
  have hi2 : Inv (s1.setLink pid name (some l)) :=
    inv_setLink (hi.frame hframe) (hl ▸ hvalid)
  have hk2 := hframe.keeps.trans (keeps_setLink s1 pid name (some l))
  have hdir : l.dir = dir := congrArg Link.dir hl
  have hstar : (stop && starred) = l.star := (congrArg Link.star hl).symm
  rw [← hl, hstar]
  refine (share_ensures hi2 (setLink_self _ _ _ _) hdir ?_).bind fun s3 h3 => ?_
  · exact hA.imp_right fun h => (hk2.here dir name).trans h.2
  · obtain ⟨hi3, hk3, l3, hl3⟩ := h3
    rw [hl3]
    exact ⟨inv_setVer hi3 hl3 (some ver), hk2.trans (hk3.trans (keeps_setLink _ _ _ _))⟩

end YdbTest.Barrage
