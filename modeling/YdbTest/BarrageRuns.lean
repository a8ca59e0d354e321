import YdbTest.BarrageInv

namespace YdbTest.Barrage

open MString Asserts Function

variable {A : Stop → Prop} {s s' : Tables} {z a b : Zro} {l : Link} {pid : Pid}
  {name result error : Rtn} {dir : Dir} {i time : Nat} {is js : List Nat} {o : Obj} {f : Found}
  {e : Entry} {log : List Entry}

theorem inv_setSrc (hi : Inv s) (x : Option Src) : Inv (s.setSrc dir name x) :=
  ⟨hi.links, hi.refs, hi.files, hi.zros⟩

theorem inv_setObj (hi : Inv s) (hc : o.cycle = (s.OBJDIRS dir name).cycle) (ho : o.Compiled) :
    Inv (s.setObj dir name o) where
  links p n l hl hs := by
    refine (hi.links p n l hl hs).grows (fun d m c hd => ?_) rfl
    refine ⟨c, ?_, Nat.le_refl c⟩
    by_cases hdm : d = dir ∧ m = name
    · obtain ⟨rfl, rfl⟩ := hdm
      rw [setObj_self, hc, hd]
    · rw [setObj_ne (not_and_or.mp hdm), hd]
  refs := hi.refs
  files d m := by
    by_cases hdm : d = dir ∧ m = name
    · obtain ⟨rfl, rfl⟩ := hdm
      rw [setObj_self]
      exact ho
    · rw [setObj_ne (not_and_or.mp hdm)]
      exact hi.files d m
  zros := hi.zros

def Found.Traced (f : Found) : Prop :=
  (0 < f.srcVersion → f.srcDir.isSome = true) ∧ (0 < f.srcTime → f.srcDir.isSome = true)

structure Found.Sound (s : Tables) (name : Rtn) (f : Found) : Prop where
  traced : f.Traced
  obj : 0 < f.objVersion → ∃ d, f.objDir = some d ∧ (s.OBJDIRS d name).here = true
  src : 0 < f.srcVersion → f.objDir.isSome = true

theorem findSource_ensures (hz : ∀ j ∈ js, (z.src i j).isSome = true) (hf : f.Traced) :
    Ensures A (findSource s z name i js f) fun f' =>
      f'.Traced ∧ f'.objDir = f.objDir ∧ f'.objVersion = f.objVersion := by
  induction js generalizing f with
  | nil => exact ⟨hf, rfl, rfl⟩
  | cons j js ih =>
    rw [List.forall_mem_cons] at hz
    obtain ⟨srcDir, hsrc⟩ := Option.isSome_iff_exists.mp hz.1
    simp only [findSource, hsrc, value_some, ok_bind]
    split
    · exact ih hz.2 ⟨fun _ => rfl, fun _ => rfl⟩
    · split
      · exact ⟨⟨fun _ => rfl, fun _ => rfl⟩, rfl, rfl⟩
      · exact ih hz.2 ⟨fun _ => rfl, fun _ => rfl⟩

theorem findHere_ensures (hi : Inv s) (h0 : f.objVersion = 0) :
    Ensures A (findHere s name dir f) fun f' => ∃ ver time,
      f' = { f with objVersion := ver, objTime := time } ∧
        (0 < ver → (s.OBJDIRS dir name).here = true) := by
  unfold findHere
  split
  · rename_i hhere
    obtain ⟨hver, htime, -⟩ := hi.files dir name hhere
    refine (Ensures.value (Or.inr hver)).bind fun ver _ => ?_
    refine (Ensures.value (Or.inr htime)).bind fun time _ => ?_
    exact ⟨ver, time, rfl, fun _ => hhere⟩
  · exact ⟨f.objVersion, f.objTime, rfl, fun h => absurd h (by omega)⟩

theorem findObject_ensures (hi : Inv s) (hz : ∀ i ∈ is, (z.dir i).isSome = true ∧
      ∃ srcs, z.srcs i = some srcs ∧ ∀ j ∈ List.range' 1 srcs, (z.src i j).isSome = true)
    (hf : f.Sound s name) (h0 : f.objVersion = 0) :
    Ensures A (findObject s z name is f) (Found.Sound s name) := by
  induction is generalizing f with
  | nil => exact hf
  | cons i is ih =>
    rw [List.forall_mem_cons] at hz
    obtain ⟨⟨hdir, srcs, hsrcs, hsrc⟩, hrest⟩ := hz
    obtain ⟨d, hd⟩ := Option.isSome_iff_exists.mp hdir
    simp only [findObject, hd, hsrcs, value_some, ok_bind]
    have hsource : Ensures A (findSource s z name i (List.range' 1 srcs) { f with objDir := some d })
        fun f' => f'.Traced ∧ f'.objDir = some d ∧ f'.objVersion = f.objVersion :=
      findSource_ensures hsrc hf.traced
    refine hsource.bind fun f1 h1 => ?_
    obtain ⟨htraced, hdir1, hver1⟩ := h1
    refine (findHere_ensures hi (hver1.trans h0)).bind fun f2 h2 => ?_
    obtain ⟨ver, time, rfl, hhere⟩ := h2
    have hsound : Found.Sound s name { f1 with objVersion := ver, objTime := time } :=
      ⟨htraced, fun h => ⟨d, hdir1, hhere h⟩, fun _ => Option.isSome_iff_exists.mpr ⟨d, hdir1⟩⟩
    split
    · exact hsound
    · rename_i hnone
      exact ih hrest hsound (not_not.mp (not_or.mp hnone).1)

theorem recompile_ensures (hi : Inv s) (hf : f.Traced) (hhere : (s.OBJDIRS dir name).here = true) :
    Ensures A (recompile time name dir f s) fun s' => Inv s' ∧
      s'.PROCS = s.PROCS ∧ (s'.OBJDIRS dir name).here = true := by
  unfold recompile
  split
  · rename_i htime
    refine (Ensures.value (Or.inr (hf.2 (Nat.zero_lt_of_lt htime)))).bind fun srcDir _ => ?_
    refine ⟨inv_setObj hi rfl fun _ => ⟨rfl, rfl, rfl⟩, rfl, ?_⟩
    rw [setObj_self]
    exact hhere
  · exact ⟨hi, rfl, hhere⟩

theorem relink_ensures (hi : Inv s) (hA : A .undef ∨ (s.PROCS pid).zro.count.isSome = true) :
    Ensures A (relink pid time name s) fun r => Inv r.1 := by
  refine (indices_ensures hA).bind fun is his => ?_
  obtain ⟨count, hcount, rfl⟩ := his
  have hz : ∀ i ∈ List.range' 1 count, ((s.PROCS pid).zro.dir i).isSome = true ∧
      ∃ srcs, (s.PROCS pid).zro.srcs i = some srcs ∧
        ∀ j ∈ List.range' 1 srcs, ((s.PROCS pid).zro.src i j).isSome = true := by
    intro i hmem
    rw [List.mem_range'_1] at hmem
    obtain ⟨hd, -, srcs, hsrcs, hsrc⟩ := hi.zros pid count hcount i hmem.1 (by omega)
    refine ⟨hd, srcs, hsrcs, fun j hj => ?_⟩
    rw [List.mem_range'_1] at hj
    exact hsrc j hj.1 (by omega)
  have hempty : Found.Sound s name ⟨none, none, 0, 0, 0, 0⟩ :=
    ⟨⟨fun h => absurd h (Nat.lt_irrefl 0), fun h => absurd h (Nat.lt_irrefl 0)⟩,
      fun h => absurd h (Nat.lt_irrefl 0), fun h => absurd h (Nat.lt_irrefl 0)⟩
  refine (findObject_ensures hi hz hempty rfl).bind fun f hf => ?_
  have hset : (s.PROCS pid).zro.count.isSome = true := by
    rw [hcount]
    rfl
  split
  · rename_i hobj
    obtain ⟨d, hd, hhere⟩ := hf.obj hobj
    simp only [hd, value_some, ok_bind]
    refine (recompile_ensures hi hf.traced hhere).bind fun s1 h1 => ?_
    obtain ⟨hi1, hprocs, hhere1⟩ := h1
    rw [← hprocs] at hset
    exact (link_ensures hi1 (Or.inr ⟨hset, hhere1⟩)).bind fun s2 h2 => h2.1
  · split
    · rename_i hsrc
      obtain ⟨d, hd⟩ := Option.isSome_iff_exists.mp (hf.src hsrc)
      obtain ⟨srcDir, hsd⟩ := Option.isSome_iff_exists.mp (hf.traced.1 hsrc)
      simp only [hd, hsd, value_some, ok_bind]
      refine (link_ensures (inv_setObj hi ?_ fun _ => ⟨rfl, rfl, rfl⟩) (Or.inr ⟨hset, ?_⟩)).bind
        fun s2 h2 => h2.1
      · rfl
      · rw [setObj_self]
    · exact hi

theorem needsLink_ensures (hi : Inv s) : Ensures A (needsLink pid name s) fun _ => True := by
  unfold needsLink
  split
  · trivial
  · rename_i l hl
    split
    · rename_i hs
      obtain ⟨count, is, k, js, hcount, hsplit, hdir, hstar, hknown⟩ := hi.links pid name l hl hs
      have hset : (s.PROCS pid).zro.count.isSome = true := by
        rw [hcount]
        rfl
      refine (indices_ensures (Or.inr hset)).bind fun ns hns => ?_
      obtain ⟨count', hcount', rfl⟩ := hns
      obtain rfl : count = count' := Option.some.inj (hcount.symm.trans hcount')
      rw [hsplit]
      exact checkCycles_ensures (fun i hmem => (hi.zros pid).isSome hcount hsplit hmem) hdir hstar
        hknown
    · trivial

theorem frame_compare {expected : Str} :
    Frame s (compare pid name result error expected s) := by
  unfold compare
  split
  · exact frame_fail _
  split
  · exact frame_fail _
  split
  · exact frame_fail _
  split
  · exact Frame.refl s
  split
  · exact frame_fail _
  dsimp only
  split
  · exact frame_fail _
  · exact Frame.refl s

theorem exec_ensures (hi : Inv s) (hA : A .undef ∨ (s.PROCS pid).zro.count.isSome = true) :
    Ensures A (simulateExec pid time name result error s) Inv := by
  refine (needsLink_ensures hi).bind fun needed _ => ?_
  have hrelink : Ensures A (relinkIf needed pid time name s) fun r => Inv r.1 := by
    unfold relinkIf
    split
    · exact relink_ensures hi hA
    · exact hi
  refine hrelink.bind fun r hr => ?_
  exact hr.frame frame_compare

theorem filled_ofList (l : List (Dir × Bool × List Dir)) : (Zro.ofList l).Filled := by
  intro count hcount i h1 hle
  obtain rfl : l.length = count := Option.some.inj hcount
  have hlt : i - 1 < l.length := by omega
  have hi : i ≠ 0 := by omega
  have hentry : l[i - 1]? = some l[i - 1] := List.getElem?_eq_getElem hlt
  simp only [Zro.ofList, if_neg hi, hentry, Option.map_some, Option.isSome_some, true_and,
    Option.bind_some]
  refine ⟨_, rfl, fun j hj1 hjle => ?_⟩
  have hij : ¬ (i = 0 ∨ j = 0) := by omega
  have hjlt : j - 1 < l[i - 1].2.2.length := by omega
  rw [if_neg hij, List.getElem?_eq_getElem hjlt]
  rfl

theorem filled_merge (h : b.Filled) (hcount : b.count.isSome = true) : (a.merge b).Filled := by
  obtain ⟨n, hn⟩ := Option.isSome_iff_exists.mp hcount
  intro count hc i h1 hle
  simp only [Zro.merge, hn, Option.orElse_eq_or, Option.some_or] at hc
  obtain rfl := Option.some.inj hc
  obtain ⟨hd, hs, srcs, hsrcs, hsrc⟩ := h n hn i h1 hle
  obtain ⟨d, hd⟩ := Option.isSome_iff_exists.mp hd
  obtain ⟨star, hs⟩ := Option.isSome_iff_exists.mp hs
  refine ⟨by simp [Zro.merge, hd], by simp [Zro.merge, hs], srcs, by simp [Zro.merge, hsrcs], ?_⟩
  intro j hj1 hjle
  obtain ⟨src, hsrc⟩ := Option.isSome_iff_exists.mp (hsrc j hj1 hjle)
  simp [Zro.merge, hsrc]

theorem count_merge (hcount : b.count.isSome = true) : (a.merge b).count.isSome = true := by
  obtain ⟨n, hn⟩ := Option.isSome_iff_exists.mp hcount
  simp [Zro.merge, hn]

theorem setProc_self (p : Proc) : (s.setProc pid p).PROCS pid = p := update_self _ _ _

theorem setProc_ne {p : Pid} {q : Proc} (h : p ≠ pid) : (s.setProc pid q).PROCS p = s.PROCS p :=
  update_of_ne h _ _

theorem inv_setZroutines (hi : Inv s) (l : List (Dir × Bool × List Dir)) :
    Inv (setZroutines pid l s) := by
  have hlist := filled_merge (a := s.zroutines) (filled_ofList l) rfl
  have hcount := count_merge (a := s.zroutines) (b := Zro.ofList l) rfl
  have hother : ∀ p, p ≠ pid → (setZroutines pid l s).PROCS p = s.PROCS p := by
    intro p hp
    exact (setProc_ne hp).trans (setProc_ne hp)
  refine ⟨fun p n k hk hs => ?_, hi.refs, hi.files, fun p => ?_⟩
  · by_cases hp : p = pid
    · subst hp
      rw [setZroutines, setProc_self, simulateSetZroutines, setProc_self] at hk
      obtain ⟨-, hstar⟩ := Option.filter_eq_some_iff.mp hk
      rw [hs] at hstar
      cases hstar
    · rw [hother p hp] at hk
      exact (hi.links p n k hk hs).grows (Grows.refl rfl) (by rw [hother p hp])
  · by_cases hp : p = pid
    · subst hp
      rw [setZroutines, setProc_self]
      exact filled_merge hlist hcount
    · rw [hother p hp]
      exact hi.zros p

theorem inv_foldl {α : Type} {step : Tables → α → Tables} (l : List α)
    (hstep : ∀ a s, Inv s → Inv (step s a)) (hi : Inv s) : Inv (l.foldl step s) := by
  induction l generalizing s with
  | nil => exact hi
  | cons a l ih => exact ih (hstep a s hi)

theorem inv_deleteSource (hi : Inv s) (x : Option (Rtn × Dir)) : Inv (deleteSource s x) := by
  cases x with
  | none => exact hi
  | some x => exact inv_setSrc hi none

theorem inv_deleteObject (hi : Inv s) (x : Option (Rtn × Dir)) : Inv (deleteObject s x) := by
  cases x with
  | none => exact hi
  | some x => exact inv_setObj hi rfl fun h => by cases h

theorem compile_ensures {x : Option (Rtn × Dir × Dir)} (hi : Inv s)
    (hA : A .undef ∨ ∀ name dir dst, x = some (name, dir, dst) →
      (s.SRCDIRS dir name).isSome = true) :
    Ensures A (compile time s x) fun s' => Inv s' ∧ s'.SRCDIRS = s.SRCDIRS := by
  cases x with
  | none => exact ⟨hi, rfl⟩
  | some x =>
    obtain ⟨name, dir, dst⟩ := x
    refine (Ensures.value (hA.imp_right fun h => h name dir dst rfl)).bind fun src _ => ?_
    exact ⟨inv_setObj hi rfl fun _ => ⟨rfl, rfl, rfl⟩, rfl⟩

theorem entry_ensures (hi : Inv s) (hA : A .undef ∨ e.Ready s) :
    Ensures A (replayEntry s e) Inv := by
  obtain ⟨time, pid, action⟩ := e
  cases action with
  | setZroutines l => exact inv_setZroutines hi l
  | writeSources l => exact inv_foldl l (fun x s hi => inv_setSrc hi _) hi
  | deleteSources l => exact inv_foldl l (fun x s hi => inv_deleteSource hi x) hi
  | deleteObjects l => exact inv_foldl l (fun x s hi => inv_deleteObject hi x) hi
  | compile l =>
    have hrun : Ensures A (l.foldlM (compile time) s)
        fun s' => Inv s' ∧ s'.SRCDIRS = s.SRCDIRS := by
      refine Ensures.foldlM (fun x hx s1 h1 => ?_) ⟨hi, rfl⟩
      refine (compile_ensures h1.1 (hA.imp_right fun h name dir dst heq => ?_)).mono fun s2 h2 =>
        ⟨h2.1, h2.2.trans h1.2⟩
      rw [h1.2]
      exact h name dir dst (heq ▸ hx)
    exact hrun.mono fun s' h => h.1
  | link l =>
    have hrun : Ensures A (l.foldlM (link pid) s) fun s' => Inv s' ∧ Keeps s s' := by
      refine Ensures.foldlM (fun x hx s1 h1 => ?_) ⟨hi, Keeps.refl s⟩
      obtain ⟨hi1, hk1⟩ := h1
      cases x with
      | none => exact ⟨hi1, hk1⟩
      | some x =>
        obtain ⟨name, dir⟩ := x
        refine (link_ensures hi1 (hA.imp_right fun h => ⟨?_, ?_⟩)).mono fun s2 h2 =>
          ⟨h2.1, hk1.trans h2.2⟩
        · rw [hk1.zro]
          exact h.1
        · rw [hk1.here]
          exact h.2 name dir hx
    exact hrun.mono fun s' h => h.1
  | zrupdate l =>
    refine Ensures.foldlM (fun x hx s1 hi1 => ?_) hi
    cases x with
    | none => exact hi1
    | some x =>
      obtain ⟨name, dir, result⟩ := x
      refine (Ensures.value (hA.imp_right fun h => ?_)).bind fun error _ =>
        hi1.frame frame_zrupdate
      rw [if_neg (h name dir result hx)]
      rfl
  | execute name result error => exact exec_ensures hi hA
  | makeDirs dirs => exact hi

theorem inv_empty : Inv Tables.empty where
  links pid name l hl := by cases hl
  refs name v pid := ⟨fun h => absurd h List.not_mem_nil, by rintro ⟨w, -, hw⟩; cases hw⟩
  files dir name h := by cases h
  zros pid count hcount := by cases hcount

theorem run_ensures (hi : Inv s) (hA : A .undef ∨ Recordable log s) :
    Ensures A (log.foldlM replayEntry s) Inv := by
  induction log generalizing s with
  | nil => exact hi
  | cons e log ih =>
    rw [List.foldlM_cons]
    refine (entry_ensures hi (hA.imp_right And.left)).attach.bind fun s' h => ?_
    exact ih h.2 (hA.imp_right fun hr => hr.2 s' h.1)

/-- Whatever is recorded, no assertion of the analysis fails and the two tables of references
agree; the analysis comes to its end on what the children of the test can record. -/
theorem replayAnalyzeParent_consistent (log : List Entry) :
    replayAnalyzeParent log ≠ .error .assert ∧
    (∀ s, replayAnalyzeParent log = .ok s →
      (∀ pid name l, (s.PROCS pid).rtns name = some l → l.star = true → Valid s pid name l) ∧
      ∀ name v pid, (name, some v, pid) ∈ s.RCTLSHM ↔ s.PROCSRTNREFS pid name = some v) ∧
    (Recordable log Tables.empty → ∃ s, replayAnalyzeParent log = .ok s) := by
  have hall : Ensures (· = .undef) (replayAnalyzeParent log) Inv :=
    run_ensures inv_empty (Or.inl rfl)
  refine ⟨fun hassert => ?_, fun s hs => ?_, fun hr => ?_⟩
  · rw [hassert] at hall
    cases hall
  · rw [hs] at hall
    refine ⟨hall.links, fun name v pid => ?_⟩
    rw [hall.refs]
    constructor
    · rintro ⟨w, hv, hw⟩
      rw [hw, hv]
    · intro hv
      exact ⟨v, rfl, hv⟩
  · obtain ⟨s, hs, -⟩ := (run_ensures inv_empty (Or.inr hr)).exists_ok
    exact ⟨s, hs⟩

end YdbTest.Barrage
