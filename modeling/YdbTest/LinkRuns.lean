import YdbTest.LinkRows

namespace YdbTest.LinkRuns

open Awk LinkSort MultisiteLinks LinkRows

/-- A start of the link is followed by no stop of it. -/
def Live (starts stops : Action → Inst → Inst → Prop) (acts : List Action) (a b : Inst) : Prop :=
  ∃ pre act post, acts = pre ++ act :: post ∧ starts act a b ∧ ∀ act' ∈ post, ¬ stops act' a b

/-- The links whose source server an action starts, or stops. -/
def startsSrc : Action → Inst → Inst → Prop
  | .START a b, x, y => x = a ∧ y = b
  | .STARTSRC a b, x, y => x = a ∧ y = b
  | .ACTIVATE a b, x, y => x = a ∧ y = b
  | _, _, _ => False

def stopsSrc : Action → Inst → Inst → Prop
  | .STOP a b, x, y => x = a ∧ y = b
  | .STOPSRC a b, x, y => x = a ∧ y = b
  | .stopInst a, x, _ => x = a
  | .stopAll, _, _ => True
  | _, _, _ => False

/-- The links whose receiver an action starts, or stops. -/
def startsRcv : Action → Inst → Inst → Prop
  | .START a b, x, y => x = a ∧ y = b
  | .STARTRCV a b, x, y => x = a ∧ y = b
  | _, _, _ => False

def stopsRcv : Action → Inst → Inst → Prop
  | .STOP a b, x, y => x = a ∧ y = b
  | .STOPRCV a b, x, y => x = a ∧ y = b
  | .stopInst a, _, y => y = a
  | .stopAll, _, _ => True
  | _, _, _ => False

/-- The link an action is about, if it is about one. -/
def link : Action → Option (Inst × Inst)
  | .START a b | .STARTSRC a b | .STARTRCV a b | .ACTIVATE a b => some (a, b)
  | .STOP a b | .STOPSRC a b | .STOPRCV a b => some (a, b)
  | .stopInst _ | .stopAll => none

/-- The lines an action finds are such that it finds the link it is about, and no other. -/
def Fits : Action → List Line → Prop
  | .START a b, t | .STARTSRC a b, t | .ACTIVATE a b, t => ∀ l ∈ t, AddFits a.name b.name l
  | .STOP a b, t => (∀ l ∈ t, DelFits a.name b.name l) ∧ ∀ l ∈ t, RcvFits a.name b.name l
  | .STOPSRC a b, t => ∀ l ∈ t, DelFits a.name b.name l
  | .STOPRCV a b, t => ∀ l ∈ t, RcvFits a.name b.name l
  | .STARTRCV _ _, _ | .stopInst _, _ | .stopAll, _ => True

section Step

variable {starts stops : Action → Inst → Inst → Prop} {acts : List Action} {act : Action}
  {a b : Inst} {S R : Inst → Inst → Prop} {t : List Line} {f : File} {rows : List Row}

theorem live_concat : Live starts stops (acts ++ [act]) a b ↔
    starts act a b ∨ Live starts stops acts a b ∧ ¬ stops act a b := by
  refine ⟨?_, ?_⟩
  · rintro ⟨pre, act', post, heq, hstart, hpost⟩
    obtain rfl | ⟨post', last, rfl⟩ := List.eq_nil_or_concat post
    · have hlast := List.append_inj_right' heq rfl
      cases hlast
      exact .inl hstart
    · rw [List.concat_eq_append] at heq hpost
      rw [← List.cons_append, ← List.append_assoc] at heq
      obtain ⟨rfl, hlast⟩ := List.append_inj' heq rfl
      cases hlast
      rw [List.forall_mem_append] at hpost
      exact .inr ⟨⟨pre, act', post', rfl, hstart, hpost.1⟩, hpost.2 _ (List.mem_singleton_self _)⟩
  · rintro (hstart | ⟨⟨pre, act', post, rfl, hstart, hpost⟩, hstop⟩)
    · exact ⟨acts, act, [], rfl, hstart, fun _ h => nomatch h⟩
    · refine ⟨pre, act', post ++ [act], by simp, hstart, ?_⟩
      rw [List.forall_mem_append, List.forall_mem_singleton]
      exact ⟨hpost, hstop⟩

theorem tells_src (h : HasSrc rows a) :
    tells (identify a.name (rows.map Row.line)) "SRC".toList = true := by
  obtain ⟨bs, ne, nodup, hr⟩ := h
  rw [tells, List.any_eq_true]
  refine ⟨"SRC@".toList, ?_, by decide⟩
  refine List.mem_filterMap.mpr ⟨_, List.mem_map_of_mem hr, ?_⟩
  simp [Row.line, srcto_ne_rcvfrom]

theorem tells_rcvr (h : RcvFrom rows b a) :
    tells (identify a.name (rows.map Row.line)) "RCVR".toList = true := by
  rw [tells, List.any_eq_true]
  refine ⟨"RCVR@".toList, ?_, by decide⟩
  refine List.mem_filterMap.mpr ⟨_, List.mem_map_of_mem h, ?_⟩
  simp [Row.line]

theorem holds_stopInst (h : Holds S R t) (hf : stop_or_crash_action a.name t = some f) :
    Holds (fun x y => S x y ∧ ¬ x = a) (fun x y => R x y ∧ ¬ y = a) (alllinks f) := by
  have hdel := fun type => @holds_delInst a S R t type h
  obtain ⟨rows, rfl, hS, hR⟩ := h
  rw [stop_or_crash_action] at hf
  split_ifs at hf with hat hboth hrcvr
  · cases hf
    refine holds_congr (hdel .BOTH) ?_ ?_ <;> simp [Side.src, Side.rcv]
  · cases hf
    refine holds_congr (hdel .RCV) ?_ (by simp [Side.rcv])
    intro x y
    have hnone : S x y → x ≠ a := by
      rintro hs rfl
      obtain ⟨bs, ne, nodup, hr, -⟩ := (hS x y).mpr hs
      apply hboth
      rw [hrcvr, tells_src ⟨bs, ne, nodup, hr⟩]
      rfl
    simp only [Side.src, reduceCtorEq, decide_false, Bool.or_self, Bool.false_eq_true, false_and,
      not_false_eq_true, and_true]
    exact (and_iff_left_of_imp hnone).symm
  · cases hf
    refine holds_congr (hdel .SRC) (by simp [Side.src]) ?_
    intro x y
    have hnone : R x y → y ≠ a := by
      rintro hr rfl
      exact hrcvr (tells_rcvr ((hR x y).mpr hr))
    simp only [Side.rcv, reduceCtorEq, decide_false, Bool.or_self, Bool.false_eq_true, false_and,
      not_false_eq_true, and_true]
    exact (and_iff_left_of_imp hnone).symm

theorem not_rcvFrom_iff (h : Holds S R t) (hfits : ∀ l ∈ t, RcvFits a.name b.name l) {x y : Inst} :
    R x y ∧ ¬ y = b ↔ R x y ∧ (x = a → ¬ y = b) := by
  obtain ⟨rows, rfl, -, hR⟩ := h
  refine and_congr_right fun hr => ⟨fun hy _ => hy, ?_⟩
  rintro hxy rfl
  have hx := hfits _ (List.mem_map_of_mem ((hR x y).mpr hr)) rfl rfl
  exact hxy (name_injective hx) rfl

theorem holds_action (h : Holds S R t) (hfits : Fits act t)
    (hact : do_multisite_action act t = some f) :
    Holds (fun x y => startsSrc act x y ∨ S x y ∧ ¬ stopsSrc act x y)
      (fun x y => startsRcv act x y ∨ R x y ∧ ¬ stopsRcv act x y) (alllinks f) := by
  cases act with
  | START a b =>
    refine holds_congr (@holds_add a b S R t f .BOTH h (fun _ => hfits) hact) ?_ ?_ <;> intro x y <;>
      simp [Side.src, Side.rcv, startsSrc, stopsSrc, startsRcv, stopsRcv, or_comm]
  | STARTSRC a b =>
    refine holds_congr (@holds_add a b S R t f .SRC h (fun _ => hfits) hact) ?_ ?_ <;> intro x y <;>
      simp [Side.src, Side.rcv, startsSrc, stopsSrc, startsRcv, stopsRcv, or_comm]
  | STARTRCV a b =>
    refine holds_congr (@holds_add a b S R t f .RCV h (fun h => nomatch h) hact) ?_ ?_ <;>
      intro x y <;> simp [Side.src, Side.rcv, startsSrc, stopsSrc, startsRcv, stopsRcv, or_comm]
  | ACTIVATE a b =>
    refine holds_congr (@holds_add a b S R t f .SRC h (fun _ => hfits) hact) ?_ ?_ <;> intro x y <;>
      simp [Side.src, Side.rcv, startsSrc, stopsSrc, startsRcv, stopsRcv, or_comm]
  | STOP a b =>
    cases hact
    have hother := @not_rcvFrom_iff a b S R t h hfits.2
    refine holds_congr (@holds_del a b S R t .BOTH h fun _ => hfits.1) ?_ ?_ <;> intro x y
    · simp [Side.src, startsSrc, stopsSrc]
    · simp [Side.rcv, startsRcv, stopsRcv, hother]
  | STOPSRC a b =>
    cases hact
    refine holds_congr (@holds_del a b S R t .SRC h fun _ => hfits) ?_ ?_ <;> intro x y <;>
      simp [Side.src, Side.rcv, startsSrc, stopsSrc, startsRcv, stopsRcv]
  | STOPRCV a b =>
    cases hact
    have hother := @not_rcvFrom_iff a b S R t h hfits
    refine holds_congr (@holds_del b b S R t .RCV h fun h => nomatch h) ?_ ?_ <;> intro x y
    · simp [Side.src, startsSrc, stopsSrc]
    · simp [Side.rcv, startsRcv, stopsRcv, hother]
  | stopInst a =>
    refine holds_congr (holds_stopInst h hact) ?_ ?_ <;> intro x y <;>
      simp [startsSrc, stopsSrc, startsRcv, stopsRcv]
  | stopAll =>
    cases hact
    exact ⟨[], rfl, by simp [SrcTo, startsSrc, stopsSrc], by simp [RcvFrom, startsRcv, stopsRcv]⟩

end Step

theorem holds_run {acts : List Action} {f : File} (h : Run Fits acts f) :
    Holds (Live startsSrc stopsSrc acts) (Live startsRcv stopsRcv acts) (alllinks f) := by
  induction h with
  | touch =>
    have hnone : ∀ {starts stops : Action → Inst → Inst → Prop} {a b : Inst},
        ¬ Live starts stops [] a b := by
      rintro starts stops a b ⟨pre, act, post, heq, -⟩
      exact absurd heq.symm (by simp)
    exact ⟨[], rfl, by simp [SrcTo, hnone], by simp [RcvFrom, hnone]⟩
  | action h hact hfits ih =>
    exact holds_congr (holds_action ih hfits hact) (fun _ _ => live_concat.symm)
      (fun _ _ => live_concat.symm)

theorem hasSrcTo_iff {S R : Inst → Inst → Prop} {t : List Line} (h : Holds S R t) (x y : Text) :
    HasSrcTo t x y ↔ ∃ a b : Inst, a.name = x ∧ b.name = y ∧ S a b := by
  obtain ⟨rows, rfl, hS, -⟩ := h
  refine ⟨?_, ?_⟩
  · rintro ⟨l, hl, h₁, h₂, hy⟩
    obtain ⟨r, hr, rfl⟩ := List.mem_map.mp hl
    cases r with
    | rcvfrom b a => exact absurd h₁ srcto_ne_rcvfrom.symm
    | srcto a bs ne nodup =>
      rw [entries, Row.line, splitOn_names ne, List.mem_map] at hy
      obtain ⟨b, hb, rfl⟩ := hy
      exact ⟨a, b, h₂, rfl, (hS a b).mp ⟨bs, ne, nodup, hr, hb⟩⟩
  · rintro ⟨a, b, rfl, rfl, hs⟩
    obtain ⟨bs, ne, nodup, hr, hb⟩ := (hS a b).mpr hs
    refine ⟨_, List.mem_map_of_mem hr, rfl, rfl, ?_⟩
    rw [entries, Row.line, splitOn_names ne]
    exact List.mem_map_of_mem hb

theorem hasRcvFrom_iff {S R : Inst → Inst → Prop} {t : List Line} (h : Holds S R t) (x y : Text) :
    HasRcvFrom t x y ↔ ∃ a b : Inst, a.name = x ∧ b.name = y ∧ R a b := by
  obtain ⟨rows, rfl, -, hR⟩ := h
  refine ⟨?_, ?_⟩
  · rintro ⟨l, hl, h₁, h₂, h₃⟩
    obtain ⟨r, hr, rfl⟩ := List.mem_map.mp hl
    cases r with
    | srcto a bs ne nodup => exact absurd h₁ srcto_ne_rcvfrom
    | rcvfrom b a => exact ⟨a, b, h₃, h₂, (hR a b).mp hr⟩
  · rintro ⟨a, b, rfl, rfl, hr⟩
    exact ⟨_, List.mem_map_of_mem ((hR a b).mpr hr), rfl, rfl, rfl⟩

theorem hasSrcTo_names {S R : Inst → Inst → Prop} {t : List Line} (h : Holds S R t) (a b : Inst) :
    HasSrcTo t a.name b.name ↔ S a b := by
  rw [hasSrcTo_iff h]
  refine ⟨?_, fun hs => ⟨a, b, rfl, rfl, hs⟩⟩
  rintro ⟨a', b', ha, hb, hs⟩
  rwa [name_injective ha, name_injective hb] at hs

theorem hasRcvFrom_names {S R : Inst → Inst → Prop} {t : List Line} (h : Holds S R t) (a b : Inst) :
    HasRcvFrom t a.name b.name ↔ R a b := by
  rw [hasRcvFrom_iff h]
  refine ⟨?_, fun hr => ⟨a, b, rfl, rfl, hr⟩⟩
  rintro ⟨a', b', ha, hb, hr⟩
  rwa [name_injective ha, name_injective hb] at hr

theorem other_link {act : Action} {p : Inst × Inst} (hp : link act = some p) {a b : Inst}
    (hne : (a, b) ≠ p) : (¬ startsSrc act a b ∧ ¬ stopsSrc act a b) ∧
      ¬ startsRcv act a b ∧ ¬ stopsRcv act a b := by
  obtain ⟨a', b'⟩ := p
  rw [ne_eq, Prod.mk.injEq] at hne
  cases act <;> cases hp <;> simp only [startsSrc, stopsSrc, startsRcv, stopsRcv, hne,
    not_false_eq_true, and_self]

/-- Where every action fits, the two tables have the links that are live, and an action about one
link leaves all others as they are. -/
theorem links_follow {acts : List Action} {f : File} (h : Run Fits acts f) :
    (∀ x y, HasSrcTo (alllinks f) x y ↔
      ∃ a b : Inst, a.name = x ∧ b.name = y ∧ Live startsSrc stopsSrc acts a b) ∧
    (∀ x y, HasRcvFrom (alllinks f) x y ↔
      ∃ a b : Inst, a.name = x ∧ b.name = y ∧ Live startsRcv stopsRcv acts a b) ∧
    ∀ act f', do_multisite_action act (alllinks f) = some f' → Fits act (alllinks f) →
      ∀ p, link act = some p → ∀ a b : Inst, (a, b) ≠ p →
        (HasSrcTo (alllinks f') a.name b.name ↔ HasSrcTo (alllinks f) a.name b.name) ∧
        (HasRcvFrom (alllinks f') a.name b.name ↔ HasRcvFrom (alllinks f) a.name b.name) := by
  have hrun := holds_run h
  refine ⟨hasSrcTo_iff hrun, hasRcvFrom_iff hrun, ?_⟩
  intro act f' hact hfits p hp a b hne
  have hrun' := holds_run (h.action hact hfits)
  obtain ⟨⟨hstart, hstop⟩, hstart', hstop'⟩ := other_link hp hne
  rw [hasSrcTo_names hrun', hasSrcTo_names hrun, live_concat, hasRcvFrom_names hrun',
    hasRcvFrom_names hrun, live_concat]
  simp only [hstart, hstop, hstart', hstop', false_or, not_false_eq_true, and_true, and_self]

theorem live_congr {starts stops starts' stops' : Action → Inst → Inst → Prop} {acts : List Action}
    {a b : Inst} (h : ∀ act ∈ acts, (starts act a b ↔ starts' act a b) ∧
      (stops act a b ↔ stops' act a b)) :
    Live starts stops acts a b ↔ Live starts' stops' acts a b := by
  simp only [Live]
  refine exists_congr fun pre => exists_congr fun act => exists_congr fun post => ?_
  refine and_congr_right fun heq => ?_
  subst heq
  rw [List.forall_mem_append, List.forall_mem_cons] at h
  refine and_congr h.2.1.1 (forall₂_congr fun act' hact' => ?_)
  rw [(h.2.2 act' hact').2]

theorem tables_mirror {acts : List Action} {f : File} (h : Run Fits acts f)
    (hwhole : ∀ act ∈ acts, (∃ a b, act = .START a b ∨ act = .STOP a b) ∨ act = .stopAll)
    (x y : Text) : HasSrcTo (alllinks f) x y ↔ HasRcvFrom (alllinks f) x y := by
  have hrun := holds_run h
  rw [hasSrcTo_iff hrun, hasRcvFrom_iff hrun]
  have hlive : ∀ a b, Live startsSrc stopsSrc acts a b ↔ Live startsRcv stopsRcv acts a b := by
    intro a b
    apply live_congr
    intro act hact
    obtain ⟨a', b', rfl | rfl⟩ | rfl := hwhole act hact <;>
      simp [startsSrc, startsRcv, stopsSrc, stopsRcv]
  simp only [hlive]

section Instances

def INST1 : Inst := ⟨"INST1".toList, by decide, List.all_eq_true.mp rfl⟩

def INST2 : Inst := ⟨"INST2".toList, by decide, List.all_eq_true.mp rfl⟩

def INST10 : Inst := ⟨"INST10".toList, by decide, List.all_eq_true.mp rfl⟩

theorem one_source_left :
    HasSrcTo (alllinks [some ⟨SRCTO, INST1.name, INST10.name⟩, none]) INST1.name INST10.name ∧
    ¬ HasRcvFrom (alllinks [some ⟨SRCTO, INST1.name, INST10.name⟩, none]) INST1.name INST2.name := by
  have hstart : Run Fits [.START INST1 INST2]
      [some ⟨SRCTO, INST1.name, INST2.name⟩, some ⟨RCVFROM, INST2.name, INST1.name⟩] :=
    Run.touch.action rfl (fun _ h => nomatch h)
  have hsrc : Run Fits [.START INST1 INST2, .STARTSRC INST1 INST10]
      [some ⟨SRCTO, INST1.name, INST2.name ++ ',' :: INST10.name⟩,
        some ⟨RCVFROM, INST2.name, INST1.name⟩] := by
    refine @Run.action Fits _ _ _ (.STARTSRC INST1 INST10) hstart (by decide) ?_
    show ∀ l ∈ alllinks [some ⟨SRCTO, INST1.name, INST2.name⟩, some ⟨RCVFROM, INST2.name, INST1.name⟩],
      AddFits INST1.name INST10.name l
    decide
  have hstop : Run Fits [.START INST1 INST2, .STARTSRC INST1 INST10, .STOP INST1 INST2]
      [some ⟨SRCTO, INST1.name, INST10.name⟩, none] := by
    refine @Run.action Fits _ _ _ (.STOP INST1 INST2) hsrc (by decide) ?_
    show (∀ l ∈ alllinks [some ⟨SRCTO, INST1.name, INST2.name ++ ',' :: INST10.name⟩,
        some ⟨RCVFROM, INST2.name, INST1.name⟩], DelFits INST1.name INST2.name l) ∧
      ∀ l ∈ alllinks [some ⟨SRCTO, INST1.name, INST2.name ++ ',' :: INST10.name⟩,
        some ⟨RCVFROM, INST2.name, INST1.name⟩], RcvFits INST1.name INST2.name l
    decide
  obtain ⟨hsrcto, hrcvfrom, -⟩ := links_follow hstop
  refine ⟨(hsrcto _ _).mpr ⟨INST1, INST10, rfl, rfl, ?_⟩, ?_⟩
  · refine ⟨[.START INST1 INST2], _, [.STOP INST1 INST2], rfl, ⟨rfl, rfl⟩, ?_⟩
    rw [List.forall_mem_singleton]
    rintro ⟨-, h⟩
    exact absurd h (by decide)
  · rintro ⟨l, hl, h₁, -⟩
    rw [List.mem_singleton.mp hl] at h₁
    exact srcto_ne_rcvfrom h₁

/-- The start of `INST1` at a source that has `INST10` is not in the table. -/
theorem contained_name_lost : ∃ acts f, Run (fun _ _ => True) acts f ∧ ∃ a b,
    Live startsSrc stopsSrc acts a b ∧ ¬ HasSrcTo (alllinks f) a.name b.name := by
  have hten : Run (fun _ _ => True) [.START INST2 INST10]
      [some ⟨SRCTO, INST2.name, INST10.name⟩, some ⟨RCVFROM, INST10.name, INST2.name⟩] :=
    Run.touch.action rfl trivial
  have hone : Run (fun _ _ => True) [.START INST2 INST10, .START INST2 INST1]
      [some ⟨SRCTO, INST2.name, INST10.name⟩, some ⟨RCVFROM, INST10.name, INST2.name⟩,
        some ⟨RCVFROM, INST1.name, INST2.name⟩] :=
    @Run.action _ _ _ _ (.START INST2 INST1) hten (by decide) trivial
  refine ⟨_, _, hone, INST2, INST1, ?_, by decide⟩
  exact ⟨[.START INST2 INST10], _, [], rfl, ⟨rfl, rfl⟩, fun _ h => nomatch h⟩

end Instances

end YdbTest.LinkRuns
