import YdbTest.Triggers
import YdbTest.Iteration

namespace YdbTest.Closure

open MString Globals Command Triggers Iteration TreeStore

def reads : Cmd → List Node
  | .set _ (.node n _) => [n]
  | .setPiece _ _ (.node n _) => [n]
  | .setSubpiece n _ => [n]
  | _ => []

/-- A command on nodes of `P` that reads no others. -/
def Within (P : Node → Prop) (cmd : Cmd) : Prop :=
  (∀ n, target cmd = some n → P n) ∧ ∀ n ∈ reads cmd, P n

/-- A command that leaves the variables of its process alone. -/
def Quiet (cmd : Cmd) : Prop := ∀ s, cmd.local s = s.proc

/-- A set of nodes that triggers fired in it, with `$ztwormhole` at `w`, do not leave. -/
structure Closed (w : Str) (P : Node → Prop) (ts : List Trigger) : Prop where
  below : ∀ {n m}, P n → TreeStore.below n m = true → P m
  body : ∀ t ∈ ts, ∀ x : Context, x.ztworm = w → P (t.gbl, x.subs) →
    ∀ cmd ∈ t.xecute x, Within P cmd ∧ Quiet cmd

/-- Two states the same on `P`. -/
structure Agree (P : Node → Prop) (s s' : St) : Prop where
  db : ∀ n, P n → TreeStore.get s.db n = TreeStore.get s'.db n
  proc : s.proc = s'.proc

variable {w : Str} {P : Node → Prop} {ts : List Trigger} {s s' : St} {cmd : Cmd}

theorem Agree.symm (h : Agree P s s') : Agree P s' s :=
  ⟨fun n hn => (h.db n hn).symm, h.proc.symm⟩

theorem Agree.trans {t : St} (h : Agree P s s') (h' : Agree P s' t) : Agree P s t :=
  ⟨fun n hn => (h.db n hn).trans (h'.db n hn), h.proc.trans h'.proc⟩

theorem change_spec {ch : Change} (h : change s cmd = some ch) :
    target cmd = some ch.node ∧ Quiet cmd := by
  cases cmd with
  | setPiece n i v =>
    simp only [change] at h
    split_ifs at h
    obtain rfl := Option.some.inj h
    exact ⟨rfl, fun _ => rfl⟩
  | kill n =>
    simp only [change] at h
    split_ifs at h
    obtain rfl := Option.some.inj h
    exact ⟨rfl, fun _ => rfl⟩
  | zkill n =>
    simp only [change] at h
    split_ifs at h
    obtain rfl := Option.some.inj h
    exact ⟨rfl, fun _ => rfl⟩
  | set n v | incr n k | ztrigger n =>
    obtain rfl := Option.some.inj h
    exact ⟨rfl, fun _ => rfl⟩
  | setSubpiece | setZtwormhole | call => simp [change] at h

theorem fires_gbl {t : Trigger} {ch : Change} (h : t.fires ch = true) :
    t.gbl = ch.node.1 := by
  simp only [Triggers.Trigger.fires, Bool.and_eq_true, beq_iff_eq] at h
  exact h.1.1.2

theorem base_frame (hP : Closed w P ts) (hin : Within P cmd) {n : Node} (hn : ¬ P n) :
    TreeStore.get (cmd.exec s).db n = TreeStore.get s.db n := by
  rw [Cmd.exec, get_applyAll]
  apply look_of_not_hits
  intro u hu
  by_contra hh
  obtain ⟨t, ht, hb⟩ := hits_target hu (by simpa using hh)
  exact hn (hP.below (hin.1 t ht) hb)

theorem fired_within (hP : Closed w P ts) (hw : s.proc.ztwormhole = w) (hin : Within P cmd) :
    ∀ x ∈ fired ts s cmd, Within P x ∧ Quiet x := by
  intro x hx
  unfold fired at hx
  cases hch : change s cmd with
  | none => simp [hch] at hx
  | some ch =>
    simp only [hch, List.mem_flatMap, List.mem_filter] at hx
    obtain ⟨t, ⟨ht, hf⟩, hx⟩ := hx
    have hnode : (t.gbl, (ch.context s.proc).subs) = ch.node := Prod.ext (fires_gbl hf) rfl
    refine hP.body t ht (ch.context s.proc) hw ?_ x hx
    rw [hnode]
    exact hin.1 _ (change_spec hch).1

theorem fired_proc (h : fired ts s cmd ≠ []) : Quiet cmd := by
  unfold fired at h
  cases hch : change s cmd with
  | none => simp [hch] at h
  | some ch => exact (change_spec hch).2

theorem foldl_keep {α σ : Type} (run : σ → α → σ) (R : σ → Prop) (Q : α → Prop)
    (hrun : ∀ s a, R s → Q a → R (run s a)) (as : List α) (has : ∀ a ∈ as, Q a) (s : σ)
    (hs : R s) : R (as.foldl run s) := by
  induction as generalizing s with
  | nil => exact hs
  | cons a as ih =>
    exact ih (fun x hx => has x (by simp [hx])) _ (hrun s a hs (has a (by simp)))

theorem foldl_related {α σ : Type} (run : σ → α → σ) (R : σ → σ → Prop) (Q : α → Prop)
    (hrun : ∀ s t a, R s t → Q a → R (run s a) (run t a)) (as : List α) (has : ∀ a ∈ as, Q a)
    (s t : σ) (hs : R s t) : R (as.foldl run s) (as.foldl run t) := by
  induction as generalizing s t with
  | nil => exact hs
  | cons a as ih =>
    exact ih (fun x hx => has x (by simp [hx])) _ _ (hrun s t a hs (has a (by simp)))

theorem exec_frame (hP : Closed w P ts) (depth : Nat) (s : St) (cmd : Cmd)
    (hw : s.proc.ztwormhole = w) (hin : Within P cmd) :
    (∀ n, ¬ P n → TreeStore.get (exec ts depth s cmd).db n = TreeStore.get s.db n) ∧
      (exec ts depth s cmd).proc = cmd.local s := by
  induction depth generalizing s cmd with
  | zero => exact ⟨fun n hn => base_frame hP hin hn, rfl⟩
  | succ depth ih =>
    by_cases hf : fired ts s cmd = []
    · rw [exec, hf]
      exact ⟨fun n hn => base_frame hP hin hn, rfl⟩
    · have hproc : cmd.local s = s.proc := fired_proc hf s
      rw [exec, hproc]
      apply foldl_keep (exec ts depth) (fun t => (∀ n, ¬ P n →
        TreeStore.get t.db n = TreeStore.get s.db n) ∧ t.proc = s.proc)
        (fun x => Within P x ∧ Quiet x)
      · intro t x ⟨hdb, ht⟩ ⟨hxin, hxq⟩
        obtain ⟨hdb', hproc'⟩ := ih t x (by rw [ht, hw]) hxin
        exact ⟨fun n hn => (hdb' n hn).trans (hdb n hn), hproc'.trans ((hxq t).trans ht)⟩
      · exact fired_within hP hw hin
      · exact ⟨fun n hn => base_frame hP hin hn, hproc⟩

theorem get_congr (h : Agree P s s') {n : Node} (hn : P n) :
    Globals.get s.db n = Globals.get s'.db n := by
  rw [Globals.get, Globals.get, h.db n hn]

theorem hasData_congr (hP : Closed w P ts) (h : Agree P s s') {n : Node} (hn : P n) :
    hasData s.db n = hasData s'.db n := by
  rw [Bool.eq_iff_iff, hasData_iff, hasData_iff]
  constructor
  · rintro ⟨m, v, hb, hv⟩
    exact ⟨m, v, hb, (h.db m (hP.below hn hb)).symm.trans hv⟩
  · rintro ⟨m, v, hb, hv⟩
    exact ⟨m, v, hb, (h.db m (hP.below hn hb)).trans hv⟩

theorem eval_congr (h : Agree P s s') {v : Val} (hv : ∀ n f, v = .node n f → P n) :
    v.eval s = v.eval s' := by
  cases v with
  | str v => rfl
  | node n f => rw [Val.eval, Val.eval, get_congr h (hv n f rfl)]
  | subpiece => rw [Val.eval, Val.eval, h.proc]

theorem change_congr (hP : Closed w P ts) (h : Agree P s s') (hin : Within P cmd) :
    change s cmd = change s' cmd := by
  obtain ⟨ht, hr⟩ := hin
  cases cmd with
  | set n v =>
    rw [change, change, get_congr h (ht n rfl), eval_congr h (fun m f hv => hr m (by simp [hv, reads]))]
  | incr n k => rw [change, change, get_congr h (ht n rfl), h.db n (ht n rfl)]
  | setPiece n i v =>
    rw [change, change, get_congr h (ht n rfl), eval_congr h (fun m f hv => hr m (by simp [hv, reads]))]
  | kill n => rw [change, change, get_congr h (ht n rfl), hasData_congr hP h (ht n rfl)]
  | zkill n => rw [change, change, get_congr h (ht n rfl), h.db n (ht n rfl)]
  | ztrigger | setSubpiece | setZtwormhole | call => rfl

theorem fired_congr (hP : Closed w P ts) (h : Agree P s s') (hin : Within P cmd) :
    fired ts s cmd = fired ts s' cmd := by
  rw [fired, fired, change_congr hP h hin, h.proc]

theorem upd_congr (h : Agree P s s') (hin : Within P cmd) : cmd.upd s = cmd.upd s' := by
  obtain ⟨-, hr⟩ := hin
  cases cmd with
  | set n v | setPiece n i v =>
    rw [Cmd.upd, Cmd.upd, eval_congr h (fun m f hv => hr m (by simp [hv, reads]))]
  | incr | kill | zkill | ztrigger | setSubpiece | setZtwormhole | call => rfl

theorem base_agree (h : Agree P s s') (hin : Within P cmd) : Agree P (cmd.exec s) (cmd.exec s') := by
  refine ⟨fun n hn => ?_, ?_⟩
  · rw [Cmd.exec, Cmd.exec, get_applyAll, get_applyAll, upd_congr h hin, h.db n hn]
  · cases cmd with
    | setSubpiece n f =>
      have hn := hin.2 n (by simp [reads])
      simp only [Cmd.exec, Cmd.local, h.proc, get_congr h hn]
    | _ => simp only [Cmd.exec, Cmd.local, h.proc]

theorem exec_agree (hP : Closed w P ts) (depth : Nat) {s s' : St} (cmd : Cmd)
    (hw : s.proc.ztwormhole = w) (h : Agree P s s') (hin : Within P cmd) :
    Agree P (exec ts depth s cmd) (exec ts depth s' cmd) := by
  induction depth generalizing s s' cmd with
  | zero => exact base_agree h hin
  | succ depth ih =>
    rw [exec, exec, ← fired_congr hP h hin]
    by_cases hf : fired ts s cmd = []
    · rw [hf]
      exact base_agree h hin
    · have hproc : (cmd.exec s).proc = s.proc := fired_proc hf s
      have hR := foldl_related (exec ts depth)
        (fun t t' => Agree P t t' ∧ t.proc.ztwormhole = w) (fun x => Within P x ∧ Quiet x)
        (fun t t' x ⟨ht, hwt⟩ ⟨hxin, hxq⟩ => ⟨ih x hwt ht hxin, by
          rw [(exec_frame hP depth t x hwt hxin).2, hxq t, hwt]⟩)
        (fired ts s cmd) (fired_within hP hw hin) (cmd.exec s) (cmd.exec s')
        ⟨base_agree h hin, by rw [hproc, hw]⟩
      exact hR.1

end YdbTest.Closure
