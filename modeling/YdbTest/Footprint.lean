import YdbTest.Closure
import YdbTest.Owner

namespace YdbTest.Footprint

open MString Globals Command Imptp Triggers Iteration Closure Owner

/-- The globals whose triggers go by `$ztwormhole` to the node they set. -/
def byZtworm : List Gbl := [.antp, .bntp, .cntp, .gntp]

/-- The nodes on which an iteration stays with itself, with `$ztwormhole` at `w`. -/
def Safe (c : Cfg) (it : Iter) (w : Str) (n : Node) : Prop :=
  Owned c it n ∧ (c.trigger = 0 ∨ w = subs c it ∨ n.1 ∉ byZtworm)

variable {c : Cfg} {it : Iter} {w : Str} {ts : List Trigger} {x : Context}

section Commands

variable {P : Node → Prop}

@[simp] theorem quiet_set (n : Node) (v : Val) : Quiet (.set n v) := fun _ => rfl

@[simp] theorem quiet_setStr (n : Node) (v : Str) : Quiet (Imptp.set n v) := fun _ => rfl

@[simp] theorem quiet_kill (n : Node) : Quiet (.kill n) := fun _ => rfl

@[simp] theorem quiet_zkill (n : Node) : Quiet (.zkill n) := fun _ => rfl

@[simp] theorem within_setStr (n : Node) (v : Str) : Within P (Imptp.set n v) ↔ P n := by
  simp [Within, reads, Imptp.set]

@[simp] theorem within_setNode (n m : Node) (f : Str → Str) :
    Within P (.set n (.node m f)) ↔ P n ∧ P m := by
  simp [Within, reads]

@[simp] theorem within_kill (n : Node) : Within P (.kill n) ↔ P n := by
  simp [Within, reads]

@[simp] theorem within_zkill (n : Node) : Within P (.zkill n) ↔ P n := by
  simp [Within, reads]

end Commands

theorem Safe.same {g g' : Gbl} {l : List Str} (h : Safe c it w (g, l)) (hkey : key g' = key g)
    (hz : g' ∉ byZtworm ∨ g ∈ byZtworm) : Safe c it w (g', l) := by
  obtain ⟨ho, hw⟩ := h
  refine ⟨?_, ?_⟩
  · simpa [Owned, hkey] using ho
  · obtain hz | hz := hz
    · exact Or.inr (Or.inr hz)
    · exact hw.imp id (fun hw => Or.inl (hw.resolve_right (fun hn => hn hz)))

theorem sub_of_owned_subs {g : Gbl} (hg : key g = .subs) (h : Owned c it (g, x.subs)) :
    x.sub 0 = fid c ∧ (x.sub 1 = subs c it ∨ x.sub 1 = subsMAX c it) := by
  simp only [Owned, hg] at h
  obtain ⟨rest, hr⟩ | ⟨rest, hr⟩ := h <;> simp [Context.sub, ← hr]

theorem sub_of_owned_index {g : Gbl} (hg : key g = .index) (h : Owned c it (g, x.subs)) :
    x.sub 0 = fid c ∧ x.sub 1 = I it := by
  simp only [Owned, hg] at h
  obtain ⟨rest, hr⟩ := h
  simp [Context.sub, ← hr]

theorem owned_subs {g : Gbl} (hg : key g = .subs) {k : Str}
    (hk : k = subs c it ∨ k = subsMAX c it) (rest : List Str) :
    Owned c it (g, fid c :: k :: rest) := by
  simp only [Owned, hg]
  obtain rfl | rfl := hk
  · exact Or.inl ⟨rest, rfl⟩
  · exact Or.inr ⟨rest, rfl⟩

theorem owned_index {g : Gbl} (hg : key g = .index) (rest : List Str) :
    Owned c it (g, fid c :: I it :: rest) := by
  simp only [Owned, hg]
  exact ⟨rest, rfl⟩

theorem Safe.ztworm {g g' : Gbl} (hx : x.ztworm = w) (ht : c.trigger ≠ 0) (hg : key g = .subs)
    (hb : g ∈ byZtworm) (hg' : key g' = .subs) (h : Safe c it w (g, x.subs)) :
    Safe c it w (g', [x.sub 0, x.ztworm]) := by
  obtain ⟨ho, hw⟩ := h
  have hw' : w = subs c it := (hw.resolve_left ht).resolve_right (fun hn => hn hb)
  rw [(sub_of_owned_subs hg ho).1, hx]
  exact ⟨owned_subs hg' (Or.inl hw') [], Or.inr (Or.inl hw')⟩

def Keeps (c : Cfg) (it : Iter) (w : Str) (t : Trigger) : Prop :=
  ∀ x : Context, x.ztworm = w → Safe c it w (t.gbl, x.subs) →
    ∀ cmd ∈ t.xecute x, Within (Safe c it w) cmd ∧ Quiet cmd

theorem imptptrg_keeps (ht : c.trigger ≠ 0) : ∀ t ∈ imptptrg, Keeps c it w t := by
  simp only [imptptrg, List.forall_mem_cons, onSet, onKill, onZkill]
  refine ⟨?_, ?_, ?_, ?_, ?_, ?_, ?_, ?_, ?_, ?_, ?_, ?_, ?_, ?_, ?jsub, ?jworm, ?jkill, ?antp, ?_,
    ?bntp, ?bkill, ?cntp, ?_, ?_, ?_, ?_, ?andxarr, ?_, ?_, ?_, ?_, ?_, by simp⟩ <;>
    intro x hx hs <;> simp <;>
    try ((try constructorm* _ ∧ _) <;> exact hs.same rfl (by decide))
  case jsub | jkill =>
    rw [(sub_of_owned_index rfl hs.1).1, (sub_of_owned_index rfl hs.1).2]
    exact ⟨owned_index rfl _, Or.inr (Or.inr (by simp [byZtworm]))⟩
  case jworm =>
    rw [(sub_of_owned_index rfl hs.1).1, (sub_of_owned_index rfl hs.1).2]
    exact ⟨owned_index rfl _, Or.inr (Or.inr (by simp [byZtworm]))⟩
  case antp | bntp | cntp => exact Safe.ztworm hx ht rfl (by decide) rfl hs
  case bkill =>
    refine ⟨⟨?_, Or.inr (Or.inr (by simp [byZtworm]))⟩, hs.same rfl (by decide)⟩
    obtain ⟨h0, h1⟩ := sub_of_owned_subs rfl hs.1
    rw [h0]
    exact owned_subs rfl h1 _
  case andxarr =>
    rintro cmd - (rfl | rfl | rfl | rfl) <;> simp only [within_setStr, quiet_setStr, and_true] <;>
      exact hs.same rfl (by decide)

theorem imptpztrtrg_keeps : ∀ t ∈ imptpztrtrg, Keeps c it w t := by
  simp only [imptpztrtrg, List.forall_mem_cons]
  refine ⟨fun x hx hs => ?_, fun x hx hs => ?_, by simp⟩
  · exact absurd hs.1 (by simp [Owned, key])
  · simpa using hs

theorem mem_installed {t : Trigger} (h : Installed c ts) (ht : t ∈ ts) :
    c.trigger ≠ 0 ∧ (t ∈ imptptrg ∨ t ∈ imptpztrtrg) := by
  have ht' := (h.mem_iff).mp ht
  unfold installed at ht'
  split at ht'
  · simp at ht'
  · rename_i h0
    refine ⟨h0, (List.mem_append.mp ht').imp id (fun hz => ?_)⟩
    split at hz
    · exact hz
    · simp at hz

theorem Safe.below {n m : Node} (h : Safe c it w n) (hb : TreeStore.below n m = true) :
    Safe c it w m :=
  ⟨h.1.below hb, by rw [← (TreeStore.below_iff.mp hb).1]; exact h.2⟩

theorem safe_closed (h : Installed c ts) : Closed w (Safe c it w) ts where
  below := Safe.below
  body t ht := by
    obtain ⟨h0, ht | ht⟩ := mem_installed h ht
    · exact imptptrg_keeps h0 t ht
    · exact imptpztrtrg_keeps t ht

end YdbTest.Footprint
