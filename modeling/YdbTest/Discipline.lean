import YdbTest.Footprint

namespace YdbTest.Discipline

open MString Globals Command Imptp Triggers Iteration Closure Owner Footprint

variable (c : Cfg) (it : Iter)

inductive Common : Cmd → Prop
  | set (n : Node) (v : Str) (h : key n.1 = .shared) : Common (Imptp.set n v)
  | incr (n : Node) (k : Nat) (h : key n.1 = .shared) : Common (.incr n k)
  | ztrigger (fid jobno loop : Str) (h : ztr c = true) :
      Common (.ztrigger (.lasti, [fid, jobno, loop]))

/-- A command on the nodes of its iteration, or on a shared global. -/
def Allowed (w : Str) (cmd : Cmd) : Prop := Within (Safe c it w) cmd ∨ Common c cmd

/-- What `$ztwormhole` is after a command. -/
def worm (w : Str) : Cmd → Str
  | .setZtwormhole v => v
  | _ => w

/-- Commands that stay with their iteration as `$ztwormhole` changes. -/
def Orderly : Str → List Cmd → Prop
  | _, [] => True
  | w, cmd :: cs => Allowed c it w cmd ∧ Orderly (worm w cmd) cs

variable {c it} {w : Str} {d : Draws}

theorem orderly_append {as bs : List Cmd} :
    Orderly c it w (as ++ bs) ↔ Orderly c it w as ∧ Orderly c it (as.foldl worm w) bs := by
  induction as generalizing w with
  | nil => simp [Orderly]
  | cons a as ih => simp [Orderly, ih, and_assoc]

/-- A command that leaves `$ztwormhole` alone. -/
def Steady (cmd : Cmd) : Prop := ∀ v, worm v cmd = v

def Good (c : Cfg) (it : Iter) (w : Str) (cmd : Cmd) : Prop := Steady cmd ∧ Allowed c it w cmd

/-- A command that stays with its iteration whatever `$ztwormhole` is. -/
def Free (c : Cfg) (it : Iter) (cmd : Cmd) : Prop := ∀ w, Allowed c it w cmd

theorem foldl_worm {cs : List Cmd} (h : Each Steady cs) (w : Str) : cs.foldl worm w = w := by
  induction cs with
  | nil => rfl
  | cons cmd cs ih =>
    obtain ⟨hcmd, hcs⟩ := (each_cons cmd cs).mp h
    rw [List.foldl_cons, hcmd, ih hcs]

theorem orderly_of_good {cs : List Cmd} (h : Each (Good c it w) cs) : Orderly c it w cs := by
  induction cs with
  | nil => trivial
  | cons cmd cs ih =>
    obtain ⟨hcmd, hcs⟩ := (each_cons cmd cs).mp h
    rw [Orderly, hcmd.1]
    exact ⟨hcmd.2, ih hcs⟩

theorem orderly_of_free {cs : List Cmd} (h : Each (Free c it) cs) (w : Str) : Orderly c it w cs := by
  induction cs generalizing w with
  | nil => trivial
  | cons cmd cs ih =>
    obtain ⟨hcmd, hcs⟩ := (each_cons cmd cs).mp h
    exact ⟨hcmd w, ih hcs _⟩

section Commands

variable {n : Node}

@[simp] theorem steady_set (n : Node) (v : Val) : Steady (.set n v) := fun _ => rfl

@[simp] theorem steady_setStr (n : Node) (v : Str) : Steady (Imptp.set n v) := fun _ => rfl

@[simp] theorem steady_kill : Steady (.kill n) := fun _ => rfl

@[simp] theorem steady_zkill : Steady (.zkill n) := fun _ => rfl

@[simp] theorem steady_incr (k : Nat) : Steady (.incr n k) := fun _ => rfl

@[simp] theorem steady_ztrigger : Steady (.ztrigger n) := fun _ => rfl

@[simp] theorem steady_setPiece (i : Nat) (v : Val) : Steady (.setPiece n i v) := fun _ => rfl

@[simp] theorem steady_setSubpiece (f : Str → Str) : Steady (.setSubpiece n f) := fun _ => rfl

@[simp] theorem steady_call (x : Call) : Steady (.call x) := fun _ => rfl

@[simp] theorem common_set (v : Str) : Common c (Imptp.set n v) ↔ key n.1 = .shared :=
  ⟨fun h => by cases h; assumption, Common.set n v⟩

@[simp] theorem common_incr (k : Nat) : Common c (.incr n k) ↔ key n.1 = .shared :=
  ⟨fun h => by cases h; assumption, Common.incr n k⟩

@[simp] theorem common_ztrigger (f j l : Str) :
    Common c (.ztrigger (.lasti, [f, j, l])) ↔ ztr c = true :=
  ⟨fun h => by cases h; assumption, Common.ztrigger f j l⟩

@[simp] theorem allowed_call (x : Call) : Allowed c it w (.call x) :=
  Or.inl ⟨by simp, by simp [reads]⟩

@[simp] theorem allowed_setZtwormhole (v : Str) : Allowed c it w (.setZtwormhole v) :=
  Or.inl ⟨by simp, by simp [reads]⟩

@[simp] theorem allowed_set (v : Str) :
    Allowed c it w (Imptp.set n v) ↔ Safe c it w n ∨ key n.1 = .shared := by
  simp [Allowed]

@[simp] theorem allowed_incr (k : Nat) :
    Allowed c it w (.incr n k) ↔ Safe c it w n ∨ key n.1 = .shared := by
  simp [Allowed, Within, reads]

@[simp] theorem allowed_ztrigger :
    Allowed c it w (.ztrigger n) ↔ Safe c it w n ∨ Common c (.ztrigger n) := by
  simp [Allowed, Within, reads]

theorem allowed_iff {cmd : Cmd} (h : ¬ Common c cmd) :
    Allowed c it w cmd ↔ Within (Safe c it w) cmd := by
  simp [Allowed, h]

@[simp] theorem allowed_kill : Allowed c it w (.kill n) ↔ Safe c it w n := by
  simp [allowed_iff (fun h : Common c (.kill n) => nomatch h)]

@[simp] theorem allowed_zkill : Allowed c it w (.zkill n) ↔ Safe c it w n := by
  simp [allowed_iff (fun h : Common c (.zkill n) => nomatch h)]

@[simp] theorem allowed_setNode {m : Node} (f : Str → Str) :
    Allowed c it w (.set n (.node m f)) ↔ Safe c it w n ∧ Safe c it w m := by
  simp [allowed_iff (fun h : Common c (.set n (.node m f)) => nomatch h)]

@[simp] theorem allowed_setPiece (i : Nat) :
    Allowed c it w (.setPiece n i .subpiece) ↔ Safe c it w n := by
  simp [allowed_iff (fun h : Common c (.setPiece n i .subpiece) => nomatch h), Within, reads]

@[simp] theorem allowed_setSubpiece (f : Str → Str) :
    Allowed c it w (.setSubpiece n f) ↔ Safe c it w n := by
  simp [allowed_iff (fun h : Common c (.setSubpiece n f) => nomatch h), Within, reads]

end Commands

/-- Nodes of an iteration that no trigger leads away from whatever `$ztwormhole` is. -/
@[simp] theorem safe_iff {n : Node} : Safe c it w n ↔
    Owned c it n ∧ (c.trigger = 0 ∨ w = subs c it ∨ n.1 ∉ byZtworm) := Iff.rfl

variable (w)

theorem stage0_good : Each (Good c it w) (stage0 c).cmds := by
  simp [Good, stage0, dztrigCall]

theorem stage2_good (hw : c.trigger = 0 ∨ w = subs c it) :
    Each (Good c it w) (stage2 c it d).cmds := by
  simp [Good, stage2, Owned, key, byZtworm]
  tauto

theorem stage3_good (hw : c.trigger = 0 ∨ w = subs c it) : Each (Good c it w) (stage3 c it).cmds := by
  simp [Good, stage3, dztrigCall, Owned, key, byZtworm]
  split <;> simp [Owned, key, byZtworm] <;> tauto

theorem stage4_good (J : Nat) : Each (Good c it w) (stage4 c it J).cmds := by
  simp [Good, stage4, dztrigCall, randoms, Owned, key, byZtworm]

theorem stage5_good : Each (Good c it w) (stage5 c it d).cmds := by
  simp [Good, stage5, dztrigCall, holdcrit, randoms, Owned, key, byZtworm]

theorem stage6_good : Each (Good c it w) (stage6 c it).cmds := by
  simp [Good, stage6, Owned, key, byZtworm]

theorem stage7_good : Each (Good c it w) (stage7 c it).cmds := by
  simp [Good, stage7, Owned, key, byZtworm]

theorem stage8_good (hw : c.trigger = 0 ∨ w = subs c it) :
    Each (Good c it w) (stage8 c it d).cmds := by
  simp [Good, stage8, Owned, key, byZtworm]
  tauto

theorem stage9_good : Each (Good c it w) (stage9 c d).cmds := by
  simp [Good, stage9, key]

theorem stage10_good : Each (Good c it w) (stage10 c it).cmds := by
  simp [Good, stage10, Owned, key, byZtworm]

variable {w}

theorem stage1_free : Each (Free c it) (stage1 c it d).cmds := by
  simp [Free, stage1, holdcrit, setLasti, Owned, key, byZtworm]

theorem stage11_free : Each (Free c it) (stage11 c it).cmds := by
  simp [Free, stage11, dztrigCall, setLasti, ndxarrs, Owned, key, byZtworm]

theorem stage1_worm (w : Str) : (stage1 c it d).cmds.foldl worm w =
    if c.trigger = 0 then w else subs c it := by
  simp only [stage1, List.foldl_append]
  simp [foldl_worm, setLasti, holdcrit, worm, Imptp.set]
  split <;> rfl

/-- The whole iteration keeps to its nodes, whatever `$ztwormhole` was before. -/
theorem commands_orderly (w : Str) : Orderly c it w (commands c it d) := by
  have hw : c.trigger = 0 ∨ (if c.trigger = 0 then w else subs c it) = subs c it := by
    split <;> simp_all
  generalize hw1 : (if c.trigger = 0 then w else subs c it) = w1 at hw
  have steady {cs : List Cmd} (h : Each (Good c it w1) cs) : cs.foldl worm w1 = w1 :=
    foldl_worm (fun cmd hcmd => (h cmd hcmd).1) w1
  have h4 : Each (Good c it w1) (stage4s c it) := by
    simp only [stage4s, each_flatMap]
    exact fun J _ => stage4_good w1 J
  rw [commands_eq]
  simp only [orderly_append, List.foldl_append, stage1_worm]
  have h0 : (stage0 c).cmds.foldl worm w = w :=
    foldl_worm (fun cmd hcmd => (@stage0_good c it w cmd hcmd).1) w
  rw [h0, hw1, steady (stage2_good w1 hw), steady (stage3_good w1 hw), steady h4,
    steady (stage5_good w1), steady (stage6_good w1), steady (stage7_good w1),
    steady (stage8_good w1 hw), steady (stage9_good w1), steady (stage10_good w1)]
  exact ⟨⟨⟨⟨⟨⟨⟨⟨⟨⟨⟨orderly_of_good (stage0_good w), orderly_of_free stage1_free w⟩,
    orderly_of_good (stage2_good w1 hw)⟩, orderly_of_good (stage3_good w1 hw)⟩,
    orderly_of_good h4⟩, orderly_of_good (stage5_good w1)⟩, orderly_of_good (stage6_good w1)⟩,
    orderly_of_good (stage7_good w1)⟩, orderly_of_good (stage8_good w1 hw)⟩,
    orderly_of_good (stage9_good w1)⟩, orderly_of_good (stage10_good w1)⟩,
    orderly_of_free stage11_free w1⟩

end YdbTest.Discipline
