import YdbTest.CheckDb

namespace YdbTest.Iteration

open MString Globals Command Imptp TreeStore

def target : Cmd → Option Node
  | .set n _ => some n
  | .kill n => some n
  | .zkill n => some n
  | .incr n _ => some n
  | .setPiece n _ _ => some n
  | .ztrigger n => some n
  | _ => none

@[simp] theorem target_set (n : Node) (v : Val) : target (.set n v) = some n := rfl

@[simp] theorem target_setStr (n : Node) (v : Str) : target (Imptp.set n v) = some n := rfl

@[simp] theorem target_kill (n : Node) : target (.kill n) = some n := rfl

@[simp] theorem target_zkill (n : Node) : target (.zkill n) = some n := rfl

@[simp] theorem target_incr (n : Node) (k : Nat) : target (.incr n k) = some n := rfl

@[simp] theorem target_setPiece (n : Node) (i : Nat) (v : Val) :
    target (.setPiece n i v) = some n := rfl

@[simp] theorem target_setSubpiece (n : Node) (f : Str → Str) :
    target (.setSubpiece n f) = none := rfl

@[simp] theorem target_setZtwormhole (v : Str) : target (.setZtwormhole v) = none := rfl

@[simp] theorem target_ztrigger (n : Node) : target (.ztrigger n) = some n := rfl

@[simp] theorem target_call (x : Call) : target (.call x) = none := rfl

/-- Every one of the commands satisfies `Q`. -/
def Each (Q : Cmd → Prop) (cs : List Cmd) : Prop := ∀ cmd ∈ cs, Q cmd

/-- Every node the commands are on satisfies `P`. -/
def On (P : Node → Prop) (cmd : Cmd) : Prop := ∀ t, target cmd = some t → P t

abbrev Targets (P : Node → Prop) (cs : List Cmd) : Prop := Each (On P) cs

section Each

variable {P P' : Node → Prop} {Q : Cmd → Prop}

@[simp] theorem each_nil : Each Q [] := by simp [Each]

@[simp] theorem each_cons (cmd : Cmd) (cs : List Cmd) : Each Q (cmd :: cs) ↔ Q cmd ∧ Each Q cs := by
  simp [Each]

@[simp] theorem each_append (cs ds : List Cmd) : Each Q (cs ++ ds) ↔ Each Q cs ∧ Each Q ds := by
  simp only [Each, List.mem_append]
  exact ⟨fun h => ⟨fun x hx => h x (Or.inl hx), fun x hx => h x (Or.inr hx)⟩,
    fun h x hx => hx.elim (h.1 x) (h.2 x)⟩

@[simp] theorem each_ite (p : Prop) [Decidable p] (cs ds : List Cmd) :
    Each Q (if p then cs else ds) ↔ (p → Each Q cs) ∧ (¬ p → Each Q ds) := by
  split <;> simp_all

@[simp] theorem each_plain (c : Cfg) (cs : List Cmd) :
    Each Q (plain c cs) ↔ (c.trigger = 0 → Each Q cs) := by
  simp [plain]

@[simp] theorem each_map {α : Type} (f : α → Cmd) (as : List α) :
    Each Q (as.map f) ↔ ∀ a ∈ as, Q (f a) := by
  simp [Each]

@[simp] theorem each_flatMap {α : Type} (f : α → List Cmd) (as : List α) :
    Each Q (as.flatMap f) ↔ ∀ a ∈ as, Each Q (f a) := by
  simp only [Each, List.mem_flatMap]
  exact ⟨fun h a ha x hx => h x ⟨a, ha, hx⟩, fun h x ⟨a, ha, hx⟩ => h a ha x hx⟩

theorem Targets.mono {cs : List Cmd} (h : Targets P cs) (hP : ∀ t, P t → P' t) : Targets P' cs :=
  fun cmd hcmd t ht => hP t (h cmd hcmd t ht)

@[simp] theorem on_set (n : Node) (v : Val) : On P (.set n v) ↔ P n := by simp [On]

@[simp] theorem on_setStr (n : Node) (v : Str) : On P (Imptp.set n v) ↔ P n := by simp [On]

@[simp] theorem on_kill (n : Node) : On P (.kill n) ↔ P n := by simp [On]

@[simp] theorem on_zkill (n : Node) : On P (.zkill n) ↔ P n := by simp [On]

@[simp] theorem on_incr (n : Node) (k : Nat) : On P (.incr n k) ↔ P n := by simp [On]

@[simp] theorem on_setPiece (n : Node) (i : Nat) (v : Val) : On P (.setPiece n i v) ↔ P n := by
  simp [On]

@[simp] theorem on_setSubpiece (n : Node) (f : Str → Str) : On P (.setSubpiece n f) := by simp [On]

@[simp] theorem on_setZtwormhole (v : Str) : On P (.setZtwormhole v) := by simp [On]

@[simp] theorem on_ztrigger (n : Node) : On P (.ztrigger n) ↔ P n := by simp [On]

@[simp] theorem on_call (x : Call) : On P (.call x) := by simp [On]

theorem hits_target {cmd : Cmd} {s : St} {u : Upd} {n : Node} (hu : u ∈ cmd.upd s)
    (hn : u.hits n = true) : ∃ t, target cmd = some t ∧ below t n = true := by
  have hself : below n n = true := by simp [below]
  cases cmd with
  | set m v =>
    obtain rfl : u = .set m (v.eval s) := by simpa [Cmd.upd] using hu
    obtain rfl : m = n := by simpa [Upd.hits] using hn
    exact ⟨m, rfl, hself⟩
  | kill m =>
    obtain rfl : u = .kill m := by simpa [Cmd.upd] using hu
    exact ⟨m, rfl, hn⟩
  | zkill m =>
    obtain rfl : u = .zkill m := by simpa [Cmd.upd] using hu
    obtain rfl : m = n := by simpa [Upd.hits] using hn
    exact ⟨m, rfl, hself⟩
  | incr m k =>
    obtain rfl : u = .modify m (increment k) := by simpa [Cmd.upd] using hu
    obtain rfl : m = n := by simpa [Upd.hits] using hn
    exact ⟨m, rfl, hself⟩
  | setPiece m i v =>
    rw [Cmd.upd] at hu
    split_ifs at hu
    · simp at hu
    · obtain rfl := List.mem_singleton.mp hu
      obtain rfl : m = n := by simpa [Upd.hits] using hn
      exact ⟨m, rfl, hself⟩
  | _ => simp [Cmd.upd] at hu

theorem look_upd_of_targets {cs : List Cmd} {s : St} {n : Node}
    (h : Targets (fun t => below t n = false) cs) (r : Option Str) :
    look (cs.flatMap (Cmd.upd s)) n r = r := by
  apply look_of_not_hits
  intro u hu
  obtain ⟨cmd, hcmd, hu⟩ := List.mem_flatMap.mp hu
  by_contra hn
  obtain ⟨t, ht, hb⟩ := hits_target hu (by simpa using hn)
  rw [h cmd hcmd t ht] at hb
  simp at hb

end Each

variable (c : Cfg) (it : Iter) (d : Draws)

/-- The commands of a whole iteration, and the steps other jobs see of it. -/
def commands : List Cmd := (impjob c it d).flatMap Block.cmds

def atoms : List (List Cmd) := (impjob c it d).flatMap Block.atoms

theorem flatten_atoms : (atoms c it d).flatten = commands c it d := by
  unfold atoms commands
  generalize impjob c it d = bs
  induction bs with
  | nil => rfl
  | cons b bs ih =>
    have hb : b.atoms.flatten = b.cmds := by
      unfold Block.atoms
      split
      · simp
      · induction b.cmds with
        | nil => rfl
        | cons x xs ihx => simpa using ihx
    rw [List.flatMap_cons, List.flatten_append, hb, ih, List.flatMap_cons]

def stage4s : List Cmd := (List.range' 1 c.jobcnt).flatMap (fun J => (stage4 c it J).cmds)

theorem commands_eq : commands c it d =
    (stage0 c).cmds ++ (stage1 c it d).cmds ++ (stage2 c it d).cmds ++ (stage3 c it).cmds ++
      stage4s c it ++ (stage5 c it d).cmds ++ (stage6 c it).cmds ++ (stage7 c it).cmds ++
      (stage8 c it d).cmds ++ (stage9 c d).cmds ++ (stage10 c it).cmds ++ (stage11 c it).cmds := by
  simp [commands, impjob, stage4s, List.flatMap_map]

end YdbTest.Iteration
