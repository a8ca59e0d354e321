import YdbTest.CheckDb

namespace YdbTest.Effects

open MString Globals Imptp TreeStore CheckDb

abbrev View := Node → Option Str

def after (us : List Upd) (G : View) : View := fun n => look us n (G n)

def node : Upd → Node
  | .set n _ => n
  | .kill n => n
  | .zkill n => n
  | .modify n _ => n

section Look

variable {n : Node} {r : Option Str}

@[simp] theorem look_set_cons (m : Node) (v : Str) (us : List Upd) :
    look (.set m v :: us) n r = look us n (if m = n then some v else r) := rfl

@[simp] theorem look_kill_cons (m : Node) (us : List Upd) :
    look (.kill m :: us) n r = look us n (if below m n then none else r) := rfl

@[simp] theorem look_zkill_cons (m : Node) (us : List Upd) :
    look (.zkill m :: us) n r = look us n (if m = n then none else r) := rfl

@[simp] theorem look_modify_cons (m : Node) (f : Option Str → Str) (us : List Upd) :
    look (.modify m f :: us) n r = look us n (if m = n then some (f r) else r) := rfl

@[simp] theorem look_none : look ([] : List Upd) n r = r := rfl

theorem look_away {us : List Upd} (h : n.1 ∉ us.map (fun u => (node u).1)) : look us n r = r := by
  apply look_of_not_hits
  intro u hu
  have hne : (node u).1 ≠ n.1 := fun he => h (he ▸ List.mem_map_of_mem hu)
  cases u <;> simp_all [Upd.hits, node, below] <;> rintro rfl <;> exact hne rfl

theorem look_map_set (gs : List Gbl) (l : List Str) (v : Str) (n : Node) (r : Option Str) :
    look (gs.map (fun g => .set (g, l) v)) n r = if n.1 ∈ gs ∧ l = n.2 then some v else r := by
  induction gs generalizing r with
  | nil => simp
  | cons g gs ih =>
    obtain ⟨k, m⟩ := n
    rw [List.map_cons, look_set_cons, ih]
    by_cases hg : k = g
    · subst hg
      by_cases hl : l = m <;> simp [hl]
    · have hne : (g, l) ≠ (k, m) := fun h => hg (Prod.mk.inj h).1.symm
      simp [hg, hne]

theorem look_map_kill (gs : List Gbl) (l : List Str) (n : Node) (r : Option Str) :
    look (gs.map (fun g => .kill (g, l))) n r = if n.1 ∈ gs ∧ l <+: n.2 then none else r := by
  induction gs generalizing r with
  | nil => simp
  | cons g gs ih =>
    obtain ⟨k, m⟩ := n
    rw [List.map_cons, look_kill_cons, ih]
    by_cases hg : k = g
    · subst hg
      by_cases hl : l <+: m <;> simp [hl, below, List.isPrefixOf_iff_prefix]
    · have hne : below (g, l) (k, m) = false := by
        simp [below, Ne.symm hg]
      simp [hg, hne]

end Look

variable (c : Cfg) (it : Iter)

def effect1 : List Upd :=
  (firstTp c it).map (fun e => .set e.1 e.2) ++
    [.set (.jrandomvariableinimptpfillprogram, [fid c, I it]) (val c it),
      .set (.jrandomvariableinimptpfillprogram, [fid c, I it, I it]) (val c it),
      .set (.jrandomvariableinimptpfillprogram, [fid c, I it, I it, subs c it]) (val c it)]

def effect2 : List Upd :=
  [.set (.antp, [fid c, subs c it]) (val c it), .set (.bntp, [fid c, subs c it]) (val c it),
    .set (.cntp, [fid c, subs c it]) (val c it), .set (.dntp, [fid c, subs c it]) (valALT c it)]

def effect3 : List Upd :=
  (ntpKept c it).map (fun e => .set e.1 e.2) ++ [.set (.bntp, [fid c, subsMAX c it]) (valMAX c it)]

def effect4 (J : Nat) : List Upd :=
  families.map (fun g => .set (g, [fid c, subs c it, dec J]) (valj c it J))

def effect5 : List Upd := families.map (fun g => .kill (g, [fid c, subs c it, dec 1]))

def effect6 : List Upd :=
  [.zkill (.jrandomvariableinimptpfillprogram, [fid c, I it]),
    .zkill (.jrandomvariableinimptpfillprogram, [fid c, I it, I it])]

def effect7 : List Upd :=
  [.set (.aspan, [fid c, I it]) (valPIECE c it), .set (.espan, [fid c, I it]) (valPIECE c it),
    .set (.bspan, [fid c, I it]) (translateOut (valPIECE c it) space)]

def effect8 : List Upd :=
  [.kill (.arandom, [fid c, subs c it, dec 1]), .kill (.antp, [fid c, subs c it]),
    .kill (.bntp, [fid c, subs c it]), .zkill (.brandomv, [fid c, subs c it, dec 1]),
    .zkill (.cntp, [fid c, subs c it]), .zkill (.dntp, [fid c, subs c it]),
    .kill (.bntp, [fid c, subsMAX c it])]

def subpiece : Str := translate (piece (valPIECE c it) bar (targetpiece c it)) space 88

/-- `set $piece` on one node, which does nothing for piece zero. -/
def pieceUpd (n : Node) (i : Nat) (v : Str) : List Upd :=
  if i = 0 then [] else [.modify n (fun r => MString.setPiece (r.getD []) bar i v)]

def effect10 : List Upd :=
  .zkill (.espan, [fid c, I it]) ::
    (pieceUpd (.aspan, [fid c, I it]) (targetpiece c it) (subpiece c it) ++
      pieceUpd (.espan, [fid c, I it]) (targetpiece c it) (subpiece c it) ++
      pieceUpd (.bspan, [fid c, I it]) (targetpiece c it) (subpiece c it))

def effect11 : List Upd :=
  (Gbl.andxarr :: ndxarrs).map (fun g => .set (g, [fid c, dec it.jobno, dec it.loop]) (I it))

variable {c it}

theorem effect1_away (G : View) {n : Node}
    (h : n.1 ∉ .jrandomvariableinimptpfillprogram :: families) : after (effect1 c it) G n = G n :=
  look_away (by simpa [effect1, firstTp, node, families, randoms, and_assoc, and_comm] using h)

theorem effect2_away (G : View) {n : Node} (h : n.1 ∉ [Gbl.antp, .bntp, .cntp, .dntp]) :
    after (effect2 c it) G n = G n :=
  look_away (by simpa [effect2, node] using h)

theorem effect3_away (G : View) {n : Node} (h : n.1 ∉ [Gbl.entp, .fntp, .gntp, .hntp, .intp, .bntp]) :
    after (effect3 c it) G n = G n :=
  look_away (by simpa [effect3, ntpKept, node] using h)

theorem effect4_away {J : Nat} (G : View) {n : Node} (h : n.1 ∉ families) :
    after (effect4 c it J) G n = G n :=
  look_away (by simpa [effect4, node] using h)

theorem effect5_away (G : View) {n : Node} (h : n.1 ∉ families) : after (effect5 c it) G n = G n :=
  look_away (by simpa [effect5, node] using h)

theorem effect6_away (G : View) {n : Node} (h : n.1 ∉ [Gbl.jrandomvariableinimptpfillprogram]) :
    after (effect6 c it) G n = G n :=
  look_away (by simpa [effect6, node] using h)

theorem effect7_away (G : View) {n : Node} (h : n.1 ∉ [Gbl.aspan, .espan, .bspan]) :
    after (effect7 c it) G n = G n :=
  look_away (by simpa [effect7, node] using h)

theorem effect10_away (G : View) {n : Node} (h : n.1 ∉ [Gbl.aspan, .espan, .bspan]) :
    after (effect10 c it) G n = G n := by
  apply look_away
  simp only [effect10, pieceUpd]
  split <;> simp_all [node]

theorem effect11_away (G : View) {n : Node} (h : n.1 ∉ Gbl.andxarr :: ndxarrs) :
    after (effect11 c it) G n = G n :=
  look_away (by simpa [effect11, node] using h)

end YdbTest.Effects
