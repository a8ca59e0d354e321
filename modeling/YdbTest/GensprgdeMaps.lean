import YdbTest.GensprgdeCover

namespace YdbTest.Gensprgde

open PrefixOrder

variable {G S R : Type} {ks : List (List S)} {x : List S} {g : G} {pre post : List (Key G S)}
  {i m : Nat}

/-- All keys, with those of a global between the others. -/
def allKeys (g : G) (pre post : List (Key G S)) (ks : List (List S)) : List (Key G S) :=
  pre ++ ks.map (Key.mk g) ++ post

theorem allKeys_get (pre post : List (Key G S)) (hi : i < ks.length) :
    (allKeys g pre post ks)[pre.length + i]? = some ⟨g, ks[i]⟩ := by
  rw [allKeys, List.append_assoc, List.getElem?_append_right (Nat.le_add_right ..),
    Nat.add_sub_cancel_left, List.getElem?_append_left (by simpa using hi), List.getElem?_map,
    List.getElem?_eq_getElem hi, Option.map_some]

theorem zero_of_other {K : Key G S} (h : K.gblname = g → K.subs = []) : K.zero ≠ some g := by
  rw [Key.zero]
  split_ifs with hnil
  · exact nofun
  · exact fun heq => hnil (h (Option.some.inj heq))

theorem zero_of_key {k : List S} (hk : k ≠ []) : (Key.mk g k).zero = some g := if_neg hk

variable [LinearOrder S]

theorem beats_asymm {n n' : AddName G S R} (h : n.Beats n') : ¬ n'.Beats n := by
  rintro (h' | ⟨h', hp', hnp⟩ | ⟨h', hnp', hnp, hin', hout'⟩)
  · obtain h | ⟨h, -⟩ | ⟨h, -⟩ := h <;> omega
  · obtain h | ⟨-, hp, -⟩ | ⟨-, hnp, hnp', -⟩ := h
    · omega
    · exact hnp hp
    · exact hnp' hp'
  · obtain h | ⟨-, hp, -⟩ | ⟨-, -, -, hin, hout⟩ := h
    · omega
    · exact hnp hp
    · exact hout hin'

theorem mapsTo_unique {ns : List (AddName G S R)} {before r r' : R} (h : MapsTo ns before g x r)
    (h' : MapsTo ns before g x r') : r = r' := by
  obtain ⟨n, hn, hcov, rfl, hbest⟩ | ⟨hno, rfl⟩ := h
  · obtain ⟨n', hn', hcov', rfl, hbest'⟩ | ⟨hno, -⟩ := h'
    · by_contra hne
      have hnn : n' ≠ n := fun heq => hne (heq ▸ rfl)
      exact beats_asymm (hbest n' hn' hcov' hnn) (hbest' n hn hcov hnn.symm)
    · exact absurd hcov (hno n hn)
  · obtain ⟨n', hn', hcov', -⟩ | ⟨-, rfl⟩ := h'
    · exact absurd hcov' (hno n' hn')
    · rfl

variable {c : Setup G R}

/-- The subscripted keys of a global among those of all sections. -/
structure Among (c : Setup G R) (g : G) (pre post : List (Key G S)) (ks : List (List S)) :
    Prop where
  sorted : ks.Pairwise (· < ·)
  subscripted : ∀ k ∈ ks, k ≠ []
  others : ∀ K ∈ pre ++ post, K.gblname = g → K.subs = []
  includedGbl : c.excludegbl g = false
  includedReg : c.excludereg (c.region g) = false

theorem Among.not_prefix (h : Among c g pre post ks) (hi : i < ks.length) {K : Key G S}
    (hK : ks[i + 1]?.map (Key.mk g) = some K) : ¬ K.subs <+: ks[i] := by
  obtain ⟨k', hk', rfl⟩ := Option.map_eq_some_iff.mp hK
  have hlt := lt_of_index h.sorted (List.getElem?_eq_getElem hi) hk' (Nat.lt_succ_self i)
  exact fun hpre => absurd (le_of_front hpre) (not_le.mpr hlt)

variable [DecidableEq G]

theorem Among.first_iff (h : Among c g pre post ks) (hi : i < ks.length) :
    decide (pre.length + i = 0 ∨
      ((allKeys g pre post ks)[pre.length + i - 1]?.bind Key.zero) ≠ some g) = decide (i = 0) := by
  refine decide_eq_decide.mpr ⟨fun hor => ?_, fun hzero => ?_⟩
  · by_contra hne
    obtain ⟨j, rfl⟩ := Nat.exists_eq_add_one_of_ne_zero hne
    have hget := allKeys_get (g := g) pre post (show j < ks.length by omega)
    have hzero := zero_of_key (g := g) (h.subscripted ks[j] (List.getElem_mem _))
    obtain hpos | hother := hor
    · omega
    · rw [← Nat.add_assoc, Nat.add_sub_cancel, hget] at hother
      exact hother hzero
  · subst hzero
    by_cases hpre : pre.length = 0
    · exact Or.inl hpre
    · refine Or.inr fun heq => ?_
      obtain ⟨K, hK, hz⟩ := Option.bind_eq_some_iff.mp heq
      rw [allKeys, List.append_assoc, List.getElem?_append_left (by omega)] at hK
      have hmem := List.mem_append_left post (List.mem_of_getElem? hK)
      exact zero_of_other (h.others K hmem) hz

theorem Among.next_eq (h : Among c g pre post ks) (hi : i < ks.length) :
    ((allKeys g pre post ks)[pre.length + i + 1]?.filter fun K => K.zero = some g) =
      ks[i + 1]?.map (Key.mk g) := by
  by_cases hlast : i + 1 < ks.length
  · have hget := allKeys_get (g := g) pre post hlast
    rw [Nat.add_assoc, hget, List.getElem?_eq_getElem hlast, Option.map_some]
    exact Option.filter_some_pos
      (decide_eq_true (zero_of_key (h.subscripted _ (List.getElem_mem _))))
  · rw [List.getElem?_eq_none (Nat.le_of_not_lt hlast), Option.map_none, Option.filter_eq_none_iff]
    intro K hK hz
    have hlen : (pre ++ ks.map (Key.mk g)).length ≤ pre.length + i + 1 := by
      rw [List.length_append, List.length_map]
      omega
    rw [allKeys, List.getElem?_append_right hlen] at hK
    have hmem := List.mem_append_right pre (List.mem_of_getElem? hK)
    exact zero_of_other (h.others K hmem) (of_decide_eq_true hz)

theorem Among.sectionNames_eq (h : Among c g pre post ks) (hi : i < ks.length) :
    sectionNames c (allKeys g pre post ks) (pre.length + i) =
      keyNames (c.region g) (c.currReg (pre.length + i)) (decide (i = 0)) ⟨g, ks[i]⟩
        (ks[i + 1]?.map (Key.mk g)) := by
  have hget := allKeys_get (g := g) pre post hi
  have hsub := h.subscripted ks[i] (List.getElem_mem _)
  simp only [sectionNames, hget, if_neg hsub, h.includedGbl, h.includedReg,
    Bool.false_eq_true, if_false, h.first_iff hi, h.next_eq hi]

theorem Among.index_of_mem (h : Among c g pre post ks) {n : AddName G S R}
    (hn : n ∈ sectionNames c (allKeys g pre post ks) m) (hg : n.gblname = g) :
    ∃ i, m = pre.length + i ∧ i < ks.length := by
  have hother {K : Key G S} (hget : (allKeys g pre post ks)[m]? = some K)
      (hK : K ∈ pre ++ post) : False := by
    simp only [sectionNames, hget] at hn
    split_ifs at hn with hsub
    · exact absurd hn List.not_mem_nil
    · exact absurd hn List.not_mem_nil
    · exact absurd hn List.not_mem_nil
    · exact hsub (h.others K hK ((gblname_of_mem hn).symm.trans hg))
  cases hget : (allKeys g pre post ks)[m]? with
  | none =>
    simp only [sectionNames, hget] at hn
    exact absurd hn List.not_mem_nil
  | some K =>
    rw [allKeys, List.append_assoc] at hget
    by_cases hpre : m < pre.length
    · have hK := hget
      rw [List.getElem?_append_left hpre] at hK
      exact (hother (by rwa [allKeys, List.append_assoc])
        (List.mem_append_left _ (List.mem_of_getElem? hK))).elim
    · refine ⟨m - pre.length, by omega, ?_⟩
      by_contra hlen
      have hK := hget
      rw [List.getElem?_append_right (by omega), List.getElem?_append_right (by simp; omega)] at hK
      exact hother (by rwa [allKeys, List.append_assoc])
        (List.mem_append_right _ (List.mem_of_getElem? hK))

theorem Among.mem_section (h : Among c g pre post ks) (hi : i < ks.length) {n : AddName G S R} :
    n ∈ sectionNames c (allKeys g pre post ks) (pre.length + i) ↔ n.gblname = g ∧
      EmitsAt ks (c.region g) (fun i => c.currReg (pre.length + i)) i ks[i] n.subs n.suffix
        n.region := by
  have hmap : (ks[i + 1]?.map (Key.mk g)).map Key.subs = ks[i + 1]? := by
    rw [Option.map_map]
    exact Option.map_id'
  rw [h.sectionNames_eq hi, mem_keyNames (h.subscripted _ (List.getElem_mem _))
    fun K hK => h.not_prefix hi hK, hmap, EmitsAt, List.getElem?_eq_getElem hi]
  exact and_congr_right fun _ => (and_iff_right rfl).symm

theorem Among.mem_gensprgde (h : Among c g pre post ks) {n : AddName G S R} :
    n ∈ gensprgde c (allKeys g pre post ks) ∧ n.gblname = g ↔
      n.gblname = g ∧ ∃ i k, EmitsAt ks (c.region g) (fun i => c.currReg (pre.length + i)) i k
        n.subs n.suffix n.region := by
  constructor
  · rintro ⟨hn, hg⟩
    obtain ⟨m, -, hm⟩ := List.mem_flatMap.mp hn
    obtain ⟨i, rfl, hi⟩ := h.index_of_mem hm hg
    exact ⟨hg, i, ks[i], ((h.mem_section hi).mp hm).2⟩
  · rintro ⟨hg, i, k, hemits⟩
    obtain ⟨hi, rfl⟩ := List.getElem?_eq_some_iff.mp hemits.1
    refine ⟨List.mem_flatMap.mpr ⟨pre.length + i, List.mem_range.mpr ?_, ?_⟩, hg⟩
    · rw [allKeys, List.length_append, List.length_append, List.length_map]
      omega
    · exact (h.mem_section hi).mpr ⟨hg, hemits⟩

theorem Among.nodup (h : Among c g pre post ks) :
    (((gensprgde c (allKeys g pre post ks)).filter (·.gblname = g)).map AddName.name).Nodup := by
  rw [gensprgde, List.filter_flatMap, List.map_flatMap, List.nodup_flatMap]
  constructor
  · intro m _
    by_cases hm : ∃ i, m = pre.length + i ∧ i < ks.length
    · obtain ⟨i, rfl, hi⟩ := hm
      rw [h.sectionNames_eq hi]
      exact (keyNames_nodup (h.subscripted _ (List.getElem_mem _))
        fun K hK => h.not_prefix hi hK).sublist (List.filter_sublist.map _)
    · have hnil : (sectionNames c (allKeys g pre post ks) m).filter (·.gblname = g) = [] :=
        List.filter_eq_nil_iff.mpr fun n hn hg => hm (h.index_of_mem hn (of_decide_eq_true hg))
      rw [hnil]
      exact List.nodup_nil
  · refine List.pairwise_lt_range.imp fun {m m'} hlt a ha ha' => ?_
    obtain ⟨n, hn, rfl⟩ := List.mem_map.mp ha
    obtain ⟨n', hn', heq⟩ := List.mem_map.mp ha'
    obtain ⟨hmem, hg⟩ := List.mem_filter.mp hn
    obtain ⟨hmem', hg'⟩ := List.mem_filter.mp hn'
    obtain ⟨i, rfl, hi⟩ := h.index_of_mem hmem (of_decide_eq_true hg)
    obtain ⟨j, rfl, hj⟩ := h.index_of_mem hmem' (of_decide_eq_true hg')
    obtain ⟨hsubs, hsuffix⟩ := name_inj heq
    have hemits := ((h.mem_section hi).mp hmem).2
    have hemits' := ((h.mem_section hj).mp hmem').2
    rw [hsubs, hsuffix] at hemits'
    have hij := emits_index h.sorted hemits hemits'
    omega

theorem Among.eq_of_name (h : Among c g pre post ks) {n n' : AddName G S R}
    (hn : n ∈ gensprgde c (allKeys g pre post ks)) (hg : n.gblname = g)
    (hn' : n' ∈ gensprgde c (allKeys g pre post ks)) (hg' : n'.gblname = g)
    (hsubs : n.subs = n'.subs) (hsuffix : n.suffix = n'.suffix) : n = n' := by
  have hname : n.name = n'.name := Prod.ext (hg.trans hg'.symm) (Prod.ext hsubs hsuffix)
  exact List.inj_on_of_nodup_map h.nodup (List.mem_filter.mpr ⟨hn, decide_eq_true hg⟩)
    (List.mem_filter.mpr ⟨hn', decide_eq_true hg'⟩) hname

theorem Among.covers_cases (h : Among c g pre post ks) {q : List S} (hstem : Stem ks x q)
    {n : AddName G S R} (hn : n ∈ gensprgde c (allKeys g pre post ks)) (hcov : n.Covers g x) :
    (n.suffix = .point ∧ n.subs ≠ [] ∧ n.subs <+: q) ∨
      (n.suffix ≠ .point ∧ n.subs ≠ [] ∧ n.subs.length ≤ q.length) ∨
      ∃ i k a, n.suffix ≠ .point ∧ n.subs = q ++ [a] ∧ LastBefore ks x i k ∧ q ++ [a] <+: k ∧
        EmitsAt ks (c.region g) (fun i => c.currReg (pre.length + i)) i k n.subs n.suffix
          n.region := by
  obtain ⟨-, i, k, hemits⟩ := h.mem_gensprgde.mp ⟨hn, hcov.1⟩
  obtain hpoint | ⟨hrange, p, a, hsubs, hp⟩ :=
    span_stem h.sorted h.subscripted hemits hcov.2 hstem
  · exact Or.inl hpoint
  · by_cases hlen : p.length < q.length
    · refine Or.inr (Or.inl ⟨hrange, hsubs ▸ List.concat_ne_nil a p, ?_⟩)
      rw [hsubs, List.length_append, List.length_singleton]
      omega
    · have hpq : p = q := hp.eq_of_length (le_antisymm hp.length_le (Nat.le_of_not_lt hlen))
      subst hpq
      obtain ⟨hlast, ha⟩ := last_of_range h.sorted (hsubs ▸ hemits) hrange (hsubs ▸ hcov.2) hstem
      exact Or.inr (Or.inr ⟨i, k, a, hrange, hsubs, hlast, ha, hemits⟩)

theorem Among.mapsTo_range (h : Among c g pre post ks) {q k : List S} (hstem : Stem ks x q)
    (hlast : LastBefore ks x i k) {a : S} (ha : q ++ [a] <+: k) :
    MapsTo (gensprgde c (allKeys g pre post ks)) (c.region g) g x
      (c.currReg (pre.length + i)) := by
  obtain ⟨suffix, hrange, hemits, hspan⟩ := exists_range (c.region g)
    (fun i => c.currReg (pre.length + i)) hstem hlast ha
  let n : AddName G S R := ⟨g, q ++ [a], suffix, c.currReg (pre.length + i)⟩
  have hn := (h.mem_gensprgde (n := n)).mpr ⟨rfl, i, k, hemits⟩
  have hlen : n.subs.length = q.length + 1 := List.length_append
  refine Or.inl ⟨n, hn.1, ⟨rfl, hspan⟩, rfl, fun n' hn' hcov hne => ?_⟩
  obtain ⟨-, -, hpre⟩ | ⟨-, -, hle⟩ | ⟨j, k', a', hrange', hsubs, hlast', ha', hemits'⟩ :=
    h.covers_cases hstem hn' hcov
  · have := hpre.length_le
    exact Or.inl (by omega)
  · exact Or.inl (by omega)
  · obtain rfl := hlast'.unique hlast
    obtain rfl := Option.some.inj (hlast'.get.symm.trans hlast.get)
    obtain rfl := next_unique ha' ha
    have hsuffix := suffix_unique (hsubs ▸ hemits'.2) hrange' hemits.2 hrange
    exact absurd (h.eq_of_name hn' hcov.1 hn.1 rfl hsubs hsuffix) hne

theorem Among.mapsTo_point (h : Among c g pre post ks) {q k : List S} {r : R}
    (hstem : Stem ks x q)
    (hemits : EmitsAt ks (c.region g) (fun i => c.currReg (pre.length + i)) i k q .point r)
    (hno : ∀ j k' a, LastBefore ks x j k' → ¬ q ++ [a] <+: k') :
    MapsTo (gensprgde c (allKeys g pre post ks)) (c.region g) g x r := by
  let n : AddName G S R := ⟨g, q, .point, r⟩
  have hn := (h.mem_gensprgde (n := n)).mpr ⟨rfl, i, k, hemits⟩
  refine Or.inl ⟨n, hn.1, ⟨rfl, hstem.stem⟩, rfl, fun n' hn' hcov hne => ?_⟩
  obtain ⟨hpoint, -, hpre⟩ | ⟨hrange, -, hle⟩ | ⟨j, k', a, -, -, hlast, ha, -⟩ :=
    h.covers_cases hstem hn' hcov
  · obtain heq | hlt := hpre.length_le.eq_or_lt
    · exact absurd (h.eq_of_name hn' hcov.1 hn.1 rfl (hpre.eq_of_length heq) hpoint) hne
    · exact Or.inl hlt
  · obtain heq | hlt := hle.eq_or_lt
    · exact Or.inr (Or.inl ⟨heq, rfl, hrange⟩)
    · exact Or.inl hlt
  · exact absurd ha (hno j k' a hlast)

theorem Among.mapsTo_section (h : Among c g pre post ks) {k : List S}
    (hlast : LastBefore ks x i k) :
    MapsTo (gensprgde c (allKeys g pre post ks)) (c.region g) g x
      (c.currReg (pre.length + i)) := by
  obtain ⟨q, hstem⟩ := exists_stem h.subscripted (List.mem_of_getElem? hlast.get) x
  by_cases hrange : ∃ a, q ++ [a] <+: k
  · obtain ⟨a, ha⟩ := hrange
    exact h.mapsTo_range hstem hlast ha
  · obtain ⟨-, hemits⟩ := exists_point (c.region g) (fun i => c.currReg (pre.length + i)) h.sorted
      h.subscripted hstem hlast fun a ha => hrange ⟨a, ha⟩
    refine h.mapsTo_point hstem hemits fun j k' a hlast' ha => hrange ⟨a, ?_⟩
    obtain rfl := hlast'.unique hlast
    rwa [Option.some.inj (hlast.get.symm.trans hlast'.get)]

theorem Among.mapsTo_before (h : Among c g pre post ks) (hall : ∀ k ∈ ks, x < k) :
    MapsTo (gensprgde c (allKeys g pre post ks)) (c.region g) g x (c.region g) := by
  have hno {j : Nat} {k' : List S} (hlast : LastBefore ks x j k') : False :=
    absurd hlast.le (not_le.mpr (hall k' (List.mem_of_getElem? hlast.get)))
  by_cases hks : ks = []
  · refine Or.inr ⟨fun n hn hcov => ?_, rfl⟩
    obtain ⟨-, i, k, hget, -⟩ := h.mem_gensprgde.mp ⟨hn, hcov.1⟩
    subst hks
    exact nomatch hget
  · obtain ⟨K, hK⟩ := List.exists_mem_of_ne_nil ks hks
    obtain ⟨q, hstem⟩ := exists_stem h.subscripted hK x
    by_cases hq : q = []
    · refine Or.inr ⟨fun n hn hcov => ?_, rfl⟩
      subst hq
      obtain ⟨-, hne, hpre⟩ | ⟨-, hne, hle⟩ | ⟨j, k', a, -, -, hlast, -⟩ :=
        h.covers_cases hstem hn hcov
      · exact hne (List.prefix_nil.mp hpre)
      · exact hne (List.length_eq_zero_iff.mp (Nat.le_zero.mp hle))
      · exact hno hlast
    · obtain ⟨k, hemits⟩ := exists_before (c.region g) (fun i => c.currReg (pre.length + i))
        h.sorted hstem hall hq
      exact h.mapsTo_point hstem hemits fun j k' a hlast => (hno hlast).elim

/-- The names of a global give each section its region and leave what is before the first one where
it was, and no name is there twice. -/
theorem sections_mapped (h : Among c g pre post ks) :
    (((gensprgde c (allKeys g pre post ks)).filter (·.gblname = g)).map AddName.name).Nodup ∧
    (∀ i k x, ks[i]? = some k → k ≤ x → (∀ k', ks[i + 1]? = some k' → x < k') → ∀ r,
      MapsTo (gensprgde c (allKeys g pre post ks)) (c.region g) g x r ↔
        r = c.currReg (pre.length + i)) ∧
    ∀ x, (∀ k ∈ ks, x < k) → ∀ r,
      MapsTo (gensprgde c (allKeys g pre post ks)) (c.region g) g x r ↔ r = c.region g := by
  refine ⟨h.nodup, fun i k x hget hle hnext r => ?_, fun x hall r => ?_⟩
  · have hmaps := h.mapsTo_section (lastBefore_of_next h.sorted hget hle hnext)
    exact ⟨fun hr => mapsTo_unique hr hmaps, fun hr => hr ▸ hmaps⟩
  · have hmaps := h.mapsTo_before hall
    exact ⟨fun hr => mapsTo_unique hr hmaps, fun hr => hr ▸ hmaps⟩

theorem sections_mapped_three :
    let c : Setup Nat Nat := ⟨fun _ => 0, fun _ => false, fun _ => false, (· + 1)⟩
    let ks : List (List Nat) := [[1, 2], [1, 2, 7], [3, 4]]
    ∀ r, MapsTo (gensprgde c (allKeys 5 [⟨5, []⟩] [⟨6, [1]⟩] ks)) 0 5 [1, 3] r ↔ r = 3 := by
  intro c ks
  have h : Among c 5 [⟨5, []⟩] [⟨6, [1]⟩] ks :=
    ⟨by decide, by decide, by decide, rfl, rfl⟩
  exact (sections_mapped h).2.1 1 [1, 2, 7] [1, 3] rfl (by decide) (by decide)

end YdbTest.Gensprgde
