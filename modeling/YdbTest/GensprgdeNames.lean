import Mathlib.Data.List.Nodup
import YdbTest.Gensprgde
import YdbTest.PrefixOrder

namespace YdbTest.Gensprgde

open PrefixOrder

variable {G S R : Type} {k k' p u v : List S}

theorem mem_names {name x : List S} {ss : List S} :
    x ∈ names name ss ↔ ∃ t, t ≠ [] ∧ t <+: ss ∧ x = name ++ t := by
  induction ss generalizing name with
  | nil =>
    refine ⟨fun h => absurd h List.not_mem_nil, ?_⟩
    rintro ⟨t, ht, hpre, -⟩
    exact absurd (List.prefix_nil.mp hpre) ht
  | cons s ss ih =>
    rw [names, List.mem_cons, ih]
    constructor
    · rintro (rfl | ⟨t, ht, hpre, rfl⟩)
      · exact ⟨[s], List.cons_ne_nil _ _, List.prefix_append [s] ss, rfl⟩
      · exact ⟨s :: t, List.cons_ne_nil _ _, (List.prefix_cons_inj s).mpr hpre,
          List.append_assoc ..⟩
    · rintro ⟨t, ht, hpre, rfl⟩
      obtain h | ⟨w, rfl, hw⟩ := List.prefix_cons_iff.mp hpre
      · exact absurd h ht
      · by_cases hnil : w = []
        · exact Or.inl (hnil ▸ rfl)
        · exact Or.inr ⟨w, hnil, hw, List.append_cons name s w⟩

theorem names_nodup (name ss : List S) : (names name ss).Nodup := by
  induction ss generalizing name with
  | nil => exact List.nodup_nil
  | cons s ss ih =>
    refine List.nodup_cons.mpr ⟨fun h => ?_, ih (name ++ [s])⟩
    obtain ⟨t, ht, -, heq⟩ := mem_names.mp h
    exact ht (List.self_eq_append_right.mp heq)

/-- Two keys are cut where they differ first, or where one of them ends. -/
structure Cut (k k' p u v : List S) : Prop where
  left : k = p ++ u
  right : k' = p ++ v
  parts : u = [] ∨ v = [] ∨ u.head? ≠ v.head?

theorem cut_take {c : Nat} (hsame : ∀ i < c, k[i]? = k'[i]?)
    (hparts : c = min k.length k'.length ∨ k[c]? ≠ k'[c]?) :
    Cut k k' (k.take c) (k.drop c) (k'.drop c) := by
  have htake : k.take c = k'.take c := by
    refine List.ext_getElem? fun i => ?_
    rw [List.getElem?_take, List.getElem?_take]
    split_ifs with hi
    · exact hsame i hi
    · rfl
  refine ⟨(List.take_append_drop c k).symm, ?_, ?_⟩
  · rw [htake, List.take_append_drop]
  · rw [List.head?_drop, List.head?_drop, List.drop_eq_nil_iff, List.drop_eq_nil_iff]
    obtain h | h := hparts
    · rw [← or_assoc]
      exact Or.inl (by omega)
    · exact Or.inr (Or.inr h)

/-- The names of a section, with their regions: by its key, by whether this is the first one and by
the next one. -/
inductive Emits (prev cur : R) (first : Bool) (k : List S) (next : Option (List S)) :
    List S → Suffix S → R → Prop
  | before (p : List S) : first = true → p ≠ [] → p <+: k → p ≠ k →
      Emits prev cur first k next p .point prev
  | range (q : List S) (a : S) (k' : List S) (b : S) : next = some k' → q ++ [a] <+: k →
      q ++ [b] <+: k' → a ≠ b → Emits prev cur first k next (q ++ [a]) (.to b) cur
  | tail (q : List S) (a : S) : q ++ [a] <+: k → (∀ k', next = some k' → ¬ q <+: k') →
      Emits prev cur first k next (q ++ [a]) .colon cur
  | same (k' : List S) : next = some k' → k <+: k' → Emits prev cur first k next k .point cur
  | head (p k' : List S) : next = some k' → p <+: k' → p ≠ k' → ¬ p <+: k →
      Emits prev cur first k next p .point cur

theorem Cut.not_both (h : Cut k k' p u v) {a : S} (hu : [a] <+: u) (hv : [a] <+: v) : False := by
  obtain ⟨s, rfl⟩ := hu
  obtain ⟨t, rfl⟩ := hv
  obtain hp | hp | hp := h.parts
  · exact List.cons_ne_nil _ _ hp
  · exact List.cons_ne_nil _ _ hp
  · exact hp rfl

theorem Cut.common (h : Cut k k' p u v) {x : List S} (hk : x <+: k) (hk' : x <+: k') :
    x <+: p := by
  rw [h.left] at hk
  rw [h.right] at hk'
  obtain hx | ⟨s, hs, rfl, hsu⟩ := prefix_append_cases hk
  · exact hx
  · obtain ⟨a, w, rfl⟩ := List.exists_cons_of_ne_nil hs
    have hsv := (List.prefix_append_right_inj p).mp hk'
    have ha : [a] <+: a :: w := List.prefix_append [a] w
    exact (h.not_both (ha.trans hsu) (ha.trans hsv)).elim

theorem Cut.eq_of_branch (h : Cut k k' p u v) {q : List S} {a b : S} (hk : q ++ [a] <+: k)
    (hk' : q ++ [b] <+: k') (hab : a ≠ b) : q = p := by
  have hq := h.common (prefix_of_next hk) (prefix_of_next hk')
  by_contra hne
  obtain ⟨c, hc⟩ := exists_next hq (Ne.symm hne)
  have hleft : p <+: k := h.left ▸ List.prefix_append p u
  have hright : p <+: k' := h.right ▸ List.prefix_append p v
  exact hab ((next_unique hk (hc.trans hleft)).trans (next_unique hk' (hc.trans hright)).symm)

theorem Cut.lists (h : Cut k k' p u v) (hv : v ≠ []) :
    k.take p.length = p ∧ k.drop p.length = u ∧ k'.drop p.length = v ∧
      (k'.take (k'.length - 1)).drop p.length = v.dropLast ∧
      (k.length + 1 = p.length + 1 ↔ u = []) := by
  have hlen := List.length_pos_iff.mpr hv
  rw [h.left, h.right]
  refine ⟨List.take_left, List.drop_left, List.drop_left, ?_, ?_⟩
  · rw [← List.dropLast_eq_take, List.dropLast_append_of_ne_nil hv, List.drop_left]
  · rw [List.length_append, Nat.add_right_cancel_iff, Nat.add_eq_left, List.length_eq_zero_iff]

theorem Cut.right_ne_nil (h : Cut k k' p u v) (hlt : ¬ k' <+: k) : v ≠ [] := by
  rintro rfl
  rw [h.right, List.append_nil, h.left] at hlt
  exact hlt (List.prefix_append p u)

theorem mem_firstNames {r : R} {K : Key G S} {n : AddName G S R} (hk : K.subs ≠ []) :
    n ∈ firstNames r K ↔ n.gblname = K.gblname ∧ n.subs ≠ [] ∧ n.subs <+: K.subs ∧
      n.subs ≠ K.subs ∧ n.suffix = .point ∧ n.region = r := by
  rw [firstNames, ← List.dropLast_eq_take, List.mem_map]
  constructor
  · rintro ⟨x, hx, rfl⟩
    obtain ⟨t, ht, hpre, rfl⟩ := mem_names.mp hx
    obtain ⟨hp, hne⟩ := (prefix_dropLast_iff hk).mp hpre
    exact ⟨rfl, ht, hp, hne, rfl, rfl⟩
  · obtain ⟨g, x, e, r'⟩ := n
    rintro ⟨rfl, hx, hp, hne, rfl, rfl⟩
    exact ⟨x, mem_names.mpr ⟨x, hx, (prefix_dropLast_iff hk).mpr ⟨hp, hne⟩, rfl⟩, rfl⟩

theorem mem_lastNames {r : R} {K : Key G S} {n : AddName G S R} :
    n ∈ lastNames r K ↔ n.gblname = K.gblname ∧ (∃ q a, n.subs = q ++ [a] ∧ q ++ [a] <+: K.subs) ∧
      n.suffix = .colon ∧ n.region = r := by
  rw [lastNames, List.mem_map]
  constructor
  · rintro ⟨x, hx, rfl⟩
    obtain ⟨t, ht, hpre, rfl⟩ := mem_names.mp hx
    obtain ⟨q, a, rfl⟩ := (List.eq_nil_or_concat' x).resolve_left ht
    exact ⟨rfl, ⟨q, a, rfl, hpre⟩, rfl, rfl⟩
  · obtain ⟨g, x, e, r'⟩ := n
    rintro ⟨rfl, ⟨q, a, rfl, hpre⟩, rfl, rfl⟩
    exact ⟨q ++ [a], mem_names.mpr ⟨q ++ [a], by simp, hpre, rfl⟩, rfl⟩

theorem Cut.ranges {g : G} {r : R} (h : Cut k k' p u v) (hv : v ≠ []) {n : AddName G S R} :
    (n ∈ match names p u, v with
      | name :: ns, b :: _ =>
        (⟨g, name, .to b, r⟩ : AddName G S R) :: ns.map (⟨g, ·, .colon, r⟩)
      | _, _ => []) ↔
      n.gblname = g ∧ n.region = r ∧
        ((∃ q a b, q ++ [a] <+: k ∧ q ++ [b] <+: k' ∧ a ≠ b ∧ n.subs = q ++ [a] ∧
            n.suffix = .to b) ∨
          ∃ q a, q ++ [a] <+: k ∧ ¬ q <+: k' ∧ n.subs = q ++ [a] ∧ n.suffix = .colon) := by
  obtain ⟨b, v, rfl⟩ := List.exists_cons_of_ne_nil hv
  have hb : p ++ [b] <+: k' := h.right ▸ ⟨v, by simp⟩
  cases u with
  | nil =>
    rw [names]
    refine ⟨fun hn => absurd hn List.not_mem_nil, ?_⟩
    have hkp : k = p := h.left.trans (List.append_nil p)
    rintro ⟨-, -, ⟨q, a, c, hq, hq', hac, -⟩ | ⟨q, a, hq, hq', -⟩⟩
    · have heq := h.eq_of_branch hq hq' hac
      exact absurd (hkp.trans heq.symm) (ne_of_next hq)
    · exact absurd ((hkp ▸ prefix_of_next hq).trans (prefix_of_next hb)) hq'
  | cons a u =>
    have ha : p ++ [a] <+: k := h.left ▸ ⟨u, by simp⟩
    have hab : a ≠ b := fun hab => h.not_both (List.prefix_append [a] u) (hab ▸ ⟨v, rfl⟩)
    rw [names, List.mem_cons, List.mem_map]
    constructor
    · rintro (rfl | ⟨x, hx, rfl⟩)
      · exact ⟨rfl, rfl, Or.inl ⟨p, a, b, ha, hb, hab, rfl, rfl⟩⟩
      · obtain ⟨t, ht, hpre, rfl⟩ := mem_names.mp hx
        obtain ⟨w, c, rfl⟩ := (List.eq_nil_or_concat' t).resolve_left ht
        refine ⟨rfl, rfl, Or.inr ⟨p ++ [a] ++ w, c, ?_, fun hq => ?_, ?_, rfl⟩⟩
        · rw [h.left, List.append_cons p a u, List.append_assoc _ w]
          exact (List.prefix_append_right_inj _).mpr hpre
        · exact hab (next_unique ((List.prefix_append _ w).trans hq) hb)
        · exact (List.append_assoc ..).symm
    · obtain ⟨g', x, e, r'⟩ := n
      rintro ⟨rfl, rfl, ⟨q, c, d, hq, hq', hcd, rfl, rfl⟩ | ⟨q, c, hq, hq', rfl, rfl⟩⟩
      · obtain rfl := h.eq_of_branch hq hq' hcd
        rw [next_unique hq ha, next_unique hq' hb]
        exact Or.inl rfl
      · refine Or.inr ⟨q ++ [c], mem_names.mpr ?_, rfl⟩
        have hpre := h.left ▸ prefix_of_next hq
        obtain hp | ⟨s, hs, rfl, hsu⟩ := prefix_append_cases hpre
        · exact absurd (hp.trans (prefix_of_next hb)) hq'
        · obtain ⟨a', w, rfl⟩ := List.exists_cons_of_ne_nil hs
          rw [h.left, List.append_assoc, List.prefix_append_right_inj, List.cons_append,
            List.cons_prefix_cons] at hq
          obtain ⟨rfl, hw⟩ := hq
          exact ⟨w ++ [c], by simp, hw, by simp⟩

theorem Cut.points (h : Cut k k' p u v) (hv : v ≠ []) {x : List S} :
    x ∈ names p v.dropLast ↔ x <+: k' ∧ x ≠ k' ∧ ¬ x <+: k := by
  rw [mem_names]
  constructor
  · rintro ⟨t, ht, hpre, rfl⟩
    obtain ⟨hp, hne⟩ := (prefix_dropLast_iff hv).mp hpre
    have hk' : p ++ t <+: k' := h.right ▸ (List.prefix_append_right_inj p).mpr hp
    refine ⟨hk', fun heq => hne (List.append_cancel_left (heq.trans h.right)), fun hk => ?_⟩
    have hlen := (h.common hk hk').length_le
    rw [List.length_append] at hlen
    exact ht (List.length_eq_zero_iff.mp (by omega))
  · rintro ⟨hk', hne, hk⟩
    obtain hp | ⟨t, ht, rfl, htv⟩ := prefix_append_cases (h.right ▸ hk')
    · exact absurd (hp.trans (h.left ▸ List.prefix_append p u)) hk
    · refine ⟨t, ht, (prefix_dropLast_iff hv).mpr ⟨htv, fun heq => hne ?_⟩, rfl⟩
      rw [heq, h.right]

/-- What a command adds, without the region. -/
def AddName.name (n : AddName G S R) : G × List S × Suffix S := (n.gblname, n.subs, n.suffix)

theorem name_inj {n n' : AddName G S R} (h : n.name = n'.name) :
    n.subs = n'.subs ∧ n.suffix = n'.suffix :=
  Prod.ext_iff.mp (Prod.ext_iff.mp h).2

theorem added_nodup {xs : List (List S)} (h : xs.Nodup) (g : G) (e : Suffix S) (r : R) :
    ((xs.map fun x => (⟨g, x, e, r⟩ : AddName G S R)).map AddName.name).Nodup := by
  rw [List.map_map]
  exact List.Nodup.map (fun x y heq => (Prod.ext_iff.mp (Prod.ext_iff.mp heq).2).1) h

theorem append_nodup {ns ns' : List (AddName G S R)} (h : (ns.map AddName.name).Nodup)
    (h' : (ns'.map AddName.name).Nodup)
    (hdiff : ∀ n ∈ ns, ∀ n' ∈ ns', n.subs = n'.subs → n.suffix ≠ n'.suffix) :
    ((ns ++ ns').map AddName.name).Nodup := by
  rw [List.map_append]
  refine List.nodup_append.mpr ⟨h, h', fun a ha b hb heq => ?_⟩
  obtain ⟨n, hn, rfl⟩ := List.mem_map.mp ha
  obtain ⟨n', hn', rfl⟩ := List.mem_map.mp hb
  obtain ⟨hsubs, hsuffix⟩ := name_inj heq
  exact hdiff n hn n' hn' hsubs hsuffix

theorem Cut.ranges_nodup {g : G} {r : R} (p u v : List S) :
    ((match names p u, v with
      | name :: ns, b :: _ =>
        (⟨g, name, .to b, r⟩ : AddName G S R) :: ns.map (⟨g, ·, .colon, r⟩)
      | _, _ => []).map AddName.name).Nodup := by
  have hall := names_nodup p u
  cases hu : names p u with
  | nil => exact List.nodup_nil
  | cons name ns =>
    cases v with
    | nil => exact List.nodup_nil
    | cons b v =>
      refine List.nodup_cons.mpr ⟨fun h => ?_, ?_⟩
      · obtain ⟨n, hn, heq⟩ := List.mem_map.mp h
        obtain ⟨x, -, rfl⟩ := List.mem_map.mp hn
        exact nomatch (Prod.ext_iff.mp (Prod.ext_iff.mp heq).2).2
      · exact added_nodup (List.nodup_cons.mp (hu ▸ hall)).2 ..

variable [DecidableEq S]

theorem matchsubs_cut (hk : k ≠ []) (hk' : k' ≠ []) :
    ∃ p u v, Cut k k' p u v ∧ matchsubs k k' = p.length + 1 := by
  have hlen := List.length_pos_iff.mpr hk
  have hlen' := List.length_pos_iff.mpr hk'
  obtain ⟨c, hc, hsame, hparts, hm⟩ : ∃ c ≤ min k.length k'.length,
      (∀ i < c, k[i]? = k'[i]?) ∧ (c = min k.length k'.length ∨ k[c]? ≠ k'[c]?) ∧
      matchsubs k k' = c + 1 := by
    have hmin : (if k.length < k'.length then k.length else k'.length) =
        min k.length k'.length := by split_ifs <;> omega
    rw [matchsubs, hmin]
    cases hfind : (List.range' 1 (min k.length k'.length)).find?
        fun j => k[j - 1]? ≠ k'[j - 1]? with
    | none =>
      have hall (i : Nat) (hi : i < min k.length k'.length) : k[i]? = k'[i]? := by
        have h := List.find?_eq_none.mp hfind (i + 1) (List.mem_range'_1.mpr (by omega))
        simpa using h
      have hlast := hall (min k.length k'.length - 1) (by omega)
      exact ⟨_, le_refl _, hall, Or.inl rfl, by simp [hlast]⟩
    | some j =>
      obtain ⟨hj, hmem, hbefore⟩ := List.find?_range'_eq_some.mp hfind
      have hdiff : k[j - 1]? ≠ k'[j - 1]? := by simpa using hj
      have hbound := List.mem_range'_1.mp hmem
      refine ⟨j - 1, by omega, fun i hi => ?_, Or.inr hdiff, ?_⟩
      · have h := hbefore (i + 1) (by omega) (by omega)
        simpa using h
      · simp only [Option.getD_some, if_pos hdiff, ite_self]
        omega
  refine ⟨_, _, _, cut_take hsame hparts, ?_⟩
  rw [hm, List.length_take]
  omega

theorem mem_middleNames {r : R} {K K' : Key G S} (hk : K.subs ≠ [])
    (hlt : ¬ K'.subs <+: K.subs) {n : AddName G S R} :
    n ∈ middleNames r K K' ↔ n.gblname = K.gblname ∧ n.region = r ∧
      (((∃ q a b, q ++ [a] <+: K.subs ∧ q ++ [b] <+: K'.subs ∧ a ≠ b ∧ n.subs = q ++ [a] ∧
            n.suffix = .to b) ∨
          ∃ q a, q ++ [a] <+: K.subs ∧ ¬ q <+: K'.subs ∧ n.subs = q ++ [a] ∧ n.suffix = .colon) ∨
        n.suffix = .point ∧ (n.subs = K.subs ∧ K.subs <+: K'.subs ∨
          n.subs <+: K'.subs ∧ n.subs ≠ K'.subs ∧ ¬ n.subs <+: K.subs)) := by
  have hk' : K'.subs ≠ [] := fun h => hlt (h ▸ List.nil_prefix)
  obtain ⟨p, u, v, hcut, hm⟩ := matchsubs_cut hk hk'
  have hv := hcut.right_ne_nil hlt
  obtain ⟨htake, hdrop, hdrop', hlast, hnil⟩ := hcut.lists hv
  have hsame : K.subs <+: K'.subs ↔ u = [] := by
    constructor
    · intro h
      obtain ⟨w, rfl⟩ := hcut.common (List.prefix_refl _) h
      have hlen := congrArg List.length hcut.left
      rw [List.length_append, List.length_append] at hlen
      exact List.length_eq_zero_iff.mp (by omega)
    · rintro rfl
      rw [hcut.left, hcut.right, List.append_nil]
      exact List.prefix_append p v
  have hpoint : (n ∈ if K.subs.length + 1 = p.length + 1 then
      [(⟨K.gblname, p, .point, r⟩ : AddName G S R)] else []) ↔
      n.gblname = K.gblname ∧ n.region = r ∧ n.suffix = .point ∧ n.subs = K.subs ∧
        K.subs <+: K'.subs := by
    have hkp (h : u = []) : K.subs = p := by rw [hcut.left, h, List.append_nil]
    obtain ⟨g', x, e, r'⟩ := n
    split_ifs with h
    · have hpre := hsame.mpr (hnil.mp h)
      rw [List.mem_singleton, AddName.mk.injEq, hkp (hnil.mp h)]
      exact ⟨fun ⟨hg, hx, he, hr⟩ => ⟨hg, hr, he, hx, hkp (hnil.mp h) ▸ hpre⟩,
        fun ⟨hg, hr, he, hx, _⟩ => ⟨hg, hx, he, hr⟩⟩
    · exact ⟨fun hn => absurd hn List.not_mem_nil,
        fun hn => absurd (hsame.mp hn.2.2.2.2) (hnil.not.mp h)⟩
  simp only [middleNames, hm, Nat.add_sub_cancel, htake, hdrop, hdrop', List.mem_append, hlast,
    List.mem_map, hcut.points hv]
  refine (or_congr (or_congr (hcut.ranges hv) hpoint) Iff.rfl).trans ?_
  obtain ⟨g', x, e, r'⟩ := n
  simp only [AddName.mk.injEq]
  constructor
  · rintro ((⟨hg, hr, h⟩ | ⟨hg, hr, he, h⟩) | ⟨y, h, rfl, rfl, rfl, rfl⟩)
    · exact ⟨hg, hr, Or.inl h⟩
    · exact ⟨hg, hr, Or.inr ⟨he, Or.inl h⟩⟩
    · exact ⟨rfl, rfl, Or.inr ⟨rfl, Or.inr h⟩⟩
  · rintro ⟨hg, hr, h | ⟨he, h | h⟩⟩
    · exact Or.inl (Or.inl ⟨hg, hr, h⟩)
    · exact Or.inl (Or.inr ⟨hg, hr, he, h⟩)
    · exact Or.inr ⟨x, h, hg.symm, rfl, he.symm, hr.symm⟩

theorem mem_keyNames {prev cur : R} {first : Bool} {K : Key G S} {next : Option (Key G S)}
    (hk : K.subs ≠ []) (hnext : ∀ K', next = some K' → ¬ K'.subs <+: K.subs)
    {n : AddName G S R} :
    n ∈ keyNames prev cur first K next ↔ n.gblname = K.gblname ∧
      Emits prev cur first K.subs (next.map Key.subs) n.subs n.suffix n.region := by
  have hbefore : n ∈ (if first then firstNames prev K else []) ↔ n.gblname = K.gblname ∧
      first = true ∧ n.subs ≠ [] ∧ n.subs <+: K.subs ∧ n.subs ≠ K.subs ∧ n.suffix = .point ∧
        n.region = prev := by
    cases first with
    | true => simpa using mem_firstNames hk
    | false => simp
  rw [keyNames.eq_def, List.mem_append, hbefore]
  obtain ⟨g', x, e, r'⟩ := n
  cases next with
  | none =>
    rw [mem_lastNames]
    constructor
    · rintro (⟨hg, hf, hx, hp, hne, rfl, rfl⟩ | ⟨hg, ⟨q, a, rfl, hp⟩, rfl, rfl⟩)
      · exact ⟨hg, Emits.before x hf hx hp hne⟩
      · exact ⟨hg, Emits.tail q a hp fun k' h => nomatch h⟩
    · rintro ⟨hg, h⟩
      cases h with
      | before _ hf hx hp hne => exact Or.inl ⟨hg, hf, hx, hp, hne, rfl, rfl⟩
      | range q a k' b h => exact nomatch h
      | tail q a hp => exact Or.inr ⟨hg, ⟨q, a, rfl, hp⟩, rfl, rfl⟩
      | same k' h => exact nomatch h
      | head _ k' h => exact nomatch h
  | some K' =>
    rw [mem_middleNames hk (hnext K' rfl)]
    constructor
    · rintro (⟨hg, hf, hx, hp, hne, rfl, rfl⟩ | ⟨hg, rfl, (⟨q, a, b, hq, hq', hab, rfl, rfl⟩ |
        ⟨q, a, hq, hq', rfl, rfl⟩) | ⟨rfl, ⟨rfl, h⟩ | ⟨h, hne, hnot⟩⟩⟩)
      · exact ⟨hg, Emits.before x hf hx hp hne⟩
      · exact ⟨hg, Emits.range q a K'.subs b rfl hq hq' hab⟩
      · exact ⟨hg, Emits.tail q a hq fun k' h => Option.some.inj h ▸ hq'⟩
      · exact ⟨hg, Emits.same K'.subs rfl h⟩
      · exact ⟨hg, Emits.head x K'.subs rfl h hne hnot⟩
    · rintro ⟨hg, h⟩
      cases h with
      | before _ hf hx hp hne => exact Or.inl ⟨hg, hf, hx, hp, hne, rfl, rfl⟩
      | range q a k' b h hq hq' hab =>
        obtain rfl := Option.some.inj h
        exact Or.inr ⟨hg, rfl, Or.inl (Or.inl ⟨q, a, b, hq, hq', hab, rfl, rfl⟩)⟩
      | tail q a hq hq' =>
        exact Or.inr ⟨hg, rfl, Or.inl (Or.inr ⟨q, a, hq, hq' K'.subs rfl, rfl, rfl⟩)⟩
      | same k' h hp =>
        obtain rfl := Option.some.inj h
        exact Or.inr ⟨hg, rfl, Or.inr ⟨rfl, Or.inl ⟨rfl, hp⟩⟩⟩
      | head _ k' h hp hne hnot =>
        obtain rfl := Option.some.inj h
        exact Or.inr ⟨hg, rfl, Or.inr ⟨rfl, Or.inr ⟨hp, hne, hnot⟩⟩⟩

theorem gblname_of_mem {prev cur : R} {first : Bool} {K : Key G S} {next : Option (Key G S)}
    {n : AddName G S R} (h : n ∈ keyNames prev cur first K next) : n.gblname = K.gblname := by
  rw [keyNames.eq_def, List.mem_append] at h
  obtain h | h := h
  · cases first with
    | true =>
      obtain ⟨x, -, rfl⟩ := List.mem_map.mp h
      rfl
    | false => exact absurd h List.not_mem_nil
  · cases next with
    | none =>
      obtain ⟨x, -, rfl⟩ := List.mem_map.mp h
      rfl
    | some K' =>
      simp only [middleNames, List.mem_append] at h
      obtain (h | h) | h := h
      · split at h
        · obtain rfl | h := List.mem_cons.mp h
          · rfl
          · obtain ⟨x, -, rfl⟩ := List.mem_map.mp h
            rfl
        · exact absurd h List.not_mem_nil
      · split_ifs at h
        · rw [List.mem_singleton.mp h]
        · exact absurd h List.not_mem_nil
      · obtain ⟨x, -, rfl⟩ := List.mem_map.mp h
        rfl

theorem middleNames_nodup {r : R} {K K' : Key G S} (hk : K.subs ≠ [])
    (hlt : ¬ K'.subs <+: K.subs) : ((middleNames r K K').map AddName.name).Nodup := by
  have hk' : K'.subs ≠ [] := fun h => hlt (h ▸ List.nil_prefix)
  obtain ⟨p, u, v, hcut, hm⟩ := matchsubs_cut hk hk'
  have hv := hcut.right_ne_nil hlt
  obtain ⟨htake, hdrop, hdrop', hlast, hnil⟩ := hcut.lists hv
  simp only [middleNames, hm, Nat.add_sub_cancel, htake, hdrop, hdrop', hlast]
  have hpoint {n : AddName G S R} (hn : n ∈ if K.subs.length + 1 = p.length + 1 then
      [(⟨K.gblname, p, .point, r⟩ : AddName G S R)] else []) : n.subs = p ∧ n.suffix = .point := by
    split_ifs at hn
    · rw [List.mem_singleton.mp hn]
      exact ⟨rfl, rfl⟩
    · exact absurd hn List.not_mem_nil
  refine append_nodup (append_nodup (Cut.ranges_nodup p u v) ?_ ?_)
    (added_nodup (names_nodup ..) ..) ?_
  · split_ifs
    · exact List.nodup_singleton _
    · exact List.nodup_nil
  · intro n hn n' hn' _ hsuffix
    rw [(hpoint hn').2] at hsuffix
    obtain ⟨-, -, ⟨q, a, b, -, -, -, -, h⟩ | ⟨q, a, -, -, -, h⟩⟩ := (hcut.ranges hv).mp hn
    · exact nomatch h.symm.trans hsuffix
    · exact nomatch h.symm.trans hsuffix
  · intro n hn n' hn' hsubs hsuffix
    obtain ⟨x, hx, rfl⟩ := List.mem_map.mp hn'
    obtain hn | hn := List.mem_append.mp hn
    · obtain ⟨-, -, ⟨q, a, b, -, -, -, -, h⟩ | ⟨q, a, -, -, -, h⟩⟩ := (hcut.ranges hv).mp hn
      · exact nomatch h.symm.trans hsuffix
      · exact nomatch h.symm.trans hsuffix
    · obtain ⟨t, ht, -, rfl⟩ := mem_names.mp hx
      exact ht (List.self_eq_append_right.mp ((hpoint hn).1.symm.trans hsubs))

theorem keyNames_nodup {prev cur : R} {first : Bool} {K : Key G S} {next : Option (Key G S)}
    (hk : K.subs ≠ []) (hnext : ∀ K', next = some K' → ¬ K'.subs <+: K.subs) :
    ((keyNames prev cur first K next).map AddName.name).Nodup := by
  rw [keyNames.eq_def]
  refine append_nodup ?_ ?_ ?_
  · cases first with
    | true => exact added_nodup (names_nodup ..) ..
    | false => exact List.nodup_nil
  · cases next with
    | none => exact added_nodup (names_nodup ..) ..
    | some K' => exact middleNames_nodup hk (hnext K' rfl)
  · intro n hn n' hn' hsubs hsuffix
    cases first with
    | false => exact absurd hn List.not_mem_nil
    | true =>
      obtain ⟨-, -, hpre, hne, hpoint, -⟩ := (mem_firstNames hk).mp hn
      cases next with
      | none =>
        obtain ⟨-, -, hcolon, -⟩ := mem_lastNames.mp hn'
        exact nomatch hpoint.symm.trans (hsuffix.trans hcolon)
      | some K' =>
        obtain ⟨-, -, (⟨q, a, b, -, -, -, -, h⟩ | ⟨q, a, -, -, -, h⟩) | ⟨-, ⟨h, -⟩ | ⟨-, -, h⟩⟩⟩ :=
          (mem_middleNames hk (hnext K' rfl)).mp hn'
        · exact nomatch hpoint.symm.trans (hsuffix.trans h)
        · exact nomatch hpoint.symm.trans (hsuffix.trans h)
        · exact hne (hsubs.trans h)
        · exact h (hsubs ▸ hpre)

end YdbTest.Gensprgde
