import Mathlib.Data.Nat.Find
import YdbTest.GensprgdeNames

namespace YdbTest.Gensprgde

open PrefixOrder

variable {G S R : Type} {ks : List (List S)} {k k' K q x : List S} {i j : Nat}

/-- Some key goes on behind `q`. -/
def Deep (ks : List (List S)) (q : List S) : Prop := ∃ K ∈ ks, ∃ a, q ++ [a] <+: K

structure Stem (ks : List (List S)) (x q : List S) : Prop where
  stem : q <+: x
  deep : Deep ks q
  longest : ∀ p, p <+: x → Deep ks p → p <+: q

theorem deep_nil (hsub : ∀ k ∈ ks, k ≠ []) (hK : K ∈ ks) : Deep ks [] := by
  obtain ⟨a, ha⟩ := exists_next List.nil_prefix (hsub K hK)
  exact ⟨K, hK, a, ha⟩

theorem exists_stem (hsub : ∀ k ∈ ks, k ≠ []) (hK : K ∈ ks) (x : List S) : ∃ q, Stem ks x q := by
  classical
  have hzero : Deep ks (x.take 0) := deep_nil hsub hK
  let m := Nat.findGreatest (fun l => Deep ks (x.take l)) x.length
  have hm : Deep ks (x.take m) :=
    Nat.findGreatest_spec (P := fun l => Deep ks (x.take l)) (Nat.zero_le _) hzero
  refine ⟨x.take m, List.take_prefix m x, hm, fun p hp hdeep => ?_⟩
  have hle : p.length ≤ m := by
    refine Nat.le_findGreatest hp.length_le ?_
    rwa [← List.prefix_iff_eq_take.mp hp]
  rw [List.prefix_iff_eq_take.mp hp]
  exact List.take_prefix_take_left hle

theorem Stem.eq_of_next (h : Stem ks x q) {s : S} (hs : q ++ [s] <+: x) (hK : K ∈ ks)
    (hpre : q ++ [s] <+: K) : K = q ++ [s] := by
  by_contra hne
  obtain ⟨a, ha⟩ := exists_next hpre hne
  have hlen := (h.longest _ hs ⟨K, hK, a, ha⟩).length_le
  rw [List.length_append, List.length_singleton] at hlen
  omega

variable [LinearOrder S]

theorem lt_of_index (hks : ks.Pairwise (· < ·)) (hi : ks[i]? = some k) (hj : ks[j]? = some k')
    (hij : i < j) : k < k' := by
  obtain ⟨hlen, rfl⟩ := List.getElem?_eq_some_iff.mp hi
  obtain ⟨hlen', rfl⟩ := List.getElem?_eq_some_iff.mp hj
  exact List.pairwise_iff_getElem.mp hks i j hlen hlen' hij

theorem index_lt (hks : ks.Pairwise (· < ·)) (hi : ks[i]? = some k) (hj : ks[j]? = some k')
    (hlt : k < k') : i < j := by
  by_contra hle
  obtain heq | hji := (Nat.le_of_not_lt hle).eq_or_lt
  · subst heq
    exact absurd (Option.some.inj (hi.symm.trans hj)) hlt.ne
  · exact lt_asymm hlt (lt_of_index hks hj hi hji)

theorem exists_next_key (hks : ks.Pairwise (· < ·)) (hi : ks[i]? = some k) (hK : K ∈ ks)
    (hlt : k < K) : ∃ k', ks[i + 1]? = some k' ∧ k < k' ∧ k' ≤ K := by
  obtain ⟨j, hj⟩ := List.mem_iff_getElem?.mp hK
  have hij := index_lt hks hi hj hlt
  obtain ⟨hlen, -⟩ := List.getElem?_eq_some_iff.mp hj
  have hnext : ks[i + 1]? = some ks[i + 1] := List.getElem?_eq_getElem (by omega)
  refine ⟨_, hnext, lt_of_index hks hi hnext (Nat.lt_succ_self i), ?_⟩
  obtain heq | hlt := (Nat.succ_le_of_lt hij).eq_or_lt
  · exact (Option.some.inj ((congrArg (ks[·]?) heq.symm ▸ hj).symm.trans hnext)).ge
  · exact (lt_of_index hks hnext hj hlt).le

structure LastBefore (ks : List (List S)) (x : List S) (i : Nat) (k : List S) : Prop where
  get : ks[i]? = some k
  le : k ≤ x
  later : ∀ j k', i < j → ks[j]? = some k' → x < k'

theorem LastBefore.unique (h : LastBefore ks x i k)
    (h' : LastBefore ks x j k') : i = j := by
  obtain hlt | heq | hlt := Nat.lt_trichotomy i j
  · exact absurd h'.le (not_le.mpr (h.later j k' hlt h'.get))
  · exact heq
  · exact absurd h.le (not_le.mpr (h'.later i k hlt h.get))

theorem lastBefore_of_next (hks : ks.Pairwise (· < ·)) (hi : ks[i]? = some k) (hle : k ≤ x)
    (hnext : ∀ k', ks[i + 1]? = some k' → x < k') : LastBefore ks x i k := by
  refine ⟨hi, hle, fun j k' hij hj => ?_⟩
  obtain ⟨hlen, -⟩ := List.getElem?_eq_some_iff.mp hj
  have hget : ks[i + 1]? = some ks[i + 1] := List.getElem?_eq_getElem (by omega)
  obtain heq | hlt := (Nat.succ_le_of_lt hij).eq_or_lt
  · subst heq
    exact hnext k' hj
  · exact (hnext _ hget).trans (lt_of_index hks hget hj hlt)

theorem span_colon {a : S} :
    Span (q ++ [a]) .colon x ↔ ∃ s, q ++ [s] <+: x ∧ a ≤ s := by
  constructor
  · rintro ⟨q', a', s, heq, hs, hle⟩
    obtain ⟨rfl, ha⟩ := List.append_inj' heq rfl
    exact ⟨s, hs, (List.singleton_inj.mp ha) ▸ hle⟩
  · rintro ⟨s, hs, hle⟩
    exact ⟨q, a, s, rfl, hs, hle⟩

theorem span_to {a b : S} :
    Span (q ++ [a]) (.to b) x ↔ ∃ s, q ++ [s] <+: x ∧ a ≤ s ∧ s < b := by
  constructor
  · rintro ⟨q', a', s, heq, hs, hle⟩
    obtain ⟨rfl, ha⟩ := List.append_inj' heq rfl
    exact ⟨s, hs, (List.singleton_inj.mp ha) ▸ hle⟩
  · rintro ⟨s, hs, hle⟩
    exact ⟨q, a, s, rfl, hs, hle⟩

variable {prev cur r : R} {subs : List S} {suffix : Suffix S}

/-- What section `i` emits. -/
def EmitsAt (ks : List (List S)) (prev : R) (cur : Nat → R) (i : Nat) (k subs : List S)
    (suffix : Suffix S) (r : R) : Prop :=
  ks[i]? = some k ∧ Emits prev (cur i) (decide (i = 0)) k ks[i + 1]? subs suffix r

theorem span_stem (hks : ks.Pairwise (· < ·)) (hsub : ∀ k ∈ ks, k ≠ []) {cur : Nat → R}
    (h : EmitsAt ks prev cur i k subs suffix r) (hspan : Span subs suffix x)
    (hstem : Stem ks x q) :
    suffix = .point ∧ subs ≠ [] ∧ subs <+: q ∨
      suffix ≠ .point ∧ ∃ p a, subs = p ++ [a] ∧ p <+: q := by
  obtain ⟨hget, hemits⟩ := h
  have hk : k ∈ ks := List.mem_of_getElem? hget
  cases hemits with
  | before _ _ hne hpre hproper =>
    obtain ⟨a, ha⟩ := exists_next hpre (Ne.symm hproper)
    exact Or.inl ⟨rfl, hne, hstem.longest _ hspan ⟨k, hk, a, ha⟩⟩
  | range p a k' b hnext hp hp' hab =>
    obtain ⟨s, hs, -, -⟩ := span_to.mp hspan
    exact Or.inr ⟨nofun, p, a, rfl, hstem.longest p (prefix_of_next hs) ⟨k, hk, a, hp⟩⟩
  | tail p a hp hnext =>
    obtain ⟨s, hs, -⟩ := span_colon.mp hspan
    exact Or.inr ⟨nofun, p, a, rfl, hstem.longest p (prefix_of_next hs) ⟨k, hk, a, hp⟩⟩
  | same k' hnext hpre =>
    have hlt := lt_of_index hks hget hnext (Nat.lt_succ_self i)
    obtain ⟨a, ha⟩ := exists_next hpre hlt.ne'
    exact Or.inl ⟨rfl, hsub k hk,
      hstem.longest k hspan ⟨k', List.mem_of_getElem? hnext, a, ha⟩⟩
  | head _ k' hnext hpre hproper hnot =>
    obtain ⟨a, ha⟩ := exists_next hpre (Ne.symm hproper)
    have hne : subs ≠ [] := fun h => hnot (h ▸ List.nil_prefix)
    exact Or.inl ⟨rfl, hne, hstem.longest _ hspan ⟨k', List.mem_of_getElem? hnext, a, ha⟩⟩

omit [LinearOrder S] in
theorem range_cases {first : Bool} {next : Option (List S)} {a : S}
    (h : Emits prev cur first k next (q ++ [a]) suffix r) (hrange : suffix ≠ .point) :
    q ++ [a] <+: k ∧
      ((∃ k' b, next = some k' ∧ q ++ [b] <+: k' ∧ suffix = .to b) ∨
        suffix = .colon ∧ ∀ k', next = some k' → ¬ q <+: k') := by
  generalize heq : q ++ [a] = subs at h
  cases h with
  | before => exact absurd rfl hrange
  | same => exact absurd rfl hrange
  | head => exact absurd rfl hrange
  | range p c k' b hnext hp hp' hab =>
    obtain ⟨rfl, -⟩ := List.append_inj' heq rfl
    exact ⟨hp, Or.inl ⟨k', b, hnext, hp', rfl⟩⟩
  | tail p c hp hnext =>
    obtain ⟨rfl, -⟩ := List.append_inj' heq rfl
    exact ⟨hp, Or.inr ⟨rfl, hnext⟩⟩

omit [LinearOrder S] in
theorem suffix_unique {first : Bool} {next : Option (List S)} {a : S} {suffix' : Suffix S} {r' : R}
    (h : Emits prev cur first k next (q ++ [a]) suffix r) (hrange : suffix ≠ .point)
    (h' : Emits prev cur first k next (q ++ [a]) suffix' r') (hrange' : suffix' ≠ .point) :
    suffix = suffix' := by
  obtain ⟨-, ⟨κ, b, hκ, hb, rfl⟩ | ⟨rfl, hno⟩⟩ := range_cases h hrange
  · obtain ⟨-, ⟨κ', b', hκ', hb', rfl⟩ | ⟨rfl, hno'⟩⟩ := range_cases h' hrange'
    · obtain rfl := Option.some.inj (hκ.symm.trans hκ')
      rw [next_unique hb hb']
    · exact absurd (prefix_of_next hb) (hno' κ hκ)
  · obtain ⟨-, ⟨κ', b', hκ', hb', rfl⟩ | ⟨rfl, hno'⟩⟩ := range_cases h' hrange'
    · exact absurd (prefix_of_next hb') (hno κ' hκ')
    · rfl

theorem last_of_range (hks : ks.Pairwise (· < ·)) {cur : Nat → R} {a : S}
    (h : EmitsAt ks prev cur i k (q ++ [a]) suffix r) (hrange : suffix ≠ .point)
    (hspan : Span (q ++ [a]) suffix x) (hstem : Stem ks x q) :
    LastBefore ks x i k ∧ q ++ [a] <+: k := by
  obtain ⟨hget, hemits⟩ := h
  obtain ⟨hpre, hends⟩ := range_cases hemits hrange
  have hle {s : S} (hs : q ++ [s] <+: x) (has : a ≤ s) : k ≤ x := by
    obtain rfl | hlt := has.eq_or_lt
    · rw [hstem.eq_of_next hs (List.mem_of_getElem? hget) hpre]
      exact le_of_front hs
    · exact (lt_of_branch hpre hs hlt).le
  refine ⟨?_, hpre⟩
  obtain ⟨k', b, hnext, hb, rfl⟩ | ⟨rfl, hno⟩ := hends
  · obtain ⟨s, hs, has, hsb⟩ := span_to.mp hspan
    refine lastBefore_of_next hks hget (hle hs has) fun k'' h => ?_
    obtain rfl := Option.some.inj (hnext.symm.trans h)
    exact lt_of_branch hs hb hsb
  · obtain ⟨s, hs, has⟩ := span_colon.mp hspan
    refine lastBefore_of_next hks hget (hle hs has) fun k' h => ?_
    have hlt := lt_of_index hks hget h (Nat.lt_succ_self i)
    exact lt_beyond (prefix_of_next hpre) (prefix_of_next hs) (hno k' h) hlt

theorem exists_range (prev : R) (cur : Nat → R)
    (hstem : Stem ks x q) (hlast : LastBefore ks x i k) {a : S} (ha : q ++ [a] <+: k) :
    ∃ suffix, suffix ≠ .point ∧ EmitsAt ks prev cur i k (q ++ [a]) suffix (cur i) ∧
      Span (q ++ [a]) suffix x := by
  have hne : x ≠ q := fun h =>
    absurd (h ▸ hlast.le) (not_le.mpr ((le_of_front (prefix_of_next ha)).lt_of_ne
      (ne_of_next ha).symm))
  obtain ⟨s, hs⟩ := exists_next hstem.stem hne
  have has : a ≤ s := branch_le ha hs hlast.le
  have hopen (h : ∀ k', ks[i + 1]? = some k' → ¬ q <+: k') :
      ∃ suffix, suffix ≠ .point ∧ EmitsAt ks prev cur i k (q ++ [a]) suffix (cur i) ∧
        Span (q ++ [a]) suffix x :=
    ⟨.colon, nofun, ⟨hlast.get, .tail q a ha h⟩, span_colon.mpr ⟨s, hs, has⟩⟩
  cases hnext : ks[i + 1]? with
  | none => exact hopen fun k' h => nomatch hnext.symm.trans h
  | some k' =>
    by_cases hq : q <+: k'
    · have hxk := hlast.later (i + 1) k' (Nat.lt_succ_self i) hnext
      have hk' : k' ∈ ks := List.mem_of_getElem? hnext
      obtain ⟨b, hb⟩ := exists_next hq
        ((le_of_front hstem.stem).trans_lt hxk).ne'
      have hsb : s < b := by
        refine (branch_le hs hb hxk.le).lt_of_ne fun hsb => ?_
        rw [hstem.eq_of_next hs hk' (hsb ▸ hb)] at hxk
        exact absurd (le_of_front hs) (not_le.mpr hxk)
      exact ⟨.to b, nofun, ⟨hlast.get, .range q a k' b hnext ha hb (has.trans_lt hsb).ne⟩,
        span_to.mpr ⟨s, hs, has, hsb⟩⟩
    · exact hopen fun k'' h => Option.some.inj (hnext.symm.trans h) ▸ hq

theorem exists_point (prev : R) (cur : Nat → R) (hks : ks.Pairwise (· < ·))
    (hsub : ∀ k ∈ ks, k ≠ []) (hstem : Stem ks x q) (hlast : LastBefore ks x i k)
    (hno : ∀ a, ¬ q ++ [a] <+: k) :
    q ≠ [] ∧ EmitsAt ks prev cur i k q .point (cur i) := by
  have hk : k ∈ ks := List.mem_of_getElem? hlast.get
  have hq : q ≠ [] := by
    rintro rfl
    obtain ⟨a, ha⟩ := exists_next List.nil_prefix (hsub k hk)
    exact hno a ha
  refine ⟨hq, hlast.get, ?_⟩
  obtain ⟨K, hK, c, hc⟩ := hstem.deep
  have hqK := prefix_of_next hc
  by_cases hqk : q <+: k
  · -- the key is the stem
    have heq : k = q := by
      by_contra hne
      obtain ⟨a, ha⟩ := exists_next hqk hne
      exact hno a ha
    subst heq
    have hlt : k < K := (le_of_front hqK).lt_of_ne (ne_of_next hc).symm
    obtain ⟨k', hnext, hkk', hk'K⟩ := exists_next_key hks hlast.get hK hlt
    exact .same k' hnext (prefix_between (List.prefix_refl k) hqK hkk'.le hk'K)
  · have hkK : k < K := by
      by_contra hle
      exact hqk (prefix_between hqK hstem.stem (not_lt.mp hle) hlast.le)
    obtain ⟨k', hnext, hkk', hk'K⟩ := exists_next_key hks hlast.get hK hkK
    have hxk := hlast.later (i + 1) k' (Nat.lt_succ_self i) hnext
    have hqk' := prefix_between hstem.stem hqK hxk.le hk'K
    exact .head q k' hnext hqk' ((le_of_front hstem.stem).trans_lt hxk).ne hqk

theorem exists_before (prev : R) (cur : Nat → R) (hks : ks.Pairwise (· < ·))
    (hstem : Stem ks x q) (hall : ∀ k ∈ ks, x < k) (hq : q ≠ []) :
    ∃ k, EmitsAt ks prev cur 0 k q .point prev := by
  obtain ⟨K, hK, c, hc⟩ := hstem.deep
  obtain ⟨j, hj⟩ := List.mem_iff_getElem?.mp hK
  obtain ⟨hlen, -⟩ := List.getElem?_eq_some_iff.mp hj
  have hget : ks[0]? = some ks[0] := List.getElem?_eq_getElem (by omega)
  have hlt := hall _ (List.mem_of_getElem? hget)
  have hle : ks[0] ≤ K := by
    obtain rfl | hpos := Nat.eq_zero_or_pos j
    · exact (Option.some.inj (hget.symm.trans hj)).le
    · exact (lt_of_index hks hget hj hpos).le
  have hpre := prefix_between hstem.stem (prefix_of_next hc) hlt.le hle
  exact ⟨_, hget, .before q rfl hq hpre ((le_of_front hstem.stem).trans_lt hlt).ne⟩

theorem not_emitted_later (hks : ks.Pairwise (· < ·)) {cur : Nat → R} {r' : R} (hij : i < j)
    (h : EmitsAt ks prev cur i k subs suffix r) (h' : EmitsAt ks prev cur j k' subs suffix r') :
    False := by
  obtain ⟨hi, hemits⟩ := h
  obtain ⟨hj, hemits'⟩ := h'
  have hkk' := lt_of_index hks hi hj hij
  have hnext {κ : List S} (h : ks[i + 1]? = some κ) : κ ≤ k' := by
    obtain heq | hlt := (Nat.succ_le_of_lt hij).eq_or_lt
    · subst heq
      exact (Option.some.inj (h.symm.trans hj)).le
    · exact (lt_of_index hks h hj hlt).le
  -- a point is not behind its first key, nor is it that of a key behind it
  have hpoint {κ : List S} (hκ : κ ≤ k') (hpre : subs <+: κ) (hproper : subs < k')
      (hsuffix : suffix = .point) : False := by
    cases hemits' with
    | before _ hfirst => exact absurd (of_decide_eq_true hfirst) (by omega)
    | range => exact nomatch hsuffix
    | tail => exact nomatch hsuffix
    | same => exact absurd hproper (lt_irrefl _)
    | head _ κ' hnext' hpre' hproper' hnot =>
      have hlt := lt_of_index hks hj hnext' (Nat.lt_succ_self j)
      exact hnot (prefix_between hpre hpre' hκ hlt.le)
  have hprefix {q : List S} {a : S} (hsubs : subs = q ++ [a]) (hsuffix : suffix ≠ .point) :
      q ++ [a] <+: k' := by
    cases hemits' with
    | before => exact absurd rfl hsuffix
    | range q' a' κ b hn hq => exact hsubs ▸ hq
    | tail q' a' hq => exact hsubs ▸ hq
    | same => exact absurd rfl hsuffix
    | head => exact absurd rfl hsuffix
  cases hemits with
  | before _ _ _ hpre _ => exact hpoint hkk'.le hpre ((le_of_front hpre).trans_lt hkk') rfl
  | same κ hn hpre => exact hpoint hkk'.le (List.prefix_refl _) hkk' rfl
  | head _ κ hn hpre hproper _ =>
    exact hpoint (hnext hn) hpre
      (((le_of_front hpre).lt_of_ne hproper).trans_le (hnext hn)) rfl
  | range q a κ b hn hq hq' hab =>
    have hk' := hprefix rfl nofun
    have hlt := lt_of_index hks hi hn (Nat.lt_succ_self i)
    exact hab (next_unique (prefix_between hq hk' hlt.le (hnext hn)) hq')
  | tail q a hq hn =>
    have hk' := hprefix rfl nofun
    obtain ⟨hlen, -⟩ := List.getElem?_eq_some_iff.mp hj
    have hget : ks[i + 1]? = some ks[i + 1] := List.getElem?_eq_getElem (by omega)
    have hlt := lt_of_index hks hi hget (Nat.lt_succ_self i)
    exact hn _ hget (prefix_of_next (prefix_between hq hk' hlt.le (hnext hget)))

theorem emits_index (hks : ks.Pairwise (· < ·)) {cur : Nat → R} {r' : R}
    (h : EmitsAt ks prev cur i k subs suffix r) (h' : EmitsAt ks prev cur j k' subs suffix r') :
    i = j := by
  obtain hlt | heq | hlt := Nat.lt_trichotomy i j
  · exact (not_emitted_later hks hlt h h').elim
  · exact heq
  · exact (not_emitted_later hks hlt h' h).elim

end YdbTest.Gensprgde
