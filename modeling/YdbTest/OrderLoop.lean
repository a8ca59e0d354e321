import YdbTest.OrderWalk
import Mathlib.Order.Lattice

namespace YdbTest.OrderWalk

variable {κ σ : Type*} {before : κ → κ → Bool} {ks ks' : List κ} {x : Option κ} {k a : κ} {n m : ℕ}

def lower [LinearOrder κ] (a b : κ) : Bool := decide (a < b)

theorem strict_lower [LinearOrder κ] : Strict (lower : κ → κ → Bool) where
  irrefl _ := decide_eq_false (lt_irrefl _)
  trans _ _ _ hab hbc := decide_eq_true ((of_decide_eq_true hab).trans (of_decide_eq_true hbc))
  total _ _ hne := (lt_or_gt_of_ne hne).imp decide_eq_true decide_eq_true

theorem next_congr (h : Strict before)
    (hks : ∀ a, behind before x a = true → (a ∈ ks ↔ a ∈ ks')) :
    next before ks x = next before ks' x := by
  apply Option.ext
  intro k
  have hone {ks ks' : List κ} (hks : ∀ a, behind before x a = true → (a ∈ ks ↔ a ∈ ks'))
      (hk : next before ks x = some k) : next before ks' x = some k := by
    obtain ⟨⟨hmem, hx⟩, hleast⟩ := next_eq_some h hk
    cases hk' : next before ks' x with
    | none =>
      rw [next_eq_none.mp hk' k ((hks k hx).mp hmem)] at hx
      cases hx
    | some k' =>
      obtain ⟨⟨hmem', hx'⟩, hleast'⟩ := next_eq_some h hk'
      obtain rfl | hlt := hleast k' ((hks k' hx').mpr hmem') hx'
      · rfl
      · obtain rfl | hgt := hleast' k ((hks k hx).mp hmem) hx
        · rfl
        · have hself := h.trans k k' k hlt hgt
          rw [h.irrefl] at hself
          cases hself
  exact ⟨hone hks, hone fun a ha => (hks a ha).symm⟩

theorem walk_congr (h : Strict before)
    (hks : ∀ a, behind before x a = true → (a ∈ ks ↔ a ∈ ks')) :
    walk before ks n x = walk before ks' n x := by
  induction n generalizing x with
  | zero => rfl
  | succ n ih =>
    rw [walk, walk, next_congr h hks]
    cases hk : next before ks' x with
    | none => rfl
    | some k => exact congrArg (List.cons k) (ih fun a ha => hks a (behind_next h hk ha))

theorem walk_nodup (h : Strict before) : (walk before ks n x).Nodup := by
  apply (walk_pairwise h).imp
  rintro a b hab rfl
  rw [h.irrefl] at hab
  cases hab

theorem walk_all_congr (h : Strict before) (hks : ∀ a, a ∈ ks ↔ a ∈ ks') (hn : ks.length ≤ n)
    (hm : ks'.length ≤ m) : walk before ks n none = walk before ks' m none := by
  have hperm : (walk before ks n none).Perm (walk before ks' m none) := by
    rw [List.perm_ext_iff_of_nodup (walk_nodup h) (walk_nodup h)]
    intro a
    rw [mem_walk_all h hn, mem_walk_all h hm, hks]
  apply hperm.eq_of_pairwise _ (walk_pairwise h) (walk_pairwise h)
  intro a b _ _ hab hba
  have hself := h.trans a b a hab hba
  rw [h.irrefl] at hself
  cases hself

/-- `for  set k=$order(keys(k)) quit:(""=k)  do` with a body that may change the keys; when the body
fails, so does the loop. -/
def forOrder (before : κ → κ → Bool) (keys : σ → List κ) (body : σ → κ → Option σ) :
    ℕ → Option κ → σ → Option σ
  | 0, _, s => some s
  | n + 1, x, s =>
    match next before (keys s) x with
    | none => some s
    | some k => (body s k).bind (forOrder before keys body n (some k))

variable {keys : σ → List κ} {body : σ → κ → Option σ} {s s' : σ}

theorem forOrder_eq (h : Strict before) (hkeep : ∀ s k s', body s k = some s' →
      ∀ a, before k a = true → (a ∈ keys s' ↔ a ∈ keys s)) :
    forOrder before keys body n x s = (walk before (keys s) n x).foldlM body s := by
  induction n generalizing x s with
  | zero => rfl
  | succ n ih =>
    rw [forOrder, walk]
    cases hk : next before (keys s) x with
    | none => rfl
    | some k =>
      simp only [List.foldlM_cons]
      change (body s k).bind _ = (body s k).bind _
      cases hb : body s k with
      | none => rfl
      | some s' =>
        rw [Option.bind_some, Option.bind_some, ih]
        have hwalk : walk before (keys s') n (some k) = walk before (keys s) n (some k) :=
          walk_congr h (hkeep s k s' hb)
        rw [hwalk]

theorem foldlM_eq_some {υ : Type*} (upd : σ → υ → σ) (Ok : κ → σ → Prop) (us : κ → σ → List υ)
    (hbody : ∀ s k s', body s k = some s' ↔ Ok k s ∧ s' = (us k s).foldl upd s)
    (hok : ∀ a b s, a ≠ b → (Ok a ((us b s).foldl upd s) ↔ Ok a s))
    (hus : ∀ a b s, a ≠ b → us a ((us b s).foldl upd s) = us a s) (hks : ks.Nodup) :
    ks.foldlM body s = some s' ↔
      (∀ k ∈ ks, Ok k s) ∧ s' = (ks.flatMap fun k => us k s).foldl upd s := by
  induction ks generalizing s with
  | nil => exact ⟨fun h => ⟨fun k hk => absurd hk List.not_mem_nil, (Option.some.inj h).symm⟩,
      fun h => congrArg some h.2.symm⟩
  | cons k ks ih =>
    obtain ⟨hk, hnodup⟩ := List.nodup_cons.mp hks
    have hne {a : κ} (ha : a ∈ ks) : a ≠ k := fun he => hk (he ▸ ha)
    have hothers : (∀ a ∈ ks, Ok a ((us k s).foldl upd s)) ↔ ∀ a ∈ ks, Ok a s :=
      forall₂_congr fun a ha => hok a k s (hne ha)
    have hrest : ks.flatMap (fun a => us a ((us k s).foldl upd s)) = ks.flatMap fun a => us a s :=
      List.flatMap_congr fun a ha => hus a k s (hne ha)
    rw [List.foldlM_cons, List.flatMap_cons, List.foldl_append, List.forall_mem_cons]
    change (body s k).bind _ = _ ↔ _
    rw [Option.bind_eq_some_iff]
    constructor
    · rintro ⟨t, ht, htail⟩
      obtain ⟨hok, rfl⟩ := (hbody s k t).mp ht
      obtain ⟨hall, hs'⟩ := (ih hnodup).mp htail
      rw [hrest] at hs'
      exact ⟨⟨hok, hothers.mp hall⟩, hs'⟩
    · rintro ⟨⟨hok, hall⟩, hs'⟩
      rw [← hrest] at hs'
      exact ⟨_, (hbody s k _).mpr ⟨hok, rfl⟩, (ih hnodup).mpr ⟨hothers.mpr hall, hs'⟩⟩

end YdbTest.OrderWalk
