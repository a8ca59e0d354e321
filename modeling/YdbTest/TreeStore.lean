import Mathlib.Data.List.Basic
import Mathlib.Tactic.Common

namespace YdbTest.TreeStore

variable {γ κ ν : Type} [DecidableEq γ] [DecidableEq κ]

abbrev Node (γ κ : Type) := γ × List κ

abbrev Store (γ κ ν : Type) := List (Node γ κ × ν)

def get (s : Store γ κ ν) (n : Node γ κ) : Option ν := s.lookup n

def zkill (n : Node γ κ) (s : Store γ κ ν) : Store γ κ ν := s.filter (fun e => e.1 != n)

def set (n : Node γ κ) (v : ν) (s : Store γ κ ν) : Store γ κ ν := (n, v) :: zkill n s

/-- `m` is `n` or one of its descendants. -/
def below (n m : Node γ κ) : Bool := n.1 == m.1 && n.2.isPrefixOf m.2

def kill (n : Node γ κ) (s : Store γ κ ν) : Store γ κ ν := s.filter (fun e => !below n e.1)

/-- Whether the node has a value or descendants, `$data(n)'=0`. -/
def hasData (s : Store γ κ ν) (n : Node γ κ) : Bool := s.any (fun e => below n e.1)

/-- The subscripts one level under `n` that lead to a value. -/
def subscripts (s : Store γ κ ν) (n : Node γ κ) : List κ :=
  s.filterMap (fun e => if below n e.1 then e.1.2[n.2.length]? else none)

/-- The last subscript under `n` in the collation order `before`. -/
def zprevious (before : κ → κ → Bool) (s : Store γ κ ν) (n : Node γ κ) : Option κ :=
  (subscripts s n).foldl
    (fun last k => match last with
      | none => some k
      | some l => if before l k then some k else some l)
    none

theorem below_iff {n m : Node γ κ} : below n m = true ↔ n.1 = m.1 ∧ n.2 <+: m.2 := by
  simp [below, List.isPrefixOf_iff_prefix]

theorem get_nil (n : Node γ κ) : get ([] : Store γ κ ν) n = none := rfl

theorem get_filter (s : Store γ κ ν) (p : Node γ κ → Bool) (n : Node γ κ) :
    get (s.filter (fun e => p e.1)) n = if p n then get s n else none := by
  unfold get
  induction s with
  | nil => simp
  | cons e s ih =>
    by_cases hp : p e.1
    · rw [List.filter_cons, if_pos hp, List.lookup_cons, List.lookup_cons, ih]
      by_cases hn : n = e.1
      · simp [hn, hp]
      · simp [beq_eq_false_iff_ne.mpr hn]
    · rw [List.filter_cons, if_neg hp, List.lookup_cons, ih]
      by_cases hn : n = e.1
      · simp [hn, hp]
      · simp [beq_eq_false_iff_ne.mpr hn]

theorem get_zkill (s : Store γ κ ν) (m n : Node γ κ) :
    get (zkill m s) n = if m = n then none else get s n := by
  rw [zkill, get_filter s (fun e => e != m)]
  by_cases h : m = n
  · simp [h]
  · simp [h, Ne.symm h]

theorem get_kill (s : Store γ κ ν) (m n : Node γ κ) :
    get (kill m s) n = if below m n then none else get s n := by
  rw [kill, get_filter s (fun e => !below m e)]
  cases below m n <;> rfl

theorem get_set (s : Store γ κ ν) (m n : Node γ κ) (v : ν) :
    get (set m v s) n = if m = n then some v else get s n := by
  by_cases h : m = n
  · simp [set, get, h]
  · have hz := get_zkill s m n
    rw [if_neg h] at hz
    rw [if_neg h, ← hz, set, get, List.lookup_cons, beq_eq_false_iff_ne.mpr (Ne.symm h)]
    rfl

theorem exists_get_of_mem {s : Store γ κ ν} {e : Node γ κ × ν} (h : e ∈ s) :
    ∃ v, get s e.1 = some v := by
  unfold get
  induction s with
  | nil => simp at h
  | cons a s ih =>
    rw [List.lookup_cons]
    by_cases ha : e.1 = a.1
    · exact ⟨a.2, by simp [ha]⟩
    · obtain rfl | h := List.mem_cons.mp h
      · exact absurd rfl ha
      · obtain ⟨v, hv⟩ := ih h
        exact ⟨v, by simp [beq_eq_false_iff_ne.mpr ha, hv]⟩

theorem mem_of_get {s : Store γ κ ν} {n : Node γ κ} {v : ν} (h : get s n = some v) :
    (n, v) ∈ s := by
  unfold get at h
  induction s with
  | nil => simp at h
  | cons a s ih =>
    rw [List.lookup_cons] at h
    by_cases ha : n = a.1
    · rw [ha] at h ⊢
      simp only [beq_self_eq_true, Option.some.injEq] at h
      rw [← h]
      exact List.mem_cons_self
    · rw [beq_eq_false_iff_ne.mpr ha] at h
      exact List.mem_cons_of_mem _ (ih h)

theorem hasData_iff (s : Store γ κ ν) (n : Node γ κ) :
    hasData s n = true ↔ ∃ m v, below n m = true ∧ get s m = some v := by
  unfold hasData
  rw [List.any_eq_true]
  constructor
  · rintro ⟨e, he, hb⟩
    obtain ⟨v, hv⟩ := exists_get_of_mem he
    exact ⟨e.1, v, hb, hv⟩
  · rintro ⟨m, v, hb, hv⟩
    exact ⟨(m, v), mem_of_get hv, hb⟩

theorem hasData_eq_false {s : Store γ κ ν} {n : Node γ κ}
    (h : ∀ m, below n m = true → get s m = none) : hasData s n = false := by
  by_contra hd
  obtain ⟨m, v, hb, hv⟩ := (hasData_iff s n).mp (by simpa using hd)
  rw [h m hb] at hv
  simp at hv

theorem mem_subscripts (s : Store γ κ ν) (n : Node γ κ) (k : κ) :
    k ∈ subscripts s n ↔ ∃ rest v, get s (n.1, n.2 ++ k :: rest) = some v := by
  unfold subscripts
  rw [List.mem_filterMap]
  constructor
  · rintro ⟨e, he, hk⟩
    split_ifs at hk with hb
    simp only [below, Bool.and_eq_true, beq_iff_eq, List.isPrefixOf_iff_prefix] at hb
    obtain ⟨t, ht⟩ := hb.2
    rw [← ht, List.getElem?_append_right (Nat.le_refl _), Nat.sub_self] at hk
    cases t with
    | nil => simp at hk
    | cons k' rest =>
      obtain rfl : k' = k := by simpa using hk
      obtain ⟨v, hv⟩ := exists_get_of_mem he
      exact ⟨rest, v, by rw [ht, hb.1]; exact hv⟩
  · rintro ⟨rest, v, hv⟩
    exact ⟨((n.1, n.2 ++ k :: rest), v), mem_of_get hv, by simp [below]⟩

/-- One update of a tree: the three of them, or a change of one node's value
that depends on the value it has. -/
inductive Upd (γ κ ν : Type)
  | set (n : Node γ κ) (v : ν)
  | kill (n : Node γ κ)
  | zkill (n : Node γ κ)
  | modify (n : Node γ κ) (f : Option ν → ν)

def Upd.apply (s : Store γ κ ν) : Upd γ κ ν → Store γ κ ν
  | .set n v => TreeStore.set n v s
  | .kill n => TreeStore.kill n s
  | .zkill n => TreeStore.zkill n s
  | .modify n f => TreeStore.set n (f (get s n)) s

def applyAll (us : List (Upd γ κ ν)) (s : Store γ κ ν) : Store γ κ ν := us.foldl Upd.apply s

def Upd.at (n : Node γ κ) (r : Option ν) : Upd γ κ ν → Option ν
  | .set m v => if m = n then some v else r
  | .kill m => if below m n then none else r
  | .zkill m => if m = n then none else r
  | .modify m f => if m = n then some (f r) else r

def look (us : List (Upd γ κ ν)) (n : Node γ κ) (r : Option ν) : Option ν :=
  us.foldl (Upd.at n) r

def Upd.var : Upd γ κ ν → γ
  | .set m _ => m.1
  | .kill m => m.1
  | .zkill m => m.1
  | .modify m _ => m.1

/-- Whether an update can change the value of `n`. -/
def Upd.hits (n : Node γ κ) : Upd γ κ ν → Bool
  | .set m _ => m = n
  | .kill m => below m n
  | .zkill m => m = n
  | .modify m _ => m = n

theorem get_apply (s : Store γ κ ν) (u : Upd γ κ ν) (n : Node γ κ) :
    get (u.apply s) n = u.at n (get s n) := by
  cases u with
  | set m v => exact get_set s m n v
  | kill m => exact get_kill s m n
  | zkill m => exact get_zkill s m n
  | modify m f =>
    rw [Upd.apply, get_set, Upd.at]
    by_cases h : m = n
    · simp [h]
    · simp [h]

theorem get_applyAll (us : List (Upd γ κ ν)) (s : Store γ κ ν) (n : Node γ κ) :
    get (applyAll us s) n = look us n (get s n) := by
  unfold applyAll look
  induction us generalizing s with
  | nil => rfl
  | cons u us ih => rw [List.foldl_cons, List.foldl_cons, ih, get_apply]

theorem applyAll_append (us vs : List (Upd γ κ ν)) (s : Store γ κ ν) :
    applyAll (us ++ vs) s = applyAll vs (applyAll us s) := List.foldl_append

theorem look_append (us vs : List (Upd γ κ ν)) (n : Node γ κ) (r : Option ν) :
    look (us ++ vs) n r = look vs n (look us n r) := List.foldl_append

theorem look_nil (n : Node γ κ) (r : Option ν) : look ([] : List (Upd γ κ ν)) n r = r := rfl

theorem look_cons (u : Upd γ κ ν) (us : List (Upd γ κ ν)) (n : Node γ κ) (r : Option ν) :
    look (u :: us) n r = look us n (u.at n r) := rfl

theorem Upd.at_of_not_hits {u : Upd γ κ ν} {n : Node γ κ} (h : u.hits n = false) (r : Option ν) :
    u.at n r = r := by
  cases u <;> simp_all [Upd.at, Upd.hits]

theorem look_of_not_hits {us : List (Upd γ κ ν)} {n : Node γ κ}
    (h : ∀ u ∈ us, u.hits n = false) (r : Option ν) : look us n r = r := by
  induction us generalizing r with
  | nil => rfl
  | cons u us ih =>
    rw [look_cons, Upd.at_of_not_hits (h u (by simp)), ih (fun v hv => h v (by simp [hv]))]

theorem look_keeps {us : List (Upd γ κ ν)} {n : Node γ κ} {r : Option ν}
    (h : ∀ u ∈ us, u.at n r = r) : look us n r = r := by
  induction us with
  | nil => rfl
  | cons u us ih => rw [look_cons, h u (by simp), ih fun v hv => h v (by simp [hv])]

theorem look_flatMap_const {A : Type*} {f : A → List (Upd γ κ ν)} {l : List A} {n : Node γ κ}
    {c : Option ν} (h : ∀ a ∈ l, (∀ r, look (f a) n r = r) ∨ ∀ r, look (f a) n r = c)
    (hex : ∃ a ∈ l, ∀ r, look (f a) n r = c) (r : Option ν) : look (l.flatMap f) n r = c := by
  have hstay : ∀ l : List A, (∀ a ∈ l, (∀ r, look (f a) n r = r) ∨ ∀ r, look (f a) n r = c) →
      look (l.flatMap f) n c = c := by
    intro l hl
    induction l with
    | nil => rfl
    | cons a l ih =>
      rw [List.forall_mem_cons] at hl
      have ha : look (f a) n c = c := hl.1.elim (fun hk => hk c) fun hc => hc c
      rw [List.flatMap_cons, look_append, ha, ih hl.2]
  obtain ⟨a, ha, hc⟩ := hex
  obtain ⟨l, l', rfl⟩ := List.append_of_mem ha
  rw [List.flatMap_append, look_append, List.flatMap_cons, look_append, hc]
  exact hstay l' fun b hb => h b (List.mem_append_right _ (List.mem_cons_of_mem _ hb))

theorem look_const {us : List (Upd γ κ ν)} {n : Node γ κ} {c : Option ν}
    (h : ∀ u ∈ us, (∀ r, u.at n r = r) ∨ ∀ r, u.at n r = c)
    (hex : ∃ u ∈ us, ∀ r, u.at n r = c) (r : Option ν) : look us n r = c := by
  rw [← List.flatMap_singleton' us]
  exact look_flatMap_const h hex r

end YdbTest.TreeStore
