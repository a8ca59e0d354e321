import YdbTest.Awk
import Mathlib.Data.Int.Init
import Mathlib.Data.List.GetD
import Mathlib.Tactic.IntervalCases

namespace YdbTest.GtcmHosts

open Awk

/-- A GT.CM server: its host and the directory of the test there. -/
structure Server where
  host : Text
  dir : Text
  deriving DecidableEq

/-- Where `dbcreate_multi.awk` puts the file of a region: nowhere, here, or on a server, with or
without an `@` before its name. -/
inductive Placement where
  | skipped
  | here
  | remote ( rand_at_prefix : Bool) (cur_gtcm_server : Server)
  deriving DecidableEq

/-- The entries of the arrays count from 1; there is nothing at any other place. -/
def entry {α : Type} (as : List α) (k : Nat) : Option α := if k = 0 then none else as[k - 1]?

def place ( rand_at_prefix : Bool) : Option Server → Placement
  | none => .skipped
  | some s => .remote rand_at_prefix s

section Dbcreate

variable (gtcm_servers : List Server) (at_prefix_array : List Bool)

def atPrefix (k : Nat) : Bool := (entry at_prefix_array k).getD false

/-- The `DEFAULT` region goes to the first server. -/
def defaultPlacement : Placement := place (atPrefix at_prefix_array 1) (entry gtcm_servers 1)

/-- The loop over the regions from `i` on: the first one is local, and each further one goes to the
server `gtcm_serv_no`, which is then counted on. -/
def regions (i gtcm_serv_no : Nat) : Nat → List Placement
  | 0 => []
  | n + 1 =>
    if i = 1 then
      (if (entry gtcm_servers 1).isNone then .skipped else .here) :: regions (i + 1) gtcm_serv_no n
    else
      place (atPrefix at_prefix_array gtcm_serv_no) (entry gtcm_servers gtcm_serv_no) ::
        regions (i + 1)
          (if gtcm_serv_no + 1 > gtcm_servers.length then 1 else gtcm_serv_no + 1) n

/-- The regions besides `DEFAULT` of a database with `n_regions`. -/
def placements (n_regions : Nat) : List Placement :=
  regions gtcm_servers at_prefix_array 1 2 (n_regions - 1)

end Dbcreate

section Outref

def database_layout_array : List Text :=
  ["DEFAULT", "B", "C", "D", "E", "F", "G", "H", "I", "J", "K", "L"].map String.toList

def max_regions : Nat := database_layout_array.length

/-- The search of the layout for a letter, which leaves `dat_no` as it is if it finds nothing. -/
def datNo (letter : Text) (dat_no : Nat) : Nat :=
  (List.range' 1 (max_regions - 1)).foldl
    (fun dat_no x => if entry database_layout_array x = some letter then x else dat_no) dat_no

/-- The host number for a line whose first field is `field`, with `dat_no` from the lines before. -/
def hostno (no_gtcm_hosts dat_no : Nat) (field : Text) : Int :=
  if "DEFAULT".toList <:+: field then 1
  else Int.tmod ((datNo (field.take 1) dat_no : Int) - 1) no_gtcm_hosts + 1

def replacement (server_list_array : List Server) (at_prefix_array : List Bool) (dat_no : Nat)
    (field : Text) : Option (Bool × Server) :=
  let h := (hostno server_list_array.length dat_no field).toNat
  (entry server_list_array h).map fun s => (atPrefix at_prefix_array h, s)

end Outref

def FILENAMES : Text := "ABCDEFGHIJKLMNOPQRSTUVWXYZ".toList

def segment (k : Nat) : Text := (entry FILENAMES k).toList ++ "SEG".toList

variable {servers : List Server} {ats : List Bool} {n_regions dat_no k n i m j : Nat}

/-- The file of a region is on the server that its line in the reference file is given. -/
def Agrees (servers : List Server) (ats : List Bool) (n_regions dat_no k : Nat) : Prop :=
  ∃ s p q, (placements servers ats n_regions)[k - 1]? = some (.remote p s) ∧
    replacement servers ats dat_no (segment k) = some (q, s)

/-- The server number for a region besides the first one. With one server, the counter has already
passed it at the first of these regions. -/
def servNo (n i : Nat) : Nat := if n = 1 ∧ i = 2 then 2 else (i - 1) % n + 1

theorem succ_mod (hn : 0 < n) : (m + 1) % n = if m % n + 1 = n then 0 else m % n + 1 := by
  have hlt := Nat.mod_lt m hn
  have hm : m + 1 = m % n + 1 + n * (m / n) := by
    have := Nat.mod_add_div m n
    omega
  split_ifs with h
  · rw [hm, h, Nat.add_mul_mod_self_left, Nat.mod_self]
  · rw [hm, Nat.add_mul_mod_self_left, Nat.mod_eq_of_lt (by omega)]

theorem servNo_succ (hn : 0 < n) (hi : 2 ≤ i) :
    (if servNo n i + 1 > n then 1 else servNo n i + 1) = servNo n (i + 1) := by
  have hnext : servNo n (i + 1) = i % n + 1 := by
    rw [servNo, if_neg (by omega), Nat.add_sub_cancel]
  rw [hnext, servNo]
  have hmod := succ_mod (m := i - 1) hn
  rw [Nat.sub_add_cancel (by omega)] at hmod
  have hlt := Nat.mod_lt (i - 1) hn
  by_cases h : n = 1 ∧ i = 2
  · obtain ⟨rfl, rfl⟩ := h
    rfl
  · rw [if_neg h, hmod]
    split_ifs <;> omega

theorem regions_get (hn : 0 < servers.length) (hi : 2 ≤ i) (hj : j < m) :
    (regions servers ats i (servNo servers.length i) m)[j]? =
      some (place (atPrefix ats (servNo servers.length (i + j)))
        (entry servers (servNo servers.length (i + j)))) := by
  induction m generalizing i j with
  | zero => omega
  | succ m ih =>
    rw [regions, if_neg (by omega)]
    cases j with
    | zero => rw [List.getElem?_cons_zero, Nat.add_zero]
    | succ j =>
      rw [List.getElem?_cons_succ, servNo_succ hn hi, ih (by omega) (by omega)]
      have hsum : i + 1 + j = i + (j + 1) := by omega
      rw [hsum]

theorem placements_get (hn : 0 < servers.length) (hk : 2 ≤ k) (hlt : k < n_regions) :
    (placements servers ats n_regions)[k - 1]? =
      some (place (atPrefix ats (servNo servers.length k))
        (entry servers (servNo servers.length k))) := by
  obtain ⟨m, hm⟩ : ∃ m, n_regions - 1 = m + 1 := ⟨n_regions - 2, by omega⟩
  have hstart : 2 = servNo servers.length 2 := by
    rw [servNo]
    split_ifs with h
    · rfl
    · rw [Nat.mod_eq_of_lt (by omega)]
  have hget := @regions_get servers ats 2 m (k - 2) hn le_rfl (by omega)
  rw [← hstart, Nat.add_sub_cancel' hk] at hget
  obtain ⟨j, rfl⟩ : ∃ j, k = j + 2 := ⟨k - 2, by omega⟩
  rw [placements, hm, regions, if_pos rfl]
  exact hget

theorem datNo_segment (hk : 2 ≤ k) (d : Nat) :
    datNo ((segment k).take 1) d = if k ≤ 11 then k else d := by
  by_cases h : k ≤ 26
  · interval_cases k <;> rfl
  · have hno : entry FILENAMES k = none := by
      have hlen : FILENAMES.length = 26 := rfl
      rw [entry, if_neg (by omega), List.getElem?_eq_none (by omega)]
    rw [segment, hno, if_neg (by omega)]
    rfl

theorem not_default_segment (k : Nat) : ¬ "DEFAULT".toList <:+: segment k := by
  intro h
  have hlen := h.length_le
  have hle : (segment k).length ≤ 4 := by
    rw [segment, List.length_append]
    cases entry FILENAMES k with
    | none => decide
    | some c => exact le_refl 4
  have hseven : "DEFAULT".toList.length = 7 := rfl
  omega

theorem hostno_segment (hk : 2 ≤ k) (n d : Nat) : hostno n d (segment k) =
    Int.tmod (((if k ≤ 11 then k else d : Nat) : Int) - 1) n + 1 := by
  unfold hostno
  rw [if_neg (not_default_segment k)]
  rw [datNo_segment hk]

/-- The server that outref.awk gives to a letter it has not found, by the number left from the
lines before. -/
def stale (servers : List Server) (dat_no : Nat) : Option Server :=
  entry servers (Int.tmod ((dat_no : Int) - 1) servers.length + 1).toNat

theorem replacement_segment (hk : 2 ≤ k) : (replacement servers ats dat_no (segment k)).map Prod.snd =
    if k ≤ 11 then entry servers ((k - 1) % servers.length + 1) else stale servers dat_no := by
  have hcast : ((k : Int) - 1) = ((k - 1 : Nat) : Int) := by omega
  rw [replacement, Option.map_map]
  change (entry _ _).map id = _
  rw [Option.map_id, id, hostno_segment hk]
  split_ifs with h
  · rw [hcast, ← Int.ofNat_tmod]
    rfl
  · rfl

theorem default_agrees (hn : 0 < servers.length) : ∃ s p, defaultPlacement servers ats = .remote p s ∧
    replacement servers ats dat_no "DEFAULT".toList = some (p, s) := by
  refine ⟨servers[0], atPrefix ats 1, ?_, ?_⟩
  · rw [defaultPlacement, entry, if_neg one_ne_zero, List.getElem?_eq_getElem hn]
    rfl
  · have hone : hostno servers.length dat_no "DEFAULT".toList = 1 := by
      unfold hostno
      exact if_pos List.infix_rfl
    rw [replacement, hone, Int.toNat_one, entry, if_neg one_ne_zero, List.getElem?_eq_getElem hn]
    rfl

/-- Where the file of a region is, for the regions besides `DEFAULT` and the local one. -/
theorem placement_remote (hn : 0 < servers.length) (hk : 2 ≤ k) (hlt : k < n_regions) (s : Server) :
    (∃ p, (placements servers ats n_regions)[k - 1]? = some (.remote p s)) ↔
      ¬ (servers.length = 1 ∧ k = 2) ∧ entry servers ((k - 1) % servers.length + 1) = some s := by
  rw [placements_get hn hk hlt, servNo]
  split_ifs with h
  · have hnone : entry servers 2 = none := by
      rw [entry, if_neg two_ne_zero, List.getElem?_eq_none (by omega)]
    simp only [hnone, place, h, and_self, not_true_eq_false, false_and, iff_false]
    rintro ⟨p, hp⟩
    cases hp
  · cases hs : entry servers ((k - 1) % servers.length + 1) with
    | none => simp [place]
    | some s' => simp [place, h]

/-- The two scripts agree on a region if it is not the first one of a single server, and it is one
of B to K, or the server comes to be that of the line before. -/
theorem gtcm_agrees_iff (hn : 0 < servers.length) (hk : 2 ≤ k) (hlt : k < n_regions) :
    Agrees servers ats n_regions dat_no k ↔ ¬ (servers.length = 1 ∧ k = 2) ∧
      (k ≤ 11 ∨ entry servers ((k - 1) % servers.length + 1) = stale servers dat_no) := by
  have hrep := @replacement_segment servers ats dat_no k hk
  have hin : (entry servers ((k - 1) % servers.length + 1)).isSome := by
    rw [entry, if_neg (Nat.succ_ne_zero _), Nat.add_sub_cancel,
      List.getElem?_eq_getElem (Nat.mod_lt _ hn)]
    rfl
  obtain ⟨s, hs⟩ := Option.isSome_iff_exists.mp hin
  rw [Agrees, hs]
  rw [hs] at hrep
  refine ⟨?_, ?_⟩
  · rintro ⟨s', p, q, hp, hq⟩
    obtain ⟨hno, hs'⟩ := (placement_remote hn hk hlt s').mp ⟨p, hp⟩
    refine ⟨hno, ?_⟩
    rw [hs] at hs'
    cases hs'
    rw [hq, Option.map_some] at hrep
    by_cases h : k ≤ 11
    · exact .inl h
    · rw [if_neg h] at hrep
      exact .inr hrep
  · rintro ⟨hno, h⟩
    obtain ⟨p, hp⟩ := (@placement_remote servers ats n_regions k hn hk hlt s).mpr ⟨hno, hs⟩
    have hmap : (replacement servers ats dat_no (segment k)).map Prod.snd = some s := by
      rw [hrep]
      split_ifs with hle
      · rfl
      · exact (h.resolve_left hle).symm
    obtain ⟨⟨q, s'⟩, hq, heq⟩ := Option.map_eq_some_iff.mp hmap
    cases heq
    exact ⟨s', p, q, hp, hq⟩

theorem gtcm_agrees_iff_two_servers : Agrees [⟨['u'], ['v']⟩, ⟨['x'], ['y']⟩] [true] 5 0 4 := by
  exact (gtcm_agrees_iff (by decide) (by decide) (by decide)).mpr ⟨by decide, .inl (by decide)⟩

/-- The client leaves out the first region that is to be on a single server. -/
theorem single_server_skips : ¬ ∀ (servers : List Server) (ats : List Bool) (n_regions dat_no k : Nat),
    0 < servers.length → 2 ≤ k → k < n_regions → Agrees servers ats n_regions dat_no k := by
  intro hall
  obtain ⟨s, p, q, hp, -⟩ := hall [⟨['u'], ['v']⟩] [true] 3 0 2 (by decide) (by decide) (by decide)
  cases hp

end YdbTest.GtcmHosts
