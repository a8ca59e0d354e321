import YdbTest.Decimal
import YdbTest.JournalReplay
import YdbTest.Separated

namespace YdbTest.UmJrnlReplay

open MString UmJrnl JournalReplay Separated

/-- A line of the extract, with the last part as it is. -/
def join (hs : List Str) (data : Str) : Str := hs.flatMap (· ++ [backslash]) ++ data

def recType : Kind → Str
  | .set => lit "05"
  | .kill => lit "04"
  | .zkill => lit "10"
  | .ztrigger => lit "12"
  | .ztwormhole => lit "11"

def head (r : Upd) : List Str :=
  recType r.kind :: (r.fields ++ if r.kind = .ztwormhole then [] else [dec r.nodeflags])

def line : Tok → Str
  | .upd r => join (head r) r.data
  | .tstart ztp rest => join [if ztp then lit "06" else lit "08"] rest
  | .tcommit ztp rest => join [if ztp then lit "07" else lit "09"] rest

/-- A node as an extract writes it, not of the triggers: an `=` stands only inside quotes. -/
structure Reference (node : Str) : Prop where
  user : ¬ lit "^#t" <+: node
  closed : node.count quote % 2 = 0
  quoted : ∀ i, node[i]? = some equals → (node.take i).count quote % 2 = 1

structure WellFormed (r : Upd) : Prop where
  fields : r.fields.length = 8
  plain : ∀ f ∈ r.fields, backslash ∉ f
  node : Reference r.node

/-- Properly nested fences, of which the outermost may still be open at the end, with ZTRIG and
ZTWORMHOLE records only inside. -/
def Nested : Nat → List Tok → Prop
  | _, [] => True
  | d, .upd r :: ts => WellFormed r ∧ (d = 0 → r.isUpdate = true) ∧ Nested d ts
  | d, .tstart _ _ :: ts => Nested (d + 1) ts
  | 0, .tcommit _ _ :: _ => False
  | d + 1, .tcommit _ _ :: ts => Nested d ts

def Unfenced (ts : List Tok) : Prop := ∀ t ∈ ts, ∃ r, t = .upd r

section Lines

variable {hs : List Str} {data node value : Str} {k : Nat}

theorem splitOn_join (h : ∀ f ∈ hs, backslash ∉ f) (data : Str) :
    (join hs data).splitOn backslash = hs ++ data.splitOn backslash := by
  induction hs with
  | nil => rfl
  | cons f hs ih =>
    obtain ⟨hf, hrest⟩ := List.forall_mem_cons.mp h
    have hj : join (f :: hs) data = f ++ backslash :: join hs data := by
      simp [join, List.append_assoc]
    rw [hj, List.splitOn_append_cons_self_of_not_mem hf, ih hrest, List.cons_append]

theorem piece_join (h : ∀ f ∈ hs, backslash ∉ f) (hk : k < hs.length) :
    piece (join hs data) backslash (k + 1) = hs[k] := by
  rw [piece, if_neg (Nat.succ_ne_zero k), splitOn_join h, Nat.add_sub_cancel, List.getD_eq_getElem?_getD,
    List.getElem?_append_left hk, List.getElem?_eq_getElem hk, Option.getD_some]

theorem pieceFrom_join (h : ∀ f ∈ hs, backslash ∉ f) (hk : k = hs.length + 1) :
    pieceFrom (join hs data) backslash k = data := by
  rw [pieceFrom, splitOn_join h, hk, Nat.add_sub_cancel, List.drop_left, List.intercalate_splitOn]

theorem piece_last (h : ∀ f ∈ hs, backslash ∉ f) (hk : k = hs.length + 1) :
    piece (join hs data) backslash k <+: data := by
  rw [piece, hk, if_neg (Nat.succ_ne_zero _), splitOn_join h, Nat.add_sub_cancel,
    List.getD_eq_getElem?_getD, List.getElem?_append_right le_rfl, Nat.sub_self]
  have hdata : [backslash].intercalate (data.splitOn backslash) = data :=
    List.intercalate_splitOn backslash
  cases hd : data.splitOn backslash with
  | nil => exact List.nil_prefix
  | cons a as =>
    rw [hd] at hdata
    rw [← hdata]
    cases as with
    | nil => simp
    | cons b bs =>
      rw [List.intercalate_cons_cons]
      exact List.prefix_append_of_prefix (List.prefix_append _ _)

theorem SPLIT_set (h : Reference node) (value : Str) :
    SPLIT (node ++ equals :: value) = (node, value) := by
  have hfind : (List.range (node ++ equals :: value).length).find? (fun i =>
      decide ((node ++ equals :: value)[i]? = some equals ∧
        ((node ++ equals :: value).take i).count quote % 2 = 0)) = some node.length := by
    rw [List.find?_range_eq_some]
    refine ⟨?_, ?_, ?_⟩
    · rw [decide_eq_true_eq, List.getElem?_append_right le_rfl, Nat.sub_self, List.take_left]
      exact ⟨rfl, h.closed⟩
    · rw [List.mem_range, List.length_append, List.length_cons]
      omega
    · intro j hj
      rw [Bool.not_eq_true', decide_eq_false_iff_not, List.getElem?_append_left hj,
        List.take_append_of_le_length hj.le]
      rintro ⟨heq, heven⟩
      have := h.quoted j heq
      omega
  rw [SPLIT, hfind]
  simp

end Lines

section Records

variable {St : Type} {e : Engine St} {m : Settings} {s : State St} {r : Upd} {n : Nat}

theorem length_head (h : WellFormed r) :
    (head r).length + 1 = if r.kind = .ztwormhole then 10 else 11 := by
  rw [head, List.length_cons, List.length_append, h.fields]
  split_ifs <;> rfl

theorem backslash_dec (k : Nat) : backslash ∉ dec k := by
  intro h
  rw [dec] at h
  split_ifs at h with hk
  · simp [backslash] at h
  · have hd := Decimal.isDigit_of_mem_digitsStr
      (fun d (hd : d ∈ Nat.digits 10 k) => Nat.digits_lt_base (by omega) hd) h
    have hb : backslash = 92 := rfl
    omega

theorem plain_head (h : WellFormed r) : ∀ f ∈ head r, backslash ∉ f := by
  have htype : backslash ∉ recType r.kind := by cases r.kind <;> decide
  rw [head, List.forall_mem_cons, List.forall_mem_append]
  refine ⟨htype, h.plain, ?_⟩
  intro f hf
  split_ifs at hf with hk
  · exact nomatch hf
  · rw [List.mem_singleton.mp hf]
    exact backslash_dec r.nodeflags

theorem recType_line (h : WellFormed r) : piece (line (.upd r)) backslash 1 = recType r.kind :=
  piece_join (plain_head h) (Nat.succ_pos _)

theorem pieceFrom_line (h : WellFormed r) :
    pieceFrom (line (.upd r)) backslash (if r.kind = .ztwormhole then 10 else 11) = r.data :=
  pieceFrom_join (plain_head h) (length_head h).symm

theorem odd_line (h : WellFormed r) (hk : r.kind ≠ .ztwormhole) :
    odd (piece (line (.upd r)) backslash 10) = decide (r.nodeflags % 2 = 1) := by
  have hlen : (head r).length = 10 := by
    have := length_head h
    rw [if_neg hk] at this
    omega
  have hget : (head r)[9] = dec r.nodeflags := by
    simp only [head, if_neg hk, List.getElem_cons_succ]
    rw [List.getElem_append_right h.fields.le]
    simp [h.fields]
  rw [line, piece_join (plain_head h) (hlen ▸ Nat.lt_succ_self 9), hget, odd, Decimal.toNat_dec]

theorem not_trigger (h : WellFormed r) (hk : r.kind = .kill ∨ r.kind = .zkill) :
    (piece (line (.upd r)) backslash 11).take 3 ≠ lit "^#t" := by
  have hkind : r.kind ≠ .ztwormhole := by
    rintro h'
    rw [h'] at hk
    exact hk.elim (nomatch ·) (nomatch ·)
  have hdata : r.data = r.node := by
    rw [Upd.data]
    obtain hk | hk := hk <;> rw [hk]
  have hlast := @piece_last (head r) r.data _ (plain_head h) (length_head h).symm
  rw [if_neg hkind, hdata] at hlast
  intro heq
  apply h.node.user
  rw [← heq, line, hdata]
  exact (List.take_prefix _ _).trans hlast

theorem not_trigger_set (h : WellFormed r) (hk : r.kind = .set) :
    (piece (line (.upd r)) backslash 11).take 4 ≠ lit "^#t(" := by
  have hdata : r.data = r.node ++ equals :: r.value := by
    rw [Upd.data, hk]
  have hlast := @piece_last (head r) r.data 11 (plain_head h) (by rw [length_head h, hk]; rfl)
  intro heq
  have hp : lit "^#t(" <+: r.node ++ equals :: r.value := by
    rw [← heq, line, ← hdata]
    exact (List.take_prefix _ _).trans hlast
  apply h.node.user
  exact (by decide : lit "^#t" <+: lit "^#t(").trans (prefix_of_sep (by decide) hp)

theorem setRec_line (h : WellFormed r) (hk : r.kind = .set) :
    setRec e m n (line (.upd r)) s =
      if triggered m r || modified e m r s.st then s else apply e n r.command s := by
  have hdata : r.data = r.node ++ equals :: r.value := by rw [Upd.data, hk]
  have hfrom : pieceFrom (line (.upd r)) backslash 11 = r.data := by
    have := pieceFrom_line h
    rwa [hk] at this
  have hodd := odd_line h (by rw [hk]; decide)
  have hcommand : r.command = lit "set " ++ r.data := by rw [Upd.command, hk]
  have hsplit : SPLIT r.data = (r.node, r.value) := hdata ▸ SPLIT_set h.node r.value
  simp only [setRec, hfrom, hodd, if_neg (not_trigger_set h hk), hsplit, hcommand, triggered,
    modified, Bool.or_eq_true, ite_or]

theorem kills_line (h : WellFormed r) (hk : r.kind = .kill ∨ r.kind = .zkill) (word : Str) :
    kills e m word n (line (.upd r)) s =
      if s.skipgbl || modified e m r s.st then
        { s with skipgbl := s.skipgbl || modified e m r s.st }
      else apply e n (word ++ r.data) { s with skipgbl := s.skipgbl || modified e m r s.st } := by
  have hdata : r.data = r.node := by
    rw [Upd.data]
    obtain hk | hk := hk <;> rw [hk]
  have hfrom : pieceFrom (line (.upd r)) backslash 11 = r.data := by
    have := pieceFrom_line h
    obtain hk | hk := hk <;> rwa [hk] at this
  simp only [kills, hfrom, if_neg (not_trigger h hk), modified, hdata]

theorem record_upd (h : WellFormed r)
    (hin : r.isUpdate = true ∨ s.tpFence ≠ 0 ∧ m.checkzqgblmod = false) :
    record e m s (n, line (.upd r)) =
      some (if umjrnlSkip e m s.skipgbl r s.st then
          { s with skipgbl := umjrnlFlag e m s.skipgbl r s.st }
        else apply e n r.command { s with skipgbl := umjrnlFlag e m s.skipgbl r s.st }) := by
  have htype := recType_line h
  have hfrom := pieceFrom_line h
  cases hk : r.kind with
  | set =>
    rw [hk] at htype
    have hnum : toNat (recType .set) = 5 := by decide
    simp only [record, htype, hnum, setRec_line h hk, umjrnlSkip, umjrnlFlag, hk, if_true]
  | kill =>
    rw [hk] at htype
    have hnum : toNat (recType .kill) = 4 := by decide
    have hcommand : r.command = lit "kill " ++ r.data := by rw [Upd.command, hk]
    simp only [record, htype, hnum, killRec, kills_line h (.inl hk), odd_line h (by rw [hk]; decide),
      umjrnlSkip, umjrnlFlag, hk, hcommand]
    cases ht : triggered m r
    · simp only [triggered] at ht
      simp [ht]
    · simp only [triggered] at ht
      simp [ht]
  | zkill =>
    rw [hk] at htype
    have hnum : toNat (recType .zkill) = 10 := by decide
    have hcommand : r.command = lit "ZKILL " ++ r.data := by rw [Upd.command, hk]
    simp only [record, htype, hnum, zkillRec, kills_line h (.inr hk), umjrnlSkip, umjrnlFlag, hk,
      hcommand]
    rfl
  | ztrigger =>
    rw [hk] at htype hfrom
    have hnum : toNat (recType .ztrigger) = 12 := by decide
    have hcommand : r.command = lit "ztrigger " ++ r.data := by rw [Upd.command, hk]
    obtain ⟨hfence, hcheck⟩ := hin.resolve_left (by simp [Upd.isUpdate, hk])
    have hpiece : pieceFrom (line (.upd r)) backslash 11 = r.data := hfrom
    simp [record, htype, hnum, ztrig, within, hpiece, hcheck, hfence, umjrnlSkip, umjrnlFlag, hk,
      hcommand, apply]
  | ztwormhole =>
    rw [hk] at htype hfrom
    have hnum : toNat (recType .ztwormhole) = 11 := by decide
    have hcommand : r.command = lit "set $ztwormhole=" ++ r.data := by rw [Upd.command, hk]
    obtain ⟨hfence, hcheck⟩ := hin.resolve_left (by simp [Upd.isUpdate, hk])
    have hpiece : pieceFrom (line (.upd r)) backslash 10 = r.data := hfrom
    simp [record, htype, hnum, UmJrnl.ztwormhole, within, hpiece, hcheck, hfence, umjrnlSkip,
      umjrnlFlag, hk, hcommand, apply]

theorem record_tstart (ztp : Bool) (rest : Str) : record e m s (n, line (.tstart ztp rest)) =
    some (if ztp then clearZtwormhole e (start s) else start s) := by
  have hpiece : piece (line (.tstart ztp rest)) backslash 1 =
      if ztp then lit "06" else lit "08" := by
    refine @piece_join [if ztp then lit "06" else lit "08"] rest 0 ?_ Nat.one_pos
    cases ztp <;> decide
  have h6 : toNat (lit "06") = 6 := by decide
  have h8 : toNat (lit "08") = 8 := by decide
  cases ztp <;> simp [record, hpiece, h6, h8]

theorem record_tcommit (ztp : Bool) (rest : Str) : record e m s (n, line (.tcommit ztp rest)) =
    (finish e m s).map (if ztp then clearZtwormhole e else id) := by
  have hpiece : piece (line (.tcommit ztp rest)) backslash 1 =
      if ztp then lit "07" else lit "09" := by
    refine @piece_join [if ztp then lit "07" else lit "09"] rest 0 ?_ Nat.one_pos
    cases ztp <;> decide
  have h7 : toNat (lit "07") = 7 := by decide
  have h9 : toNat (lit "09") = 9 := by decide
  cases ztp <;> simp [record, hpiece, h7, h9]

end Records

section Simulation

variable {St : Type} {e : Engine St} {m : Settings} {p : List (Nat × Upd)} {es : List Event}
  {ts : List Tok} {d n : Nat} {st : St}

/-- What `umjrnl` puts in `tran` of the records of a transaction. -/
def kept (p : List (Nat × Upd)) : List (Nat × Str) :=
  (p.filter fun u => !(u.2.kind = .set || u.2.kind = .kill) || !triggered m u.2).map
    fun u => (u.1, u.2.command)

theorem umjrnlSkip_false (hcheck : m.checkzqgblmod = false) (r : Upd) (st : St) :
    umjrnlSkip e m false r st = ((r.kind = .set || r.kind = .kill) && triggered m r) := by
  have hmod : modified e m r st = false := by rw [modified, hcheck, Bool.false_and]
  simp only [umjrnlSkip, hmod]
  cases r.kind <;> simp

theorem umjrnlFlag_false (hcheck : m.checkzqgblmod = false) (r : Upd) (st : St) :
    umjrnlFlag e m false r st = false := by
  have hmod : modified e m r st = false := by rw [modified, hcheck, Bool.false_and]
  simp only [umjrnlFlag, hmod]
  cases r.kind <;> simp

theorem run_pending (hcheck : m.checkzqgblmod = false) (st : St) :
    run e (umjrnlSkip e m) (umjrnlFlag e m) (p.map (fun u => .upd u.1 u.2) ++ es) false st =
      let after := run e (umjrnlSkip e m) (umjrnlFlag e m) es false
        ((@kept m p).foldl (fun st c => e.xecute c.2 st) st)
      (after.1, (@kept m p).map Prod.fst ++ after.2) := by
  induction p generalizing st with
  | nil => rfl
  | cons u p ih =>
    rw [List.map_cons, List.cons_append, run, umjrnlSkip_false hcheck, umjrnlFlag_false hcheck]
    cases hs : (decide (u.2.kind = .set) || decide (u.2.kind = .kill)) && triggered m u.2
    · have hkept : @kept m (u :: p) = (u.1, u.2.command) :: @kept m p := by
        rw [kept, List.filter_cons_of_pos (by rw [← Bool.not_and, hs]; rfl)]
        rfl
      rw [if_neg Bool.false_ne_true, ih, hkept]
      rfl
    · have hkept : @kept m (u :: p) = @kept m p := by
        rw [kept, List.filter_cons_of_neg (by rw [← Bool.not_and, hs]; exact Bool.false_ne_true)]
        rfl
      rw [if_pos rfl, ih, hkept]

theorem kept_append (r : Upd) : @kept m (p ++ [(n, r)]) =
    if (decide (r.kind = .set) || decide (r.kind = .kill)) && triggered m r then @kept m p
    else @kept m p ++ [(n, r.command)] := by
  rw [kept, List.filter_append, List.map_append]
  cases hs : (decide (r.kind = .set) || decide (r.kind = .kill)) && triggered m r
  · rw [List.filter_cons_of_pos (by rw [← Bool.not_and, hs]; rfl)]
    rfl
  · rw [List.filter_cons_of_neg (by rw [← Bool.not_and, hs]; exact Bool.false_ne_true)]
    exact List.append_nil _

theorem apply_outside {s : State St} (h : s.tpFence = 0) (command : Str) : apply e n command s =
    { s with st := e.xecute command s.st, applied := s.applied ++ [n] } :=
  if_neg (not_not.mpr h)

theorem apply_inside {s : State St} (h : s.tpFence ≠ 0) (command : Str) : apply e n command s =
    { s with tran := s.tran ++ [(n, command)] } :=
  if_pos h

theorem finish_outermost {s : State St} (h : s.tpFence = 1) (hcheck : m.checkzqgblmod = false) :
    finish e m s = some
      ⟨s.tran.foldl (fun st c => e.xecute c.2 st) s.st, 0, [], s.skipgbl,
        s.applied ++ s.tran.map Prod.fst⟩ := by
  simp [finish, h, commit, hcheck]

theorem finish_inner {s : State St} (h : s.tpFence ≠ 1) :
    finish e m s = some { s with tpFence := s.tpFence - 1 } :=
  if_neg (by simpa [sub_eq_zero] using h)

/-- The routine does the events of the extract, with its own decisions. The variables between two
records: the fences that are open, the records of the transaction, and a flag that is not set
unless `checkzqgblmod` is. -/
theorem foldlM_record (s : State St) (hw : Nested d ts) (hfence : s.tpFence = d)
    (htran : s.tran = @kept m p) (hout : d = 0 → p = [])
    (hcheck : m.checkzqgblmod = true → d = 0 ∧ Unfenced ts)
    (hflag : m.checkzqgblmod = false → s.skipgbl = false) :
    ∃ s', ((ts.map line).zipIdx n).foldlM (fun s l => record e m s l.swap) s = some s' ∧
      (s'.st, s'.applied) =
        ((run e (umjrnlSkip e m) (umjrnlFlag e m) (events d p n ts) s.skipgbl s.st).1,
          s.applied ++ (run e (umjrnlSkip e m) (umjrnlFlag e m) (events d p n ts) s.skipgbl s.st).2)
    := by
  induction ts generalizing d p n s with
  | nil => exact ⟨s, rfl, by rw [events, run, List.append_nil]⟩
  | cons t ts ih =>
    rw [List.map_cons, List.zipIdx_cons, List.foldlM_cons, Prod.swap]
    cases t with
    | upd r =>
      rw [Nested] at hw
      obtain ⟨hr, hup, hrest⟩ := hw
      have hlater : m.checkzqgblmod = true → d = 0 ∧ Unfenced ts := fun h =>
        ⟨(hcheck h).1, fun t ht => (hcheck h).2 t (List.mem_cons_of_mem _ ht)⟩
      cases d with
      | zero =>
        rw [record_upd hr (.inl (hup rfl)), events, run]
        have hflag' : m.checkzqgblmod = false → umjrnlFlag e m s.skipgbl r s.st = false := by
          intro hc
          rw [hflag hc]
          exact umjrnlFlag_false hc r s.st
        cases umjrnlSkip e m s.skipgbl r s.st
        · rw [if_neg Bool.false_ne_true, if_neg Bool.false_ne_true, apply_outside (by exact hfence)]
          obtain ⟨s', hrun, hs'⟩ := @ih p 0 (n + 1)
            ⟨e.xecute r.command s.st, s.tpFence, s.tran, umjrnlFlag e m s.skipgbl r s.st,
              s.applied ++ [n]⟩ hrest hfence htran hout hlater hflag'
          refine ⟨s', hrun, ?_⟩
          rw [hs', List.append_assoc]
          rfl
        · exact ih _ hrest hfence htran hout hlater hflag'
      | succ d =>
        have hc : m.checkzqgblmod = false := by
          by_contra h
          exact Nat.succ_ne_zero d (hcheck (Bool.eq_true_of_not_eq_false h)).1
        have hin : s.tpFence ≠ 0 := by
          rw [hfence]
          exact Nat.cast_ne_zero.mpr (Nat.succ_ne_zero d)
        rw [record_upd hr (.inr ⟨hin, hc⟩), events, hflag hc, umjrnlSkip_false hc,
          umjrnlFlag_false hc]
        have happ := @kept_append m p n r
        cases hskip : (decide (r.kind = .set) || decide (r.kind = .kill)) && triggered m r
        · rw [hskip, if_neg Bool.false_ne_true] at happ
          rw [if_neg Bool.false_ne_true, apply_inside (by exact hin)]
          refine ih _ hrest hfence ?_ (fun h => absurd h (Nat.succ_ne_zero _)) hlater (fun _ => rfl)
          rw [happ, ← htran]
        · rw [hskip, if_pos rfl] at happ
          rw [if_pos rfl]
          exact ih _ hrest hfence (htran.trans happ.symm) (fun h => absurd h (Nat.succ_ne_zero _))
            hlater (fun _ => rfl)
    | tstart ztp rest =>
      rw [Nested] at hw
      have hc : m.checkzqgblmod = false := by
        by_contra h
        obtain ⟨r, hr⟩ := (hcheck (Bool.eq_true_of_not_eq_false h)).2 _ List.mem_cons_self
        cases hr
      have hlater : m.checkzqgblmod = true → d + 1 = 0 ∧ Unfenced ts := by
        rw [hc]
        exact fun h => absurd h Bool.false_ne_true
      have hevents : events d p n (.tstart ztp rest :: ts) =
          clearIf ztp ++ events (d + 1) p (n + 1) ts := by
        cases d <;> rw [events]
      have hnext : s.tpFence + 1 = ((d + 1 : Nat) : Int) := by rw [hfence, Nat.cast_succ]
      rw [record_tstart, hevents]
      cases ztp
      · exact ih (start s) hw hnext htran (fun h => absurd h (Nat.succ_ne_zero _)) hlater hflag
      · exact ih (clearZtwormhole e (start s)) hw hnext htran
          (fun h => absurd h (Nat.succ_ne_zero _)) hlater hflag
    | tcommit ztp rest =>
      have hc : m.checkzqgblmod = false := by
        by_contra h
        obtain ⟨r, hr⟩ := (hcheck (Bool.eq_true_of_not_eq_false h)).2 _ List.mem_cons_self
        cases hr
      rw [record_tcommit]
      obtain _ | _ | d := d
      · exact absurd hw (by rw [Nested]; exact not_false)
      · rw [Nested] at hw
        have hlater : m.checkzqgblmod = true → 0 = 0 ∧ Unfenced ts := by
          rw [hc]
          exact fun h => absurd h Bool.false_ne_true
        rw [finish_outermost hfence hc, events, List.append_assoc, hflag hc, run_pending hc, ← htran]
        cases ztp
        · obtain ⟨s', hrun, hs'⟩ := @ih [] 0 (n + 1)
            ⟨s.tran.foldl (fun st c => e.xecute c.2 st) s.st, 0, [], false,
              s.applied ++ s.tran.map Prod.fst⟩ hw rfl rfl (fun _ => rfl) hlater (fun _ => rfl)
          refine ⟨s', hrun, ?_⟩
          rw [hs', List.append_assoc]
          rfl
        · obtain ⟨s', hrun, hs'⟩ := @ih [] 0 (n + 1)
            (clearZtwormhole e ⟨s.tran.foldl (fun st c => e.xecute c.2 st) s.st, 0, [], false,
              s.applied ++ s.tran.map Prod.fst⟩) hw rfl rfl (fun _ => rfl) hlater (fun _ => rfl)
          refine ⟨s', hrun, ?_⟩
          rw [hs', clearZtwormhole, List.append_assoc]
          rfl
      · rw [Nested] at hw
        have hfence' : s.tpFence ≠ 1 := by omega
        have hnext : s.tpFence - 1 = ((d + 1 : Nat) : Int) := by omega
        have hlater : m.checkzqgblmod = true → d + 1 = 0 ∧ Unfenced ts := by
          rw [hc]
          exact fun h => absurd h Bool.false_ne_true
        rw [finish_inner hfence', events]
        cases ztp
        · exact ih { s with tpFence := s.tpFence - 1 } hw hnext htran
            (fun h => absurd h (Nat.succ_ne_zero _)) hlater hflag
        · exact ih (clearZtwormhole e { s with tpFence := s.tpFence - 1 }) hw hnext htran
            (fun h => absurd h (Nat.succ_ne_zero _)) hlater hflag

/-- Of the extract, `umjrnl` does what its records say and no more, if and only if none of them is
disturbed. -/
theorem umjrnl_replays_iff {header : Str} (hh : lit "YDBJEX08" <:+: header) (hw : Nested 0 ts)
    (hu : m.checkzqgblmod = true → Unfenced ts) (st : St) :
    (∃ s, umjrnl e m header (ts.map line) st = some s ∧
      (s.st, s.applied) = replay e m (events 0 [] 1 ts) st) ↔
    Undisturbed m false (visits e m (events 0 [] 1 ts) st) := by
  obtain ⟨s, hs, heq⟩ := @foldlM_record St e m [] ts 0 1 ⟨st, 0, [], false, []⟩ hw rfl rfl
    (fun _ => rfl) (fun h => ⟨rfl, hu h⟩) (fun _ => rfl)
  have hnumbers : (numbers (events 0 [] 1 ts)).Nodup :=
    (@numbers_events [] 0 1 ts List.nodup_nil (fun _ h => nomatch h)).1
  rw [List.nil_append] at heq
  rw [← @run_eq_iff St e m st false false _ hnumbers, umjrnl, if_pos hh, hs]
  refine ⟨?_, ?_⟩
  · rintro ⟨s', hs', heq'⟩
    cases hs'
    exact heq.symm.trans heq'
  · intro h
    exact ⟨s, rfl, heq.trans h⟩

end Simulation

section Sample

/-- A database that lists the commands done, with `$zqgblmod` true of `^a` alone. -/
def listing : Engine (List Str) := ⟨fun c st => st ++ [c], fun node _ => node = lit "^a"⟩

def sample (kind : Kind) (nodeflags : Nat) (node : Str) : Upd :=
  ⟨kind, ["62154,1", "7", "0", "0", "3", "0", "0", "1"].map lit, nodeflags, node, lit "1"⟩

theorem sample_wellFormed (kind : Kind) (nodeflags : Nat) (c : Nat) (h : c ≠ 35 ∧ c ≠ 34 ∧ c ≠ 61) :
    WellFormed (sample kind nodeflags [94, c]) := by
  obtain ⟨h₁, h₂, h₃⟩ := h
  refine ⟨rfl, ?_, ?_, ?_, ?_⟩
  · show ∀ f ∈ ["62154,1", "7", "0", "0", "3", "0", "0", "1"].map lit, backslash ∉ f
    decide
  · simp [sample, lit]
  · simp [sample, quote, h₂]
  · intro i hi
    match i with
    | 0 => simp [sample, equals] at hi
    | 1 => simp [sample, equals, h₃] at hi
    | i + 2 => simp [sample] at hi

/-- A transaction, a record outside, and a transaction that is not complete. -/
def fenced : List Tok :=
  [.tstart false [], .upd (sample .set 1 (lit "^a")), .upd (sample .set 0 (lit "^b")),
    .tcommit false [], .upd (sample .kill 0 (lit "^c")), .tstart true [],
    .upd (sample .set 0 (lit "^d"))]

theorem fenced_replayed : ∃ s,
    umjrnl listing ⟨true, false⟩ (lit "YDBJEX08") (fenced.map line) [] = some s ∧
      (s.st, s.applied) = replay listing ⟨true, false⟩ (events 0 [] 1 fenced) [] := by
  refine (umjrnl_replays_iff List.infix_rfl ?_ ?_ []).mpr ?_
  · simp only [fenced, Nested]
    refine ⟨sample_wellFormed _ _ 97 (by decide), ?_, sample_wellFormed _ _ 98 (by decide), ?_,
      sample_wellFormed _ _ 99 (by decide), ?_, sample_wellFormed _ _ 100 (by decide), ?_, trivial⟩
    all_goals exact fun _ => rfl
  · exact fun h => absurd h Bool.false_ne_true
  · rw [undisturbed_unchecked rfl]
    intro n r hr hk
    simp only [fenced, events, clearIf, List.append_nil, List.nil_append, List.map_cons,
      List.map_nil, List.cons_append, List.mem_cons, List.not_mem_nil, or_false, Event.upd.injEq,
      reduceCtorEq, if_true, Bool.false_eq_true, if_false] at hr
    obtain ⟨-, rfl⟩ | ⟨-, rfl⟩ | ⟨-, rfl⟩ := hr <;> cases hk

/-- A ZKILL of a trigger is done once more, and a KILL is left out because of another's node. -/
theorem disturbed_extracts :
    (umjrnl listing ⟨true, false⟩ (lit "YDBJEX08")
        ([.upd (sample .zkill 1 (lit "^b"))].map line) []).map (fun s => (s.st, s.applied)) ≠
      some (replay listing ⟨true, false⟩ (events 0 [] 1 [.upd (sample .zkill 1 (lit "^b"))]) []) ∧
    (umjrnl listing ⟨false, true⟩ (lit "YDBJEX08")
        ([.upd (sample .kill 0 (lit "^a")), .upd (sample .kill 0 (lit "^b"))].map line) []).map
          (fun s => (s.st, s.applied)) ≠
      some (replay listing ⟨false, true⟩ (events 0 []  1
        [.upd (sample .kill 0 (lit "^a")), .upd (sample .kill 0 (lit "^b"))]) []) := by
  refine ⟨?_, ?_⟩
  · decide
  · decide

end Sample

end YdbTest.UmJrnlReplay
