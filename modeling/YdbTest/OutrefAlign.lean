import YdbTest.Outref

namespace YdbTest.OutrefAlign

open Awk Marks OutrefFlags Outref

def due (E : Setting) (deny : Text) (dat_no : ℕ) (line : Text) : Kind :=
  if Marked ALLOW_OUTPUT line ∨ Marked SUSPEND_OUTPUT line then .directive
  else if isSuspended E deny then .suspended
  else kind E (E.region_flags dat_no (E.replace_flags line)).1

/-- A pattern line is compared with the line of the log after as many as have been printed. -/
def Aligned (s : State) : Prop := ∀ e ∈ s.events, e.kind = .matched → e.nr_outref = e.printed

/-- Every line is dealt with by the rules, and one that is printed with a chunk is one that they copy. -/
def Obeyed (E : Setting) (s : State) : Prop :=
  ∀ e ∈ s.events, e.kind = due E e.deny e.dat_no e.line ∨
    e.kind = .chunk ∧ due E e.deny e.dat_no e.line = .copied

/-- A line of the file, with those behind it, at which nothing goes wrong. -/
structure Fits (E : Setting) (s : State) (line : Text) (rest : List Text) : Prop where
  single : found GT_CM (E.replace_flags line) = false → due E s.deny s.dat_no line ≠ .suppressed
  chunk : due E s.deny s.dat_no line ≠ .directive → due E s.deny s.dat_no line ≠ .suspended →
    found GT_CM (E.replace_flags line) = true → E.gtcm = true →
    ∃ c, getChunk E [] [] (E.replace_flags line) rest = some c ∧ c.eof = false ∧
      (∀ l ∈ line :: c.read.dropLast, due E s.deny s.dat_no l = .copied) ∧
      ∀ l ∈ c.read.getLast?, due E s.deny s.dat_no l = .copied ∨
        due E s.deny s.dat_no l = .matched ∧ E.no_gtcm_hosts = 0

inductive Reached (E : Setting) (file : List Text) : State → List Text → Prop where
  | start : Reached E file start file
  | step {s s' : State} {line : Text} {rest rest' : List Text} (h : Reached E file s (line :: rest))
      (hfits : Fits E s line rest) (hs : Outref.step E s line rest = some (s', rest')) :
      Reached E file s' rest'

structure Inv (E : Setting) (file : List Text) (s : State) (rest : List Text) : Prop where
  aligned : Aligned s
  obeyed : Obeyed E s
  counted : rest ≠ [] → s.nr_outref = s.printed.length
  covered : ∃ unread, file = s.events.map Event.line ++ unread ∧ (rest = unread ∨ rest = [])

section Step

variable {E : Setting} {file rest : List Text} {s s' : State} {line text deny : Text} {dat_no : ℕ} {c : Chunk}

theorem getChunk_eof {n : ℕ} {lines read : List Text} (h : chunkAtEof E n lines read text = some c) :
    c.eof = true := by
  induction n generalizing lines text with
  | zero => exact nomatch h
  | succ n ih =>
    rw [chunkAtEof] at h
    split_ifs at h
    · exact ih h
    · exact Option.some.inj h ▸ rfl

theorem getChunk_spec {lines read : List Text} (h : getChunk E lines read text rest = some c)
    (heof : c.eof = false) : ∃ pre last, c.read = read ++ pre ++ [last] ∧ c.cur = E.replace_flags last ∧
      rest = pre ++ last :: c.rest ∧ c.lines.length = lines.length + pre.length + 1 := by
  induction rest generalizing lines read text with
  | nil => exact absurd (getChunk_eof h) (by rw [heof]; exact Bool.false_ne_true)
  | cons line rest ih =>
    rw [getChunk] at h
    split_ifs at h
    · obtain ⟨pre, last, hread, hcur, rfl, hlen⟩ := ih h
      refine ⟨line :: pre, last, ?_, hcur, rfl, ?_⟩
      · rw [hread, List.append_assoc read, List.singleton_append]
      · rw [hlen, List.length_append, List.length_singleton, List.length_cons]
        omega
    · obtain rfl := Option.some.inj h
      exact ⟨[], line, by simp, rfl, rfl, by simp⟩

theorem output_length {n : ℕ} (h : kind E text ≠ .suppressed) : (output E n text).length = 1 := by
  rw [kind] at h
  dsimp only [output]
  by_cases hnot : found TEST_AWK_NOT text = true
  · rw [if_pos hnot]
    split_ifs <;> rfl
  · rw [if_neg hnot]
    by_cases htest : found TEST_AWK text = true
    · rw [if_pos htest]
      split_ifs <;> rfl
    · rw [if_neg htest] at h ⊢
      by_cases hexcluded : excluded E text = true
      · exact absurd (if_pos hexcluded) h
      · rw [if_neg hexcluded]
        rfl

theorem due_rules (h : due E deny dat_no line ≠ .directive) (h' : due E deny dat_no line ≠ .suspended) :
    due E deny dat_no line = kind E (E.region_flags dat_no (E.replace_flags line)).1 := by
  rw [due] at h h' ⊢
  split_ifs at h h' ⊢
  · exact absurd rfl h
  · exact absurd rfl h'
  · rfl

theorem chunk_length (E : Setting) (lines : List Text) :
    ((List.range E.no_gtcm_hosts).flatMap (fun h => lines.map (E.chunk_line (h + 1)))).length =
      lines.length * E.no_gtcm_hosts := by
  rw [List.length_flatMap]
  simp [Nat.mul_comm]

theorem finish_counted {n : ℕ} {l : Option Text}
    (hcount : s.nr_outref + n * E.no_gtcm_hosts = s.printed.length)
    (hkind : kind E (E.region_flags s.dat_no text).1 ≠ .suppressed) :
    (finish E s l text n).nr_outref = (finish E s l text n).printed.length := by
  have hlen := output_length (n := s.nr_outref) hkind
  rw [finish, List.length_append, hlen]
  dsimp only
  omega

def Sound (E : Setting) (e : Event) : Prop :=
  (e.kind = .matched → e.nr_outref = e.printed) ∧
    (e.kind = due E e.deny e.dat_no e.line ∨ e.kind = .chunk ∧ due E e.deny e.dat_no e.line = .copied)

theorem inv_append {t : State} {rest' : List Text} (es : List Event) (h : Inv E file s (line :: rest))
    (hevents : t.events = s.events ++ es) (hread : line :: rest = es.map Event.line ++ rest')
    (hsound : ∀ e ∈ es, Sound E e) (hcount : t.nr_outref = t.printed.length) : Inv E file t rest' := by
  obtain ⟨unread, hfile, hunread⟩ := h.covered
  have hunread := hunread.resolve_right (List.cons_ne_nil line rest)
  refine ⟨fun e he => ?_, fun e he => ?_, fun _ => hcount, rest', ?_, .inl rfl⟩
  · rw [hevents] at he
    exact (List.mem_append.mp he).elim (h.aligned e) (fun he => (hsound e he).1)
  · rw [hevents] at he
    exact (List.mem_append.mp he).elim (h.obeyed e) (fun he => (hsound e he).2)
  · rw [hfile, ← hunread, hread, hevents, List.map_append, List.append_assoc]

theorem step_inv {rest' : List Text} (h : Inv E file s (line :: rest)) (hfits : Fits E s line rest)
    (hs : step E s line rest = some (s', rest')) : Inv E file s' rest' := by
  have hcount := h.counted (List.cons_ne_nil line rest)
  rw [step] at hs
  by_cases hflag : Marked ALLOW_OUTPUT line ∨ Marked SUSPEND_OUTPUT line
  · rw [if_pos hflag, Option.some.injEq, Prod.mk.injEq] at hs
    obtain ⟨rfl, rfl⟩ := hs
    refine inv_append [_] h rfl rfl (List.forall_mem_singleton.mpr ⟨(fun hk => nomatch hk), ?_⟩) hcount
    exact .inl (if_pos hflag).symm
  rw [if_neg hflag] at hs
  by_cases hsus : isSuspended E s.deny = true
  · rw [if_pos hsus, Option.some.injEq, Prod.mk.injEq] at hs
    obtain ⟨rfl, rfl⟩ := hs
    refine inv_append [_] h rfl rfl (List.forall_mem_singleton.mpr ⟨(fun hk => nomatch hk), ?_⟩) hcount
    exact .inl ((if_neg hflag).trans (if_pos hsus)).symm
  rw [if_neg hsus] at hs
  have hdue : due E s.deny s.dat_no line = kind E (E.region_flags s.dat_no (E.replace_flags line)).1 := by
    rw [due, if_neg hflag, if_neg hsus]
  by_cases hchunk : found GT_CM (E.replace_flags line) = true
  · rw [if_pos hchunk] at hs
    by_cases hgtcm : E.gtcm = true
    · rw [if_pos hgtcm] at hs
      have hopen : due E s.deny s.dat_no line ≠ .directive ∧ due E s.deny s.dat_no line ≠ .suspended := by
        rw [hdue, kind]
        split_ifs <;> exact ⟨nofun, nofun⟩
      obtain ⟨c, hc, heof, hcopied, hlast⟩ := hfits.chunk hopen.1 hopen.2 hchunk hgtcm
      obtain ⟨pre, last, hread, hcur, hrest, hlen⟩ := getChunk_spec hc heof
      rw [List.nil_append] at hread
      have hlast' := hlast last (by rw [hread, List.getLast?_concat]; rfl)
      have hkind : due E s.deny s.dat_no last =
          kind E (E.region_flags s.dat_no c.cur).1 := by
        rw [hcur]
        obtain h | ⟨h, _⟩ := hlast' <;> exact due_rules (by rw [h]; nofun) (by rw [h]; nofun)
      rw [hc, Option.map_some, Option.some.injEq, Prod.mk.injEq, heof, hread, List.getLast?_concat] at hs
      obtain ⟨rfl, rfl⟩ := hs
      have hprinted : s.nr_outref + c.lines.length * E.no_gtcm_hosts =
          (printChunk E s line c).printed.length := by
        rw [printChunk, List.length_append, chunk_length, hcount]
      have hevents : (printChunk E s line c).events = s.events ++ (line :: pre).map fun l =>
          ⟨l, s.deny, s.dat_no, .chunk, s.nr_outref, s.printed.length⟩ := by
        rw [printChunk, heof, hread, List.dropLast_concat]
        rfl
      refine inv_append ((line :: pre).map (fun l =>
        ⟨l, s.deny, s.dat_no, .chunk, s.nr_outref, s.printed.length⟩) ++
        [⟨last, s.deny, s.dat_no, kind E (E.region_flags s.dat_no c.cur).1, s.nr_outref,
          (printChunk E s line c).printed.length⟩]) h ?_ ?_ ?_ ?_
      · rw [← List.append_assoc, ← hevents]
        rfl
      · rw [hrest, List.map_append, List.map_map, List.append_assoc, List.map_cons]
        simp [Function.comp_def]
      · intro e he
        obtain he | he := List.mem_append.mp he
        · obtain ⟨l, hl, rfl⟩ := List.mem_map.mp he
          refine ⟨(fun hk => nomatch hk), .inr ⟨rfl, hcopied l ?_⟩⟩
          rw [hread, List.dropLast_concat]
          exact hl
        · obtain rfl := List.mem_singleton.mp he
          refine ⟨fun hk => ?_, .inl hkind.symm⟩
          have hhosts : E.no_gtcm_hosts = 0 := by
            obtain h | ⟨_, h⟩ := hlast'
            · exact absurd (hk.symm.trans (hkind.symm.trans h)) nofun
            · exact h
          rw [hhosts, Nat.mul_zero] at hprinted
          exact hprinted
      · refine finish_counted hprinted ?_
        have hnext : (printChunk E s line c).dat_no = s.dat_no := rfl
        rw [hnext, ← hkind]
        obtain h | ⟨h, _⟩ := hlast' <;> rw [h] <;> nofun
    · rw [if_neg hgtcm, Option.some.injEq, Prod.mk.injEq] at hs
      obtain ⟨rfl, rfl⟩ := hs
      obtain ⟨unread, hfile, _⟩ := h.covered
      exact ⟨h.aligned, h.obeyed, fun hne => absurd rfl hne, unread, hfile, .inr rfl⟩
  · rw [if_neg hchunk, Option.some.injEq, Prod.mk.injEq] at hs
    obtain ⟨rfl, rfl⟩ := hs
    have hkind : kind E (E.region_flags s.dat_no (E.replace_flags line)).1 ≠ .suppressed := by
      rw [← hdue]
      exact hfits.single (eq_false_of_ne_true hchunk)
    refine inv_append [_] h rfl rfl (List.forall_mem_singleton.mpr ⟨(fun _ => hcount), .inl hdue.symm⟩) ?_
    refine finish_counted ?_ hkind
    rw [Nat.zero_mul]
    exact hcount

/-- In every run whose lines all fit, the pattern lines are compared with the lines of the log that are
due, and every line is dealt with by the rules. -/
theorem outref_aligned (h : Reached E file s rest) :
    Aligned s ∧ Obeyed E s ∧
      ∃ unread, file = s.events.map Event.line ++ unread ∧ (rest = unread ∨ rest = []) := by
  have hinv : Inv E file s rest := by
    induction h with
    | start => exact ⟨nofun, nofun, fun _ => rfl, file, rfl, .inl rfl⟩
    | step _ hfits hs ih => exact step_inv ih hfits hs
  exact ⟨hinv.aligned, hinv.obeyed, hinv.covered⟩

end Step

section Files

/-- A test with two GT.CM hosts and one subtest excluded. -/
def setting (log : List Text) : Setting where
  platform := dingo
  envir := []
  replace_flags := id
  chunk_line _ text := text
  region_flags dat_no text := (text, dat_no)
  no_gtcm_hosts := 2
  gtcm := true
  regexp text pattern :=
    (text = "sub2".toList ∧ pattern = "\\<sub2\\>".toList) ∨
      (text = "done 12".toList ∧ pattern = "^done [0-9]*$".toList)
  excluded_subtests := "sub2".toList
  out_file n := log.getD n []

def hostsLog : List Text := ["database".toList, "database".toList, "local".toList, "done 12".toList]

def hostsFile : List Text := ["##GT.CM##database".toList, "local".toList, "##TEST_AWKdone [0-9]*".toList]

def afterChunk : State where
  deny := []
  dat_no := 0
  nr_outref := 3
  printed := ["database".toList, "database".toList, "local".toList]
  events := [⟨"##GT.CM##database".toList, [], 0, .chunk, 0, 0⟩, ⟨"local".toList, [], 0, .copied, 0, 2⟩]

theorem chunk_reached : Reached (setting hostsLog) hostsFile afterChunk ["##TEST_AWKdone [0-9]*".toList] := by
  refine .step .start ⟨nofun, fun _ _ _ _ => ?_⟩ (by decide +kernel)
  refine ⟨⟨["database".toList], ["local".toList], false, "local".toList,
    ["##TEST_AWKdone [0-9]*".toList]⟩, rfl, rfl, by decide +kernel, ?_⟩
  intro l hl
  obtain rfl := Option.some.inj hl
  exact .inl (by decide +kernel)

theorem hosts_aligned : ∃ s, Outref.run (setting hostsLog) 3 start hostsFile = some s ∧ Aligned s ∧ Obeyed (setting hostsLog) s := by
  have hreached : Reached (setting hostsLog) hostsFile
      { afterChunk with
        nr_outref := 4
        printed := afterChunk.printed ++ ["done 12".toList]
        events := afterChunk.events ++ [⟨"##TEST_AWKdone [0-9]*".toList, [], 0, .matched, 3, 3⟩] } [] :=
    .step chunk_reached ⟨fun _ => by decide +kernel, nofun⟩ (by decide +kernel)
  exact ⟨_, by decide +kernel, (outref_aligned hreached).1, (outref_aligned hreached).2.1⟩

/-- The line on an excluded subtest is counted although it is not printed. -/
theorem excluded_counted : ¬ ∀ s, Outref.run (setting ["done 12".toList]) 2 start
    ["PASS from sub2".toList, "##TEST_AWKdone [0-9]*".toList] = some s → Aligned s := by
  intro h
  have hrun : Outref.run (setting ["done 12".toList]) 2 start
      ["PASS from sub2".toList, "##TEST_AWKdone [0-9]*".toList] =
      some ⟨[], 0, 2, ["##DIFFERENT EXPRESSION##^done [0-9]*$## VS ####".toList],
        [⟨"PASS from sub2".toList, [], 0, .suppressed, 0, 0⟩,
          ⟨"##TEST_AWKdone [0-9]*".toList, [], 0, .matched, 1, 0⟩]⟩ := by
    decide +kernel
  have haligned := h _ hrun ⟨"##TEST_AWKdone [0-9]*".toList, [], 0, .matched, 1, 0⟩ (by simp) rfl
  exact absurd haligned (by decide)

end Files

end YdbTest.OutrefAlign
