import YdbTest.MString
import Mathlib.Data.List.Perm.Basic
import Mathlib.Data.List.Nodup

namespace YdbTest.AuditListener

open MString

/-- `escape_string`: backslashes, newlines and null characters. -/
def escape : Str → Str
  | [] => []
  | c :: s =>
    (if c = 92 then [92, 92] else if c = 10 then [92, 110] else if c = 0 then [92, 48] else [c]) ++
      escape s

/-- A message received on a connection, with the time it is logged at. -/
structure Record where
  clifd : Nat
  date : Str
  buf : Str

/-- What `fprintf(stderr, "%s; %s\n", date, escaped)` writes. -/
def Record.line (r : Record) : Str := r.date ++ lit "; " ++ escape r.buf ++ [10]

/-- What is written to a log file: a record, or what `perror` says. -/
inductive Entry where
  | record (r : Record)
  | perror (line : Str)

def Entry.line : Entry → Str
  | .record r => r.line
  | .perror line => line

def Entry.record? : Entry → Option Record
  | .record r => some r
  | .perror _ => none

/-- Where the process is in `unix_listen_loop`, with the connection in `clifd`; it has none after
an interrupted `accept`. -/
inductive Pc where
  | accept
  | test (clifd : Option Nat)
  | switch (clifd : Option Nat)
  | reset (clifd : Option Nat)
  | recv (clifd : Option Nat)
  | log (clifd : Nat) (buf : Str)
  | write (clifd : Nat) (rest : Str)
  | close (clifd : Option Nat)

/-- The process, its log files, the old ones and the one being written, and what has happened to
its connections. -/
structure Listener where
  pc : Pc
  logfileswitch : Bool
  switched : List Str
  logfile : Str
  arrived : List Nat
  accepted : List Nat
  received : List (Nat × Str)
  closed : List Nat

def initial : Listener := ⟨.accept, false, [], [], [], [], [], []⟩

inductive Act
  | arrive (clifd : Nat)
  | signal
  | interrupt
  | error (line : Str)
  | accept
  | test
  | switch
  | switch_failed (stderr : Bool) (line : Str)
  | reset
  | recv (buf : Str)
  | recv_failed (line : Str)
  | log (date : Str)
  | write (n : Nat)
  | close

/-- The steps of the process, the arrivals and the signals, in any order. A signal that interrupts
a call that waits is `interrupt`. A switch that fails may have moved `stderr` to the new file. -/
inductive Step : Listener → Act → Listener → Prop
  | arrive (σ : Listener) (c : Nat) (h : c ∉ σ.arrived) :
      Step σ (.arrive c) { σ with arrived := σ.arrived ++ [c] }
  | signal (σ : Listener) : Step σ .signal { σ with logfileswitch := true }
  | interrupted_accept (σ : Listener) (h : σ.pc = .accept) :
      Step σ .interrupt { σ with logfileswitch := true, pc := .test none }
  | interrupted_recv (σ : Listener) (clifd : Nat) (h : σ.pc = .recv (some clifd)) :
      Step σ .interrupt { σ with logfileswitch := true, pc := .accept }
  | error (σ : Listener) (line : Str) (h : σ.pc = .accept) :
      Step σ (.error line) { σ with logfile := σ.logfile ++ line }
  | accept (σ : Listener) (clifd : Nat) (h : σ.pc = .accept) (ha : clifd ∈ σ.arrived)
      (hn : clifd ∉ σ.accepted) :
      Step σ .accept { σ with accepted := clifd :: σ.accepted, pc := .test (some clifd) }
  | test (σ : Listener) (clifd : Option Nat) (h : σ.pc = .test clifd) :
      Step σ .test { σ with pc := if σ.logfileswitch then .switch clifd else .recv clifd }
  | switch (σ : Listener) (clifd : Option Nat) (h : σ.pc = .switch clifd) :
      Step σ .switch
        { σ with switched := σ.switched ++ [σ.logfile], logfile := [], pc := .reset clifd }
  | switch_failed (σ : Listener) (clifd : Option Nat) (line : Str) (h : σ.pc = .switch clifd) :
      Step σ (.switch_failed false line) { σ with logfile := σ.logfile ++ line, pc := .accept }
  | switch_half (σ : Listener) (clifd : Option Nat) (line : Str) (h : σ.pc = .switch clifd) :
      Step σ (.switch_failed true line)
        { σ with switched := σ.switched ++ [σ.logfile], logfile := line, pc := .accept }
  | reset (σ : Listener) (clifd : Option Nat) (h : σ.pc = .reset clifd) :
      Step σ .reset { σ with logfileswitch := false, pc := .accept }
  | recv (σ : Listener) (clifd : Nat) (buf : Str) (h : σ.pc = .recv (some clifd)) :
      Step σ (.recv buf) { σ with
        received := σ.received ++ [(clifd, buf)]
        pc := if 0 < buf.length then .log clifd buf else .close (some clifd) }
  | recv_failed (σ : Listener) (clifd : Nat) (line : Str) (h : σ.pc = .recv (some clifd)) :
      Step σ (.recv_failed line) { σ with
        received := σ.received ++ [(clifd, [])]
        logfile := σ.logfile ++ line
        pc := .close (some clifd) }
  | recv_none (σ : Listener) (h : σ.pc = .recv none) : Step σ (.recv []) { σ with pc := .close none }
  | log (σ : Listener) (clifd : Nat) (buf date : Str) (h : σ.pc = .log clifd buf) :
      Step σ (.log date) { σ with pc := .write clifd (Record.line ⟨clifd, date, buf⟩) }
  | write (σ : Listener) (clifd n : Nat) (rest : Str) (h : σ.pc = .write clifd rest) :
      Step σ (.write n) { σ with
        logfile := σ.logfile ++ rest.take n
        pc := if rest.drop n = [] then .close (some clifd) else .write clifd (rest.drop n) }
  | close (σ : Listener) (clifd : Option Nat) (h : σ.pc = .close clifd) :
      Step σ .close { σ with closed := clifd.toList ++ σ.closed, pc := .accept }

/-- The states of the runs whose steps all satisfy `ok`. -/
inductive Reaches (ok : Listener → Act → Prop) : Listener → Prop
  | initial : Reaches ok initial
  | step {σ σ' : Listener} {a : Act} (h : Reaches ok σ) (hs : Step σ a σ') (hok : ok σ a) :
      Reaches ok σ'

def inHand : Pc → Option Nat
  | .test c | .switch c | .reset c | .recv c | .close c => c
  | .log c _ | .write c _ => some c
  | .accept => none

def unwritten : Pc → Str
  | .write _ rest => rest
  | _ => []

def toLog : Pc → List (Nat × Str)
  | .log c buf => [(c, buf)]
  | _ => []

def text (es : List Entry) : Str := es.flatMap Entry.line

def messages (es : List Entry) : List (Nat × Str) :=
  (es.filterMap Entry.record?).map fun r => (r.clifd, r.buf)

def Logged (σ : Listener) : Prop :=
  ∃ (old : List (List Entry)) (new : List Entry),
    σ.switched = old.map text ∧ σ.logfile ++ unwritten σ.pc = text new ∧
    messages (old.flatten ++ new) ++ toLog σ.pc = σ.received.filter (fun r => r.2 ≠ [])

/-- No record is lost or doubled: every connection that has been accepted, and is no longer at
work on, was received from once and closed once, and what was received is logged. -/
def Whole (σ : Listener) : Prop :=
  (∀ c ∈ σ.accepted, inHand σ.pc ≠ some c →
    (σ.received.map Prod.fst).count c = 1 ∧ σ.closed.count c = 1) ∧ Logged σ

/-- No connection is in hand when the flag is tested and found set, and none is waited on when a
signal arrives. -/
def Undisturbed (σ : Listener) : Act → Prop
  | .test => σ.logfileswitch = true → inHand σ.pc = none
  | .interrupt => inHand σ.pc = none
  | _ => True

def awaited : Pc → Option Nat
  | .test c | .switch c | .reset c | .recv c => c
  | _ => none

structure Inv (σ : Listener) : Prop where
  nodup : σ.accepted.Nodup
  received : ∀ c, (σ.received.map Prod.fst).count c + (awaited σ.pc).toList.count c =
    σ.accepted.count c
  closed : ∀ c, σ.closed.count c + (inHand σ.pc).toList.count c = σ.accepted.count c
  switching : ∀ c, σ.pc = .switch c ∨ σ.pc = .reset c → c = none
  logged : Logged σ

variable {σ σ' : Listener} {a : Act} {pc : Pc} {es es' : List Entry} {line : Str}

theorem text_append (es es' : List Entry) : text (es ++ es') = text es ++ text es' :=
  List.flatMap_append

theorem text_singleton (e : Entry) : text [e] = e.line := by
  simp [text]

theorem messages_append (es es' : List Entry) :
    messages (es ++ es') = messages es ++ messages es' := by
  simp [messages]

section Files

variable {σ' : Listener} {r : Record}

theorem Logged.same (h : Logged σ) (hs : σ'.switched = σ.switched) (hl : σ'.logfile = σ.logfile)
    (hr : σ'.received = σ.received) (hu : unwritten σ'.pc = unwritten σ.pc)
    (ht : toLog σ'.pc = toLog σ.pc) : Logged σ' := by
  obtain ⟨old, new, hold, hnew, hm⟩ := h
  exact ⟨old, new, hs.trans hold, by rw [hl, hu, hnew], by rw [ht, hr, hm]⟩

theorem Logged.perror (h : Logged σ) (hu : unwritten σ.pc = []) (line : Str)
    (hs : σ'.switched = σ.switched) (hl : σ'.logfile = σ.logfile ++ line)
    (hr : σ'.received = σ.received) (hu' : unwritten σ'.pc = []) (ht : toLog σ'.pc = toLog σ.pc) :
    Logged σ' := by
  obtain ⟨old, new, hold, hnew, hm⟩ := h
  rw [hu, List.append_nil] at hnew
  refine ⟨old, new ++ [.perror line], hs.trans hold, ?_, ?_⟩
  · rw [hl, hu', List.append_nil, hnew, text_append, text_singleton]
    rfl
  · have hno : messages [Entry.perror line] = [] := rfl
    rw [ht, hr, ← List.append_assoc, messages_append, hno, List.append_nil, hm]

theorem Logged.switch (h : Logged σ) (hu : unwritten σ.pc = [])
    (hs : σ'.switched = σ.switched ++ [σ.logfile]) (hl : σ'.logfile = [])
    (hr : σ'.received = σ.received) (hu' : unwritten σ'.pc = []) (ht : toLog σ'.pc = toLog σ.pc) :
    Logged σ' := by
  obtain ⟨old, new, hold, hnew, hm⟩ := h
  rw [hu, List.append_nil] at hnew
  refine ⟨old ++ [new], [], ?_, ?_, ?_⟩
  · rw [hs, hold, hnew, List.map_append, List.map_singleton]
  · rw [hl, hu']
    rfl
  · rw [ht, hr, ← hm, List.flatten_append, List.flatten_singleton, List.append_nil]

theorem Logged.recv (h : Logged σ) (ht : toLog σ.pc = []) (hu : unwritten σ.pc = []) (c : Nat)
    (buf : Str) (hs : σ'.switched = σ.switched) (hl : σ'.logfile = σ.logfile)
    (hr : σ'.received = σ.received ++ [(c, buf)]) (hu' : unwritten σ'.pc = [])
    (ht' : toLog σ'.pc = if buf = [] then [] else [(c, buf)]) : Logged σ' := by
  obtain ⟨old, new, hold, hnew, hm⟩ := h
  refine ⟨old, new, hs.trans hold, by rw [hl, hu', ← hu, hnew], ?_⟩
  rw [ht, List.append_nil] at hm
  rw [hr, List.filter_append, ← hm, ht']
  split_ifs with hb <;> simp [hb]

theorem Logged.log (h : Logged σ) (hu : unwritten σ.pc = []) (hs : σ'.switched = σ.switched)
    (hl : σ'.logfile = σ.logfile) (hr : σ'.received = σ.received)
    (hu' : unwritten σ'.pc = r.line) (ht : toLog σ.pc = [(r.clifd, r.buf)])
    (ht' : toLog σ'.pc = []) : Logged σ' := by
  obtain ⟨old, new, hold, hnew, hm⟩ := h
  rw [hu, List.append_nil] at hnew
  refine ⟨old, new ++ [.record r], hs.trans hold, ?_, ?_⟩
  · rw [hl, hu', hnew, text_append, text_singleton]
    rfl
  · rw [ht', hr, ← hm, ht, List.append_nil, ← List.append_assoc, messages_append]
    rfl

theorem Logged.write (h : Logged σ) (n : Nat) (hs : σ'.switched = σ.switched)
    (hl : σ'.logfile = σ.logfile ++ (unwritten σ.pc).take n) (hr : σ'.received = σ.received)
    (hu' : unwritten σ'.pc = (unwritten σ.pc).drop n) (ht : toLog σ'.pc = toLog σ.pc) :
    Logged σ' := by
  obtain ⟨old, new, hold, hnew, hm⟩ := h
  refine ⟨old, new, hs.trans hold, ?_, by rw [ht, hr, hm]⟩
  rw [hl, hu', List.append_assoc, List.take_append_drop, hnew]

end Files

theorem Inv.step (h : Inv σ) (hok : Undisturbed σ a) (hs : Step σ a σ') : Inv σ' := by
  obtain ⟨pc, flag, switched, logfile, arrived, accepted, received, closed⟩ := σ
  obtain ⟨hnd, hrec, hcl, hsw, hlog⟩ := h
  cases hs with
  | arrive c hc => exact ⟨hnd, hrec, hcl, hsw, hlog.same rfl rfl rfl rfl rfl⟩
  | signal => exact ⟨hnd, hrec, hcl, hsw, hlog.same rfl rfl rfl rfl rfl⟩
  | interrupted_accept hpc =>
    cases hpc
    refine ⟨hnd, hrec, hcl, ?_, hlog.same rfl rfl rfl rfl rfl⟩
    rintro c (hc | hc) <;> cases hc
  | interrupted_recv c hpc =>
    cases hpc
    cases hok
  | error line hpc =>
    cases hpc
    exact ⟨hnd, hrec, hcl, hsw, hlog.perror rfl line rfl rfl rfl rfl rfl⟩
  | accept c hpc ha hn =>
    cases hpc
    refine ⟨List.nodup_cons.mpr ⟨hn, hnd⟩, ?_, ?_, ?_, hlog.same rfl rfl rfl rfl rfl⟩
    · intro c'
      have hc := hrec c'
      dsimp only [awaited, Option.toList] at hc ⊢
      simp only [List.count_cons, List.count_nil] at hc ⊢
      omega
    · intro c'
      have hc := hcl c'
      dsimp only [inHand, Option.toList] at hc ⊢
      simp only [List.count_cons, List.count_nil] at hc ⊢
      omega
    · rintro c (hc | hc) <;> cases hc
  | test c hpc =>
    cases hpc
    cases flag with
    | true =>
      cases (show c = none from hok rfl)
      refine ⟨hnd, hrec, hcl, ?_, hlog.same rfl rfl rfl rfl rfl⟩
      rintro c (hc | hc) <;> cases hc
      rfl
    | false =>
      refine ⟨hnd, hrec, hcl, ?_, hlog.same rfl rfl rfl rfl rfl⟩
      rintro c (hc | hc) <;> cases hc
  | switch c hpc =>
    cases hpc
    cases hsw c (.inl rfl)
    refine ⟨hnd, hrec, hcl, ?_, hlog.switch rfl rfl rfl rfl rfl rfl⟩
    rintro c (hc | hc) <;> cases hc
    rfl
  | switch_failed c line hpc =>
    cases hpc
    cases hsw c (.inl rfl)
    refine ⟨hnd, hrec, hcl, ?_, hlog.perror rfl line rfl rfl rfl rfl rfl⟩
    rintro c (hc | hc) <;> cases hc
  | switch_half c line hpc =>
    cases hpc
    cases hsw c (.inl rfl)
    have hnew : Logged ⟨.accept, flag, switched ++ [logfile], [], arrived, accepted, received,
      closed⟩ := hlog.switch rfl rfl rfl rfl rfl rfl
    refine ⟨hnd, hrec, hcl, ?_, hnew.perror rfl line rfl rfl rfl rfl rfl⟩
    rintro c (hc | hc) <;> cases hc
  | reset c hpc =>
    cases hpc
    cases hsw c (.inr rfl)
    refine ⟨hnd, hrec, hcl, ?_, hlog.same rfl rfl rfl rfl rfl⟩
    rintro c (hc | hc) <;> cases hc
  | recv c buf hpc =>
    cases hpc
    have hpos : 0 < buf.length ↔ buf ≠ [] := List.length_pos_iff
    refine ⟨hnd, ?_, ?_, ?_, hlog.recv rfl rfl c buf rfl rfl rfl ?_ ?_⟩
    · intro c'
      have hc := hrec c'
      dsimp only at hc ⊢
      rw [List.map_append, List.count_append]
      split_ifs <;> exact hc
    · intro c'
      have hc := hcl c'
      dsimp only at hc ⊢
      split_ifs <;> exact hc
    · dsimp only
      split_ifs <;> rintro c (hc | hc) <;> cases hc
    · dsimp only
      split_ifs <;> rfl
    · dsimp only
      split_ifs with hb he <;> first | rfl | simp_all
  | recv_failed c line hpc =>
    cases hpc
    have hmid : Logged ⟨.close (some c), flag, switched, logfile, arrived, accepted,
      received ++ [(c, [])], closed⟩ := hlog.recv rfl rfl c [] rfl rfl rfl rfl rfl
    refine ⟨hnd, ?_, hcl, ?_, hmid.perror rfl line rfl rfl rfl rfl rfl⟩
    · intro c'
      have hc := hrec c'
      dsimp only at hc ⊢
      rw [List.map_append, List.count_append]
      exact hc
    · rintro c (hc | hc) <;> cases hc
  | recv_none hpc =>
    cases hpc
    refine ⟨hnd, hrec, hcl, ?_, hlog.same rfl rfl rfl rfl rfl⟩
    rintro c (hc | hc) <;> cases hc
  | log c buf date hpc =>
    cases hpc
    refine ⟨hnd, hrec, hcl, ?_, hlog.log (r := ⟨c, date, buf⟩) rfl rfl rfl rfl rfl rfl rfl⟩
    rintro c (hc | hc) <;> cases hc
  | write c n rest hpc =>
    cases hpc
    refine ⟨hnd, ?_, ?_, ?_, hlog.write n rfl rfl rfl ?_ ?_⟩
    · dsimp only
      split_ifs <;> exact hrec
    · dsimp only
      split_ifs <;> exact hcl
    · dsimp only
      split_ifs <;> rintro c (hc | hc) <;> cases hc
    · dsimp only
      split_ifs with hd
      · exact hd.symm
      · rfl
    · dsimp only
      split_ifs <;> rfl
  | close c hpc =>
    cases hpc
    refine ⟨hnd, hrec, ?_, ?_, hlog.same rfl rfl rfl rfl rfl⟩
    · intro c'
      have hc := hcl c'
      dsimp only [inHand] at hc ⊢
      rw [List.count_append, Nat.add_comm (List.count c' c.toList)]
      exact hc
    · rintro c (hc | hc) <;> cases hc

theorem inv_reaches (h : Reaches Undisturbed σ) : Inv σ := by
  induction h with
  | initial =>
    refine ⟨List.nodup_nil, fun _ => rfl, fun _ => rfl, ?_, [], [], rfl, rfl, rfl⟩
    rintro c (hc | hc) <;> cases hc
  | step _ hs hok ih => exact ih.step hok hs

theorem count_awaited_le (pc : Pc) (c : Nat) :
    (awaited pc).toList.count c ≤ (inHand pc).toList.count c := by
  cases pc <;> first | exact le_rfl | exact Nat.zero_le _

/-- In every run in which no connection is in hand when the flag is tested and found set, and no
signal arrives while the message of one is waited for, no record is lost or doubled. -/
theorem unix_listen_whole (h : Reaches Undisturbed σ) : Whole σ := by
  have hI := inv_reaches h
  refine ⟨?_, hI.logged⟩
  intro c hc hne
  have hone : σ.accepted.count c = 1 := List.count_eq_one_of_mem hI.nodup hc
  have hzero : (inHand σ.pc).toList.count c = 0 := by
    rw [List.count_eq_zero, Option.mem_toList]
    exact hne
  have hle := count_awaited_le σ.pc c
  have hrec := hI.received c
  have hcl := hI.closed c
  omega

/-- A signal interrupts `accept`; the log is switched before the next connection is served. -/
theorem unix_listen_whole_one_connection : ∃ σ, Reaches Undisturbed σ ∧ σ.accepted = [7] ∧
    σ.switched = [[]] ∧ σ.logfile = lit "now; a\\\\b\n" ∧ Whole σ := by
  have h : Reaches Undisturbed initial := .initial
  have h := h.step (.arrive _ 7 (by decide)) trivial
  have h := h.step (.interrupted_accept _ rfl) rfl
  have h := h.step (.test _ none rfl) (fun _ => rfl)
  have h := h.step (.switch _ none rfl) trivial
  have h := h.step (.reset _ none rfl) trivial
  have h := h.step (.accept _ 7 rfl (by decide) (by decide)) trivial
  have h := h.step (.test _ (some 7) rfl) (fun h => nomatch h)
  have h := h.step (.recv _ 7 (lit "a\\b") rfl) trivial
  have h := h.step (.log _ 7 (lit "a\\b") (lit "now") rfl) trivial
  have h := h.step (.write _ 7 3 _ rfl) trivial
  have h := h.step (.write _ 7 10 _ rfl) trivial
  have h := h.step (.close _ (some 7) rfl) trivial
  exact ⟨_, h, rfl, rfl, rfl, unix_listen_whole h⟩

/-- A signal that comes between `accept` and the test of the flag makes the process forget the
connection it has accepted: its message is not received and its descriptor stays open. -/
theorem signal_loses_connection : ¬ ∀ σ, Reaches (fun _ _ => True) σ → Whole σ := by
  intro hall
  have h : Reaches (fun _ _ => True) initial := .initial
  have h := h.step (.arrive _ 7 (by decide)) trivial
  have h := h.step (.accept _ 7 rfl (by decide) (by decide)) trivial
  have h := h.step (.signal _) trivial
  have h := h.step (.test _ (some 7) rfl) trivial
  have h := h.step (.switch _ (some 7) rfl) trivial
  have h := h.step (.reset _ (some 7) rfl) trivial
  have hw := (hall _ h).1 7 List.mem_cons_self (fun h => nomatch h)
  cases hw.2

end YdbTest.AuditListener
