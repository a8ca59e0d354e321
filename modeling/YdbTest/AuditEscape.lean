import YdbTest.AuditListener

namespace YdbTest.AuditEscape

open MString AuditListener

def MAX_BUF_SIZE : Nat := 2048

/-- `s` is put into the array `target` at `optr`, if there is room for it. -/
def store (target : Str) (optr : Nat) (s : Str) : Option Str :=
  if optr + s.length ≤ target.length then
    some (target.take optr ++ s ++ target.drop (optr + s.length))
  else none

/-- The loop of `escape_string`. What `snprintf` puts ends with a null character. -/
def escape_loop : Str → Str → Nat → Option Str
  | [], target, _ => some target
  | c :: source, target, optr =>
    if c = 92 then (store target optr [92, 92, 0]).bind fun t => escape_loop source t (optr + 2)
    else if c = 10 then (store target optr [92, 110, 0]).bind fun t => escape_loop source t (optr + 2)
    else if c = 0 then (store target optr [92, 48, 0]).bind fun t => escape_loop source t (optr + 2)
    else (store target optr [c]).bind fun t => escape_loop source t (optr + 1)

/-- `memset(escaped, 0, sizeof(escaped))` and `escape_string(buf, escaped, maxlen)` -/
def escape_string (source : Str) (maxlen : Nat) : Option Str :=
  escape_loop (source.take maxlen) (List.replicate (2 * MAX_BUF_SIZE) 0) 0

/-- What `%s` prints of an array: what stands before its first null character. -/
def cstring (s : Str) : Option Str := if 0 ∈ s then some (s.takeWhile (· ≠ 0)) else none

inductive Kind
  | unix
  | tcp
  | tls
  deriving DecidableEq

/-- The line the listener writes for the message in `buf`, after its null character is set where
it has one. The TCP and the TLS listener do not print what they have escaped. -/
def record (k : Kind) (date msg : Str) : Option Str :=
  (escape_string msg msg.length).bind fun escaped =>
    let printed := match k with
      | .unix => cstring escaped
      | .tcp | .tls => cstring (msg ++ [0])
    printed.map fun text => date ++ lit "; " ++ text ++ [10]

/-- What a call that receives gives: bytes, none at the end, or a failure with what `perror`
says of it. -/
inductive Reply
  | bytes (s : Str)
  | interrupted
  | failed (perror : Str)

def tcp_recv : List Reply → Str → Option (Str × Str)
  | [], _ => none
  | .interrupted :: replies, buf => tcp_recv replies buf
  | .failed line :: replies, buf => (tcp_recv replies buf).map fun r => (line ++ r.1, r.2)
  | .bytes s :: replies, buf =>
    let bytes_recv := s.take (MAX_BUF_SIZE - buf.length - 1)
    if bytes_recv = [] then some ([], buf) else tcp_recv replies (buf ++ bytes_recv)

/-- What is received from one connection: the text written on the way, and the message. The UNIX
and the TLS listener receive once. -/
def received : Kind → List Reply → Option (Str × Str)
  | .tcp, replies => tcp_recv replies []
  | .unix, .bytes s :: _ => some ([], s.take (MAX_BUF_SIZE - 1))
  | .unix, .interrupted :: _ => some ([], [])
  | .unix, .failed line :: _ => some (line, [])
  | .tls, .bytes s :: _ => some ([], s.take (MAX_BUF_SIZE - 1))
  | .tls, _ :: _ => some ([], [])
  | _, [] => none

def serve (k : Kind) (date : Str) (replies : List Reply) : Option Str :=
  (received k replies).bind fun r =>
    if 0 < r.2.length then (record k date r.2).map (r.1 ++ ·) else some r.1

def Message (msg : Str) : Prop := msg ≠ [] ∧ msg.length < MAX_BUF_SIZE

/-- The message is logged by one line, and no other message by the same. -/
def Recorded (k : Kind) (msg : Str) : Prop :=
  ∃ text : Str, 10 ∉ text ∧ 0 ∉ text ∧
    (∀ date errors replies, received k replies = some (errors, msg) →
      serve k date replies = some (errors ++ (date ++ lit "; " ++ text ++ [10]))) ∧
    ∀ msg', Message msg' → ∀ date, record k date msg' = record k date msg → msg' = msg

variable {k : Kind} {msg s t e : Str} {c : Nat}

theorem store_replicate {n : Nat} (h : s.length ≤ n) :
    store (e ++ List.replicate n 0) e.length s =
      some (e ++ s ++ List.replicate (n - s.length) 0) := by
  rw [store, if_pos (by simp [h]), List.take_left, List.drop_append, List.drop_of_length_le (by simp),
    List.nil_append, Nat.add_sub_cancel_left, List.drop_replicate]

/-- What `snprintf` puts, of which the next character overwrites the null character. -/
theorem store_pair {n : Nat} (a b : Nat) (h : 3 ≤ n) :
    store (e ++ List.replicate n 0) e.length [a, b, 0] =
      some (e ++ [a, b] ++ List.replicate (n - 2) 0) := by
  obtain ⟨n, rfl⟩ := Nat.exists_eq_add_of_le' h
  rw [store_replicate (by simp)]
  simp [List.replicate_succ]

theorem length_escape_le (s : Str) : (escape s).length ≤ 2 * s.length := by
  induction s with
  | nil => rfl
  | cons c s ih =>
    rw [escape, List.length_append, List.length_cons]
    split_ifs <;> simp only [List.length_cons, List.length_nil] <;> omega

theorem escape_loop_eq (s e : Str) (n : Nat) (h : 2 * s.length < n) :
    escape_loop s (e ++ List.replicate n 0) e.length =
      some (e ++ escape s ++ List.replicate (n - (escape s).length) 0) := by
  induction s generalizing e n with
  | nil => simp [escape_loop, escape]
  | cons c s ih =>
    rw [List.length_cons] at h
    have hpair (b : Nat) : (store (e ++ List.replicate n 0) e.length [92, b, 0]).bind
        (fun t => escape_loop s t (e.length + 2)) =
        some (e ++ ([92, b] ++ escape s) ++
          List.replicate (n - ([92, b] ++ escape s).length) 0) := by
      have hrec := ih (e ++ [92, b]) (n - 2) (by omega)
      have hlen : (e ++ [92, b]).length = e.length + 2 := by simp
      rw [hlen] at hrec
      have hsub : n - 2 - (escape s).length = n - ([92, b] ++ escape s).length := by
        simp only [List.length_append, List.length_cons, List.length_nil]
        omega
      rw [store_pair 92 b (by omega), Option.bind_some, hrec, hsub, List.append_assoc e]
    rw [escape_loop, escape]
    split_ifs with h92 h10 h0
    · exact hpair 92
    · exact hpair 110
    · exact hpair 48
    · have hrec := ih (e ++ [c]) (n - 1) (by omega)
      have hlen : (e ++ [c]).length = e.length + 1 := by simp
      rw [hlen] at hrec
      have hsub : n - 1 - (escape s).length = n - ([c] ++ escape s).length := by
        simp only [List.length_append, List.length_cons, List.length_nil]
        omega
      rw [store_replicate (by simp; omega), Option.bind_some, List.length_singleton, hrec, hsub,
        List.append_assoc e]

theorem escape_string_eq (h : msg.length < MAX_BUF_SIZE) :
    escape_string msg msg.length =
      some (escape msg ++ List.replicate (2 * MAX_BUF_SIZE - (escape msg).length) 0) := by
  have hroom : 2 * msg.length < 2 * MAX_BUF_SIZE := by omega
  have hloop := escape_loop_eq msg [] _ hroom
  rw [List.nil_append, List.nil_append] at hloop
  rw [escape_string, List.take_length]
  exact hloop

theorem notMem_escape (s : Str) : 10 ∉ escape s ∧ 0 ∉ escape s := by
  induction s with
  | nil => exact ⟨List.not_mem_nil, List.not_mem_nil⟩
  | cons c s ih =>
    rw [escape, List.mem_append, List.mem_append, not_or, not_or]
    split_ifs with h92 h10 h0
    · exact ⟨⟨by decide, ih.1⟩, by decide, ih.2⟩
    · exact ⟨⟨by decide, ih.1⟩, by decide, ih.2⟩
    · exact ⟨⟨by decide, ih.1⟩, by decide, ih.2⟩
    · rw [List.mem_singleton, List.mem_singleton]
      exact ⟨⟨Ne.symm h10, ih.1⟩, Ne.symm h0, ih.2⟩

def unescape : Str → Str
  | 92 :: c :: s => (if c = 110 then 10 else if c = 48 then 0 else c) :: unescape s
  | c :: s => c :: unescape s
  | [] => []

theorem unescape_escape (s : Str) : unescape (escape s) = s := by
  induction s with
  | nil => rfl
  | cons c s ih =>
    rw [escape]
    split_ifs with h92 h10 h0
    · rw [h92]
      exact congrArg (92 :: ·) ih
    · rw [h10]
      exact congrArg (10 :: ·) ih
    · rw [h0]
      exact congrArg (0 :: ·) ih
    · rw [List.singleton_append, unescape, ih]
      exact fun _ _ h _ => absurd h h92

theorem cstring_append_zero (s t : Str) : cstring (s ++ 0 :: t) = some (s.takeWhile (· ≠ 0)) := by
  rw [cstring, if_pos (by simp)]
  congr 1
  induction s with
  | nil => rfl
  | cons c s ih =>
    rw [List.cons_append, List.takeWhile_cons, List.takeWhile_cons, ih]

theorem all_ne_zero (h : 0 ∉ s) : ∀ c ∈ s, decide (c ≠ 0) = true := by
  intro c hc
  exact decide_eq_true fun h0 => h (h0 ▸ hc)

theorem takeWhile_append_zero (h : 0 ∉ s) (t : Str) : (s ++ 0 :: t).takeWhile (· ≠ 0) = s := by
  have hall := all_ne_zero h
  rw [List.takeWhile_append_of_pos hall]
  exact List.append_nil s

theorem takeWhile_eq_self (h : 0 ∉ s) : s.takeWhile (· ≠ 0) = s := by
  have hall := all_ne_zero h
  have happ : (s ++ []).takeWhile (· ≠ 0) = s ++ [] := List.takeWhile_append_of_pos hall
  rwa [List.append_nil] at happ

def logged : Kind → Str → Str
  | .unix, msg => escape msg
  | .tcp, msg | .tls, msg => msg.takeWhile (· ≠ 0)

theorem record_eq (k : Kind) (date : Str) (h : msg.length < MAX_BUF_SIZE) :
    record k date msg = some (date ++ lit "; " ++ logged k msg ++ [10]) := by
  have hraw : cstring (msg ++ [0]) = some (msg.takeWhile (· ≠ 0)) := cstring_append_zero msg []
  rw [record, escape_string_eq h, Option.bind_some]
  cases k with
  | unix =>
    have hle := length_escape_le msg
    obtain ⟨n, hn⟩ : ∃ n, 2 * MAX_BUF_SIZE - (escape msg).length = n + 1 :=
      ⟨2 * MAX_BUF_SIZE - (escape msg).length - 1, by omega⟩
    rw [hn, List.replicate_succ]
    simp only [cstring_append_zero, takeWhile_eq_self (notMem_escape msg).2]
    rfl
  | tcp => simp only [hraw]; rfl
  | tls => simp only [hraw]; rfl

theorem serve_eq {errors : Str} {replies : List Reply} (hm : Message msg) (date : Str)
    (h : received k replies = some (errors, msg)) :
    serve k date replies = some (errors ++ (date ++ lit "; " ++ logged k msg ++ [10])) := by
  rw [serve, h, Option.bind_some, if_pos (List.length_pos_iff.mpr hm.1), record_eq k date hm.2]
  rfl

theorem logged_raw (hk : k ≠ .unix) (msg : Str) : logged k msg = msg.takeWhile (· ≠ 0) := by
  cases k with
  | unix => exact absurd rfl hk
  | tcp => rfl
  | tls => rfl

theorem message_received (k : Kind) (hm : Message msg) :
    ∃ replies, received k replies = some ([], msg) := by
  have htake : msg.take (MAX_BUF_SIZE - 1) = msg := List.take_of_length_le (Nat.le_sub_one_of_lt hm.2)
  refine ⟨[.bytes msg, .bytes []], ?_⟩
  cases k with
  | unix => simp only [received, htake]
  | tls => simp only [received, htake]
  | tcp =>
    have hroom : msg.take (MAX_BUF_SIZE - ([] : Str).length - 1) = msg := htake
    simp only [received, tcp_recv, hroom, if_neg hm.1, List.nil_append, List.take_nil, if_true]

theorem Recorded.unique (h : Recorded k msg) (hm : Message msg) (ht : Message t)
    (heq : logged k t = logged k msg) : t = msg := by
  obtain ⟨_, -, -, -, huniq⟩ := h
  exact huniq t ht [] (by rw [record_eq k [] ht.2, record_eq k [] hm.2, heq])

theorem Recorded.clean (h : Recorded k msg) (hm : Message msg) :
    10 ∉ logged k msg := by
  obtain ⟨text, hline, -, hserve, -⟩ := h
  obtain ⟨replies, hrec⟩ := message_received k hm
  have heq := (hserve [] [] replies hrec).symm.trans (serve_eq hm [] hrec)
  have htext : text = logged k msg := by simpa using heq
  exact htext ▸ hline

theorem recorded_of_clean (hm : Message msg) (hline : 10 ∉ logged k msg) (hnul : 0 ∉ logged k msg)
    (huniq : ∀ msg', Message msg' → logged k msg' = logged k msg → msg' = msg) :
    Recorded k msg := by
  refine ⟨logged k msg, hline, hnul, fun date errors replies h => serve_eq hm date h, ?_⟩
  intro msg' hm' date h
  rw [record_eq k date hm'.2, record_eq k date hm.2] at h
  exact huniq msg' hm' (by simpa using h)

theorem logged_append_zero (hk : k ≠ .unix) (hs : 0 ∉ s) (t : Str) :
    logged k (s ++ 0 :: t) = s := by
  rw [logged_raw hk, takeWhile_append_zero hs]

theorem Recorded.notMem_zero (h : Recorded k msg) (hm : Message msg) (hk : k ≠ .unix) :
    0 ∉ msg := by
  intro h0
  obtain ⟨u, v, rfl, hu⟩ := List.eq_append_cons_of_mem h0
  have hlog := logged_append_zero hk hu v
  have hlen := hm.2
  rw [List.length_append, List.length_cons] at hlen
  cases v with
  | cons c v =>
    have hshort : Message (u ++ 0 :: []) := by
      refine ⟨by simp, ?_⟩
      rw [List.length_append, List.length_singleton]
      omega
    have heq := h.unique hm hshort ((logged_append_zero hk hu []).trans hlog.symm)
    simp at heq
  | nil =>
    cases u with
    | cons c u =>
      have hshort : Message (c :: u) := ⟨List.cons_ne_nil c u, by omega⟩
      have hsame : logged k (c :: u) = c :: u := by rw [logged_raw hk, takeWhile_eq_self hu]
      have heq := h.unique hm hshort (hsame.trans hlog.symm)
      simp at heq
    | nil =>
      have hlong : Message ([] ++ 0 :: [0]) := ⟨by simp, by decide⟩
      have heq := h.unique hm hlong ((logged_append_zero hk hu [0]).trans hlog.symm)
      simp at heq

theorem recorded_unix (hm : Message msg) : Recorded .unix msg := by
  have hc := notMem_escape msg
  refine recorded_of_clean hm hc.1 hc.2 fun msg' _ heq => ?_
  rw [← unescape_escape msg', ← unescape_escape msg]
  exact congrArg unescape heq

theorem recorded_full (hk : k ≠ .unix) (hm : Message msg) (hline : 10 ∉ msg) (hnul : 0 ∉ msg)
    (hlen : msg.length = MAX_BUF_SIZE - 1) : Recorded k msg := by
  have hself : logged k msg = msg := by rw [logged_raw hk, takeWhile_eq_self hnul]
  refine recorded_of_clean hm (hself.symm ▸ hline) (hself.symm ▸ hnul) fun msg' hm' heq => ?_
  rw [hself, logged_raw hk] at heq
  have hpre : msg <+: msg' := heq ▸ List.takeWhile_prefix _
  have hle := hm'.2
  exact (hpre.eq_of_length_le (by omega)).symm

/-- Every message is logged as it should be by the UNIX listener. The others need one without
newlines and null characters, which moreover leaves no room for a null character after it. -/
theorem recorded_iff (k : Kind) (msg : Str) (hm : Message msg) :
    Recorded k msg ↔ k = .unix ∨ 10 ∉ msg ∧ 0 ∉ msg ∧ msg.length = MAX_BUF_SIZE - 1 := by
  constructor
  · intro h
    by_cases hk : k = .unix
    · exact .inl hk
    have hnul : 0 ∉ msg := h.notMem_zero hm hk
    have hself : logged k msg = msg := by rw [logged_raw hk, takeWhile_eq_self hnul]
    refine .inr ⟨hself ▸ h.clean hm, hnul, ?_⟩
    by_contra hlen
    have hlt : (msg ++ [0]).length < MAX_BUF_SIZE := by
      have := hm.2
      rw [List.length_append, List.length_singleton]
      omega
    have hlong : Message (msg ++ [0]) := ⟨by simp, hlt⟩
    have hsame : logged k (msg ++ [0]) = logged k msg := by
      rw [hself, logged_append_zero hk hnul]
    have heq := congrArg List.length (h.unique hm hlong hsame)
    simp at heq
  · rintro (rfl | ⟨hline, hnul, hlen⟩)
    · exact recorded_unix hm
    · by_cases hk : k = .unix
      · exact hk ▸ recorded_unix hm
      · exact recorded_full hk hm hline hnul hlen

theorem recorded_iff_newline : ¬ Recorded .tcp (lit "a" ++ [10] ++ lit "b") := by
  intro h
  have hcond := (recorded_iff .tcp (lit "a" ++ [10] ++ lit "b") ⟨by decide, by decide⟩).mp h
  revert hcond
  decide

/-- A message to the TCP listener whose second line is written as a line of its own. -/
theorem second_record_forged :
    ¬ ∀ (k : Kind) (msg : Str), Message msg → Recorded k msg := by
  intro h
  have hm : Message (lit "a" ++ [10] ++ lit "b") := ⟨by decide, by decide⟩
  have hclean := (h .tcp _ hm).clean hm
  revert hclean
  decide

end YdbTest.AuditEscape
