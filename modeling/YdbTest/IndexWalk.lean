import YdbTest.ForLoop
import YdbTest.ModWalk
import Mathlib.Tactic

namespace YdbTest.IndexWalk

open ForLoop ModWalk

/-- `^%imptp(fillid,"prime")` and `^%imptp(fillid,"root")`. -/
def prime : Nat := 50000017

def root : Nat := 5

/-- `set nroot=1 for J=1:1:jobcnt set nroot=(nroot*root)#prime` -/
def nroot (jobcnt : Nat) : Nat :=
  forLoop 1 jobcnt (fun _ n => n * root % prime) 1

/-- `set I=1 for J=2:1:jobno set I=(I*root)#prime for J=1:1:lasti set I=(I*nroot)#prime` -/
def startIndex (jobcnt jobno lasti : Nat) : Nat :=
  forLoop 1 lasti (fun _ i => i * nroot jobcnt % prime)
    (forLoop 2 jobno (fun _ i => i * root % prime) 1)

/-- `set top=prime\jobcnt`, the bound used unless `^%imptp(fillid,"top")` is set. -/
def top (jobcnt : Nat) : Nat := prime / jobcnt

/-- The main loop of `impjob`, from the saved `lasti` until it has finished
iteration `stop`: the `(loop,I)` pairs it works on, and the last `I`. -/
def impjobLoop (jobcnt jobno lasti stop : Nat) : List (Nat × Nat) × Nat :=
  forLoop (lasti + 1) stop
    (fun loop s => (s.1 ++ [(loop, s.2)], s.2 * nroot jobcnt % prime))
    ([], startIndex jobcnt jobno lasti)

def impjobWalk (jobcnt jobno lasti stop : Nat) : List (Nat × Nat) :=
  (impjobLoop jobcnt jobno lasti stop).1

/-- The walk of `checkdb` over every job and every loop up to `^lasti`, with
the routine that looks at one iteration as `body` and `fl>maxerr` as `quit`. -/
def checkLoop {σ : Type} (jobcnt : Nat) (lasti : Nat → Nat) (quit : σ → Bool)
    (body : Nat → Nat → Nat → σ → σ) (s : σ) : σ :=
  (forLoop 1 jobcnt
    (fun jobno t =>
      ((t.1 * root) % prime,
        (forUntil (fun u => quit u.2)
          (fun loop u => (u.1 * nroot jobcnt % prime, body jobno loop u.1 u.2))
          (List.range' 1 (lasti jobno)) t).2))
    (1, s)).2

/-- The `(jobno,loop,I)` triples `checkdb` recomputes. -/
def checkdbWalk (jobcnt : Nat) (lasti : Nat → Nat) : List (Nat × Nat × Nat) :=
  checkLoop jobcnt lasti (fun _ => false)
    (fun jobno loop i visited => visited ++ [(jobno, loop, i)]) []

theorem prime_prime : Nat.Prime prime := by unfold prime; norm_num

instance : Fact prime.Prime := ⟨prime_prime⟩

theorem one_lt_prime : 1 < prime := by decide

theorem nroot_eq (jobcnt : Nat) : nroot jobcnt = root ^ jobcnt % prime := by
  rw [nroot, forLoop_const, iterate_mul_mod _ _ _ _ one_lt_prime, Nat.one_mul,
    Nat.add_sub_cancel]

theorem startIndex_eq (jobcnt jobno lasti : Nat) :
    startIndex jobcnt jobno lasti = root ^ (jobno - 1 + lasti * jobcnt) % prime := by
  have hj : jobno + 1 - 2 = jobno - 1 := by omega
  rw [startIndex, forLoop_const, forLoop_const, Nat.add_sub_cancel, hj,
    iterate_mul_mod _ _ _ _ one_lt_prime, Nat.one_mul,
    iterate_mul_mod _ _ _ _ (Nat.mod_lt _ prime_prime.pos), nroot_eq, Nat.mod_mul_mod,
    Nat.mul_mod, ← Nat.pow_mod, ← Nat.mul_mod, ← Nat.pow_mul, ← Nat.pow_add, Nat.mul_comm jobcnt]

theorem startIndex_succ (jobcnt jobno lasti : Nat) :
    startIndex jobcnt jobno (lasti + 1) = startIndex jobcnt jobno lasti * nroot jobcnt % prime := by
  unfold startIndex
  exact forLoop_succ 1 lasti _ _ (by omega)

theorem startIndex_zero_succ (jobcnt jobno : Nat) (h : 1 ≤ jobno) :
    startIndex jobcnt (jobno + 1) 0 = startIndex jobcnt jobno 0 * root % prime := by
  unfold startIndex
  rw [forLoop_empty 1 0 _ _ (by omega), forLoop_empty 1 0 _ _ (by omega)]
  exact forLoop_succ 2 jobno _ _ (by omega)

/-- Iteration `loop` of job `jobno` works on `startIndex jobcnt jobno (loop-1)`
whatever `lasti` the job was started from. -/
theorem impjobLoop_eq (jobcnt jobno lasti stop : Nat) (h : lasti ≤ stop) :
    impjobLoop jobcnt jobno lasti stop =
      ((List.range' (lasti + 1) (stop - lasti)).map
        (fun loop => (loop, startIndex jobcnt jobno (loop - 1))),
        startIndex jobcnt jobno stop) := by
  induction stop with
  | zero =>
    obtain rfl : lasti = 0 := by omega
    rfl
  | succ stop ih =>
    by_cases hl : lasti = stop + 1
    · subst hl
      simp [impjobLoop, forLoop_empty]
    · have hs : stop + 1 - lasti = (stop - lasti) + 1 := by omega
      have he : lasti + 1 + (stop - lasti) = stop + 1 := by omega
      have hi := ih (by omega)
      unfold impjobLoop at hi ⊢
      rw [forLoop_succ _ _ _ _ (by omega), hi, hs, List.range'_concat]
      simp [he, startIndex_succ]

theorem impjobWalk_eq (jobcnt jobno lasti stop : Nat) (h : lasti ≤ stop) :
    impjobWalk jobcnt jobno lasti stop =
      (List.range' (lasti + 1) (stop - lasti)).map
        (fun loop => (loop, startIndex jobcnt jobno (loop - 1))) := by
  rw [impjobWalk, impjobLoop_eq jobcnt jobno lasti stop h]

theorem mem_impjobWalk (jobcnt jobno lasti stop : Nat) (h : lasti ≤ stop) (x : Nat × Nat) :
    x ∈ impjobWalk jobcnt jobno lasti stop ↔
      lasti < x.1 ∧ x.1 ≤ stop ∧ x.2 = startIndex jobcnt jobno (x.1 - 1) := by
  rw [impjobWalk_eq jobcnt jobno lasti stop h, List.mem_map]
  constructor
  · rintro ⟨loop, hl, rfl⟩
    rw [List.mem_range'_1] at hl
    exact ⟨by omega, by omega, rfl⟩
  · rintro ⟨h1, h2, h3⟩
    exact ⟨x.1, by rw [List.mem_range'_1]; omega, by rw [← h3]⟩

end YdbTest.IndexWalk
