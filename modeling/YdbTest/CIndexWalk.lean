import YdbTest.CInt
import YdbTest.IndexWalk

namespace YdbTest.CIndexWalk

open ForLoop IndexWalk

/-- `for (nroot = 1, i = 1; i <= jobcnt; i++) nroot = (nroot * root) % prime;` -/
def cNroot (jobcnt : Int) : Option Int :=
  CInt.forInt (fun _ n => do CInt.mod (← CInt.mul n root) prime) (jobcnt + 2).toNat 1 jobcnt 1

/-- The two loops of `impjob` in simpleapi_imptp.c that set `I` from `jobno`
and `lasti`. -/
def cStartIndex (nroot jobno lasti : Int) : Option Int := do
  let i ← CInt.forInt (fun _ i => CInt.mulModUll i root prime) (jobno + 1).toNat 2 jobno 1
  CInt.forInt (fun _ i => CInt.mulModUll i nroot prime) (lasti + 2).toNat 1 lasti i

/-- The `(loop,I)` pairs of the main loop of simpleapi_imptp.c, up to `stop`. -/
def cImpjobWalk (jobcnt jobno lasti stop : Int) : Option (List (Int × Int)) := do
  let nroot ← cNroot jobcnt
  let i ← cStartIndex nroot jobno lasti
  let first ← CInt.add lasti 1
  let s ← CInt.forInt
    (fun loop s => do
      let i ← CInt.mulModUll s.2 nroot prime
      some (s.1 ++ [(loop, s.2)], i))
    (stop + 2).toNat first stop ([], i)
  some s.1

/-- `top = prime / jobcnt` -/
def cTop (jobcnt : Int) : Option Int := CInt.div prime jobcnt

def castWalk (walk : List (Nat × Nat)) : List (Int × Int) :=
  walk.map (fun x => (x.1, x.2))

theorem forInt_mulModUll (r lo hi fuel i : Nat) (hr : r < prime) (hi' : i < prime)
    (hhi : hi < 2147483647) (hfuel : hi + 1 - lo < fuel) :
    CInt.forInt (fun _ i => CInt.mulModUll i r prime) fuel lo hi (i : Int) =
      some ((forLoop lo hi (fun _ i => i * r % prime) i : Nat) : Int) := by
  have hp : prime ≤ 2147483647 := by decide
  apply CInt.forInt_eq_forLoop (fun i : Nat => (i : Int)) (fun i => i < prime) _ _ lo hi fuel i
    hhi hfuel hi'
  intro j t _ _ ht
  exact ⟨CInt.mulModUll_natCast (by omega) (by omega) prime_prime.pos hp,
    Nat.mod_lt _ prime_prime.pos⟩

theorem cNroot_eq (jobcnt : Nat) (h : jobcnt < 2147483647) :
    cNroot jobcnt = some (nroot jobcnt : Int) := by
  unfold cNroot
  apply CInt.forInt_eq_forLoop (fun i : Nat => (i : Int)) (fun i => i < prime) _
    (fun _ n => n * root % prime) 1 jobcnt _ 1 h (by omega) one_lt_prime
  intro j t _ _ ht
  have hm : t * root ≤ 2147483647 := by unfold root prime at *; omega
  refine ⟨?_, Nat.mod_lt _ prime_prime.pos⟩
  rw [CInt.mul_natCast hm, Option.bind_eq_bind, Option.bind_some,
    CInt.mod_natCast prime_prime.pos (by decide)]

theorem cNroot_intMax : cNroot 2147483647 = none :=
  CInt.forInt_intMax _ _ 1 1 (by omega)

theorem nroot_lt (jobcnt : Nat) : nroot jobcnt < prime := by
  rw [nroot_eq]
  exact Nat.mod_lt _ prime_prime.pos

theorem cStartIndex_eq (jobcnt jobno lasti : Nat) (hj : jobno < 2147483647)
    (hl : lasti < 2147483647) :
    cStartIndex (nroot jobcnt) jobno lasti = some (startIndex jobcnt jobno lasti : Int) := by
  have hr : root < prime := by decide
  have h1 := forInt_mulModUll root 2 jobno (jobno + 1) 1 hr one_lt_prime hj (by omega)
  have h2 := forInt_mulModUll (nroot jobcnt) 1 lasti (lasti + 2)
    (forLoop 2 jobno (fun _ i => i * root % prime) 1) (nroot_lt jobcnt) (by
      have he := startIndex_eq jobcnt jobno 0
      rw [startIndex, forLoop_empty 1 0 _ _ (by omega)] at he
      rw [he]
      exact Nat.mod_lt _ prime_prime.pos) hl (by omega)
  rw [cStartIndex]
  change (CInt.forInt _ (jobno + 1) ((2 : Nat) : Int) jobno ((1 : Nat) : Int)).bind _ = _
  rw [h1]
  exact h2

/-- The `int` arithmetic never overflows, so the C loops take the walk of `impjob`. -/
theorem cImpjobWalk_eq (jobcnt jobno lasti stop : Nat) (hc : jobcnt < 2147483647)
    (hj : jobno < 2147483647) (hl : lasti < 2147483647) (hs : stop < 2147483647) :
    cImpjobWalk jobcnt jobno lasti stop =
      some (castWalk (impjobWalk jobcnt jobno lasti stop)) := by
  have hp : prime ≤ 2147483647 := by decide
  have hadd : CInt.add lasti 1 = some ((lasti + 1 : Nat) : Int) := by
    rw [CInt.add, Nat.cast_succ]
    exact CInt.int_eq (by omega) (by omega)
  have hfuel : ((stop : Int) + 2).toNat = stop + 2 := by omega
  have hr := nroot_lt jobcnt
  have hi : startIndex jobcnt jobno lasti < prime := by
    rw [startIndex_eq]
    exact Nat.mod_lt _ prime_prime.pos
  have hloop := CInt.forInt_eq_forLoop
    (fun s : List (Nat × Nat) × Nat => (castWalk s.1, (s.2 : Int)))
    (fun s => s.2 < prime)
    (fun loop s => do
      let i ← CInt.mulModUll s.2 (nroot jobcnt) prime
      some (s.1 ++ [(loop, s.2)], i))
    (fun loop s => (s.1 ++ [(loop, s.2)], s.2 * nroot jobcnt % prime))
    (lasti + 1) stop (stop + 2) ([], startIndex jobcnt jobno lasti) hs (by omega) hi
    (by
      intro j t _ _ ht
      refine ⟨?_, Nat.mod_lt _ prime_prime.pos⟩
      rw [CInt.mulModUll_natCast (by omega) (by omega) prime_prime.pos hp]
      simp [castWalk])
  rw [cImpjobWalk, cNroot_eq jobcnt hc, Option.bind_eq_bind, Option.bind_some,
    cStartIndex_eq jobcnt jobno lasti hj hl, Option.bind_eq_bind, Option.bind_some,
    hadd, Option.bind_eq_bind, Option.bind_some, hfuel]
  exact congrArg (fun o => Option.bind o (fun s => some s.1)) hloop

theorem cTop_eq (jobcnt : Nat) (h : 1 ≤ jobcnt) : cTop jobcnt = some (top jobcnt : Int) :=
  CInt.div_natCast h (by decide)

end YdbTest.CIndexWalk
