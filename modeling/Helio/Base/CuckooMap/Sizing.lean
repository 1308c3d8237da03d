import Helio.Base.CuckooMap.Compact
import Mathlib.Tactic.NormNum.Prime

/-!
# Bucket counts: what `IsPrime` and `GetPrimeNotLessThan` compute

Every bucket count of the table is `GetPrimeNotLessThan(request)`, the first odd value from
the request on that `IsPrime` accepts. `IsPrime` is trial division by the odd `i` from `5`
while `i * i <= val`, on a `uint32` counter whose square wraps.

Below `65535 ^ 2` the square never wraps before the test fails, and the loop is exact trial
division. From there to `2 ^ 32` a composite value is still caught by its least factor,
which is below `2 ^ 16`. A prime one is accepted only if some wrapped square exceeds it
before `i` reaches it. Odd squares are `1` modulo `8`, and so are their residues modulo
`2 ^ 32`, so no wrapped square lies above `2 ^ 32 - 7`. The one prime above that bound,
`4294967291`, is rejected when `i` reaches it. Below the bound the square of `479772853` is
`2 ^ 32 - 7` modulo `2 ^ 32`, which ends the loop in time. Past `2 ^ 32` every value is
rejected (`isPrime_eq_false_of_two_pow_le`).

So `IsPrime` is right on `[2, 2 ^ 32)` but for `4294967291`. `GetPrimeNotLessThan` returns
the least prime from its request on, up to `4294967279`, the last prime it accepts. Past that
it scans on to `kuint64max` and ends in `LOG(FATAL)`: `Reserve` of `4 * 4294967291` keys on
an empty table asks `Init` for `4294967291` buckets, a prime and a `BucketId`, and aborts
(`prime_sizing_fails_at_top`). `CuckooSet` takes its capacity as a `uint32`, so a set asked for
the `Capacity()` of another, a `size_t`, gets it back as long as it fits, below `2 ^ 30`
buckets.
-/

set_option autoImplicit false

namespace Helio

namespace CuckooMapTable

/-! ## One round of the loop of `IsPrime` -/

section Loop

variable {val fuel i : ℕ}

theorem isPrimeLoop_exit (h : val < i * i % 2 ^ 32) : isPrimeLoop val (fuel + 1) i = true := by
  rw [isPrimeLoop, if_neg (Nat.not_le_of_lt h)]

theorem isPrimeLoop_dvd (h : i * i % 2 ^ 32 ≤ val) (hd : val % i = 0) :
    isPrimeLoop val (fuel + 1) i = false := by
  rw [isPrimeLoop, if_pos h, if_pos hd]

theorem isPrimeLoop_next (h : i * i % 2 ^ 32 ≤ val) (hd : val % i ≠ 0) :
    isPrimeLoop val (fuel + 1) i = isPrimeLoop val fuel ((i + 2) % 2 ^ 32) := by
  rw [isPrimeLoop, if_pos h, if_neg hd]

end Loop

/-! ## Where the loop stops -/

/-- **The loop stops at a divisor it reaches.** If no square on the way to `d`, a divisor of
    `val` with `i`'s parity, exceeds `val`, the loop returns `false`, at `d` or at a divisor
    before it. -/
theorem isPrimeLoop_eq_false_of_dvd {val d : ℕ} (hd : val % d = 0) (hd32 : d < 2 ^ 32)
    (hsq : ∀ j, j ≤ d → j % 2 = d % 2 → j * j % 2 ^ 32 ≤ val) :
    ∀ n fuel i, d = i + 2 * n → n < fuel → isPrimeLoop val fuel i = false := by
  intro n
  induction n with
  | zero =>
    intro fuel i hi hfuel
    obtain ⟨fuel, rfl⟩ := Nat.exists_eq_add_of_lt hfuel
    subst hi
    exact isPrimeLoop_dvd (hsq _ le_rfl rfl) hd
  | succ n ih =>
    intro fuel i hi hfuel
    obtain ⟨fuel, rfl⟩ := Nat.exists_eq_add_of_lt (Nat.zero_lt_of_lt hfuel)
    have hsqi : i * i % 2 ^ 32 ≤ val := hsq i (by omega) (by omega)
    by_cases hdi : val % i = 0
    · exact isPrimeLoop_dvd hsqi hdi
    · -- `i` is short of `d`, so `i + 2` does not wrap
      rw [Nat.zero_add, isPrimeLoop_next hsqi hdi, Nat.mod_eq_of_lt (by omega)]
      exact ih _ _ (by omega) (by omega)

/-- **The loop accepts at a square past `val`.** If the square of `w` exceeds `val` and no
    value the loop tests before `w` divides `val`, the loop returns `true`, at `w` or before. -/
theorem isPrimeLoop_eq_true_of_exit {val w : ℕ} (hw : val < w * w % 2 ^ 32) (hw32 : w < 2 ^ 32)
    (hnd : ∀ j, j < w → j % 2 = w % 2 → 1 < j → j * j % 2 ^ 32 ≤ val → val % j ≠ 0) :
    ∀ n fuel i, w = i + 2 * n → 1 < i → n < fuel → isPrimeLoop val fuel i = true := by
  intro n
  induction n with
  | zero =>
    intro fuel i hi _ hfuel
    obtain ⟨fuel, rfl⟩ := Nat.exists_eq_add_of_lt hfuel
    subst hi
    exact isPrimeLoop_exit hw
  | succ n ih =>
    intro fuel i hi hi1 hfuel
    obtain ⟨fuel, rfl⟩ := Nat.exists_eq_add_of_lt (Nat.zero_lt_of_lt hfuel)
    rw [Nat.zero_add]
    by_cases hsqi : i * i % 2 ^ 32 ≤ val
    · rw [isPrimeLoop_next hsqi (hnd i (by omega) (by omega) hi1 hsqi),
        Nat.mod_eq_of_lt (by omega)]
      exact ih _ _ (by omega) (by omega) (by omega)
    · exact isPrimeLoop_exit (Nat.lt_of_not_le hsqi)

/-- Odd squares are `1` modulo `8`, and so are their residues modulo `2 ^ 32`. -/
theorem odd_mul_self_mod {j : ℕ} (hj : j % 2 = 1) : j * j % 2 ^ 32 % 8 = 1 := by
  rw [Nat.mod_mod_of_dvd _ (by norm_num : 8 ∣ 2 ^ 32), Nat.mul_mod]
  have h8 : j % 8 = 1 ∨ j % 8 = 3 ∨ j % 8 = 5 ∨ j % 8 = 7 := by omega
  rcases h8 with h | h | h | h <;> rw [h]

/-- A wrapped odd square is at most `2 ^ 32 - 7`. -/
theorem odd_mul_self_mod_le {j : ℕ} (hj : j % 2 = 1) : j * j % 2 ^ 32 ≤ 2 ^ 32 - 7 := by
  have h8 := odd_mul_self_mod hj
  have hlt : j * j % 2 ^ 32 < 2 ^ 32 := Nat.mod_lt _ (by norm_num)
  omega

/-! ## `IsPrime` -/

/-- The square of `479772853` is `2 ^ 32 - 7` modulo `2 ^ 32`: the loop's exit for the primes
    between `65535 ^ 2` and `2 ^ 32 - 7`. -/
theorem wrapped_exit : (479772853 * 479772853 : ℕ) % 2 ^ 32 = 2 ^ 32 - 7 := by norm_num

/-- A value the loop starts on, odd and prime to `3`, is prime when the loop accepts it. -/
theorem isPrimeLoop_of_not_prime {v : ℕ} (h5 : 5 ≤ v) (h32 : v < 2 ^ 32) (h2 : v % 2 ≠ 0)
    (h3 : v % 3 ≠ 0) (hv : ¬Nat.Prime v) : isPrimeLoop v (2 ^ 31) 5 = false := by
  -- the least factor of a composite is odd, at least `5`, and its square is at most `v`
  set q := v.minFac with hq
  have hqdvd : q ∣ v := Nat.minFac_dvd v
  have hqprime : q.Prime := Nat.minFac_prime (by omega)
  have hqsq : q ^ 2 ≤ v := Nat.minFac_sq_le_self (by omega) hv
  have hq2 : q ≠ 2 := fun h => h2 (Nat.mod_eq_zero_of_dvd (h ▸ hqdvd))
  have hq3 : q ≠ 3 := fun h => h3 (Nat.mod_eq_zero_of_dvd (h ▸ hqdvd))
  have hq4 : q ≠ 4 := fun h => by rw [h] at hqprime; norm_num at hqprime
  have hq5 : 5 ≤ q := by have := hqprime.two_le; omega
  have hqodd : q % 2 = 1 := by
    rcases hqprime.eq_two_or_odd with h | h
    · exact absurd h hq2
    · exact h
  have hq16 : q < 2 ^ 16 := by
    by_contra hge
    have : 2 ^ 16 * 2 ^ 16 ≤ q * q := Nat.mul_le_mul (by omega) (by omega)
    rw [pow_two] at hqsq
    omega
  apply isPrimeLoop_eq_false_of_dvd (Nat.mod_eq_zero_of_dvd hqdvd) (by omega) _ ((q - 5) / 2)
    (2 ^ 31) 5 (by omega) (by omega)
  intro j hj _
  have hjj : j * j ≤ q * q := Nat.mul_le_mul hj hj
  rw [pow_two] at hqsq
  rw [Nat.mod_eq_of_lt (by omega)]
  omega

/-- A prime below `2 ^ 32 - 7` is accepted: the loop exits at a square past it, at `65535`
    below `65535 ^ 2` and at `479772853` above. -/
theorem isPrimeLoop_of_prime {v : ℕ} (hv : Nat.Prime v) (h32 : v < 2 ^ 32 - 7) :
    isPrimeLoop v (2 ^ 31) 5 = true := by
  -- no value tested before the exit divides `v`, but `v` itself, whose square exceeds it
  have hnd : ∀ w, (v < 2 ^ 16 ∨ w < v) → ∀ j, j < w → j % 2 = w % 2 → 1 < j →
      j * j % 2 ^ 32 ≤ v → v % j ≠ 0 := by
    intro w hw j hjw _ hj1 hsq hdvd
    have hjv : j = v := (hv.eq_one_or_self_of_dvd j (Nat.dvd_of_mod_eq_zero hdvd)).resolve_left
      (by omega)
    subst hjv
    rcases hw with hsmall | hlt
    · have hjj : j * j < 2 ^ 32 := by
        have : j * j < 2 ^ 16 * 2 ^ 16 := Nat.mul_lt_mul'' hsmall hsmall
        omega
      rw [Nat.mod_eq_of_lt hjj] at hsq
      have : 2 * j ≤ j * j := Nat.mul_le_mul_right j hv.two_le
      omega
    · omega
  by_cases hlow : v < 65535 * 65535
  · apply isPrimeLoop_eq_true_of_exit (w := 65535) (by norm_num; omega) (by norm_num)
      (hnd 65535 (by omega)) 32765 (2 ^ 31) 5 (by norm_num) (by norm_num) (by norm_num)
  · apply isPrimeLoop_eq_true_of_exit (w := 479772853) (by rw [wrapped_exit]; omega)
      (by norm_num) (hnd 479772853 (by omega)) 239886424 (2 ^ 31) 5 (by norm_num) (by norm_num)
      (by norm_num)

/-- The largest prime below `2 ^ 32` is rejected: no wrapped square exceeds it, so the loop
    runs on until `i` reaches it. -/
theorem isPrime_largest : isPrime 4294967291 = false := by
  unfold isPrime
  rw [if_neg (by norm_num), if_neg (by norm_num)]
  apply isPrimeLoop_eq_false_of_dvd (d := 4294967291) (by norm_num) (by norm_num) _
    2147483643 (2 ^ 31) 5 (by norm_num) (by norm_num)
  intro j _ hj
  have := odd_mul_self_mod_le (j := j) (by omega)
  omega

/-- **`IsPrime` is right below `2 ^ 32`, but for `4294967291`.** -/
theorem isPrime_iff {v : ℕ} (h2 : 2 ≤ v) (h32 : v < 2 ^ 32) (hv : v ≠ 4294967291) :
    isPrime v = true ↔ Nat.Prime v := by
  unfold isPrime
  by_cases h4 : v < 4
  · rw [if_pos h4]
    have : v = 2 ∨ v = 3 := by omega
    rcases this with rfl | rfl <;> norm_num
  rw [if_neg h4]
  by_cases h23 : v % 2 = 0 ∨ v % 3 = 0
  · -- `2` or `3` divides `v`, which is larger
    rw [if_pos h23]
    simp only [Bool.false_eq_true, false_iff]
    intro hp
    rcases h23 with h | h
    · have := (hp.eq_one_or_self_of_dvd 2 (Nat.dvd_of_mod_eq_zero h)).resolve_left (by omega)
      omega
    · have := (hp.eq_one_or_self_of_dvd 3 (Nat.dvd_of_mod_eq_zero h)).resolve_left (by omega)
      omega
  rw [if_neg h23]
  rw [not_or] at h23
  constructor
  · intro hloop
    by_contra hnp
    rw [isPrimeLoop_of_not_prime (by omega) h32 h23.1 h23.2 hnp] at hloop
    cases hloop
  · intro hp
    by_cases htop : v < 2 ^ 32 - 7
    · exact isPrimeLoop_of_prime hp htop
    · -- the values from `2 ^ 32 - 7` on that are odd and prime to `3`: `4294967291`, excluded,
      -- and `4294967293 = 9241 * 464773`
      have h93 : v = 4294967293 := by omega
      subst h93
      norm_num at hp

/-! ## `GetPrimeNotLessThan` -/

section Scan

variable {fuel value : ℕ}

theorem scanPrime_hit (h : value < kuint64max) (hp : isPrime value = true) :
    scanPrime (fuel + 1) value = some value := by
  rw [scanPrime, if_pos h, if_pos hp]

theorem scanPrime_skip (h : value < kuint64max) (hp : isPrime value = false) :
    scanPrime (fuel + 1) value = scanPrime fuel (value + 2) := by
  rw [scanPrime, if_pos h, if_neg (by rw [hp]; decide)]

end Scan

set_option maxRecDepth 200000 in
/-- `4294967279 = 2 ^ 32 - 17`, the last prime `IsPrime` accepts. -/
theorem prime_last : Nat.Prime 4294967279 := by
  norm_num

/-- **The scan returns the least prime.** From an odd start at least `3` and at most
    `4294967279`, with fuel for the odd values up to it, the scan returns the least prime from
    the start on. -/
theorem scanPrime_least : ∀ n value, value % 2 = 1 → 3 ≤ value → value + 2 * n = 4294967279 →
    ∀ fuel, n < fuel → ∃ p, scanPrime fuel value = some p ∧ Nat.Prime p ∧ value ≤ p ∧
      ∀ q, Nat.Prime q → value ≤ q → p ≤ q := by
  intro n
  induction n with
  | zero =>
    intro value _ _ hvalue fuel hfuel
    obtain ⟨fuel, rfl⟩ := Nat.exists_eq_add_of_lt hfuel
    have hv : value = 4294967279 := by omega
    subst hv
    have hp := (isPrime_iff (by norm_num) (by norm_num) (by norm_num)).mpr prime_last
    exact ⟨_, scanPrime_hit (by decide) hp, prime_last, le_rfl, fun _ _ h => h⟩
  | succ n ih =>
    intro value hodd h3 hvalue fuel hfuel
    obtain ⟨fuel, rfl⟩ := Nat.exists_eq_add_of_lt (Nat.zero_lt_of_lt hfuel)
    rw [Nat.zero_add]
    have hiff := isPrime_iff (v := value) (by omega) (by omega) (by omega)
    have hlt : value < kuint64max := by unfold kuint64max; omega
    cases hp : isPrime value with
    | true =>
      exact ⟨value, scanPrime_hit hlt hp, hiff.mp hp, le_rfl, fun _ _ h => h⟩
    | false =>
      -- `value` is not prime, nor is `value + 1`, even: the least prime is from `value + 2` on
      obtain ⟨p, hscan, hprime, hle, hleast⟩ :=
        ih (value + 2) (by omega) (by omega) (by omega) fuel (by omega)
      refine ⟨p, by rw [scanPrime_skip hlt hp]; exact hscan, hprime, by omega, ?_⟩
      intro q hq hvq
      have hqv : q ≠ value := fun h => by
        rw [h, ← hiff, hp] at hq
        cases hq
      have hqv1 : q ≠ value + 1 := fun h => by
        have := (hq.eq_one_or_self_of_dvd 2 (by omega)).resolve_left (by omega)
        omega
      exact hleast q hq (by omega)

/-- Past `4294967279` every value is rejected. -/
theorem isPrime_eq_false_of_gt {v : ℕ} (hv : 4294967279 < v) : isPrime v = false := by
  by_cases h32 : 2 ^ 32 ≤ v
  · exact isPrime_eq_false_of_two_pow_le h32
  by_cases hlast : v = 4294967291
  · rw [hlast]
    exact isPrime_largest
  -- the other fifteen values are composite
  have hnp : ¬Nat.Prime v := by
    have hv' : v < 4294967296 := by omega
    interval_cases v <;> first | exact absurd rfl hlast | norm_num
  cases h : isPrime v with
  | false => rfl
  | true => exact absurd ((isPrime_iff (by omega) (by omega) hlast).mp h) hnp

theorem scanPrime_eq_none_of_gt : ∀ fuel value, 4294967279 < value → scanPrime fuel value = none
  | 0, _, _ => rfl
  | fuel + 1, value, hv => by
    by_cases hlt : value < kuint64max
    · rw [scanPrime_skip hlt (isPrime_eq_false_of_gt hv)]
      exact scanPrime_eq_none_of_gt fuel (value + 2) (by omega)
    · rw [scanPrime, if_neg hlt]

/-- The start of the scan: the request, or the odd value after it. -/
theorem getPrimeNotLessThan_eq (value : ℕ) :
    getPrimeNotLessThan value =
      scanPrime (2 ^ 63) (if value % 2 = 0 then value + 1 else value) := rfl

/-- A result of the scan is a value it tested, from its start on and of its start's parity. -/
theorem scanPrime_ge : ∀ {fuel value p : ℕ}, scanPrime fuel value = some p →
    value ≤ p ∧ p % 2 = value % 2
  | 0, _, _, h => by cases h
  | fuel + 1, value, p, h => by
    unfold scanPrime at h
    split at h
    · split at h
      · cases h
        exact ⟨le_rfl, rfl⟩
      · have := scanPrime_ge h
        omega
    · cases h

/-- A request of at least `2` that gets a count gets a prime: a count `IsPrime` accepts, at
    least `3`, below `2 ^ 32` and not `4294967291`. -/
theorem prime_of_getPrimeNotLessThan {c p : ℕ} (hc : 2 ≤ c) (h : getPrimeNotLessThan c = some p) :
    Nat.Prime p ∧ c ≤ p := by
  have hlt := getPrimeNotLessThan_lt h
  have hacc := isPrime_of_scanPrime h
  rw [getPrimeNotLessThan_eq] at h
  have hge := scanPrime_ge h
  have hne : p ≠ 4294967291 := fun he => by
    rw [he, isPrime_largest] at hacc
    cases hacc
  refine ⟨(isPrime_iff (by split at hge <;> omega) hlt hne).mp hacc, ?_⟩
  split at hge <;> omega

/-- A count `GetPrimeNotLessThan` returns is returned again for itself: it is odd and
    accepted, so the scan from it stops at once. -/
theorem getPrimeNotLessThan_idem {c p : ℕ} (h : getPrimeNotLessThan c = some p) :
    getPrimeNotLessThan p = some p := by
  have hlt := getPrimeNotLessThan_lt h
  have hacc := isPrime_of_scanPrime h
  rw [getPrimeNotLessThan_eq] at h
  have hodd : p % 2 = 1 := by
    have := (scanPrime_ge h).2
    split at this <;> omega
  rw [getPrimeNotLessThan_eq, if_neg (by omega)]
  exact scanPrime_hit (by unfold kuint64max; omega) hacc

/-- **`GetPrimeNotLessThan` returns the least prime**, from `3` to `4294967279`. An even
    request is not prime, so the scan from the odd value after it finds the same prime. -/
theorem getPrimeNotLessThan_least {v : ℕ} (h3 : 3 ≤ v) (hv : v ≤ 4294967279) :
    ∃ p, getPrimeNotLessThan v = some p ∧ Nat.Prime p ∧ v ≤ p ∧
      ∀ q, Nat.Prime q → v ≤ q → p ≤ q := by
  rw [getPrimeNotLessThan_eq]
  split
  · rename_i heven
    obtain ⟨p, hscan, hp, hle, hleast⟩ := scanPrime_least ((4294967279 - (v + 1)) / 2) (v + 1)
      (by omega) (by omega) (by omega) (2 ^ 63) (by omega)
    refine ⟨p, hscan, hp, by omega, fun q hq hvq => hleast q hq ?_⟩
    have hqv : q ≠ v := by
      rintro rfl
      have := (hq.eq_one_or_self_of_dvd 2 (Nat.dvd_of_mod_eq_zero heven)).resolve_left (by omega)
      omega
    omega
  · obtain ⟨p, hscan, hp, hle, hleast⟩ := scanPrime_least ((4294967279 - v) / 2) v
      (by omega) h3 (by omega) (2 ^ 63) (by omega)
    exact ⟨p, hscan, hp, hle, hleast⟩

/-- Past `4294967279` the scan finds nothing and ends in `LOG(FATAL)`. -/
theorem getPrimeNotLessThan_eq_none {v : ℕ} (hv : 4294967279 < v) : getPrimeNotLessThan v = none := by
  rw [getPrimeNotLessThan_eq]
  exact scanPrime_eq_none_of_gt _ _ (by split <;> omega)

/-- A request below `2` gets `1`, which `IsPrime` accepts; every other count is a prime. -/
theorem getPrimeNotLessThan_eq_one_or_prime {c p : ℕ} (h : getPrimeNotLessThan c = some p) :
    p = 1 ∨ Nat.Prime p := by
  by_cases hc : 2 ≤ c
  · exact Or.inr (prime_of_getPrimeNotLessThan hc h).1
  · left
    have hc' : c = 0 ∨ c = 1 := by omega
    rcases hc' with rfl | rfl
    · have h0 : getPrimeNotLessThan 0 = some 1 := by decide
      rw [h0] at h
      exact (Option.some.inj h).symm
    · have h1 : getPrimeNotLessThan 1 = some 1 := by decide
      rw [h1] at h
      exact (Option.some.inj h).symm

theorem toBucketId_of_getPrimeNotLessThan {c p : ℕ} (h : getPrimeNotLessThan c = some p) :
    toBucketId p = p :=
  Nat.mod_eq_of_lt (getPrimeNotLessThan_lt h)

/-! ## The counts `Init`, `Grow` and `Compact` install

The moves of keys leave the bucket count alone, so the count of a table after `Init`, `Grow`
or `Compact` is the last one it set, a result of `GetPrimeNotLessThan`. -/

section Frames

variable {V : Type}

@[simp] theorem bucketCount_insertIntoBucket (t : CuckooMapTable V) (emptyMask b : ℕ) :
    (t.insertIntoBucket emptyMask b).1.bucketCount = t.bucketCount := rfl

@[simp] theorem bucketCount_swapPending (t : CuckooMapTable V) (b index : ℕ) :
    (t.swapPending b index).bucketCount = t.bucketCount := rfl

@[simp] theorem bucketCount_randomBit (t : CuckooMapTable V) :
    t.randomBit.1.bucketCount = t.bucketCount := rfl

@[simp] theorem bucketCount_randomIndex (t : CuckooMapTable V) :
    t.randomIndex.1.bucketCount = t.bucketCount := rfl

theorem bucketCount_rollLoop (start startIndex : ℕ) :
    ∀ (j : ℕ) (t : CuckooMapTable V) (bid shiftIndex : ℕ),
      (t.rollLoop start startIndex j bid shiftIndex).1.bucketCount = t.bucketCount
  | 0, _, _, _ => rfl
  | j + 1, t, bid, shiftIndex => by
    rw [rollLoop]
    dsimp only
    split
    · simp
    · rw [bucketCount_rollLoop start startIndex j]
      simp

@[simp] theorem bucketCount_rollPending (t : CuckooMapTable V) (shiftsLimit : UInt32)
    (bucketPair : ℕ × ℕ) : (t.rollPending shiftsLimit bucketPair).1.bucketCount = t.bucketCount := by
  unfold rollPending
  dsimp only
  split
  · simp
  · split
    · simp
    · rw [bucketCount_rollLoop]
      simp

/-- `CopyBuffer` leaves the count alone when its `insert_func` does. -/
theorem bucketCount_copyBuffer {α : Type} (oldKeys : ℕ → UInt64) (oldData : ℕ → V)
    {insertFunc : CuckooMapTable V → α → ℕ × ℕ → CuckooMapTable V × α × Bool}
    (hf : ∀ t acc idPair, (insertFunc t acc idPair).1.bucketCount = t.bucketCount) :
    ∀ (slots : List ℕ) (t : CuckooMapTable V) (acc : α),
      (copyBuffer oldKeys oldData insertFunc slots t acc).1.bucketCount = t.bucketCount
  | [], _, _ => rfl
  | s :: slots, t, acc => by
    rw [copyBuffer]
    dsimp only
    split
    · exact bucketCount_copyBuffer oldKeys oldData hf slots _ acc
    · -- the pending key and value change, the count does not
      have hins := hf { t with pendingKey := oldKeys s, pendingValue := oldData s } acc
        ({ t with pendingKey := oldKeys s }.hashToIdPair (oldKeys s))
      split
      · rename_i t' acc' heq
        rw [heq] at hins
        rw [bucketCount_copyBuffer oldKeys oldData hf slots t' acc']
        exact hins
      · rename_i t' acc' heq
        rw [heq] at hins
        exact hins

/-- The table a copy ends with has the count it started with. -/
theorem bucketCount_of_copyBuffer {α : Type} {oldKeys : ℕ → UInt64} {oldData : ℕ → V}
    {insertFunc : CuckooMapTable V → α → ℕ × ℕ → CuckooMapTable V × α × Bool}
    {slots : List ℕ} {t t' : CuckooMapTable V} {acc acc' : α} {ok : Bool}
    (h : copyBuffer oldKeys oldData insertFunc slots t acc = (t', acc', ok))
    (hf : ∀ t acc idPair, (insertFunc t acc idPair).1.bucketCount = t.bucketCount) :
    t'.bucketCount = t.bucketCount := by
  have hcopy := bucketCount_copyBuffer oldKeys oldData hf slots t acc
  rw [h] at hcopy
  exact hcopy

namespace Search

@[simp] theorem table_setInfo (s : Search V) (b : ℕ) (state : BucketState) :
    (s.setInfo b state).table = s.table := rfl

theorem bucketCount_exploreLoop (parent : ℕ) :
    ∀ (ks : List ℕ) (s : Search V) (mask : ℕ),
      (exploreLoop parent ks s mask).1.table.bucketCount = s.table.bucketCount
  | [], _, _ => rfl
  | k :: ks, s, mask => by
    rw [exploreLoop]
    dsimp only
    split
    · exact bucketCount_exploreLoop parent ks s mask
    · split
      · split
        · -- the pending key takes a free slot: only keys and values move
          split <;> simp
        · rw [bucketCount_exploreLoop]
          rfl
      · rw [bucketCount_exploreLoop]
        rfl

theorem bucketCount_explore {s s' : Search V} {parent : ℕ} {found : Bool}
    (h : s.explore parent = (s', found)) : s'.table.bucketCount = s.table.bucketCount := by
  have hloop := bucketCount_exploreLoop parent (List.range kBucketLength) s 0
  unfold explore at h
  rw [h] at hloop
  exact hloop

theorem bucketCount_advance {bid parent : ℕ} {startKey : UInt64} {s s' : Search V}
    {visitedCount visitedCount' : UInt32}
    (h : advance bid startKey parent s visitedCount = some (s', visitedCount')) :
    s'.table.bucketCount = s.table.bucketCount := by
  unfold advance at h
  dsimp only at h
  split at h
  · split at h
    · cases h
      rfl
    · cases h
  · split at h
    · cases h
      rfl
    · split at h <;> (cases h; rfl)

theorem bucketCount_shiftLoop (bid : ℕ) (startKey : UInt64) :
    ∀ (fuel : ℕ) (s s' : Search V) (visitedCount visitedCount' : UInt32),
      shiftLoop bid startKey fuel s visitedCount = some (s', visitedCount') →
      s'.table.bucketCount = s.table.bucketCount
  | 0, _, _, _, _, h => by cases h
  | fuel + 1, s, s', visitedCount, visitedCount', h => by
    rw [shiftLoop] at h
    split at h
    · cases h
      rfl
    · split at h
      · split at h
        · rename_i heq
          cases h
          exact bucketCount_explore heq
        · rename_i s₁ heq
          obtain ⟨⟨s₂, c₂⟩, hadv, hrest⟩ := Option.bind_eq_some_iff.mp h
          rw [bucketCount_shiftLoop bid startKey fuel s₂ s' c₂ visitedCount' hrest,
            bucketCount_advance hadv, bucketCount_explore heq]
      · obtain ⟨⟨s₂, c₂⟩, hadv, hrest⟩ := Option.bind_eq_some_iff.mp h
        rw [bucketCount_shiftLoop bid startKey fuel s₂ s' c₂ visitedCount' hrest,
          bucketCount_advance hadv]

theorem table_unmarkChildren (id : ℕ) (below : Option ℕ) :
    ∀ (fuel : ℕ) (s : Search V), (unmarkChildren id below fuel s).table = s.table
  | 0, _ => rfl
  | fuel + 1, s => by
    rw [unmarkChildren]
    dsimp only
    split
    · split <;> rw [table_unmarkChildren id below fuel] <;> rfl
    · rfl

theorem table_unmarkStack : ∀ (stack : List ℕ) (s : Search V), (unmarkStack stack s).table = s.table
  | [], _ => rfl
  | id :: stack, s => by
    rw [unmarkStack, table_unmarkStack stack, table_setInfo, table_unmarkChildren]

theorem bucketCount_shiftExhaustive {s s' : Search V} {bid : ℕ} {found : Bool}
    (h : s.shiftExhaustive bid = some (s', found)) : s'.table.bucketCount = s.table.bucketCount := by
  unfold shiftExhaustive at h
  split at h
  · obtain ⟨⟨s₁, c₁⟩, hloop, hres⟩ := Option.map_eq_some_iff.mp h
    have hs₁ := bucketCount_shiftLoop _ _ _ _ _ _ _ hloop
    dsimp only at hres
    -- the cleanup touches bucket states only
    split at hres
    · cases hres
      exact hs₁
    · cases hres
      split <;> simp only [table_unmarkStack] <;> exact hs₁
  · cases h

theorem bucketCount_placeProblematic :
    ∀ (keys : List (UInt64 × V)) (s s' : Search V) (found : Bool),
      placeProblematic keys s = some (s', found) → s'.table.bucketCount = s.table.bucketCount
  | [], _, _, _, h => by
    cases h
    rfl
  | (k, v) :: keys, s, s', found, h => by
    rw [placeProblematic] at h
    dsimp only at h
    split at h
    · rename_i s₁ heq
      rw [bucketCount_placeProblematic keys s₁ s' found h, bucketCount_shiftExhaustive heq]
    · -- a failed search ends the loop with its own result
      have hs := bucketCount_shiftExhaustive h
      exact hs

theorem bucketCount_insertProblematicKeys {s s' : Search V} {keys : List (UInt64 × V)}
    {found : Bool} (h : s.insertProblematicKeys keys = some (s', found)) :
    s'.table.bucketCount = s.table.bucketCount := by
  unfold insertProblematicKeys at h
  split at h
  · cases h
    rfl
  · have hplace := bucketCount_placeProblematic _ _ _ _ h
    exact hplace

end Search

variable [Inhabited V]

@[simp] theorem bucketCount_doAllocate_setBucketCount (t : CuckooMapTable V) (n : ℕ) :
    (t.setBucketCount n).doAllocate.bucketCount = n := rfl

/-- The count after `Init` is `GetPrimeNotLessThan` of the request. -/
theorem getPrimeNotLessThan_of_init {t t' : CuckooMapTable V} {c : ℕ} (h : t.init c = some t') :
    getPrimeNotLessThan c = some t'.bucketCount := by
  unfold init at h
  cases hp : getPrimeNotLessThan c with
  | none => simp [hp] at h
  | some p =>
    simp only [hp, Option.bind_eq_bind, Option.bind_some, Option.pure_def, Option.some.injEq] at h
    rw [← h]
    rfl

/-- **The count after `Grow` is one `GetPrimeNotLessThan` returned, larger than before.** Each
    pass sets the count it computed, and the copy keeps it; a failed pass starts again from
    there. -/
theorem growLoop_bucketCount (oldKeys : ℕ → UInt64) (oldData : ℕ → V)
    (oldBucketCount lowBucketBound : ℕ) :
    ∀ (fuel : ℕ) (t t' : CuckooMapTable V),
      growLoop oldKeys oldData oldBucketCount lowBucketBound fuel t = some t' →
      t.bucketCount < t'.bucketCount ∧ ∃ c, getPrimeNotLessThan c = some t'.bucketCount
  | 0, _, _, h => by cases h
  | fuel + 1, t, t', h => by
    rw [growLoop] at h
    cases hg : t.grownBucketCount with
    | none => simp [hg] at h
    | some g =>
      cases hp : getPrimeNotLessThan
          (if g < lowBucketBound then toBucketId lowBucketBound else g) with
      | none => simp [hg, hp] at h
      | some p =>
        simp only [hg, hp, Option.bind_eq_bind, Option.bind_some] at h
        rw [toBucketId_of_getPrimeNotLessThan hp] at h
        split at h
        · rename_i hlt
          -- the copy into the fresh buffer keeps its count `p`
          split at h <;> rename_i t'' _ heq <;>
            have hcopy := bucketCount_of_copyBuffer heq
              (fun t _ idPair => bucketCount_rollPending t _ idPair)
          · cases h
            exact ⟨hcopy ▸ hlt, _, hp.trans (congrArg some hcopy.symm)⟩
          · obtain ⟨hgt, hc⟩ := growLoop_bucketCount oldKeys oldData oldBucketCount
              lowBucketBound fuel t'' t' h
            exact ⟨by simp only [bucketCount_doAllocate_setBucketCount] at hcopy; omega, hc⟩
        · cases h

/-- **The count after `Compact`'s tries is a prime, or the one before.** Each try sets a
    prime count, which the copy and the search keep; the next try's count is
    `GetPrimeNotLessThan` of the last plus `2`. -/
theorem compactTries_bucketCount (oldKeys : ℕ → UInt64) (oldData : ℕ → V)
    (prevReservedBuckets : ℕ) :
    ∀ (tries : ℕ) (s s' : Search V) (d : ℕ) (found : Bool), Nat.Prime d → d < 2 ^ 32 →
      compactTries oldKeys oldData prevReservedBuckets tries s d = some (s', found) →
      s'.table.bucketCount = s.table.bucketCount ∨ Nat.Prime s'.table.bucketCount
  | 0, _, _, _, _, _, _, h => by
    cases h
    exact Or.inl rfl
  | tries + 1, s, s', d, found, hd, hd32, h => by
    rw [compactTries] at h
    dsimp only at h
    split at h
    · cases h
    · rename_i t problematic heq
      have hcopy := bucketCount_of_copyBuffer heq
        (fun t _ idPair => bucketCount_rollPending t _ idPair)
      rw [bucketCount_doAllocate_setBucketCount] at hcopy
      split at h
      · cases h
      · rename_i s₁ heq₁
        cases h
        have hs₁ := Search.bucketCount_insertProblematicKeys heq₁
        exact Or.inr (by rw [show s₁.table.bucketCount = d from hs₁.trans hcopy]; exact hd)
      · rename_i s₁ heq₁
        have hs₁ := Search.bucketCount_insertProblematicKeys heq₁
        obtain ⟨next, hnext, hrest⟩ := Option.bind_eq_some_iff.mp h
        -- the request `d + 2` does not wrap: `2 ^ 32 - 2` and `2 ^ 32 - 1` are not prime
        have hd2 : d + 2 < 2 ^ 32 := by
          by_contra hge
          have hd' : d = 4294967294 ∨ d = 4294967295 := by omega
          rcases hd' with rfl | rfl <;> norm_num at hd
        have hreq : toBucketId (d + 2) = d + 2 := Nat.mod_eq_of_lt hd2
        rw [hreq] at hnext
        obtain ⟨hnp, -⟩ := prime_of_getPrimeNotLessThan (by omega) hnext
        rw [toBucketId_of_getPrimeNotLessThan hnext] at hrest
        rcases compactTries_bucketCount oldKeys oldData prevReservedBuckets tries s₁ s' next
            found hnp (getPrimeNotLessThan_lt hnext) hrest with hsame | hprime
        · exact Or.inr (by rw [hsame, show s₁.table.bucketCount = d from hs₁.trans hcopy]; exact hd)
        · exact Or.inr hprime

/-- `Compact` leaves a prime count, or the table as it was below `128` buckets. -/
theorem prime_of_compact {t t' : CuckooMapTable V} {ratio : ℚ} {ok : Bool}
    (h : t.compact ratio = some (t', ok)) : t'.bucketCount = t.bucketCount ∨ Nat.Prime t'.bucketCount := by
  unfold compact at h
  split at h
  · cases h
  split at h
  · cases h
    exact Or.inl rfl
  dsimp only at h
  split at h
  · cases h
  obtain ⟨desired, hdesired, hrest⟩ := Option.bind_eq_some_iff.mp h
  obtain ⟨⟨s', found⟩, htries, hres⟩ := Option.bind_eq_some_iff.mp hrest
  cases hres
  -- the first count comes from a request of at least `kMinBucketCount`
  obtain ⟨hdp, -⟩ := prime_of_getPrimeNotLessThan
    (le_trans (by decide) (le_max_left kMinBucketCount _)) hdesired
  rw [toBucketId_of_getPrimeNotLessThan hdesired] at htries
  exact compactTries_bucketCount _ _ _ _ _ _ _ _ hdp (getPrimeNotLessThan_lt hdesired) htries

/-- `Init` succeeds on a request that `GetPrimeNotLessThan` answers. -/
theorem init_of_getPrimeNotLessThan (t : CuckooMapTable V) {c p : ℕ}
    (h : getPrimeNotLessThan c = some p) : ∃ t', t.init c = some t' ∧ t'.bucketCount = p := by
  unfold init
  rw [h]
  exact ⟨_, rfl, rfl⟩

/-- **A set asked for the capacity of a smaller one gets it back.** Below `2 ^ 30` buckets
    `Capacity()` fits the `uint32` parameter of `CuckooSet`, so the request is the count
    itself, at least `kMinBucketCount`, which `GetPrimeNotLessThan` returns unchanged. -/
theorem cuckooSet_capacity {c : ℕ} {t : CuckooMapTable V} (h : create c = some t)
    (hsmall : t.bucketCount < 2 ^ 30) :
    ∃ t' : CuckooMapTable V, cuckooSet t.capacity = some t' ∧ t'.capacity = t.capacity := by
  have hp := getPrimeNotLessThan_of_init h
  obtain ⟨-, hle⟩ := prime_of_getPrimeNotLessThan
    (le_trans (by decide) (le_max_left kMinBucketCount _)) hp
  have hcap : t.capacity = t.bucketCount * kBucketLength := by
    unfold capacity kBucketLength
    omega
  have hfit : t.capacity % 2 ^ 32 = t.capacity := by
    rw [hcap]
    unfold kBucketLength
    omega
  have hreq : max kMinBucketCount (bucketFromId t.capacity) = t.bucketCount := by
    rw [hcap]
    unfold bucketFromId toBucketId kBucketLength
    rw [Nat.mul_div_cancel _ (by norm_num)]
    have : kMinBucketCount ≤ t.bucketCount := le_trans (le_max_left _ _) hle
    omega
  obtain ⟨t', ht', hbc⟩ :=
    init_of_getPrimeNotLessThan (unset : CuckooMapTable V) (getPrimeNotLessThan_idem hp)
  refine ⟨t', by rw [cuckooSet, hfit, create, hreq]; exact ht', ?_⟩
  unfold capacity
  rw [hbc]

/-- `Grow` of a table with a bucket leaves a prime count: one `GetPrimeNotLessThan` returned
    and larger than `1`. -/
theorem prime_of_grow {t t' : CuckooMapTable V} {lowBucketBound : ℕ} (ht : 1 ≤ t.bucketCount)
    (h : t.grow lowBucketBound = some t') : Nat.Prime t'.bucketCount := by
  unfold grow at h
  obtain ⟨t'', hloop, rfl⟩ := Option.map_eq_some_iff.mp h
  obtain ⟨hgt, c, hc⟩ := growLoop_bucketCount _ _ _ _ _ _ _ hloop
  rcases getPrimeNotLessThan_eq_one_or_prime hc with h1 | hp
  · exact absurd h1 (by omega)
  · exact hp

/-- An empty table whose `Capacity()` is short of `bigger_capacity` gets `Init` of
    `BucketFromId(bigger_capacity)` from `Reserve`. -/
theorem reserve_of_empty {t : CuckooMapTable V} {biggerCapacity : ℕ} (hsize : t.size = 0)
    (hlt : t.capacity < biggerCapacity) :
    t.reserve biggerCapacity = t.init (bucketFromId biggerCapacity) := by
  unfold reserve
  rw [if_neg (Nat.not_le_of_lt hlt), if_pos hsize]

end Frames

/-- **Bucket sizing picks the least prime up to `4294967279`.** `IsPrime` is right from `2`
    to `2 ^ 32` but for `4294967291`, and rejects that and everything past `2 ^ 32`.
    `GetPrimeNotLessThan` returns the least prime from `3` to `4294967279` and nothing past.
    `Init` of a request of at least `2`, `Grow` of a table with a bucket and a `Compact` that
    rebuilds the buffer get a prime. `GetPrimeNotLessThan` returns its results unchanged, so
    below `2 ^ 30` buckets a set made for the capacity of another has that capacity. -/
theorem prime_sizing_below_top {V : Type} [Inhabited V] :
    (∀ v, 2 ≤ v → v < 2 ^ 32 → v ≠ 4294967291 → (isPrime v = true ↔ Nat.Prime v)) ∧
    isPrime 4294967291 = false ∧ (∀ v, 2 ^ 32 ≤ v → isPrime v = false) ∧
    (∀ v, 3 ≤ v → v ≤ 4294967279 → ∃ p, getPrimeNotLessThan v = some p ∧ Nat.Prime p ∧
      v ≤ p ∧ ∀ q, Nat.Prime q → v ≤ q → p ≤ q) ∧
    (∀ v, 4294967279 < v → getPrimeNotLessThan v = none) ∧
    (∀ (t t' : CuckooMapTable V) c, 2 ≤ c → t.init c = some t' → Nat.Prime t'.bucketCount) ∧
    (∀ (t t' : CuckooMapTable V) lowBucketBound, 1 ≤ t.bucketCount →
      t.grow lowBucketBound = some t' → Nat.Prime t'.bucketCount) ∧
    (∀ (t t' : CuckooMapTable V) ratio ok, t.compact ratio = some (t', ok) →
      t'.bucketCount = t.bucketCount ∨ Nat.Prime t'.bucketCount) ∧
    (∀ v p, getPrimeNotLessThan v = some p → getPrimeNotLessThan p = some p) ∧
    (∀ c (t : CuckooMapTable V), create c = some t → t.bucketCount < 2 ^ 30 →
      ∃ t' : CuckooMapTable V, cuckooSet t.capacity = some t' ∧ t'.capacity = t.capacity) := by
  refine ⟨fun v h2 h32 hv => isPrime_iff h2 h32 hv, isPrime_largest,
    fun v hv => isPrime_eq_false_of_two_pow_le hv, fun v h3 hv => getPrimeNotLessThan_least h3 hv,
    fun v hv => getPrimeNotLessThan_eq_none hv, ?_, fun t t' _ ht h => prime_of_grow ht h,
    fun t t' _ _ h => prime_of_compact h, fun v p h => getPrimeNotLessThan_idem h,
    fun c t h hsmall => cuckooSet_capacity h hsmall⟩
  intro t t' c hc h
  exact (prime_of_getPrimeNotLessThan hc (getPrimeNotLessThan_of_init h)).1

/-- The sizes of the `ReserveSizes` test: a set for `22000` keys has `5501` buckets, and a set
    for its capacity has the same. -/
theorem prime_sizing_reserve_sizes :
    ∃ t t' : CuckooMapTable Unit, cuckooSet 22000 = some t ∧ t.bucketCount = 5501 ∧
      cuckooSet t.capacity = some t' ∧ t'.capacity = t.capacity := by
  have hrun : (cuckooSet 22000 : Option (CuckooMapTable Unit)).map bucketCount = some 5501 := by
    decide +kernel
  obtain ⟨t, ht, hbc⟩ := Option.map_eq_some_iff.mp hrun
  obtain ⟨t', h', hcap⟩ := prime_sizing_below_top.2.2.2.2.2.2.2.2.2 22000 t ht
    (by rw [hbc]; norm_num)
  exact ⟨t, t', ht, hbc, h', hcap⟩

set_option maxRecDepth 200000 in
/-- **Where the sizing fails.** `4294967291` is the largest prime below `2 ^ 32`, and a
    `BucketId`, but `IsPrime` rejects it, as it rejects every value from `2 ^ 32` on; so
    `GetPrimeNotLessThan(4294967291)` scans on to `kuint64max` and ends in `LOG(FATAL)`. An
    empty `CuckooSet(512)`, of `131` buckets, asked to `Reserve` room for `4 * 4294967291`
    keys, calls `Init(4294967291)` and aborts. -/
theorem prime_sizing_fails_at_top :
    Nat.Prime 4294967291 ∧ isPrime 4294967291 = false ∧ (∀ v, 2 ^ 32 ≤ v → isPrime v = false) ∧
      getPrimeNotLessThan 4294967291 = none ∧
      ∃ t : CuckooMapTable Unit, cuckooSet 512 = some t ∧ t.size = 0 ∧ t.capacity = 524 ∧
        t.reserve (4 * 4294967291) = none := by
  have hnone : getPrimeNotLessThan 4294967291 = none := getPrimeNotLessThan_eq_none (by norm_num)
  refine ⟨by norm_num, isPrime_largest, fun v hv => isPrime_eq_false_of_two_pow_le hv, hnone, ?_⟩
  have hrun : (cuckooSet 512 : Option (CuckooMapTable Unit)).map (fun t => (t.size, t.bucketCount)) =
      some (0, 131) := by
    decide +kernel
  obtain ⟨t, ht, hsb⟩ := Option.map_eq_some_iff.mp hrun
  obtain ⟨hsize, hbc⟩ := Prod.mk.inj hsb
  have hcap : t.capacity = 524 := by
    unfold capacity kBucketLength
    rw [hbc]
    norm_num
  refine ⟨t, ht, hsize, hcap, ?_⟩
  rw [reserve_of_empty hsize (by rw [hcap]; norm_num),
    show bucketFromId (4 * 4294967291) = 4294967291 from rfl]
  unfold init
  rw [hnone]
  rfl

end CuckooMapTable

end Helio
