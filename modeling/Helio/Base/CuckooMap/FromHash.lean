import Helio.Base.CuckooMap.Sizing
import Helio.Base.Libdivide

/-!
# `FromHash`: the bucket of a hash, by libdivide

`CuckooMapTable::FromHash(hash_val)` (`base/cuckoo_map-internal.h`) reduces a hash modulo
`bucket_count_` without a divide instruction. `SetBucketCount`, the only writer of
`divide_s_` and `divide_s_alg_`, stores `libdivide_u64_gen(bucket_count_)` and its
algorithm number, so both are functions of the count. `FromHash` takes the quotient `p` by
`libdivide_u64_do_alg1` for algorithm `1` and by `libdivide_u64_do_alg2` for every other
number, and returns `hash_val - p * bucket_count_` as a `BucketId`.

The table's model (`Helio.Base.CuckooMap.Table`) reads `FromHash` as the remainder
`hash_val % bucket_count_` (`fromHash`). This file models it as the source computes it
(`fromHashDivide`, on x86-64) and says when the two agree.

* For a count that is not a power of two, libdivide's divisor is of algorithm `1` or `2`,
  the routine of that algorithm divides exactly (`Libdivide.Magic.doAlg`), and `FromHash` is
  the remainder (`fromHashDivide_eq`).
* A power of two `2 ^ k` has algorithm `0`, which the `switch` has no case for. Its
  shift-path divisor goes to `libdivide_u64_do_alg2`, which shifts one bit more than the
  shift path does, so the quotient is `hash / 2 ^ (k + 1)` and `FromHash` is
  `hash - hash / 2 ^ (k + 1) * 2 ^ k`, at least `2 ^ k` for half of the hashes
  (`fromHashDivide_two_pow`).

Every count `GetPrimeNotLessThan` returns is odd, so the one power of two a table can have
is `1` (`Helio.Base.CuckooMap.Runs`).
-/

set_option autoImplicit false

namespace Helio

namespace CuckooMapTable

open Libdivide

variable {V : Type}

/-- The `switch (divide_s_alg_)` of `FromHash`: the quotient of `hash_val` by the divisor. -/
def fromHashQuotient (alg : ℕ) (hashVal : UInt64) (divideS : U64) : Option UInt64 :=
  match alg with
  | 1 => u64DoAlg1 hashVal divideS
  | _ => some (u64DoAlg2 hashVal divideS)

/-- `FromHash(hash_val)` with the divisor `SetBucketCount` stored for the table's count:
    `hash_val - p * bucket_count_` in `uint64_t`, returned as a `BucketId`. -/
def fromHashDivide (t : CuckooMapTable V) (hashVal : UInt64) : Option ℕ := do
  let divideS ← u64Gen (UInt64.ofNat t.bucketCount)
  let p ← fromHashQuotient (u64GetAlgorithm divideS) hashVal divideS
  pure (toBucketId (hashVal - p * UInt64.ofNat t.bucketCount).toNat)

/-! ## The words, as numbers -/

/-- A multiple that does not exceed the word is subtracted without a wrap. -/
theorem toNat_sub_mul_of_le {n q d : UInt64} (h : q.toNat * d.toNat ≤ n.toNat) :
    (n - q * d).toNat = n.toNat - q.toNat * d.toNat := by
  have hqd : (q * d).toNat = q.toNat * d.toNat := by
    rw [UInt64.toNat_mul]
    exact Nat.mod_eq_of_lt (lt_of_le_of_lt h n.toNat_lt)
  rw [UInt64.toNat_sub_of_le _ _ (UInt64.le_iff_toNat_le.mpr (hqd ▸ h)), hqd]

theorem toNat_ofNat_bucketCount {c : ℕ} (h : c < 2 ^ 64) : (UInt64.ofNat c).toNat = c := by
  rw [UInt64.toNat_ofNat', Nat.mod_eq_of_lt h]

/-- `FromHash` from the quotient it takes: `hash - p * bucket_count_` is the hash less that
    multiple whenever the multiple does not exceed it. -/
theorem fromHashDivide_of_quotient {t : CuckooMapTable V} {hashVal : UInt64} {denom : U64}
    {p : UInt64} (h64 : t.bucketCount < 2 ^ 64)
    (hgen : u64Gen (UInt64.ofNat t.bucketCount) = some denom)
    (hq : fromHashQuotient (u64GetAlgorithm denom) hashVal denom = some p)
    (hle : p.toNat * t.bucketCount ≤ hashVal.toNat) :
    t.fromHashDivide hashVal = some (toBucketId (hashVal.toNat - p.toNat * t.bucketCount)) := by
  have hd := toNat_ofNat_bucketCount h64
  unfold fromHashDivide
  rw [hgen, Option.bind_eq_bind, Option.bind_some, hq, Option.bind_eq_bind, Option.bind_some,
    toNat_sub_mul_of_le (by rw [hd]; exact hle), hd]
  rfl

/-! ## A count that is not a power of two -/

/-- The quotient of a divisor of algorithm `1` or `2` is the one `libdivide_u64_do`
    computes, so exact. -/
theorem fromHashQuotient_of_magic {d : ℕ} {denom : U64} (hm : Magic d denom)
    (hp : ¬ d.isPowerOfTwo) (hashVal : UInt64) :
    ∃ p, fromHashQuotient (u64GetAlgorithm denom) hashVal denom = some p ∧
      p.toNat = hashVal.toNat / d := by
  refine ⟨u64Do hashVal denom, ?_, hm.toNat_u64Do hashVal⟩
  rcases hm.doAlg hp hashVal with ⟨h1, ha⟩ | ⟨h2, ha⟩
  · rw [h1]
    exact ha
  · rw [h2, ← ha]
    rfl

/-- **`FromHash` is the remainder** for every hash, when the count is not a power of two:
    the libdivide path computes what the table's model reads it as. -/
theorem fromHashDivide_eq (t : CuckooMapTable V) (hashVal : UInt64) (h0 : t.bucketCount ≠ 0)
    (hp : ¬ t.bucketCount.isPowerOfTwo) (h64 : t.bucketCount < 2 ^ 64) :
    t.fromHashDivide hashVal = some (t.fromHash hashVal) := by
  have hd := toNat_ofNat_bucketCount h64
  have hd0 : UInt64.ofNat t.bucketCount ≠ 0 := fun h => h0 (by rw [← hd, h, UInt64.toNat_zero])
  obtain ⟨denom, hgen, hm⟩ := u64Gen_magic hd0
  rw [hd] at hm
  obtain ⟨p, hq, hpN⟩ := fromHashQuotient_of_magic hm hp hashVal
  rw [fromHashDivide_of_quotient h64 hgen hq (hpN ▸ Nat.div_mul_le_self _ _), hpN,
    ← Nat.mod_eq_sub_div_mul]
  rfl

/-! ## A count that is a power of two -/

/-- `libdivide_u64_do_alg2` on a shift-path divisor: the multiply-high by `0` is `0`, and
    `n >> 1` is shifted on by `k`. -/
theorem u64DoAlg2_shift_path {k : ℕ} (hk : k < 64) (n : UInt64) :
    (u64DoAlg2 n ⟨0, k.toUInt8 ||| libdivideU64ShiftPath⟩).toNat = n.toNat / 2 ^ (k + 1) := by
  have hq : mullhiU64 0 n = 0 := by
    apply UInt64.toNat_inj.mp
    rw [mullhiU64_toNat, UInt64.toNat_zero, Nat.zero_mul, Nat.zero_div]
  have hs := (more_shift ⟨k, hk⟩).2
  unfold u64DoAlg2
  simp only at hs ⊢
  rw [hq, UInt64.sub_zero, UInt64.add_zero, UInt64.toNat_shiftRight, UInt8.toNat_toUInt64, hs,
    Nat.mod_eq_of_lt hk, UInt64.toNat_shiftRight, show (1 : UInt64).toNat % 64 = 1 from rfl,
    Nat.shiftRight_eq_div_pow, Nat.shiftRight_eq_div_pow, Nat.div_div_eq_div_mul, ← Nat.pow_add,
    Nat.add_comm 1]

/-- **`FromHash` of a power-of-two count.** Algorithm `0` falls to
    `libdivide_u64_do_alg2`, whose quotient is `hash / 2 ^ (k + 1)`, half the right one:
    `FromHash` is the hash less half its multiple of `2 ^ k` below it. -/
theorem fromHashDivide_two_pow (t : CuckooMapTable V) (hashVal : UInt64) {k : ℕ} (hk : k < 64)
    (hc : t.bucketCount = 2 ^ k) :
    t.fromHashDivide hashVal =
      some (toBucketId (hashVal.toNat - hashVal.toNat / 2 ^ (k + 1) * 2 ^ k)) := by
  have h64 : t.bucketCount < 2 ^ 64 := hc ▸ Nat.pow_lt_pow_right (by norm_num) hk
  have hgen := u64GenWith_two_pow div128Div64To64 hk
    (show (UInt64.ofNat t.bucketCount).toNat = 2 ^ k by rw [toNat_ofNat_bucketCount h64, hc])
  have hq : fromHashQuotient (u64GetAlgorithm ⟨0, k.toUInt8 ||| libdivideU64ShiftPath⟩) hashVal
      ⟨0, k.toUInt8 ||| libdivideU64ShiftPath⟩ =
        some (u64DoAlg2 hashVal ⟨0, k.toUInt8 ||| libdivideU64ShiftPath⟩) := by
    rw [Magic.getAlgorithm_shift hk]
    rfl
  have hle : hashVal.toNat / 2 ^ (k + 1) * 2 ^ k ≤ hashVal.toNat :=
    calc hashVal.toNat / 2 ^ (k + 1) * 2 ^ k ≤ hashVal.toNat / 2 ^ (k + 1) * 2 ^ (k + 1) :=
          Nat.mul_le_mul_left _ (Nat.pow_le_pow_right (by norm_num) (Nat.le_succ k))
      _ ≤ hashVal.toNat := Nat.div_mul_le_self _ _
  rw [fromHashDivide_of_quotient h64 hgen hq (by rw [u64DoAlg2_shift_path hk, hc]; exact hle),
    u64DoAlg2_shift_path hk, hc]

end CuckooMapTable

end Helio
