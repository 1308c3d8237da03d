import Helio.Lib.Bytes
import Helio.Lib.WordDiv

/-!
# libdivide: unsigned 64-bit division by a precomputed multiplier

`base/libdivide.h` divides a `uint64_t` by a divisor fixed in advance without a divide
instruction. `libdivide_u64_gen(d)` computes once a `libdivide_u64_t`: a multiplier
`magic` and a byte `more` that holds a shift, the *add marker* and the *shift path* bit.
`libdivide_u64_do(n, &denom)` then divides by a multiply-high and shifts. The cuckoo map is
its user here: `SetBucketCount` stores `libdivide_u64_gen(bucket_count_)` and its algorithm
number, and `FromHash` reduces every hash by it (`Helio.Base.CuckooMap.FromHash`).

The three algorithms of `libdivide_u64_get_algorithm` are the three shapes of
`libdivide_u64_gen`'s result:

* `0`, the shift path: `d` is a power of two, `magic` is `0` and the shift is `log2 d`;
* `1`: `magic` is `2 ^ (64 + ℓ) / d` rounded up, for `ℓ = ⌊log2 d⌋`, when that rounding
  is close enough, and the quotient is the multiply-high shifted by `ℓ`;
* `2`, the add marker: otherwise the multiplier `2 ^ (65 + ℓ) / d` rounded up has 65 bits,
  `magic` is its low 64, and `do` adds the missing `n` back as `((n - q) >> 1) + q`.

`Magic d denom` says what makes `denom` right for `d`, one constructor per shape, with the
rounding error bounded as `WordDiv.mul_div_eq_div` needs it. `u64Gen_magic` shows that
`libdivide_u64_gen` computes such a `denom` for every nonzero `d`, and `Magic.toNat_u64Do`
that `libdivide_u64_do` then divides exactly, for every numerator (`u64Gen_u64Do`).

The helpers are modelled from the source for the builds helio has. `__builtin_ctzll` and
`__builtin_clzll` count bits (`Helio.Lib.Bytes`) and are undefined at `0`. The multiply-high
is `__uint128_t` arithmetic on every LP64 build, and `mullhiU64Portable`, the 32-bit
fallback, computes the same word (`mullhiU64Portable_eq`). The 128-by-64 division is the
`divq` instruction on x86-64 (`div128Div64To64`), and the schoolbook division of the
`#else` branch elsewhere (`div128Div64To64Portable`). The latter equals the instruction
whenever the quotient fits and the divisor is below `2 ^ 63` (`div128Div64To64Portable_eq`);
from `2 ^ 63` on it shifts a `uint64_t` by 64, which is undefined, so `libdivide_u64_gen` of
such a divisor is undefined on those builds (`u64GenPortable_eq_none`).

Machine words keep their types: `UInt64` for `uint64_t`, `UInt32` and `UInt8` for the
narrower ones, so that every wrap of the source is one of Lean's.
-/

set_option autoImplicit false

namespace Helio

namespace Libdivide

/-! ## The data and the helpers -/

/-- `struct libdivide_u64_t`. -/
structure U64 where
  magic : UInt64
  more : UInt8
  deriving DecidableEq, Repr

/-- `LIBDIVIDE_64_SHIFT_MASK`: the shift in `more`. -/
def libdivide64ShiftMask : UInt8 := 0x3F

/-- `LIBDIVIDE_ADD_MARKER`. -/
def libdivideAddMarker : UInt8 := 0x40

/-- `LIBDIVIDE_U64_SHIFT_PATH`. -/
def libdivideU64ShiftPath : UInt8 := 0x80

/-- `libdivide__count_trailing_zeros64(val)`, `__builtin_ctzll` under GCC and clang. -/
def countTrailingZeros64 (val : UInt64) : ℕ := Bytes.countrZero 64 val.toNat

/-- `libdivide__count_leading_zeros64(val)`, `__builtin_clzll` under GCC and clang. -/
def countLeadingZeros64 (val : UInt64) : ℕ := Bytes.countlZero 64 val.toNat

/-- `libdivide__mullhi_u32(x, y)`: the high word of the 64-bit product. -/
def mullhiU32 (x y : UInt32) : UInt32 := ((x.toUInt64 * y.toUInt64) >>> 32).toUInt32

/-- `libdivide__mullhi_u64(x, y)` where `HAS_INT128_T` (every LP64 build but ICC's): the high
    word of the `__uint128_t` product. -/
def mullhiU64 (x y : UInt64) : UInt64 := UInt64.ofNat (x.toNat * y.toNat / 2 ^ 64)

/-- `libdivide__mullhi_u64(x, y)` without `__uint128_t`: four 32-bit products. -/
def mullhiU64Portable (x y : UInt64) : UInt64 :=
  let mask : UInt32 := 0xFFFFFFFF
  let x0 : UInt32 := (x &&& mask.toUInt64).toUInt32
  let x1 : UInt32 := (x >>> 32).toUInt32
  let y0 : UInt32 := (y &&& mask.toUInt64).toUInt32
  let y1 : UInt32 := (y >>> 32).toUInt32
  let x0y0Hi : UInt32 := mullhiU32 x0 y0
  let x0y1 : UInt64 := x0.toUInt64 * y1.toUInt64
  let x1y0 : UInt64 := x1.toUInt64 * y0.toUInt64
  let x1y1 : UInt64 := x1.toUInt64 * y1.toUInt64
  let temp : UInt64 := x1y0 + x0y0Hi.toUInt64
  let tempLo : UInt64 := temp &&& mask.toUInt64
  let tempHi : UInt64 := temp >>> 32
  x1y1 + tempHi + ((tempLo + x0y1) >>> 32)

/-- `libdivide_128_div_64_to_64(u1, u0, v, &r)` on x86-64: `divq`, the quotient and the
    remainder of `{u1, u0}` by `v`. The instruction faults when the quotient does not fit in
    64 bits, that is unless `u1 < v`. -/
def div128Div64To64 (u1 u0 v : UInt64) : Option (UInt64 × UInt64) :=
  if u1 < v then
    let n := u1.toNat * 2 ^ 64 + u0.toNat
    some (UInt64.ofNat (n / v.toNat), UInt64.ofNat (n % v.toNat))
  else none

/-- The correction of a quotient digit in the portable `libdivide_128_div_64_to_64`, the
    loop at `again1` (and at `again2`): while the digit `q` is not below `b = 2 ^ 32`, or its
    product with `vn0` exceeds the remainder `rhat` extended by the next digit `un`, lower it
    and raise `rhat` by `vn1`, and test again while `rhat` is below `b`. The loop runs at
    most twice: the divisor is normalised, so `vn1 ≥ b / 2` (`correctDigit_eq_div`). -/
def correctDigit (vn1 vn0 un : UInt64) : ℕ → UInt64 × UInt64 → UInt64 × UInt64
  | 0, qr => qr
  | fuel + 1, (q, rhat) =>
    if q ≥ 2 ^ 32 || q * vn0 > 2 ^ 32 * rhat + un then
      if rhat + vn1 < 2 ^ 32 then correctDigit vn1 vn0 un fuel (q - 1, rhat + vn1)
      else (q - 1, rhat + vn1)
    else (q, rhat)

/-- `libdivide_128_div_64_to_64(u1, u0, v, &r)` where it is not `divq`: the two-digit
    schoolbook division the source takes from Hacker's Delight (`divlu`), in base
    `b = 2 ^ 32` after shifting the divisor up to its top bit. An overflowing quotient gives
    `-1` and `-1`. -/
def div128Div64To64Portable (u1 u0 v : UInt64) : Option (UInt64 × UInt64) :=
  let b : UInt64 := 2 ^ 32
  if u1 ≥ v then some (-1, -1)
  else
    let s := countLeadingZeros64 v
    -- `u0 >> (64 - s)` shifts by 64 when `s = 0`, which is undefined
    if s = 0 then none
    else
      let v := v <<< s.toUInt64
      let vn1 := v >>> 32
      let vn0 := v &&& 0xFFFFFFFF
      -- for `s > 0` the mask `-s >> 31` is all ones
      let un64 := (u1 <<< s.toUInt64) ||| (u0 >>> (64 - s).toUInt64)
      let un10 := u0 <<< s.toUInt64
      let un1 := un10 >>> 32
      let un0 := un10 &&& 0xFFFFFFFF
      let q1 := (correctDigit vn1 vn0 un1 2 (un64 / vn1, un64 - un64 / vn1 * vn1)).1
      let un21 := un64 * b + un1 - q1 * v
      let q0 := (correctDigit vn1 vn0 un0 2 (un21 / vn1, un21 - un21 / vn1 * vn1)).1
      some (q1 * b + q0, (un21 * b + un0 - q0 * v) >>> s.toUInt64)

/-! ## `libdivide_u64_gen` and `libdivide_u64_do` -/

/-- `libdivide_u64_gen(d)` over the build's `libdivide_128_div_64_to_64`. -/
def u64GenWith (div128 : UInt64 → UInt64 → UInt64 → Option (UInt64 × UInt64)) (d : UInt64) :
    Option U64 :=
  if d &&& (d - 1) = 0 then
    -- `__builtin_ctzll(0)` is undefined
    if d = 0 then none
    else some { magic := 0, more := (countTrailingZeros64 d).toUInt8 ||| libdivideU64ShiftPath }
  else do
    let floorLog2D := 63 - countLeadingZeros64 d
    let (proposedM, rem) ← div128 ((1 : UInt64) <<< floorLog2D.toUInt64) 0 d
    let e := d - rem
    -- this power works if `e < 2 ^ floor_log_2_d`
    if e < (1 : UInt64) <<< floorLog2D.toUInt64 then
      some { magic := 1 + proposedM, more := floorLog2D.toUInt8 }
    else
      -- the 65-bit multiplier: double the quotient and the remainder, and correct
      let twiceRem := rem + rem
      let proposedM := proposedM + proposedM + (if twiceRem ≥ d || twiceRem < rem then 1 else 0)
      some { magic := 1 + proposedM, more := floorLog2D.toUInt8 ||| libdivideAddMarker }

/-- `libdivide_u64_gen(d)` on x86-64. -/
def u64Gen (d : UInt64) : Option U64 := u64GenWith div128Div64To64 d

/-- `libdivide_u64_gen(d)` on the builds without `divq`. -/
def u64GenPortable (d : UInt64) : Option U64 := u64GenWith div128Div64To64Portable d

/-- `libdivide_u64_do(numer, &denom)`. In the last branch `more` has neither of its two top
    bits, so the shift is below 64. -/
def u64Do (numer : UInt64) (denom : U64) : UInt64 :=
  let more := denom.more
  if more &&& libdivideU64ShiftPath ≠ 0 then numer >>> (more &&& libdivide64ShiftMask).toUInt64
  else
    let q := mullhiU64 denom.magic numer
    if more &&& libdivideAddMarker ≠ 0 then
      let t := ((numer - q) >>> 1) + q
      t >>> (more &&& libdivide64ShiftMask).toUInt64
    else q >>> more.toUInt64

/-- `libdivide_u64_get_algorithm(&denom)`. -/
def u64GetAlgorithm (denom : U64) : ℕ :=
  if denom.more &&& libdivideU64ShiftPath ≠ 0 then 0
  else if denom.more &&& libdivideAddMarker = 0 then 1
  else 2

/-- `libdivide_u64_do_alg0(numer, &denom)`. -/
def u64DoAlg0 (numer : UInt64) (denom : U64) : UInt64 :=
  numer >>> (denom.more &&& libdivide64ShiftMask).toUInt64

/-- `libdivide_u64_do_alg1(numer, &denom)`, whose `q >> denom->more` is undefined for a
    `more` of 64 or more. -/
def u64DoAlg1 (numer : UInt64) (denom : U64) : Option UInt64 :=
  let q := mullhiU64 denom.magic numer
  if denom.more.toNat < 64 then some (q >>> denom.more.toUInt64) else none

/-- `libdivide_u64_do_alg2(numer, &denom)`. -/
def u64DoAlg2 (numer : UInt64) (denom : U64) : UInt64 :=
  let q := mullhiU64 denom.magic numer
  let t := ((numer - q) >>> 1) + q
  t >>> (denom.more &&& libdivide64ShiftMask).toUInt64

/-! ## The words, as numbers -/

theorem mullhiU64_toNat (x y : UInt64) : (mullhiU64 x y).toNat = x.toNat * y.toNat / 2 ^ 64 := by
  unfold mullhiU64
  rw [UInt64.toNat_ofNat', Nat.mod_eq_of_lt]
  apply Nat.div_lt_of_lt_mul
  exact Nat.mul_lt_mul'' x.toNat_lt y.toNat_lt

/-- The multiply-high of a word is at most the other factor. -/
theorem mullhiU64_toNat_le (x y : UInt64) : (mullhiU64 x y).toNat ≤ y.toNat := by
  rw [mullhiU64_toNat]
  apply Nat.div_le_of_le_mul
  exact Nat.mul_le_mul_right _ x.toNat_lt.le

/-- `divq` of a dividend whose high word is below the divisor: the quotient fits. -/
theorem div128Div64To64_eq {u1 u0 v : UInt64} (h : u1 < v) :
    div128Div64To64 u1 u0 v =
      some (UInt64.ofNat ((u1.toNat * 2 ^ 64 + u0.toNat) / v.toNat),
        UInt64.ofNat ((u1.toNat * 2 ^ 64 + u0.toNat) % v.toNat)) :=
  if_pos h

theorem div128_quot_lt {u1 u0 v : ℕ} (h : u1 < v) (hu0 : u0 < 2 ^ 64) :
    (u1 * 2 ^ 64 + u0) / v < 2 ^ 64 := by
  apply (Nat.div_lt_iff_lt_mul (by omega)).mpr
  calc u1 * 2 ^ 64 + u0 < (u1 + 1) * 2 ^ 64 := by omega
    _ ≤ 2 ^ 64 * v := by rw [Nat.mul_comm]; exact Nat.mul_le_mul_left _ h

/-- The bits of `more`: a shift alone. -/
theorem more_plain : ∀ ℓ : Fin 64,
    ℓ.val.toUInt8 &&& libdivideU64ShiftPath = 0 ∧ ℓ.val.toUInt8 &&& libdivideAddMarker = 0 ∧
      ℓ.val.toUInt8.toNat = ℓ.val := by
  decide

/-- A shift with the add marker. -/
theorem more_add : ∀ ℓ : Fin 64,
    (ℓ.val.toUInt8 ||| libdivideAddMarker) &&& libdivideU64ShiftPath = 0 ∧
      (ℓ.val.toUInt8 ||| libdivideAddMarker) &&& libdivideAddMarker ≠ 0 ∧
      ((ℓ.val.toUInt8 ||| libdivideAddMarker) &&& libdivide64ShiftMask).toNat = ℓ.val ∧
      64 ≤ (ℓ.val.toUInt8 ||| libdivideAddMarker).toNat := by
  decide

/-- A shift on the shift path. -/
theorem more_shift : ∀ ℓ : Fin 64,
    (ℓ.val.toUInt8 ||| libdivideU64ShiftPath) &&& libdivideU64ShiftPath ≠ 0 ∧
      ((ℓ.val.toUInt8 ||| libdivideU64ShiftPath) &&& libdivide64ShiftMask).toNat = ℓ.val := by
  decide

/-! ## What makes a `libdivide_u64_t` right -/

/-- **A `libdivide_u64_t` that divides by `d`**, in the three shapes `libdivide_u64_gen`
    produces. In the second and the third the multiplier, `magic` or `2 ^ 64 + magic`, is a
    power of two divided by `d` and rounded up, by an error small enough for every 64-bit
    numerator. -/
inductive Magic (d : ℕ) : U64 → Prop
  | shift {k : ℕ} (hk : k < 64) (hd : d = 2 ^ k) :
      Magic d ⟨0, k.toUInt8 ||| libdivideU64ShiftPath⟩
  | plain {ℓ : ℕ} {m : UInt64} (hℓ : ℓ < 64) (hS : 2 ^ (64 + ℓ) ≤ m.toNat * d)
      (he : m.toNat * d - 2 ^ (64 + ℓ) < 2 ^ ℓ) : Magic d ⟨m, ℓ.toUInt8⟩
  | add {ℓ : ℕ} {m : UInt64} (hℓ : ℓ < 64) (hS : 2 ^ (65 + ℓ) ≤ (2 ^ 64 + m.toNat) * d)
      (he : (2 ^ 64 + m.toNat) * d - 2 ^ (65 + ℓ) < 2 ^ (ℓ + 1)) :
      Magic d ⟨m, ℓ.toUInt8 ||| libdivideAddMarker⟩

theorem toNat_shiftRight_of_lt (x : UInt64) {k : ℕ} (hk : k < 64) :
    (x >>> k.toUInt64).toNat = x.toNat / 2 ^ k := by
  rw [UInt64.toNat_shiftRight, Nat.shiftRight_eq_div_pow, Nat.toUInt64_eq, UInt64.toNat_ofNat',
    Nat.mod_eq_of_lt (by omega : k < 2 ^ 64), Nat.mod_eq_of_lt hk]

/-- The shift path shifts. -/
theorem u64Do_shift {k : ℕ} (hk : k < 64) (n : UInt64) :
    (u64Do n ⟨0, k.toUInt8 ||| libdivideU64ShiftPath⟩).toNat = n.toNat / 2 ^ k := by
  obtain ⟨h1, h2⟩ := more_shift ⟨k, hk⟩
  unfold u64Do
  rw [if_pos h1, UInt64.toNat_shiftRight, UInt8.toNat_toUInt64, h2, Nat.mod_eq_of_lt hk,
    Nat.shiftRight_eq_div_pow]

/-- Algorithm 1 shifts the multiply-high. -/
theorem u64Do_plain {ℓ : ℕ} (hℓ : ℓ < 64) (m n : UInt64) :
    (u64Do n ⟨m, ℓ.toUInt8⟩).toNat = m.toNat * n.toNat / 2 ^ (64 + ℓ) := by
  obtain ⟨h1, h2, h3⟩ := more_plain ⟨ℓ, hℓ⟩
  unfold u64Do
  simp only at h1 h2 h3 ⊢
  rw [if_neg (by simpa using h1), if_neg (by simpa using h2), UInt64.toNat_shiftRight,
    UInt8.toNat_toUInt64, h3, Nat.mod_eq_of_lt hℓ, Nat.shiftRight_eq_div_pow, mullhiU64_toNat,
    Nat.div_div_eq_div_mul, ← Nat.pow_add]

/-- Algorithm 2 adds the numerator back: `((n - q) >> 1) + q` is `(n + q) / 2`, the
    multiply-high by the 65-bit multiplier halved. -/
theorem u64Do_add {ℓ : ℕ} (hℓ : ℓ < 64) (m n : UInt64) :
    (u64Do n ⟨m, ℓ.toUInt8 ||| libdivideAddMarker⟩).toNat =
      (2 ^ 64 + m.toNat) * n.toNat / 2 ^ (65 + ℓ) := by
  obtain ⟨h1, h2, h3, -⟩ := more_add ⟨ℓ, hℓ⟩
  have hq := mullhiU64_toNat_le m n
  have hn := n.toNat_lt
  -- the 65-bit product over `2 ^ 64` is `n` plus the multiply-high
  have hhi : (2 ^ 64 + m.toNat) * n.toNat / 2 ^ 64 = n.toNat + (mullhiU64 m n).toNat := by
    rw [mullhiU64_toNat, Nat.add_mul, Nat.mul_comm (2 ^ 64), Nat.add_comm,
      Nat.add_mul_div_right _ _ (by norm_num), Nat.add_comm]
  unfold u64Do
  simp only at h1 h2 h3 ⊢
  rw [if_neg (by simpa using h1), if_pos h2, UInt64.toNat_shiftRight, UInt8.toNat_toUInt64, h3,
    Nat.mod_eq_of_lt hℓ,
    Nat.shiftRight_eq_div_pow, UInt64.toNat_add, UInt64.toNat_shiftRight,
    UInt64.toNat_sub_of_le _ _ (UInt64.le_iff_toNat_le.mpr hq), Nat.shiftRight_eq_div_pow]
  have hpow : 2 ^ (65 + ℓ) = 2 ^ 64 * 2 ^ (ℓ + 1) := by rw [← Nat.pow_add]; ring_nf
  have h2l : 2 ^ (ℓ + 1) = 2 * 2 ^ ℓ := Nat.pow_succ'
  rw [hpow, ← Nat.div_div_eq_div_mul, hhi, h2l, ← Nat.div_div_eq_div_mul]
  congr 1
  rw [UInt64.toNat_one, Nat.mod_eq_of_lt (by norm_num : 1 < 64), Nat.pow_one]
  rw [Nat.mod_eq_of_lt (by omega)]
  omega

/-- **A `Magic` divisor divides exactly**, every 64-bit numerator. -/
theorem Magic.toNat_u64Do {d : ℕ} {denom : U64} (h : Magic d denom) (n : UInt64) :
    (u64Do n denom).toNat = n.toNat / d := by
  have hn := n.toNat_lt
  cases h with
  | shift hk hd =>
    rw [u64Do_shift hk, hd]
  | @plain ℓ m hℓ hS he =>
    rw [u64Do_plain hℓ]
    refine WordDiv.mul_div_eq_div (Nat.pos_of_ne_zero fun h0 => ?_) hS ?_
    · rw [h0, Nat.mul_zero] at hS
      exact absurd hS (Nat.not_le.mpr (Nat.two_pow_pos _))
    · calc _ < 2 ^ ℓ * 2 ^ 64 := Nat.mul_lt_mul'' he hn
        _ = 2 ^ (64 + ℓ) := by rw [← Nat.pow_add, Nat.add_comm]
  | @add ℓ m hℓ hS he =>
    rw [u64Do_add hℓ]
    refine WordDiv.mul_div_eq_div (Nat.pos_of_ne_zero fun h0 => ?_) hS ?_
    · rw [h0, Nat.mul_zero] at hS
      exact absurd hS (Nat.not_le.mpr (Nat.two_pow_pos _))
    · calc _ < 2 ^ (ℓ + 1) * 2 ^ 64 := Nat.mul_lt_mul'' he hn
        _ = 2 ^ (65 + ℓ) := by rw [← Nat.pow_add]; ring_nf

/-! ## What `libdivide_u64_gen` computes -/

theorem toNat_ne_zero {d : UInt64} (hd : d ≠ 0) : d.toNat ≠ 0 := fun h =>
  hd (UInt64.toNat_inj.mp (by rw [h, UInt64.toNat_zero]))

/-- `(d & (d - 1)) == 0` tests for a power of two. -/
theorem and_sub_one_eq_zero_iff {d : UInt64} (hd : d ≠ 0) :
    d &&& (d - 1) = 0 ↔ d.toNat.isPowerOfTwo := by
  have h1 : (1 : UInt64) ≤ d := UInt64.le_iff_toNat_le.mpr (by
    have := toNat_ne_zero hd
    rw [UInt64.toNat_one]
    omega)
  rw [← Nat.and_sub_one_eq_zero_iff_isPowerOfTwo (toNat_ne_zero hd), ← UInt64.toNat_inj,
    UInt64.toNat_and, UInt64.toNat_sub_of_le _ _ h1, UInt64.toNat_one, UInt64.toNat_zero]

/-- `63 - libdivide__count_leading_zeros64(d)` is `⌊log2 d⌋`. -/
theorem floorLog2_eq {d : UInt64} (hd : d ≠ 0) : 63 - countLeadingZeros64 d = d.toNat.log2 := by
  unfold countLeadingZeros64
  rw [Bytes.countlZero_eq (toNat_ne_zero hd) d.toNat_lt]
  have := (Nat.log2_lt (toNat_ne_zero hd)).mpr d.toNat_lt
  omega

theorem one_shiftLeft_toNat {ℓ : ℕ} (hℓ : ℓ < 64) :
    ((1 : UInt64) <<< ℓ.toUInt64).toNat = 2 ^ ℓ := by
  rw [UInt64.toNat_shiftLeft, UInt64.toNat_one, Nat.toUInt64_eq, UInt64.toNat_ofNat',
    Nat.mod_eq_of_lt (by omega : ℓ < 2 ^ 64), Nat.mod_eq_of_lt hℓ, Nat.one_shiftLeft,
    Nat.mod_eq_of_lt (Nat.pow_lt_pow_right (by norm_num) hℓ)]

/-- **A power of two takes the shift path**: no multiplier, and the shift `log2 d`. -/
theorem u64GenWith_two_pow (div128 : UInt64 → UInt64 → UInt64 → Option (UInt64 × UInt64))
    {d : UInt64} {k : ℕ} (hk : k < 64) (hd : d.toNat = 2 ^ k) :
    u64GenWith div128 d = some ⟨0, k.toUInt8 ||| libdivideU64ShiftPath⟩ := by
  have hd0 : d ≠ 0 := fun h => by
    rw [h, UInt64.toNat_zero] at hd
    exact absurd hd (Nat.two_pow_pos k).ne
  have hctz : countTrailingZeros64 d = k := by
    unfold countTrailingZeros64
    rw [hd, ← Nat.mul_one (2 ^ k)]
    exact Bytes.countrZero_two_pow_mul_odd 0 hk
  unfold u64GenWith
  rw [if_pos ((and_sub_one_eq_zero_iff hd0).mpr ⟨k, hd⟩), if_neg hd0, hctz]

theorem u64GenWith_pow (div128 : UInt64 → UInt64 → UInt64 → Option (UInt64 × UInt64))
    {d : UInt64} (hp : d.toNat.isPowerOfTwo) :
    ∃ denom, u64GenWith div128 d = some denom ∧ Magic d.toNat denom := by
  obtain ⟨k, hk⟩ := hp
  have hk64 : k < 64 := (Nat.pow_lt_pow_iff_right (by norm_num)).mp (hk ▸ d.toNat_lt)
  exact ⟨_, u64GenWith_two_pow div128 hk64 hk, Magic.shift hk64 hk⟩

/-- The quotient `libdivide_u64_gen` asks for, `2 ^ (64 + ℓ) / d`, is below `2 ^ 64 - 1`
    for a `d` strictly between `2 ^ ℓ` and `2 ^ 64`. -/
theorem propose_lt {D A P R : ℕ} (hA : A ≤ 2 ^ 63) (hlo : A < D)
    (hPR : P * D + R = A * 2 ^ 64) : P + 1 < 2 ^ 64 := by
  by_contra hge
  have : (2 ^ 64 - 1) * (A + 1) ≤ P * D := Nat.mul_le_mul (by omega) hlo
  omega

/-- **`libdivide_u64_gen` of a divisor that is not a power of two**, given what
    `libdivide_128_div_64_to_64` returns for `2 ^ (64 + ⌊log2 d⌋)`. -/
theorem u64GenWith_eq {div128 : UInt64 → UInt64 → UInt64 → Option (UInt64 × UInt64)}
    {d : UInt64} (hd : d ≠ 0) (hp : ¬ d.toNat.isPowerOfTwo) {pm rem : UInt64}
    (hdiv : div128 ((1 : UInt64) <<< d.toNat.log2.toUInt64) 0 d = some (pm, rem)) :
    u64GenWith div128 d =
      if d - rem < (1 : UInt64) <<< d.toNat.log2.toUInt64 then
        some ⟨1 + pm, d.toNat.log2.toUInt8⟩
      else
        some ⟨1 + (pm + pm + if rem + rem ≥ d || rem + rem < rem then 1 else 0),
          d.toNat.log2.toUInt8 ||| libdivideAddMarker⟩ := by
  unfold u64GenWith
  rw [if_neg (fun h => hp ((and_sub_one_eq_zero_iff hd).mp h)), floorLog2_eq hd]
  dsimp only
  rw [hdiv]
  rfl


/-- `rem + rem ≥ d || rem + rem < rem` tests `2 * rem ≥ d` in spite of the wrap. -/
theorem twice_rem_test {d rem : UInt64} (hr : rem.toNat < d.toNat) :
    (decide (rem + rem ≥ d) || decide (rem + rem < rem)) =
      decide (d.toNat ≤ 2 * rem.toNat) := by
  have hd := d.toNat_lt
  rw [Bool.eq_iff_iff, Bool.or_eq_true, decide_eq_true_eq, decide_eq_true_eq, decide_eq_true_eq,
    ge_iff_le, UInt64.le_iff_toNat_le, UInt64.lt_iff_toNat_lt, UInt64.toNat_add]
  omega

/-- **From the exact quotient and remainder of `2 ^ (64 + ⌊log2 d⌋)` by `d`,
    `libdivide_u64_gen` builds a `Magic` divisor.** The first power works when its rounding
    error `d - rem` is below `2 ^ ⌊log2 d⌋`; the doubled quotient, corrected by the doubled
    remainder, is always close enough, with one bit more than a word holds. -/
theorem magic_of_div {div128 : UInt64 → UInt64 → UInt64 → Option (UInt64 × UInt64)}
    {d : UInt64} (hd : d ≠ 0) (hp : ¬ d.toNat.isPowerOfTwo)
    (hdiv : div128 ((1 : UInt64) <<< d.toNat.log2.toUInt64) 0 d =
      some (UInt64.ofNat (2 ^ d.toNat.log2 * 2 ^ 64 / d.toNat),
        UInt64.ofNat (2 ^ d.toNat.log2 * 2 ^ 64 % d.toNat))) :
    ∃ denom, u64GenWith div128 d = some denom ∧ Magic d.toNat denom := by
  have hD0 := toNat_ne_zero hd
  have hD := d.toNat_lt
  have hℓ : d.toNat.log2 < 64 := (Nat.log2_lt hD0).mpr hD
  -- `d` lies strictly between `2 ^ ℓ` and `2 ^ (ℓ + 1)`
  have hlo : 2 ^ d.toNat.log2 < d.toNat :=
    lt_of_le_of_ne (Nat.log2_self_le hD0) fun h => hp ⟨_, h.symm⟩
  have hhi : d.toNat < 2 * 2 ^ d.toNat.log2 := by rw [← Nat.pow_succ']; exact Nat.lt_log2_self
  have hPR : 2 ^ d.toNat.log2 * 2 ^ 64 / d.toNat * d.toNat + 2 ^ d.toNat.log2 * 2 ^ 64 % d.toNat =
      2 ^ d.toNat.log2 * 2 ^ 64 := by rw [Nat.mul_comm _ d.toNat]; exact Nat.div_add_mod _ _
  have hR : 2 ^ d.toNat.log2 * 2 ^ 64 % d.toNat < d.toNat := Nat.mod_lt _ (by omega)
  rw [u64GenWith_eq hd hp hdiv]
  generalize 2 ^ d.toNat.log2 * 2 ^ 64 / d.toNat = P at hPR ⊢
  generalize 2 ^ d.toNat.log2 * 2 ^ 64 % d.toNat = R at hPR hR ⊢
  generalize d.toNat.log2 = ℓ at hℓ hlo hhi hPR ⊢
  have hA : 2 ^ ℓ ≤ 2 ^ 63 := Nat.pow_le_pow_right (by norm_num) (by omega)
  have hP1 := propose_lt hA hlo hPR
  have hPn : (UInt64.ofNat P).toNat = P := by rw [UInt64.toNat_ofNat']; omega
  have hRn : (UInt64.ofNat R).toNat = R := by rw [UInt64.toNat_ofNat']; omega
  have hRd : UInt64.ofNat R ≤ d := UInt64.le_iff_toNat_le.mpr (by omega)
  have hpow64 : 2 ^ (64 + ℓ) = 2 ^ ℓ * 2 ^ 64 := by rw [Nat.pow_add, Nat.mul_comm]
  split
  · -- the first power: `magic` is the quotient plus one
    rename_i htest
    rw [UInt64.lt_iff_toNat_lt, UInt64.toNat_sub_of_le _ _ hRd, one_shiftLeft_toNat hℓ, hRn]
      at htest
    have hm : (1 + UInt64.ofNat P).toNat = P + 1 := by
      rw [UInt64.toNat_add, UInt64.toNat_one, hPn]
      omega
    refine ⟨_, rfl, Magic.plain hℓ ?_ ?_⟩ <;> rw [hm, hpow64, Nat.succ_mul]
    · omega
    · omega
  · -- the 65-bit multiplier: `2 ^ 64 + magic` is twice the quotient, corrected, plus one
    rw [twice_rem_test (by omega), hRn]
    have hm : ∀ c : UInt64, c.toNat ≤ 1 → 2 ^ 64 ≤ 2 * P + c.toNat + 1 →
        (1 + (UInt64.ofNat P + UInt64.ofNat P + c)).toNat = 2 * P + c.toNat + 1 - 2 ^ 64 := by
      intro c hc hge
      rw [UInt64.toNat_add, UInt64.toNat_one, UInt64.toNat_add, UInt64.toNat_add, hPn]
      omega
    have hpow65 : 2 ^ (65 + ℓ) = 2 * (2 ^ ℓ * 2 ^ 64) := by
      rw [Nat.pow_add, Nat.mul_comm (2 ^ 65)]
      ring
    -- the corrected quotient `2 * P + c` is at least `2 ^ 64`, since `d < 2 ^ (ℓ + 1)`
    have hwide : ∀ c : ℕ, 2 * (2 ^ ℓ * 2 ^ 64) ≤ (2 * P + c + 1) * d.toNat →
        2 ^ 64 ≤ 2 * P + c + 1 := by
      intro c h
      by_contra hlt
      have : (2 * P + c + 1) * d.toNat ≤ 2 ^ 64 * d.toNat := Nat.mul_le_mul_right _ (by omega)
      have : 2 ^ 64 * d.toNat < 2 ^ 64 * (2 * 2 ^ ℓ) :=
        Nat.mul_lt_mul_of_pos_left hhi (by norm_num)
      omega
    have h2l : 2 ^ (ℓ + 1) = 2 * 2 ^ ℓ := Nat.pow_succ'
    by_cases h2R : d.toNat ≤ 2 * R
    · have hexp : (2 * P + 1 + 1) * d.toNat = 2 * (P * d.toNat) + 2 * d.toNat := by ring
      have hge := hwide 1 (by rw [hexp]; omega)
      have hm1 := hm 1 (by rw [UInt64.toNat_one]) (by rw [UInt64.toNat_one]; exact hge)
      rw [UInt64.toNat_one] at hm1
      simp only [h2R, decide_true, if_true]
      refine ⟨_, rfl, Magic.add hℓ ?_ ?_⟩
      all_goals rw [hm1, hpow65, Nat.add_sub_cancel' hge, hexp]
      · omega
      · rw [h2l]
        omega
    · have hexp : (2 * P + 0 + 1) * d.toNat = 2 * (P * d.toNat) + d.toNat := by ring
      have hge := hwide 0 (by rw [hexp]; omega)
      have hm0 := hm 0 (by rw [UInt64.toNat_zero]; omega) (by rw [UInt64.toNat_zero]; exact hge)
      rw [UInt64.toNat_zero] at hm0
      simp only [h2R, decide_false, Bool.false_eq_true, if_false]
      refine ⟨_, rfl, Magic.add hℓ ?_ ?_⟩
      all_goals rw [hm0, hpow65, Nat.add_sub_cancel' hge, hexp]
      · omega
      · rw [h2l]
        omega

/-- **`libdivide_u64_gen` computes a `Magic` divisor for every nonzero `d`** (on x86-64). -/
theorem u64Gen_magic {d : UInt64} (hd : d ≠ 0) :
    ∃ denom, u64Gen d = some denom ∧ Magic d.toNat denom := by
  by_cases hp : d.toNat.isPowerOfTwo
  · exact u64GenWith_pow _ hp
  · apply magic_of_div hd hp
    have hℓ : d.toNat.log2 < 64 := (Nat.log2_lt (toNat_ne_zero hd)).mpr d.toNat_lt
    have hlo : 2 ^ d.toNat.log2 < d.toNat :=
      lt_of_le_of_ne (Nat.log2_self_le (toNat_ne_zero hd)) fun h => hp ⟨_, h.symm⟩
    rw [div128Div64To64_eq
        (UInt64.lt_iff_toNat_lt.mpr (by rw [one_shiftLeft_toNat hℓ]; exact hlo)),
      one_shiftLeft_toNat hℓ, UInt64.toNat_zero, Nat.add_zero]

/-- **libdivide divides exactly.** For every divisor and every numerator,
    `libdivide_u64_do(n, &libdivide_u64_gen(d))` is `n / d`; only `d = 0` has no
    `libdivide_u64_gen`. -/
theorem u64Gen_u64Do (d n : UInt64) :
    (u64Gen d).map (u64Do n) = if d = 0 then none else some (n / d) := by
  by_cases hd : d = 0
  · subst hd
    rw [if_pos rfl]
    rfl
  · obtain ⟨denom, hgen, hm⟩ := u64Gen_magic hd
    rw [if_neg hd, hgen, Option.map_some, Option.some_inj, ← UInt64.toNat_inj, hm.toNat_u64Do,
      UInt64.toNat_div]

/-! ## The three algorithms -/

theorem Magic.getAlgorithm_shift {k : ℕ} (hk : k < 64) :
    u64GetAlgorithm ⟨0, k.toUInt8 ||| libdivideU64ShiftPath⟩ = 0 :=
  if_pos (more_shift ⟨k, hk⟩).1

/-- A `Magic` divisor that is not a power of two is of algorithm 1 or 2, and the routine of
    its algorithm is `libdivide_u64_do`. -/
theorem Magic.doAlg {d : ℕ} {denom : U64} (h : Magic d denom) (hp : ¬ d.isPowerOfTwo)
    (n : UInt64) :
    (u64GetAlgorithm denom = 1 ∧ u64DoAlg1 n denom = some (u64Do n denom)) ∨
      (u64GetAlgorithm denom = 2 ∧ u64DoAlg2 n denom = u64Do n denom) := by
  cases h with
  | shift hk hd => exact absurd ⟨_, hd⟩ hp
  | @plain ℓ m hℓ _ _ =>
    obtain ⟨h1, h2, h3⟩ := more_plain ⟨ℓ, hℓ⟩
    simp only at h1 h2 h3
    left
    refine ⟨by simp [u64GetAlgorithm, h1, h2], ?_⟩
    unfold u64DoAlg1 u64Do
    simp only [h1, h2, h3, ne_eq, not_true_eq_false, if_false]
    rw [if_pos hℓ]
  | @add ℓ m hℓ _ _ =>
    obtain ⟨h1, h2, -, -⟩ := more_add ⟨ℓ, hℓ⟩
    simp only at h1 h2
    right
    refine ⟨by simp [u64GetAlgorithm, h1, h2], ?_⟩
    unfold u64DoAlg2 u64Do
    simp only [h1, h2, ne_eq, not_true_eq_false, not_false_eq_true, if_false, if_true]

/-! ## The portable multiply-high -/

theorem toNat_mul_toUInt64 (p q : UInt32) :
    (p.toUInt64 * q.toUInt64).toNat = p.toNat * q.toNat := by
  rw [UInt64.toNat_mul, UInt32.toNat_toUInt64, UInt32.toNat_toUInt64]
  apply Nat.mod_eq_of_lt
  calc p.toNat * q.toNat < 2 ^ 32 * 2 ^ 32 := Nat.mul_lt_mul'' p.toNat_lt q.toNat_lt
    _ = 2 ^ 64 := by norm_num

theorem mullhiU32_toNat (p q : UInt32) : (mullhiU32 p q).toNat = p.toNat * q.toNat / 2 ^ 32 := by
  unfold mullhiU32
  rw [UInt64.toNat_toUInt32, UInt64.toNat_shiftRight, toNat_mul_toUInt64,
    Nat.shiftRight_eq_div_pow]
  have := Nat.mul_lt_mul'' p.toNat_lt q.toNat_lt
  apply Nat.mod_eq_of_lt
  rw [show UInt64.toNat 32 % 64 = 32 from rfl]
  omega

/-- The low 32-bit digit of a word. -/
theorem low_digit (x : UInt64) :
    (x &&& (0xFFFFFFFF : UInt32).toUInt64).toUInt32.toNat = x.toNat % 2 ^ 32 := by
  rw [UInt64.toNat_toUInt32, UInt64.toNat_and, UInt32.toNat_toUInt64,
    show UInt32.toNat 0xFFFFFFFF = 2 ^ 32 - 1 from rfl, Nat.and_two_pow_sub_one_eq_mod, Nat.mod_mod]

/-- The high 32-bit digit of a word. -/
theorem high_digit (x : UInt64) : (x >>> 32).toUInt32.toNat = x.toNat / 2 ^ 32 := by
  rw [UInt64.toNat_toUInt32, UInt64.toNat_shiftRight, show UInt64.toNat 32 % 64 = 32 from rfl,
    Nat.shiftRight_eq_div_pow]
  have := x.toNat_lt
  omega

/-- **The 32-bit fallback computes the high word of the product.** Each digit product fits
    in a word, and so do the two partial sums the code forms. -/
theorem mullhiU64Portable_eq (x y : UInt64) : mullhiU64Portable x y = mullhiU64 x y := by
  apply UInt64.toNat_inj.mp
  rw [mullhiU64_toNat]
  unfold mullhiU64Portable
  dsimp only
  have hX := Nat.div_add_mod x.toNat (2 ^ 32)
  have hY := Nat.div_add_mod y.toNat (2 ^ 32)
  rw [← low_digit x, ← high_digit x] at hX
  rw [← low_digit y, ← high_digit y] at hY
  generalize (x &&& (0xFFFFFFFF : UInt32).toUInt64).toUInt32 = x0 at hX ⊢
  generalize (x >>> 32).toUInt32 = x1 at hX ⊢
  generalize (y &&& (0xFFFFFFFF : UInt32).toUInt64).toUInt32 = y0 at hY ⊢
  generalize (y >>> 32).toUInt32 = y1 at hY ⊢
  simp only [UInt64.toNat_add, UInt64.toNat_shiftRight, toNat_mul_toUInt64, UInt64.toNat_and,
    UInt32.toNat_toUInt64, mullhiU32_toNat, show UInt64.toNat 32 % 64 = 32 from rfl,
    show UInt32.toNat 0xFFFFFFFF = 2 ^ 32 - 1 from rfl, Nat.and_two_pow_sub_one_eq_mod,
    Nat.shiftRight_eq_div_pow]
  -- the four digit products, each below `2 ^ 64`
  have hb : ∀ p q : UInt32, p.toNat * q.toNat ≤ (2 ^ 32 - 1) * (2 ^ 32 - 1) := fun p q =>
    Nat.mul_le_mul (by have := p.toNat_lt; omega) (by have := q.toNat_lt; omega)
  have h11 := hb x1 y1
  have h10 := hb x1 y0
  have h01 := hb x0 y1
  have h00 := hb x0 y0
  have hxy : x.toNat * y.toNat = x1.toNat * y1.toNat * 2 ^ 64 +
      (x1.toNat * y0.toNat + x0.toNat * y1.toNat) * 2 ^ 32 + x0.toNat * y0.toNat := by
    rw [← hX, ← hY]
    ring
  omega

/-! ## The portable 128-by-64 division -/

section Portable

variable {vn1 vn0 un : UInt64}

/-- **The correction loop ends on the quotient digit.** The divisor `vn1 * b + vn0` is
    normalised, the top digits `U` of the partial remainder are below it, and the loop starts
    from an estimate `q` that is not too small, at most `b + 1`, with `rhat = U - q * vn1`
    below `b`. The fuel covers the passes: each raises `rhat` by `vn1`. -/
theorem correctDigit_eq_div {U : ℕ} (hn1 : 2 ^ 31 ≤ vn1.toNat)
    (hn1' : vn1.toNat < 2 ^ 32) (hn0 : vn0.toNat < 2 ^ 32) (hu : un.toNat < 2 ^ 32)
    (hU : U < vn1.toNat * 2 ^ 32 + vn0.toNat) :
    ∀ (fuel : ℕ) (q rhat : UInt64), rhat.toNat + q.toNat * vn1.toNat = U →
      (U * 2 ^ 32 + un.toNat) / (vn1.toNat * 2 ^ 32 + vn0.toNat) ≤ q.toNat →
      q.toNat ≤ 2 ^ 32 + 1 → rhat.toNat < 2 ^ 32 →
      2 ^ 32 ≤ rhat.toNat + fuel * vn1.toNat →
      (correctDigit vn1 vn0 un fuel (q, rhat)).1.toNat =
        (U * 2 ^ 32 + un.toNat) / (vn1.toNat * 2 ^ 32 + vn0.toNat) := by
  have hV : 0 < vn1.toNat * 2 ^ 32 + vn0.toNat := by
    have : 2 ^ 32 ≤ vn1.toNat * 2 ^ 32 := Nat.le_mul_of_pos_left _ (by omega)
    omega
  have hqt := WordDiv.div_lt_base hu hU
  -- the digit `Q` the loop must reach
  generalize hQ : (U * 2 ^ 32 + un.toNat) / (vn1.toNat * 2 ^ 32 + vn0.toNat) = Q at hqt ⊢
  intro fuel
  induction fuel with
  | zero =>
    intro q rhat _ _ _ hr hfuel
    omega
  | succ fuel ih =>
    intro q rhat hrq hge hle hr hfuel
    have hqv : q.toNat * vn1.toNat ≤ U := by omega
    -- the test, read on numbers: the estimate exceeds the digit
    have htest : (q ≥ 2 ^ 32 || q * vn0 > 2 ^ 32 * rhat + un) = true ↔ Q < q.toNat := by
      rw [Bool.or_eq_true, decide_eq_true_eq, decide_eq_true_eq, ge_iff_le, gt_iff_lt,
        UInt64.le_iff_toNat_le, UInt64.lt_iff_toNat_lt,
        show (2 ^ 32 : UInt64).toNat = 2 ^ 32 from rfl]
      by_cases hq : 2 ^ 32 ≤ q.toNat
      · exact iff_of_true (Or.inl hq) (by omega)
      · have hqvn0 : (q * vn0).toNat = q.toNat * vn0.toNat := by
          rw [UInt64.toNat_mul]
          exact Nat.mod_eq_of_lt (lt_of_lt_of_le
            (Nat.mul_lt_mul'' (show q.toNat < 2 ^ 32 by omega) hn0) (by norm_num))
        have hrhs : (2 ^ 32 * rhat + un).toNat = 2 ^ 32 * rhat.toNat + un.toNat := by
          rw [UInt64.toNat_add, UInt64.toNat_mul, show (2 ^ 32 : UInt64).toNat = 2 ^ 32 from rfl]
          omega
        rw [hqvn0, hrhs, ← hQ, Nat.div_lt_iff_lt_mul hV, WordDiv.lt_mul_iff hqv,
          show U - q.toNat * vn1.toNat = rhat.toNat by omega]
        omega
    unfold correctDigit
    by_cases ht : (q ≥ 2 ^ 32 || q * vn0 > 2 ^ 32 * rhat + un) = true
    · rw [if_pos ht]
      have hlt := htest.mp ht
      have hq1 : (q - 1).toNat = q.toNat - 1 :=
        UInt64.toNat_sub_of_le _ _ (UInt64.le_iff_toNat_le.mpr (by rw [UInt64.toNat_one]; omega))
      have hr1 : (rhat + vn1).toNat = rhat.toNat + vn1.toNat := by
        rw [UInt64.toNat_add]
        omega
      have hqv1 : (q.toNat - 1) * vn1.toNat = q.toNat * vn1.toNat - vn1.toNat := by
        rw [Nat.sub_mul, Nat.one_mul]
      have hv1 : vn1.toNat ≤ q.toNat * vn1.toNat := Nat.le_mul_of_pos_left _ (by omega)
      have hrq' : (rhat + vn1).toNat + (q - 1).toNat * vn1.toNat = U := by
        rw [hq1, hr1, hqv1]
        omega
      by_cases hb : rhat + vn1 < 2 ^ 32
      · rw [if_pos hb]
        have hb' : rhat.toNat + vn1.toNat < 2 ^ 32 := by
          rw [← hr1]; exact UInt64.lt_iff_toNat_lt.mp hb
        have := Nat.add_one_mul fuel vn1.toNat
        exact ih _ _ hrq' (by omega) (by omega) (by omega) (by omega)
      · -- `rhat` reached `b`: the lowered estimate is the digit
        rw [if_neg hb]
        have hb' : 2 ^ 32 ≤ rhat.toNat + vn1.toNat := by
          rw [← hr1]
          exact Nat.not_lt.mp fun h => hb (UInt64.lt_iff_toNat_lt.mpr h)
        show (q - 1).toNat = Q
        have hlow := WordDiv.le_div_of_le_sub (u := un.toNat) (by omega) hn0
          (show (q.toNat - 1) * vn1.toNat ≤ U by omega) (show q.toNat - 1 ≤ 2 ^ 32 by omega)
          (show 2 ^ 32 ≤ U - (q.toNat - 1) * vn1.toNat by omega)
        rw [hQ] at hlow
        omega
    · rw [if_neg ht]
      have := (not_congr htest).mp ht
      show q.toNat = Q
      omega

/-- The top and bottom 32-bit digits of a word, as the division splits it. -/
theorem toNat_shiftRight_32 (x : UInt64) : (x >>> 32).toNat = x.toNat / 2 ^ 32 := by
  rw [UInt64.toNat_shiftRight, show (32 : UInt64).toNat % 64 = 32 from rfl,
    Nat.shiftRight_eq_div_pow]

theorem toNat_and_low (x : UInt64) : (x &&& 0xFFFFFFFF).toNat = x.toNat % 2 ^ 32 := by
  rw [UInt64.toNat_and, show (0xFFFFFFFF : UInt64).toNat = 2 ^ 32 - 1 from rfl,
    Nat.and_two_pow_sub_one_eq_mod]

/-- **One digit of the schoolbook division.** For a divisor with its top bit set, top digits
    `un` below it and a next digit `u`, the estimate from the top divisor digit, corrected,
    is the quotient digit, and the multiply-and-subtract, wrapping as it may, leaves the
    remainder. -/
theorem divlu_digit {v un u : UInt64} (hv : 2 ^ 63 ≤ v.toNat) (hun : un.toNat < v.toNat)
    (hu : u.toNat < 2 ^ 32) :
    let q := (correctDigit (v >>> 32) (v &&& 0xFFFFFFFF) u 2
      (un / (v >>> 32), un - un / (v >>> 32) * (v >>> 32))).1
    q.toNat = (un.toNat * 2 ^ 32 + u.toNat) / v.toNat ∧
      (un * 2 ^ 32 + u - q * v).toNat = (un.toNat * 2 ^ 32 + u.toNat) % v.toNat := by
  intro q
  have hv1 := toNat_shiftRight_32 v
  have hv0 := toNat_and_low v
  have hV : v.toNat = (v >>> 32).toNat * 2 ^ 32 + (v &&& 0xFFFFFFFF).toNat := by
    rw [hv1, hv0]
    exact (Nat.div_add_mod' _ _).symm
  have hvlt := v.toNat_lt
  have hn1 : 2 ^ 31 ≤ (v >>> 32).toNat := by omega
  have hn1' : (v >>> 32).toNat < 2 ^ 32 := by omega
  have hn0 : (v &&& 0xFFFFFFFF).toNat < 2 ^ 32 := by omega
  -- the estimate and its remainder do not wrap
  have hest : (un / (v >>> 32)).toNat = un.toNat / (v >>> 32).toNat := UInt64.toNat_div _ _
  have hprod : (un / (v >>> 32) * (v >>> 32)).toNat =
      un.toNat / (v >>> 32).toNat * (v >>> 32).toNat := by
    rw [UInt64.toNat_mul, hest]
    exact Nat.mod_eq_of_lt (lt_of_le_of_lt (Nat.div_mul_le_self _ _) un.toNat_lt)
  have hrhat : (un - un / (v >>> 32) * (v >>> 32)).toNat = un.toNat % (v >>> 32).toNat := by
    rw [UInt64.toNat_sub_of_le _ _ (UInt64.le_iff_toNat_le.mpr
      (hprod ▸ Nat.div_mul_le_self _ _)), hprod, Nat.mod_eq_sub_div_mul]
  have hmod := Nat.mod_lt un.toNat (show 0 < (v >>> 32).toNat by omega)
  have hU : un.toNat < (v >>> 32).toNat * 2 ^ 32 + (v &&& 0xFFFFFFFF).toNat := hV ▸ hun
  have hq : q.toNat = (un.toNat * 2 ^ 32 + u.toNat) / v.toNat := by
    rw [hV]
    refine correctDigit_eq_div hn1 hn1' hn0 hu hU 2 _ _ ?_ ?_ ?_ ?_ ?_
    · rw [hrhat, hest]
      exact Nat.mod_add_div' _ _
    · rw [hest]
      exact WordDiv.div_le_est hu (by omega)
    · rw [hest]
      exact WordDiv.est_le (by omega) hn0 hU
    · omega
    · omega
  refine ⟨hq, ?_⟩
  -- the multiply-and-subtract wraps back onto the remainder
  have hdm := Nat.div_add_mod (un.toNat * 2 ^ 32 + u.toNat) v.toNat
  have hr := Nat.mod_lt (un.toNat * 2 ^ 32 + u.toNat) (show 0 < v.toNat by omega)
  rw [← hq] at hdm
  rw [UInt64.toNat_sub, UInt64.toNat_add, UInt64.toNat_mul, UInt64.toNat_mul,
    show (2 ^ 32 : UInt64).toNat = 2 ^ 32 from rfl]
  rw [Nat.mul_comm v.toNat] at hdm
  omega

theorem toNat_shiftLeft_nat (x : UInt64) {s : ℕ} (hs : s < 64) :
    (x <<< s.toUInt64).toNat = x.toNat * 2 ^ s % 2 ^ 64 := by
  rw [UInt64.toNat_shiftLeft, Nat.toUInt64_eq, UInt64.toNat_ofNat',
    Nat.mod_eq_of_lt (by omega : s < 2 ^ 64), Nat.mod_eq_of_lt hs, Nat.shiftLeft_eq]

/-- `libdivide__count_leading_zeros64(v)` shifts a nonzero `v` up to its top bit: the
    shifted divisor has its top bit set and does not wrap. -/
theorem clz_normalises {v : UInt64} (hv : v ≠ 0) :
    countLeadingZeros64 v + v.toNat.log2 = 63 ∧ 2 ^ 63 ≤ v.toNat * 2 ^ countLeadingZeros64 v ∧
      v.toNat * 2 ^ countLeadingZeros64 v < 2 ^ 64 := by
  have hclz : countLeadingZeros64 v = 64 - 1 - v.toNat.log2 :=
    Bytes.countlZero_eq (toNat_ne_zero hv) v.toNat_lt
  have hlog := (Nat.log2_lt (toNat_ne_zero hv)).mpr v.toNat_lt
  have hs : countLeadingZeros64 v + v.toNat.log2 = 63 := by omega
  refine ⟨hs, ?_, ?_⟩
  · calc 2 ^ 63 = 2 ^ v.toNat.log2 * 2 ^ countLeadingZeros64 v := by
          rw [← Nat.pow_add]; congr 1; omega
      _ ≤ v.toNat * 2 ^ countLeadingZeros64 v :=
        Nat.mul_le_mul_right _ (Nat.log2_self_le (toNat_ne_zero hv))
  · calc v.toNat * 2 ^ countLeadingZeros64 v
          < 2 ^ (v.toNat.log2 + 1) * 2 ^ countLeadingZeros64 v :=
        Nat.mul_lt_mul_of_pos_right Nat.lt_log2_self (Nat.two_pow_pos _)
      _ = 2 ^ 64 := by rw [← Nat.pow_add]; congr 1; omega

/-- The top word of the shifted dividend: the bits of `u1` shifted up and those of `u0`
    shifted out. -/
theorem un64_toNat {u1 : UInt64} (u0 : UInt64) {s : ℕ} (hs : 0 < s) (hs' : s < 64)
    (hu1 : u1.toNat * 2 ^ s < 2 ^ 64) :
    (u1 <<< s.toUInt64 ||| u0 >>> (64 - s).toUInt64).toNat =
      u1.toNat * 2 ^ s + u0.toNat / 2 ^ (64 - s) := by
  have hlo : u0.toNat / 2 ^ (64 - s) < 2 ^ s := by
    apply Nat.div_lt_of_lt_mul
    rw [← Nat.pow_add, show 64 - s + s = 64 by omega]
    exact u0.toNat_lt
  rw [UInt64.toNat_or, toNat_shiftLeft_nat u1 hs', Nat.mod_eq_of_lt hu1,
    toNat_shiftRight_of_lt u0 (by omega), ← Nat.shiftLeft_eq,
    ← Nat.shiftLeft_add_eq_or_of_lt hlo]

/-- Shifting the two-word dividend up by `s` bits, as the two words `un64` and `un10`. -/
theorem shifted_dividend (u1 u0 : ℕ) {s : ℕ} (hs : s ≤ 64) :
    (u1 * 2 ^ s + u0 / 2 ^ (64 - s)) * 2 ^ 64 + u0 * 2 ^ s % 2 ^ 64 =
      (u1 * 2 ^ 64 + u0) * 2 ^ s := by
  have h64 : 2 ^ 64 = 2 ^ (64 - s) * 2 ^ s := by rw [← Nat.pow_add]; congr 1; omega
  have hdiv : u0 * 2 ^ s / 2 ^ 64 = u0 / 2 ^ (64 - s) := by
    rw [h64, Nat.mul_div_mul_right _ _ (Nat.two_pow_pos s)]
  have := Nat.div_add_mod (u0 * 2 ^ s) (2 ^ 64)
  rw [← hdiv]
  calc (u1 * 2 ^ s + u0 * 2 ^ s / 2 ^ 64) * 2 ^ 64 + u0 * 2 ^ s % 2 ^ 64
      = u1 * 2 ^ s * 2 ^ 64 + (2 ^ 64 * (u0 * 2 ^ s / 2 ^ 64) + u0 * 2 ^ s % 2 ^ 64) := by ring
    _ = (u1 * 2 ^ 64 + u0) * 2 ^ s := by rw [this]; ring

/-- **The schoolbook division is `divq`** for a dividend whose quotient fits and a divisor
    below `2 ^ 63`, which the code shifts up by at least one bit. -/
theorem div128Div64To64Portable_eq {u1 u0 v : UInt64} (h : u1 < v) (hv : v.toNat < 2 ^ 63) :
    div128Div64To64Portable u1 u0 v = div128Div64To64 u1 u0 v := by
  have hlt := UInt64.lt_iff_toNat_lt.mp h
  have hv0 : v ≠ 0 := fun h0 => by rw [h0, UInt64.toNat_zero] at hlt; omega
  obtain ⟨hsum, hw63, hw64⟩ := clz_normalises hv0
  have hlog : v.toNat.log2 < 63 := (Nat.log2_lt (toNat_ne_zero hv0)).mpr hv
  have hs0 : countLeadingZeros64 v ≠ 0 := by omega
  unfold div128Div64To64Portable
  dsimp only
  rw [if_neg (show ¬ (u1 ≥ v) from UInt64.not_le.mpr h), if_neg hs0, div128Div64To64_eq h]
  generalize countLeadingZeros64 v = s at hsum hw63 hw64 hs0
  -- the normalised divisor `w` and the two words `un64`, `un10` of the shifted dividend
  have hwN : (v <<< s.toUInt64).toNat = v.toNat * 2 ^ s := by
    rw [toNat_shiftLeft_nat v (by omega), Nat.mod_eq_of_lt hw64]
  have hu1s : u1.toNat * 2 ^ s < v.toNat * 2 ^ s :=
    Nat.mul_lt_mul_of_pos_right hlt (Nat.two_pow_pos s)
  have hun64N := un64_toNat u0 (Nat.pos_of_ne_zero hs0) (by omega) (hu1s.trans hw64)
  have hun10N := toNat_shiftLeft_nat u0 (show s < 64 by omega)
  generalize hw : v <<< s.toUInt64 = w at hwN ⊢
  generalize hun64 : (u1 <<< s.toUInt64) ||| (u0 >>> (64 - s).toUInt64) = un64 at hun64N ⊢
  generalize hun10 : u0 <<< s.toUInt64 = un10 at hun10N ⊢
  have hw63' : 2 ^ 63 ≤ w.toNat := hwN ▸ hw63
  have hunlt : un64.toNat < w.toNat := by
    rw [hun64N, hwN]
    have : u0.toNat / 2 ^ (64 - s) < 2 ^ s := by
      apply Nat.div_lt_of_lt_mul
      rw [← Nat.pow_add, show 64 - s + s = 64 by omega]
      exact u0.toNat_lt
    have : u1.toNat * 2 ^ s + 2 ^ s ≤ v.toNat * 2 ^ s := by
      rw [← Nat.succ_mul]; exact Nat.mul_le_mul_right _ hlt
    omega
  have hu1 : (un10 >>> 32).toNat < 2 ^ 32 := by
    rw [toNat_shiftRight_32]; have := un10.toNat_lt; omega
  have hu0 : (un10 &&& 0xFFFFFFFF).toNat < 2 ^ 32 := by
    rw [toNat_and_low]; exact Nat.mod_lt _ (Nat.two_pow_pos 32)
  obtain ⟨hq1, hr1⟩ := divlu_digit hw63' hunlt hu1
  generalize (correctDigit (w >>> 32) (w &&& 0xFFFFFFFF) (un10 >>> 32) 2
    (un64 / (w >>> 32), un64 - un64 / (w >>> 32) * (w >>> 32))).1 = q1 at hq1 hr1 ⊢
  generalize un64 * (2 ^ 32 : UInt64) + (un10 >>> 32) - q1 * w = un21 at hr1 ⊢
  have hwpos : 0 < w.toNat := by omega
  have hun21lt : un21.toNat < w.toNat := hr1 ▸ Nat.mod_lt _ hwpos
  obtain ⟨hq0, hr0⟩ := divlu_digit hw63' hun21lt hu0
  generalize (correctDigit (w >>> 32) (w &&& 0xFFFFFFFF) (un10 &&& 0xFFFFFFFF) 2
    (un21 / (w >>> 32), un21 - un21 / (w >>> 32) * (w >>> 32))).1 = q0 at hq0 hr0 ⊢
  generalize un21 * (2 ^ 32 : UInt64) + (un10 &&& 0xFFFFFFFF) - q0 * w = r0 at hr0 ⊢
  -- the two digits are the quotient and remainder of the shifted dividend
  have h₁ : un64.toNat * 2 ^ 32 + (un10 >>> 32).toNat = q1.toNat * w.toNat + un21.toNat := by
    rw [hq1, hr1]
    exact (Nat.div_add_mod' _ _).symm
  have h₀ : un21.toNat * 2 ^ 32 + (un10 &&& 0xFFFFFFFF).toNat =
      q0.toNat * w.toNat + r0.toNat := by
    rw [hq0, hr0]
    exact (Nat.div_add_mod' _ _).symm
  have hdigits := WordDiv.div_mod_two_digits hwpos h₁ h₀ (hr0 ▸ Nat.mod_lt _ hwpos)
  have hX : (un64.toNat * 2 ^ 32 + (un10 >>> 32).toNat) * 2 ^ 32 +
      (un10 &&& 0xFFFFFFFF).toNat = (u1.toNat * 2 ^ 64 + u0.toNat) * 2 ^ s := by
    rw [toNat_shiftRight_32, toNat_and_low,
      ← shifted_dividend u1.toNat u0.toNat (s := s) (by omega), ← hun64N, ← hun10N]
    have := Nat.div_add_mod un10.toNat (2 ^ 32)
    calc (un64.toNat * 2 ^ 32 + un10.toNat / 2 ^ 32) * 2 ^ 32 + un10.toNat % 2 ^ 32
        = un64.toNat * 2 ^ 64 + (2 ^ 32 * (un10.toNat / 2 ^ 32) + un10.toNat % 2 ^ 32) := by ring
      _ = un64.toNat * 2 ^ 64 + un10.toNat := by rw [this]
  rw [hX, hwN, Nat.mul_div_mul_right _ _ (Nat.two_pow_pos s), Nat.mul_mod_mul_right] at hdigits
  obtain ⟨hquot, hrem⟩ := hdigits
  -- both digits are below `b`, so `q1 * b + q0` does not wrap
  have hdig : ∀ {a c : ℕ}, a < w.toNat → c < 2 ^ 32 → (a * 2 ^ 32 + c) / w.toNat < 2 ^ 32 :=
    fun ha hc => by
      apply Nat.div_lt_of_lt_mul
      calc _ < (_ + 1) * 2 ^ 32 := by omega
        _ ≤ w.toNat * 2 ^ 32 := Nat.mul_le_mul_right _ ha
  have hq1b : q1.toNat < 2 ^ 32 := hq1 ▸ hdig hunlt hu1
  have hq0b : q0.toNat < 2 ^ 32 := hq0 ▸ hdig hun21lt hu0
  rw [Option.some.injEq, Prod.mk.injEq]
  constructor
  · apply UInt64.toNat_inj.mp
    rw [UInt64.toNat_ofNat', Nat.mod_eq_of_lt (div128_quot_lt hlt u0.toNat_lt), hquot,
      UInt64.toNat_add, UInt64.toNat_mul, show (2 ^ 32 : UInt64).toNat = 2 ^ 32 from rfl]
    omega
  · apply UInt64.toNat_inj.mp
    have hmod := Nat.mod_lt (u1.toNat * 2 ^ 64 + u0.toNat) (show 0 < v.toNat by omega)
    rw [toNat_shiftRight_of_lt r0 (by omega), ← hrem, Nat.mul_div_cancel _ (Nat.two_pow_pos s),
      UInt64.toNat_ofNat',
      Nat.mod_eq_of_lt (show (u1.toNat * 2 ^ 64 + u0.toNat) % v.toNat < 2 ^ 64 by omega)]

end Portable

/-! ## `libdivide_u64_gen` on the builds without `divq` -/

/-- `libdivide_u64_gen` asks the 128-by-64 division one question, so two divisions that
    answer it alike give the same divisor. -/
theorem u64GenWith_congr {f g : UInt64 → UInt64 → UInt64 → Option (UInt64 × UInt64)}
    {d : UInt64} (h : d &&& (d - 1) ≠ 0 → f ((1 : UInt64) <<< d.toNat.log2.toUInt64) 0 d =
      g ((1 : UInt64) <<< d.toNat.log2.toUInt64) 0 d) :
    u64GenWith f d = u64GenWith g d := by
  unfold u64GenWith
  by_cases hp : d &&& (d - 1) = 0
  · rw [if_pos hp, if_pos hp]
  · have hd : d ≠ 0 := by
      rintro rfl
      exact hp rfl
    rw [if_neg hp, if_neg hp, floorLog2_eq hd]
    dsimp only
    rw [h hp]

/-- A divisor that is not a power of two lies strictly above `2 ^ ⌊log2 d⌋`, the high word
    `libdivide_u64_gen` divides. -/
theorem one_shiftLeft_log2_lt {d : UInt64} (hp : d &&& (d - 1) ≠ 0) :
    d ≠ 0 ∧ (1 : UInt64) <<< d.toNat.log2.toUInt64 < d := by
  have hd : d ≠ 0 := by
    rintro rfl
    exact hp rfl
  have hℓ : d.toNat.log2 < 64 := (Nat.log2_lt (toNat_ne_zero hd)).mpr d.toNat_lt
  refine ⟨hd, UInt64.lt_iff_toNat_lt.mpr ?_⟩
  rw [one_shiftLeft_toNat hℓ]
  exact lt_of_le_of_ne (Nat.log2_self_le (toNat_ne_zero hd))
    fun h => hp ((and_sub_one_eq_zero_iff hd).mpr ⟨_, h.symm⟩)

/-- **Below `2 ^ 63` the portable build computes the divisor of the `divq` build.** -/
theorem u64GenPortable_eq {d : UInt64} (hd : d.toNat < 2 ^ 63) : u64GenPortable d = u64Gen d :=
  u64GenWith_congr fun hp => div128Div64To64Portable_eq (one_shiftLeft_log2_lt hp).2 hd

theorem u64GenPortable_eq_seven : (7 : UInt64).toNat < 2 ^ 63 ∧ u64GenPortable 7 = u64Gen 7 :=
  ⟨by decide, u64GenPortable_eq (by decide)⟩

/-- From `2 ^ 63` on, the divisor needs no shift, and `u0 >> (64 - s)` shifts by 64. -/
theorem div128Div64To64Portable_top {u1 u0 v : UInt64} (h : u1 < v) (hv : 2 ^ 63 ≤ v.toNat) :
    div128Div64To64Portable u1 u0 v = none := by
  have hv0 : v.toNat ≠ 0 := by omega
  have hlog : v.toNat.log2 = 63 := by
    have := (Nat.log2_lt hv0).mpr v.toNat_lt
    have := (Nat.le_log2 hv0).mpr hv
    omega
  have hs : countLeadingZeros64 v = 0 := by
    unfold countLeadingZeros64
    rw [Bytes.countlZero_eq hv0 v.toNat_lt, hlog]
  unfold div128Div64To64Portable
  dsimp only
  rw [if_neg (show ¬ (u1 ≥ v) from UInt64.not_le.mpr h), if_pos hs]

/-- **On the builds without `divq`, `libdivide_u64_gen` of a divisor from `2 ^ 63` on that is
    not a power of two is undefined.** -/
theorem u64GenPortable_eq_none {d : UInt64} (hd : 2 ^ 63 ≤ d.toNat)
    (hp : ¬ d.toNat.isPowerOfTwo) : u64GenPortable d = none := by
  have hd0 : d ≠ 0 := fun h => by rw [h, UInt64.toNat_zero] at hd; omega
  have hp' : d &&& (d - 1) ≠ 0 := fun h => hp ((and_sub_one_eq_zero_iff hd0).mp h)
  unfold u64GenPortable u64GenWith
  rw [if_neg hp', floorLog2_eq hd0]
  dsimp only
  rw [div128Div64To64Portable_top (one_shiftLeft_log2_lt hp').2 hd]
  rfl

/-- The divisor `2 ^ 63 + 1`, on the builds without `divq`. -/
theorem u64GenPortable_eq_none_top :
    2 ^ 63 ≤ (9223372036854775809 : UInt64).toNat ∧
      ¬ (9223372036854775809 : UInt64).toNat.isPowerOfTwo ∧
      u64GenPortable 9223372036854775809 = none := by
  have hp : ¬ (9223372036854775809 : UInt64).toNat.isPowerOfTwo := fun h =>
    absurd ((and_sub_one_eq_zero_iff (by decide)).mpr h) (by decide)
  exact ⟨by decide, hp, u64GenPortable_eq_none (by decide) hp⟩

end Libdivide

end Helio
