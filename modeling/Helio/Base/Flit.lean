import Helio.Lib.Bytes

/-!
# `base/flit.h` — the FLIT integer encoding

FLIT encodes an unsigned word in `1 .. sizeof(T) + 1` bytes. The first byte announces the
length by its trailing zero count; the value follows, shifted past that header, in
little-endian order. A length of `sizeof(T) + 1` is an *escape*: a fixed header byte
(`(1 << sizeof(T)) & 0xFF`) followed by the whole word.

Every function here is the source's, over a byte memory (`Bytes.Mem`) and with `T` one of
the two word types the templates accept. Word arithmetic is `Nat` arithmetic reduced
modulo `2 ^ bits` where the C++ type wraps. One operation is treated specially: C++
defines `x << s` only for `s` below the width of `x`, and `shl` answers `none` outside
that range. A decoder that reaches such a shift therefore returns `none`: its result is
undefined behaviour, not a value.

## What is proved

* `encodingLength_eq`, `encodingLength_least`: `EncodingLength` is the least length whose
  range holds the value — the bit-hack (`countl_zero`, the `63 ^ i` trick, `Div7Small`)
  computes `1 + ⌊log₂ (v | 1) / 7⌋`.
* `encodeT_small`, `encodeT_large`: `EncodeT` never shifts out of range and writes exactly
  the announced bytes; `encodeTFast_agree`: `EncodeTFast` writes the same prefix.
* `parseLengthT_encodeT`: `ParseLengthT` recovers the length of every encoding.
* `parseT_encodeT`, `parse64Fast_encodeT`, `parse64Safe_encodeT`: the three value
  decoders recover every value **except** those whose length is exactly `sizeof(T)`.
* `parseT_encodeT_full`, `parse64Fast_encodeT_full`, `parse64Safe_encodeT_full`: at that
  length each decoder builds its mask as `(1 << index * 8) - 1` with `index * 8` equal
  to the word width, an undefined shift. The test table (`flit_test.cc`) decodes with a
  mask table whose entry for eight bytes is all ones, which is what the shift was meant
  to compute.
* `flit_round_trip` puts the round trip together, and `flit_full_length_decode_undefined`
  gives the least values whose decoding is undefined.
* `parse64Safe_stays_in_range`: on any input `Parse64Safe` reads only its range and returns
  a length that fits, except for a `0` header over exactly eight bytes, where it reads one
  byte past the end (`parse64_safe_reads_past_end`).
-/

set_option autoImplicit false

namespace Helio
namespace Flit

open Bytes

/-- The word types the templates accept (`static_assert` in `EncodeT` and `ParseT`). -/
inductive Word where
  | u32
  | u64
  deriving DecidableEq, Repr

namespace Word

/-- `sizeof(T)`. -/
def size : Word → Nat
  | u32 => 4
  | u64 => 8

/-- The width of `T` in bits. -/
def bits (T : Word) : Nat := 8 * T.size

@[simp] theorem size_u32 : u32.size = 4 := rfl
@[simp] theorem size_u64 : u64.size = 8 := rfl
@[simp] theorem bits_u32 : u32.bits = 32 := rfl
@[simp] theorem bits_u64 : u64.bits = 64 := rfl

end Word

/-! ## The source, function by function -/

/-- `x << s` on a `w`-bit unsigned word. C++ defines it only for `s < w`; `none` is the
    undefined case. -/
def shl (w x s : Nat) : Option Nat :=
  if s < w then some (x * 2 ^ s % 2 ^ w) else none

/-- `detail::Div7Small`: `(uint16_t(val) * 37) >> 8`, returned as a `uint8_t`. -/
def div7Small (val : Nat) : Nat := ((val * 37) >>> 8) % 256

/-- `detail::dispatch_impl<I>::visit(len, fun)`: the length `fun` is called with. It is
    `len` itself for `len ∈ [1, I]`; below that the chain bottoms out at
    `dispatch_impl<1>`, which calls `fun(1)` (after a debug `assert(len == 1)`). -/
def dispatch : Nat → Nat → Nat
  | 0, _ => 1
  | 1, _ => 1
  | I + 2, len => if len = I + 2 then I + 2 else dispatch (I + 1) len

/-- `EncodingLength`. -/
def encodingLength (T : Word) (v : Nat) : Nat :=
  -- uint8_t index = (sizeof(v) * 8 - 1) ^ absl::countl_zero(v | 1);
  let index := ((T.bits - 1) ^^^ countlZero T.bits (v ||| 1)) % 256
  let numBytes := div7Small index
  1 + numBytes

/-- The escape header `(1 << sizeof(T)) & 0xFF`, also `kMaxLenHeader` of the parsers. -/
def kMaxLenHeader (T : Word) : Nat := 2 ^ T.size % 256

/-- `EncodeT<T>(v, dest)`: the memory afterwards and the returned length. -/
def encodeT (T : Word) (v : Nat) (m : Mem) (dest : Nat) : Option (Mem × Nat) :=
  -- constexpr T kLarge = T(1) << (7 * sizeof(v));
  if 2 ^ (7 * T.size) ≤ v then
    -- *dest++ = (1 << sizeof(T)) & 0xFF; LE::StoreT(v, dest);
    some (storeLE (storeLE m dest 1 (kMaxLenHeader T)) (dest + 1) T.size v, T.size + 1)
  else
    let encLen := encodingLength T v
    -- v = ((v << 1) + 1) << (enc_len - 1); then memcpy of enc_len bytes through dispatch
    (shl T.bits ((v * 2 % 2 ^ T.bits + 1) % 2 ^ T.bits) (encLen - 1)).map fun v' =>
      (storeLE m dest (dispatch T.size encLen) v', encLen)

/-- `EncodeTFast<T>(v, dest)`: as `EncodeT`, but stores the whole shifted word. -/
def encodeTFast (T : Word) (v : Nat) (m : Mem) (dest : Nat) : Option (Mem × Nat) :=
  if 2 ^ (7 * T.size) ≤ v then
    some (storeLE (storeLE m dest 1 (kMaxLenHeader T)) (dest + 1) T.size v, T.size + 1)
  else
    let encLen := encodingLength T v
    (shl T.bits ((v * 2 % 2 ^ T.bits + 1) % 2 ^ T.bits) (encLen - 1)).map fun v' =>
      (storeLE m dest T.size v', encLen)

/-- `ParseLengthT<T>(src)`. -/
def parseLengthT (T : Word) (m : Mem) (src : Nat) : Nat :=
  let val := (m src).toNat
  if val &&& 0xFF = kMaxLenHeader T then T.size + 1 else 1 + countrZero 8 val

/-- `ParseT<T>(src, dest)`: the value stored to `*dest` and the returned length. -/
def parseT (T : Word) (m : Mem) (src : Nat) : Option (Nat × Nat) :=
  let val := loadLE m src T.size
  if val &&& 0xFF = kMaxLenHeader T then some (loadLE m (src + 1) T.size, T.size + 1)
  else
    let index := countrZero T.bits val + 1
    -- val &= ((T(1) << index * 8) - 1);
    (shl T.bits 1 (index * 8)).map fun bit =>
      ((val &&& (bit + 2 ^ T.bits - 1) % 2 ^ T.bits) >>> index, index)

/-- `Parse64Fast(src, v)`: the value stored to `*v` and the returned length. -/
def parse64Fast (m : Mem) (src : Nat) : Option (Nat × Nat) :=
  let val := loadLE m src 8
  if val &&& 0xff = 0 then some (loadLE m (src + 1) 8, 9)
  else
    let index := countrZero 64 val + 1
    (shl 64 1 (index * 8)).map fun bit =>
      ((val &&& (bit + 2 ^ 64 - 1) % 2 ^ 64) >>> index, index)

/-- `Parse64Safe(begin, end, v)` with `*v` holding `v` on entry: the returned length and
    `*v` on exit. -/
def parse64Safe (m : Mem) (beginPos endPos v : Nat) : Option (Nat × Nat) :=
  let sz := endPos - beginPos
  if (m beginPos).toNat = 0 then
    if sz < 8 then some (0, v)
    else
      let v := loadLE m (beginPos + 1) 8
      if v < 2 ^ 56 then some (0, v) else some (9, v)
  else
    let index := countrZero 8 (m beginPos).toNat + 1
    if sz < index then some (0, v)
    else
      -- memcpy(v, begin, len) replaces the low len bytes of *v
      let len := dispatch 8 index
      let v := v / 256 ^ len * 256 ^ len + loadLE m beginPos len
      (shl 64 1 (index * 8)).map fun bit =>
        (index, (v &&& (bit + 2 ^ 64 - 1) % 2 ^ 64) >>> index)

/-! ## The tables the source checks by `static_assert` -/

/-- `TestDiv7Small`, and `0` as well. -/
theorem div7Small_eq {i : Nat} (h : i < 70) : div7Small i = i / 7 := by
  revert i; decide

/-- `TestXorMinus`, and its 32-bit twin used by `EncodeT<uint32_t>`. -/
theorem xor_sixty_three {i : Nat} (h : i < 64) : 63 ^^^ i = 63 - i := by
  revert i; decide

theorem xor_thirty_one {i : Nat} (h : i < 32) : 31 ^^^ i = 31 - i := by
  revert i; decide

theorem dispatch_eq {I len : Nat} (h₁ : 1 ≤ len) (h₂ : len ≤ I) : dispatch I len = len := by
  induction I with
  | zero => omega
  | succ I ih =>
    cases I with
    | zero => simp [dispatch]; omega
    | succ I =>
      unfold dispatch
      by_cases he : len = I + 2
      · simp [he]
      · rw [if_neg he]; exact ih (by omega)

/-! ## `EncodingLength` is the least length whose range holds the value -/

theorem or_one_lt_two_pow {v k : Nat} (hk : 0 < k) : v ||| 1 < 2 ^ k ↔ v < 2 ^ k :=
  ⟨fun h => Nat.lt_of_le_of_lt Nat.left_le_or h,
   fun h => Nat.or_lt_two_pow h (Nat.one_lt_two_pow (by omega))⟩

/-- `(sizeof(T) * 8 - 1) ^ (sizeof(T) * 8 - 1 - i) = i`: the XOR undoes the subtraction. -/
theorem xor_bits_sub {T : Word} {i : Nat} (hi : i < T.bits) :
    (T.bits - 1) ^^^ (T.bits - 1 - i) = i := by
  cases T
  · simp only [Word.bits_u32] at hi ⊢
    rw [show (32 - 1 : Nat) = 31 by rfl, xor_thirty_one (by omega)]; omega
  · simp only [Word.bits_u64] at hi ⊢
    rw [show (64 - 1 : Nat) = 63 by rfl, xor_sixty_three (by omega)]; omega

/-- The bit-hack computes `1 + ⌊log₂ (v | 1) / 7⌋`. -/
theorem encodingLength_eq {T : Word} {v : Nat} (hv : v < 2 ^ T.bits) :
    encodingLength T v = 1 + (v ||| 1).log2 / 7 := by
  have hx : v ||| 1 ≠ 0 := by
    have : 1 ≤ v ||| 1 := Nat.right_le_or
    omega
  have hbits : 0 < T.bits := by cases T <;> simp
  have hxw : v ||| 1 < 2 ^ T.bits := (or_one_lt_two_pow hbits).mpr hv
  have hlog : (v ||| 1).log2 < T.bits := (Nat.log2_lt hx).mpr hxw
  have hsmall : T.bits ≤ 64 := by cases T <;> simp
  unfold encodingLength
  simp only
  rw [countlZero_eq hx hxw, xor_bits_sub hlog, Nat.mod_eq_of_lt (by omega),
    div7Small_eq (by omega)]

theorem encodingLength_pos (T : Word) (v : Nat) : 0 < encodingLength T v := by
  unfold encodingLength; dsimp only; omega

/-- **`EncodingLength` is the least length whose range holds `v`**: a length `k ≥ 1`
    is enough exactly when `v < 2 ^ (7 * k)`. -/
theorem encodingLength_le_iff {T : Word} {v k : Nat} (hv : v < 2 ^ T.bits) (hk : 0 < k) :
    encodingLength T v ≤ k ↔ v < 2 ^ (7 * k) := by
  have hx : v ||| 1 ≠ 0 := by
    have : 1 ≤ v ||| 1 := Nat.right_le_or
    omega
  rw [encodingLength_eq hv, ← @or_one_lt_two_pow v (7 * k) (by omega), ← Nat.log2_lt hx]
  omega

/-- A value below the escape bound is encoded in at most `sizeof(T)` bytes. -/
theorem encodingLength_le_size {T : Word} {v : Nat} (hv : v < 2 ^ (7 * T.size)) :
    encodingLength T v ≤ T.size := by
  have hw : v < 2 ^ T.bits := Nat.lt_of_lt_of_le hv
    (Nat.pow_le_pow_right (by norm_num) (by cases T <;> simp [Word.bits]))
  exact (encodingLength_le_iff hw (by cases T <;> simp)).mpr hv

/-! ## The encoders -/

/-- The word `EncodeT` writes below the escape bound: the value shifted past its header
    bit, `((v << 1) + 1) << (n - 1)`. -/
def flitWord (n v : Nat) : Nat := 2 ^ (n - 1) * (2 * v + 1)

theorem flitWord_lt {n v : Nat} (hn : 0 < n) (hv : v < 2 ^ (7 * n)) :
    flitWord n v < 256 ^ n := by
  unfold flitWord
  have h256 : (256 : Nat) ^ n = 2 ^ (n - 1) * 2 ^ (7 * n + 1) := by
    rw [show (256 : Nat) = 2 ^ 8 by rfl, ← Nat.pow_mul, ← Nat.pow_add]; congr 1; omega
  rw [h256]
  apply Nat.mul_lt_mul_of_pos_left _ (Nat.two_pow_pos _)
  rw [Nat.pow_succ]; omega

/-- The shift both encoders apply below the escape bound stays inside `T`: the word
    is `flitWord n v`. -/
theorem shl_flitWord {T : Word} {v : Nat} (hv : v < 2 ^ (7 * T.size)) :
    shl T.bits ((v * 2 % 2 ^ T.bits + 1) % 2 ^ T.bits) (encodingLength T v - 1) =
      some (flitWord (encodingLength T v) v) := by
  have hle := encodingLength_le_size hv
  have hpos := encodingLength_pos T v
  have hbits : T.bits = 7 * T.size + T.size := by cases T <;> rfl
  have hsize : 0 < T.size := by cases T <;> simp
  have h2v : v * 2 + 1 < 2 ^ T.bits := by
    rw [hbits, Nat.pow_add]
    have : 2 ≤ 2 ^ T.size := Nat.le_self_pow (by omega) 2
    have := Nat.mul_le_mul_left (2 ^ (7 * T.size)) this
    omega
  have hfits : flitWord (encodingLength T v) v < 2 ^ T.bits := by
    have h := flitWord_lt hpos ((encodingLength_le_iff (Nat.lt_of_lt_of_le hv
      (Nat.pow_le_pow_right (by norm_num) (by omega))) hpos).mp (Nat.le_refl _))
    refine Nat.lt_of_lt_of_le h ?_
    rw [show (256 : Nat) = 2 ^ 8 by rfl, ← Nat.pow_mul]
    exact Nat.pow_le_pow_right (by norm_num) (by cases T <;> simp [Word.bits] at hle ⊢ <;> omega)
  rw [Nat.mod_eq_of_lt (show v * 2 < 2 ^ T.bits by omega), Nat.mod_eq_of_lt h2v]
  unfold shl flitWord at *
  rw [if_pos (by omega), show (v * 2 + 1) * 2 ^ (encodingLength T v - 1) =
    2 ^ (encodingLength T v - 1) * (2 * v + 1) by ring, Nat.mod_eq_of_lt hfits]

/-- **`EncodeT` below the escape bound**: no shift leaves the word, and exactly the
    announced `n` bytes are written. -/
theorem encodeT_small {T : Word} {v : Nat} (m : Mem) (dest : Nat) (hv : v < 2 ^ (7 * T.size)) :
    encodeT T v m dest =
      some (storeLE m dest (encodingLength T v) (flitWord (encodingLength T v) v),
        encodingLength T v) := by
  unfold encodeT
  dsimp only
  rw [if_neg (by omega), shl_flitWord hv,
    dispatch_eq (encodingLength_pos T v) (encodingLength_le_size hv)]
  rfl

theorem encodeTFast_small {T : Word} {v : Nat} (m : Mem) (dest : Nat)
    (hv : v < 2 ^ (7 * T.size)) :
    encodeTFast T v m dest =
      some (storeLE m dest T.size (flitWord (encodingLength T v) v), encodingLength T v) := by
  unfold encodeTFast
  dsimp only
  rw [if_neg (by omega), shl_flitWord hv]
  rfl

/-- **`EncodeT` at or above the escape bound**: the header byte, then the whole word. -/
theorem encodeT_large {T : Word} {v : Nat} (m : Mem) (dest : Nat)
    (hv : 2 ^ (7 * T.size) ≤ v) :
    encodeT T v m dest =
      some (storeLE (storeLE m dest 1 (kMaxLenHeader T)) (dest + 1) T.size v, T.size + 1) := by
  unfold encodeT; rw [if_pos hv]

/-! ## What the decoders see of an encoding -/

theorem and_ff (x : Nat) : x &&& 0xFF = x % 256 := by
  rw [show (0xFF : Nat) = 2 ^ 8 - 1 by rfl, Nat.and_two_pow_sub_one_eq_mod]

/-- The trailing zeros of an encoded word, whatever follows it, are its length minus one. -/
theorem countrZero_flitWord {w n v : Nat} (r : Nat) (hn : 0 < n) (hw : n - 1 < w) :
    countrZero w (flitWord n v + 256 ^ n * r) = n - 1 := by
  have h256 : (256 : Nat) ^ n = 2 ^ (8 * n) := by
    rw [show (256 : Nat) = 2 ^ 8 by rfl, ← Nat.pow_mul]
  unfold flitWord
  rw [h256]
  exact countrZero_two_pow_mul_odd_add _ _ (by omega) hw

/-- The same count read off the first byte alone. -/
theorem countrZero_flitWord_byte {n v : Nat} (hn : 0 < n) (h8 : n ≤ 8) :
    countrZero 8 (flitWord n v % 256) = n - 1 := by
  obtain ⟨c, hc⟩ := two_pow_mul_odd_mod (j := n - 1) (k := 8) v (by omega)
  unfold flitWord
  rw [show (256 : Nat) = 2 ^ 8 by rfl, hc, countrZero_two_pow_mul_odd _ (by omega)]

theorem flitWord_add_mod_256 {n v : Nat} (r : Nat) (hn : 0 < n) :
    (flitWord n v + 256 ^ n * r) % 256 = flitWord n v % 256 := by
  obtain ⟨k, rfl⟩ : ∃ k, n = k + 1 := ⟨n - 1, by omega⟩
  rw [Nat.pow_succ, Nat.mul_comm (256 ^ k) 256, Nat.mul_assoc, Nat.add_mul_mod_self_left]

/-- A first byte below the escape bound never looks like the escape header: its lowest
    set bit is below bit `sizeof(T)`, where the header has its only one. -/
theorem flitWord_byte_ne_header {T : Word} {n v : Nat} (hn : 0 < n) (hle : n ≤ T.size) :
    flitWord n v % 256 ≠ kMaxLenHeader T := by
  intro h
  have hc := countrZero_flitWord_byte (v := v) hn (by cases T <;> simp at hle ⊢ <;> omega)
  rw [h] at hc
  cases T
  · have : countrZero 8 (kMaxLenHeader Word.u32) = 4 := by decide
    simp at hle; omega
  · have : countrZero 8 (kMaxLenHeader Word.u64) = 8 := by decide
    simp at hle; omega

/-- **The mask-and-shift step recovers the value**, when the mask's shift is defined. -/
theorem mask_shift_flitWord {w n v : Nat} (r : Nat) (hn : 0 < n) (hw : n * 8 < w)
    (hv : v < 2 ^ (7 * n)) :
    (flitWord n v + 256 ^ n * r &&& (2 ^ (n * 8) + 2 ^ w - 1) % 2 ^ w) >>> n = v := by
  have h256 : (256 : Nat) ^ n = 2 ^ (n * 8) := by
    rw [show (256 : Nat) = 2 ^ 8 by rfl, ← Nat.pow_mul, Nat.mul_comm]
  have hmask : (2 ^ (n * 8) + 2 ^ w - 1) % 2 ^ w = 2 ^ (n * 8) - 1 := by
    have hlt : 2 ^ (n * 8) < 2 ^ w := Nat.pow_lt_pow_right (by norm_num) hw
    have hpos : 0 < 2 ^ (n * 8) := Nat.two_pow_pos _
    rw [show 2 ^ (n * 8) + 2 ^ w - 1 = 2 ^ (n * 8) - 1 + 2 ^ w by omega, Nat.add_mod_right,
      Nat.mod_eq_of_lt (by omega)]
  have hfits := flitWord_lt hn hv
  rw [hmask, Nat.and_two_pow_sub_one_eq_mod, ← h256, Nat.add_mul_mod_self_left,
    Nat.mod_eq_of_lt hfits, Nat.shiftRight_eq_div_pow]
  -- `2^(n-1) * (2v + 1) = v * 2^n + 2^(n-1)`
  unfold flitWord
  have hsplit : 2 ^ (n - 1) * (2 * v + 1) = v * 2 ^ n + 2 ^ (n - 1) := by
    obtain ⟨k, rfl⟩ : ∃ k, n = k + 1 := ⟨n - 1, by omega⟩
    simp only [Nat.add_sub_cancel, Nat.pow_succ]; ring
  rw [hsplit, Nat.add_div_of_dvd_right (Nat.dvd_mul_left _ _),
    Nat.mul_div_cancel _ (Nat.two_pow_pos n),
    Nat.div_eq_of_lt (Nat.pow_lt_pow_right (by norm_num) (by omega)), Nat.add_zero]

/-- The first byte of the escape encoding is the header. -/
theorem escape_byte {T : Word} (m : Mem) (dest v : Nat) :
    (storeLE (storeLE m dest 1 (kMaxLenHeader T)) (dest + 1) T.size v dest).toNat =
      kMaxLenHeader T := by
  rw [storeLE_of_lt (by omega), storeLE_of_mem (Nat.le_refl _) (by omega), Nat.sub_self,
    Nat.pow_zero, Nat.div_one]
  cases T <;> decide

theorem escape_load_mod {T : Word} (m : Mem) (dest v k : Nat) (hk : 0 < k) :
    loadLE (storeLE (storeLE m dest 1 (kMaxLenHeader T)) (dest + 1) T.size v) dest k % 256 =
      kMaxLenHeader T := by
  obtain ⟨k, rfl⟩ : ∃ k', k = k' + 1 := ⟨k - 1, by omega⟩
  rw [loadLE_succ, Nat.add_mul_mod_self_left, escape_byte]
  cases T <;> decide

theorem escape_load_value {T : Word} (m : Mem) (dest v : Nat) (hv : v < 2 ^ T.bits) :
    loadLE (storeLE (storeLE m dest 1 (kMaxLenHeader T)) (dest + 1) T.size v) (dest + 1)
      T.size = v := by
  rw [loadLE_storeLE (Nat.le_refl _), Nat.mod_eq_of_lt]
  rwa [show (256 : Nat) = 2 ^ 8 by rfl, ← Nat.pow_mul]

/-! ## The decoders against the encoder -/

/-- **`ParseLengthT` recovers the length of every encoding.** -/
theorem parseLengthT_encodeT {T : Word} {v : Nat} {m m' : Mem} {dest n : Nat}
    (hv : v < 2 ^ T.bits) (henc : encodeT T v m dest = some (m', n)) :
    parseLengthT T m' dest = n := by
  by_cases hl : 2 ^ (7 * T.size) ≤ v
  · rw [encodeT_large m dest hl, Option.some.injEq, Prod.mk.injEq] at henc
    obtain ⟨rfl, rfl⟩ := henc
    unfold parseLengthT
    rw [if_pos (by rw [and_ff, escape_byte]; cases T <;> decide)]
  · rw [encodeT_small m dest (by omega), Option.some.injEq, Prod.mk.injEq] at henc
    obtain ⟨rfl, rfl⟩ := henc
    have hpos := encodingLength_pos T v
    have hle := encodingLength_le_size (T := T) (v := v) (by omega)
    have hbyte : (storeLE m dest (encodingLength T v) (flitWord (encodingLength T v) v)
        dest).toNat = flitWord (encodingLength T v) v % 256 := by
      rw [storeLE_of_mem (Nat.le_refl _) (by omega)]; simp
    unfold parseLengthT
    dsimp only
    rw [hbyte, and_ff, Nat.mod_mod, if_neg (flitWord_byte_ne_header hpos hle),
      countrZero_flitWord_byte hpos (by cases T <;> simp at hle ⊢ <;> omega)]
    omega

/-- What `ParseT` and `Parse64Fast` load from a non-escape encoding. -/
theorem load_flitWord {T : Word} {v k : Nat} (m : Mem) (dest : Nat)
    (hv : v < 2 ^ (7 * T.size)) (hk : encodingLength T v ≤ k) :
    loadLE (storeLE m dest (encodingLength T v) (flitWord (encodingLength T v) v)) dest k =
      flitWord (encodingLength T v) v +
        256 ^ encodingLength T v * loadLE m (dest + encodingLength T v)
          (k - encodingLength T v) := by
  have hw : v < 2 ^ T.bits := Nat.lt_of_lt_of_le hv
    (Nat.pow_le_pow_right (by norm_num) (by cases T <;> simp [Word.bits]))
  apply loadLE_storeLE_extend hk
  exact flitWord_lt (encodingLength_pos T v)
    ((encodingLength_le_iff hw (encodingLength_pos T v)).mp (Nat.le_refl _))

/-- **`ParseT` recovers every value whose encoding is not exactly `sizeof(T)` bytes.** -/
theorem parseT_encodeT {T : Word} {v : Nat} {m m' : Mem} {dest n : Nat}
    (hv : v < 2 ^ T.bits) (henc : encodeT T v m dest = some (m', n)) (hn : n ≠ T.size) :
    parseT T m' dest = some (v, n) := by
  by_cases hl : 2 ^ (7 * T.size) ≤ v
  · rw [encodeT_large m dest hl, Option.some.injEq, Prod.mk.injEq] at henc
    obtain ⟨rfl, rfl⟩ := henc
    unfold parseT
    rw [if_pos (by rw [and_ff, escape_load_mod _ _ _ _ (by cases T <;> simp)]),
      escape_load_value m dest v hv]
  · rw [encodeT_small m dest (by omega), Option.some.injEq, Prod.mk.injEq] at henc
    obtain ⟨rfl, rfl⟩ := henc
    have hpos := encodingLength_pos T v
    have hle := encodingLength_le_size (T := T) (v := v) (by omega)
    have hbits : T.bits = 8 * T.size := rfl
    unfold parseT
    dsimp only
    rw [load_flitWord m dest (by omega) hle, and_ff, flitWord_add_mod_256 _ hpos,
      if_neg (flitWord_byte_ne_header hpos hle),
      countrZero_flitWord _ hpos (by omega), Nat.sub_add_cancel hpos]
    unfold shl
    rw [if_pos (by omega), Option.map_some, Nat.one_mul, Nat.mod_eq_of_lt
      (Nat.pow_lt_pow_right (by norm_num) (by omega)),
      mask_shift_flitWord _ hpos (by omega)
        ((encodingLength_le_iff hv hpos).mp (Nat.le_refl _))]

/-- **At exactly `sizeof(T)` bytes `ParseT` shifts by the word width**: undefined. -/
theorem parseT_encodeT_full {T : Word} {v : Nat} {m m' : Mem} {dest n : Nat}
    (henc : encodeT T v m dest = some (m', n)) (hn : n = T.size) :
    parseT T m' dest = none := by
  by_cases hl : 2 ^ (7 * T.size) ≤ v
  · rw [encodeT_large m dest hl, Option.some.injEq, Prod.mk.injEq] at henc
    omega
  · rw [encodeT_small m dest (by omega), Option.some.injEq, Prod.mk.injEq] at henc
    obtain ⟨rfl, rfl⟩ := henc
    have hpos := encodingLength_pos T v
    have hle := encodingLength_le_size (T := T) (v := v) (by omega)
    have hbits : T.bits = 8 * T.size := rfl
    unfold parseT
    dsimp only
    rw [load_flitWord m dest (by omega) hle, and_ff, flitWord_add_mod_256 _ hpos,
      if_neg (flitWord_byte_ne_header hpos hle),
      countrZero_flitWord _ hpos (by omega), Nat.sub_add_cancel hpos]
    unfold shl
    rw [if_neg (by omega), Option.map_none]

/-- **`Parse64Fast` recovers every 64-bit value whose encoding is not exactly eight
    bytes.** -/
theorem parse64Fast_encodeT {v : Nat} {m m' : Mem} {dest n : Nat} (hv : v < 2 ^ 64)
    (henc : encodeT .u64 v m dest = some (m', n)) (hn : n ≠ 8) :
    parse64Fast m' dest = some (v, n) := by
  by_cases hl : 2 ^ (7 * Word.u64.size) ≤ v
  · rw [encodeT_large m dest hl, Option.some.injEq, Prod.mk.injEq] at henc
    obtain ⟨rfl, rfl⟩ := henc
    have hval : loadLE (storeLE (storeLE m dest 1 (kMaxLenHeader Word.u64)) (dest + 1)
        Word.u64.size v) (dest + 1) 8 = v := escape_load_value (T := Word.u64) m dest v hv
    unfold parse64Fast
    rw [if_pos (by rw [and_ff, escape_load_mod (T := Word.u64) _ _ _ _ (by omega)]; rfl), hval]
    rfl
  · rw [encodeT_small m dest (by omega), Option.some.injEq, Prod.mk.injEq] at henc
    obtain ⟨rfl, rfl⟩ := henc
    have hpos := encodingLength_pos Word.u64 v
    have hle := encodingLength_le_size (T := Word.u64) (v := v) (by omega)
    simp only [Word.size_u64] at hle
    have hne : flitWord (encodingLength Word.u64 v) v % 256 ≠ 0 :=
      flitWord_byte_ne_header (T := Word.u64) hpos (by simpa using hle)
    unfold parse64Fast
    dsimp only
    rw [load_flitWord (k := 8) m dest (by omega) hle, and_ff, flitWord_add_mod_256 _ hpos,
      if_neg hne, countrZero_flitWord _ hpos (by omega), Nat.sub_add_cancel hpos]
    unfold shl
    rw [if_pos (by omega), Option.map_some, Nat.one_mul, Nat.mod_eq_of_lt
      (Nat.pow_lt_pow_right (by norm_num) (by omega)),
      mask_shift_flitWord _ hpos (by omega)
        ((encodingLength_le_iff (T := Word.u64) hv hpos).mp (Nat.le_refl _))]

/-- **At exactly eight bytes `Parse64Fast` shifts `1ULL` by 64**: undefined. -/
theorem parse64Fast_encodeT_full {v : Nat} {m m' : Mem} {dest n : Nat}
    (henc : encodeT .u64 v m dest = some (m', n)) (hn : n = 8) :
    parse64Fast m' dest = none := by
  by_cases hl : 2 ^ (7 * Word.u64.size) ≤ v
  · rw [encodeT_large m dest hl, Option.some.injEq, Prod.mk.injEq] at henc
    simp at henc; omega
  · rw [encodeT_small m dest (by omega), Option.some.injEq, Prod.mk.injEq] at henc
    obtain ⟨rfl, rfl⟩ := henc
    have hpos := encodingLength_pos Word.u64 v
    have hle := encodingLength_le_size (T := Word.u64) (v := v) (by omega)
    simp only [Word.size_u64] at hle
    have hne : flitWord (encodingLength Word.u64 v) v % 256 ≠ 0 :=
      flitWord_byte_ne_header (T := Word.u64) hpos (by simpa using hle)
    unfold parse64Fast
    dsimp only
    rw [load_flitWord (k := 8) m dest (by omega) hle, and_ff, flitWord_add_mod_256 _ hpos,
      if_neg hne, countrZero_flitWord _ hpos (by omega), Nat.sub_add_cancel hpos]
    unfold shl
    rw [if_neg (by omega), Option.map_none]

/-- The first byte of a non-escape encoding. -/
theorem first_byte_flitWord {T : Word} {v : Nat} (m : Mem) (dest : Nat) :
    (storeLE m dest (encodingLength T v) (flitWord (encodingLength T v) v) dest).toNat =
      flitWord (encodingLength T v) v % 256 := by
  rw [storeLE_of_mem (Nat.le_refl _) (by have := encodingLength_pos T v; omega)]; simp

/-- **`Parse64Safe` over exactly the encoded bytes recovers every 64-bit value whose
    encoding is not eight bytes long**, whatever `*v` held before. -/
theorem parse64Safe_encodeT {v : Nat} {m m' : Mem} {dest n : Nat} (v₀ : Nat) (hv : v < 2 ^ 64)
    (henc : encodeT .u64 v m dest = some (m', n)) (hn : n ≠ 8) :
    parse64Safe m' dest (dest + n) v₀ = some (n, v) := by
  by_cases hl : 2 ^ (7 * Word.u64.size) ≤ v
  · rw [encodeT_large m dest hl, Option.some.injEq, Prod.mk.injEq] at henc
    obtain ⟨rfl, rfl⟩ := henc
    have hval : loadLE (storeLE (storeLE m dest 1 (kMaxLenHeader Word.u64)) (dest + 1)
        Word.u64.size v) (dest + 1) 8 = v := escape_load_value (T := Word.u64) m dest v hv
    have hbyte : (storeLE (storeLE m dest 1 (kMaxLenHeader Word.u64)) (dest + 1) Word.u64.size v
        dest).toNat = 0 := escape_byte (T := Word.u64) m dest v
    simp only [Word.size_u64] at hl
    unfold parse64Safe
    dsimp only
    rw [if_pos hbyte, if_neg (by simp), hval, if_neg (by omega)]
    rfl
  · rw [encodeT_small m dest (by omega), Option.some.injEq, Prod.mk.injEq] at henc
    obtain ⟨rfl, rfl⟩ := henc
    have hpos := encodingLength_pos Word.u64 v
    have hle := encodingLength_le_size (T := Word.u64) (v := v) (by omega)
    simp only [Word.size_u64] at hle
    have hne : flitWord (encodingLength Word.u64 v) v % 256 ≠ 0 :=
      flitWord_byte_ne_header (T := Word.u64) hpos (by simpa using hle)
    unfold parse64Safe
    dsimp only
    rw [first_byte_flitWord, if_neg hne, countrZero_flitWord_byte hpos hle,
      Nat.sub_add_cancel hpos, if_neg (by omega), dispatch_eq hpos hle,
      loadLE_storeLE (Nat.le_refl _), Nat.mod_eq_of_lt (flitWord_lt hpos
        ((encodingLength_le_iff (T := Word.u64) hv hpos).mp (Nat.le_refl _)))]
    unfold shl
    rw [if_pos (by omega), Option.map_some, Nat.one_mul, Nat.mod_eq_of_lt
      (Nat.pow_lt_pow_right (by norm_num) (by omega)), Nat.add_comm, Nat.mul_comm (v₀ / _),
      mask_shift_flitWord _ hpos (by omega)
        ((encodingLength_le_iff (T := Word.u64) hv hpos).mp (Nat.le_refl _))]

/-- **At exactly eight bytes `Parse64Safe` shifts `1ULL` by 64 as well.** -/
theorem parse64Safe_encodeT_full {v : Nat} {m m' : Mem} {dest n : Nat} (v₀ : Nat)
    (henc : encodeT .u64 v m dest = some (m', n)) (hn : n = 8) :
    parse64Safe m' dest (dest + n) v₀ = none := by
  by_cases hl : 2 ^ (7 * Word.u64.size) ≤ v
  · rw [encodeT_large m dest hl, Option.some.injEq, Prod.mk.injEq] at henc
    simp at henc; omega
  · rw [encodeT_small m dest (by omega), Option.some.injEq, Prod.mk.injEq] at henc
    obtain ⟨rfl, rfl⟩ := henc
    have hpos := encodingLength_pos Word.u64 v
    have hle := encodingLength_le_size (T := Word.u64) (v := v) (by omega)
    simp only [Word.size_u64] at hle
    have hne : flitWord (encodingLength Word.u64 v) v % 256 ≠ 0 :=
      flitWord_byte_ne_header (T := Word.u64) hpos (by simpa using hle)
    unfold parse64Safe
    dsimp only
    rw [first_byte_flitWord, if_neg hne, countrZero_flitWord_byte hpos hle,
      Nat.sub_add_cancel hpos, if_neg (by omega)]
    unfold shl
    rw [if_neg (by omega), Option.map_none]

/-- **`EncodeTFast` writes the same first `n` bytes as `EncodeT` and returns the same
    length.** -/
theorem encodeTFast_agree {T : Word} {v : Nat} {m m' : Mem} {dest n : Nat}
    (henc : encodeT T v m dest = some (m', n)) :
    ∃ m'', encodeTFast T v m dest = some (m'', n) ∧
      ∀ q, dest ≤ q → q < dest + n → m'' q = m' q := by
  by_cases hl : 2 ^ (7 * T.size) ≤ v
  · rw [encodeT_large m dest hl] at henc
    refine ⟨m', ?_, fun _ _ _ => rfl⟩
    unfold encodeTFast; rw [if_pos hl, henc]
  · rw [encodeT_small m dest (by omega), Option.some.injEq, Prod.mk.injEq] at henc
    obtain ⟨rfl, rfl⟩ := henc
    exact ⟨_, encodeTFast_small m dest (by omega), fun q h₁ h₂ =>
      storeLE_agree (encodingLength_le_size (by omega)) h₁ h₂⟩

/-! ## The round trip, and where it fails -/

/-- **`EncodeT` returns the least length whose range holds `v`**: `sizeof(T) + 1` at or
    above the escape bound, `EncodingLength(v)` below it, and in both cases exactly the
    lengths `k ≤ sizeof(T)` with `v < 2 ^ (7k)` are the ones at least as long. -/
theorem encodeT_length {T : Word} {v : Nat} (m : Mem) (dest : Nat) (hv : v < 2 ^ T.bits) :
    ∃ m', encodeT T v m dest =
        some (m', if 2 ^ (7 * T.size) ≤ v then T.size + 1 else encodingLength T v) ∧
      ∀ k, 0 < k → k ≤ T.size →
        (v < 2 ^ (7 * k) ↔ (if 2 ^ (7 * T.size) ≤ v then T.size + 1 else encodingLength T v) ≤ k) := by
  by_cases hl : 2 ^ (7 * T.size) ≤ v
  · refine ⟨_, by rw [encodeT_large m dest hl, if_pos hl], fun k hk hks => ?_⟩
    rw [if_pos hl]
    have : 2 ^ (7 * k) ≤ 2 ^ (7 * T.size) := Nat.pow_le_pow_right (by norm_num) (by omega)
    omega
  · refine ⟨_, by rw [encodeT_small m dest (by omega), if_neg hl], fun k hk _ => ?_⟩
    rw [if_neg hl]
    exact (encodingLength_le_iff hv hk).symm

/-- **The round trip, off the encodings of exactly `sizeof(T)` bytes.** For every word
    type and every value of it, `EncodeT` returns the least length whose range holds the
    value, `ParseLengthT` reads that length back, and `EncodeTFast` writes the same bytes
    and length. Unless the length is `sizeof(T)`, `ParseT` and, for `uint64_t`,
    `Parse64Fast` and `Parse64Safe` over exactly the encoded bytes decode the value. -/
theorem flit_round_trip {T : Word} {v : Nat} (m : Mem) (dest : Nat) (hv : v < 2 ^ T.bits) :
    ∃ m' n, encodeT T v m dest = some (m', n) ∧
      n = (if 2 ^ (7 * T.size) ≤ v then T.size + 1 else encodingLength T v) ∧
      (∀ k, 0 < k → k ≤ T.size → (v < 2 ^ (7 * k) ↔ n ≤ k)) ∧
      parseLengthT T m' dest = n ∧
      (∃ m'', encodeTFast T v m dest = some (m'', n) ∧
        ∀ q, dest ≤ q → q < dest + n → m'' q = m' q) ∧
      (n ≠ T.size → parseT T m' dest = some (v, n) ∧
        (T = .u64 → parse64Fast m' dest = some (v, n) ∧
          ∀ v₀, parse64Safe m' dest (dest + n) v₀ = some (n, v))) := by
  obtain ⟨m', henc, hleast⟩ := encodeT_length m dest hv
  refine ⟨m', _, henc, rfl, hleast, parseLengthT_encodeT hv henc, encodeTFast_agree henc,
    fun hn => ⟨parseT_encodeT hv henc hn, ?_⟩⟩
  rintro rfl
  exact ⟨parse64Fast_encodeT hv henc hn, fun v₀ => parse64Safe_encodeT v₀ hv henc hn⟩

/-- The largest `uint64_t` takes the escape: a `0` header and the eight bytes of the word,
    which every decoder reads back. -/
theorem flit_round_trip_max :
    ∃ m', encodeT .u64 (2 ^ 64 - 1) (fun _ => 0) 0 = some (m', 9) ∧
      parseLengthT .u64 m' 0 = 9 ∧ parseT .u64 m' 0 = some (2 ^ 64 - 1, 9) ∧
      parse64Fast m' 0 = some (2 ^ 64 - 1, 9) ∧ parse64Safe m' 0 9 0 = some (9, 2 ^ 64 - 1) := by
  obtain ⟨m', n, henc, hn, -, hlen, -, hdec⟩ :=
    flit_round_trip (T := .u64) (v := 2 ^ 64 - 1) (fun _ => 0) 0 (by decide)
  have h9 : n = 9 := by rw [hn, if_pos (by decide)]; rfl
  subst h9
  obtain ⟨hparse, h64⟩ := hdec (by decide)
  obtain ⟨hfast, hsafe⟩ := h64 rfl
  exact ⟨m', henc, hlen, hparse, hfast, hsafe 0⟩

/-- **The failing input.** `2^49`, the least value with an eight-byte encoding: `EncodeT`
    writes eight bytes, and `ParseT<uint64_t>`, `Parse64Fast` and `Parse64Safe` over them
    all reach `1ULL << 64`. Its 32-bit twin is `2^21`, four bytes, and `ParseT<uint32_t>`
    reaching `T(1) << 32`. -/
theorem flit_full_length_decode_undefined :
    (∃ m', encodeT .u64 (2 ^ 49) (fun _ => 0) 0 = some (m', 8) ∧
      parseT .u64 m' 0 = none ∧ parse64Fast m' 0 = none ∧ parse64Safe m' 0 8 0 = none) ∧
    (∃ m', encodeT .u32 (2 ^ 21) (fun _ => 0) 0 = some (m', 4) ∧
      parseT .u32 m' 0 = none) := by
  have h64 : encodingLength .u64 (2 ^ 49) = 8 := by decide
  have h32 : encodingLength .u32 (2 ^ 21) = 4 := by decide
  have e64 := encodeT_small (T := .u64) (fun _ => 0) 0 (v := 2 ^ 49) (by norm_num)
  have e32 := encodeT_small (T := .u32) (fun _ => 0) 0 (v := 2 ^ 21) (by norm_num)
  rw [h64] at e64
  rw [h32] at e32
  exact ⟨⟨_, e64, parseT_encodeT_full e64 rfl, parse64Fast_encodeT_full e64 rfl,
      parse64Safe_encodeT_full 0 e64 rfl⟩, ⟨_, e32, parseT_encodeT_full e32 rfl⟩⟩

/-! ## `Parse64Safe` on arbitrary input

`Parse64Safe` is the decoder meant for untrusted bytes, so what matters is what it does on
a range whatever its contents. Off one case it stays inside the range
(`parse64Safe_congr`) and returns a length that fits (`parse64Safe_length_le`). The case is
a `0` header (nine bytes announced) over a range of exactly eight bytes: the size check is
`sz < 8` where nine bytes are needed, so the load after the header reads the byte at
`end`. -/

/-- A nonzero byte has fewer than eight trailing zeros, so a nonzero header announces
    between one and eight bytes. -/
theorem countrZero_byte_lt {x : Nat} (hx : x < 256) (h0 : x ≠ 0) : countrZero 8 x < 8 :=
  countrZero_lt (by rw [Nat.mod_eq_of_lt (by norm_num; omega)]; exact h0)

/-- **Off the short escape range `Parse64Safe` sees only the bytes of its range.** Two
    memories that agree on `[begin, end)` give the same length and value, unless the header
    is `0` and the range holds exactly eight bytes. -/
theorem parse64Safe_congr {m m' : Mem} {b e : Nat} (v : Nat) (hbe : b < e)
    (h : ∀ i, i < e - b → m (b + i) = m' (b + i)) (hesc : (m b).toNat = 0 → e - b ≠ 8) :
    parse64Safe m b e v = parse64Safe m' b e v := by
  have h0 : m' b = m b := by simpa using (h 0 (by omega)).symm
  unfold parse64Safe
  dsimp only
  rw [h0]
  by_cases hz : (m b).toNat = 0
  · rw [if_pos hz, if_pos hz]
    by_cases hsz : e - b < 8
    · rw [if_pos hsz, if_pos hsz]
    · -- nine bytes at least: the load covers `[b + 1, b + 9)`, inside the range
      have hnine : 9 ≤ e - b := by have := hesc hz; omega
      have hload : loadLE m (b + 1) 8 = loadLE m' (b + 1) 8 :=
        loadLE_congr fun i hi => by
          simpa [Nat.add_assoc, Nat.add_comm 1 i] using h (i + 1) (by omega)
      rw [if_neg hsz, if_neg hsz, hload]
  · rw [if_neg hz, if_neg hz]
    have hidx := countrZero_byte_lt (m b).toNat_lt hz
    by_cases hsz : e - b < countrZero 8 (m b).toNat + 1
    · rw [if_pos hsz, if_pos hsz]
    · -- `memcpy` copies the announced length, which the range holds
      have hlen : dispatch 8 (countrZero 8 (m b).toNat + 1) = countrZero 8 (m b).toNat + 1 :=
        dispatch_eq (by omega) (by omega)
      have hload : loadLE m b (dispatch 8 (countrZero 8 (m b).toNat + 1)) =
          loadLE m' b (dispatch 8 (countrZero 8 (m b).toNat + 1)) :=
        loadLE_congr fun i hi => h i (by omega)
      rw [if_neg hsz, if_neg hsz, hload]

/-- **Off the short escape range a result fits in the range**: `Parse64Safe` returns `0`
    or a length of at most `end - begin`. -/
theorem parse64Safe_length_le {m : Mem} {b e v n v' : Nat}
    (h : parse64Safe m b e v = some (n, v')) (hesc : (m b).toNat = 0 → e - b ≠ 8) :
    n ≤ e - b := by
  unfold parse64Safe at h
  dsimp only at h
  by_cases hz : (m b).toNat = 0
  · rw [if_pos hz] at h
    by_cases hsz : e - b < 8
    · rw [if_pos hsz, Option.some.injEq, Prod.mk.injEq] at h
      omega
    · have hnine : 9 ≤ e - b := by have := hesc hz; omega
      rw [if_neg hsz] at h
      split at h <;>
        · rw [Option.some.injEq, Prod.mk.injEq] at h
          omega
  · rw [if_neg hz] at h
    by_cases hsz : e - b < countrZero 8 (m b).toNat + 1
    · rw [if_pos hsz, Option.some.injEq, Prod.mk.injEq] at h
      omega
    · rw [if_neg hsz] at h
      obtain ⟨_, _, hr⟩ := Option.map_eq_some_iff.mp h
      rw [Prod.mk.injEq] at hr
      omega

/-- **`Parse64Safe` stays inside its range**, off the short escape range: what it returns
    depends on the bytes of `[begin, end)` only, and a length it returns fits in them. -/
theorem parse64Safe_stays_in_range {m : Mem} {b e : Nat} (v : Nat) (hbe : b < e)
    (hesc : (m b).toNat = 0 → e - b ≠ 8) :
    (∀ m' : Mem, (∀ i, i < e - b → m (b + i) = m' (b + i)) →
      parse64Safe m b e v = parse64Safe m' b e v) ∧
    ∀ n v', parse64Safe m b e v = some (n, v') → n ≤ e - b :=
  ⟨fun _ h => parse64Safe_congr v hbe h hesc, fun _ _ h => parse64Safe_length_le h hesc⟩

/-- Nine bytes, a `0` header and eight `1` bytes: a memory that holds something else after
    them decodes to the same nine-byte escape. -/
theorem parse64Safe_stays_in_range_escape :
    parse64Safe (fun q => if q = 0 then 0 else if q < 9 then 1 else 5) 0 9 0 =
        parse64Safe (fun q => if q = 0 then 0 else 1) 0 9 0 ∧
      parse64Safe (fun q => if q = 0 then 0 else 1) 0 9 0 = some (9, 0x0101010101010101) ∧
      9 ≤ 9 - 0 := by
  have hin := parse64Safe_stays_in_range (m := fun q => if q = 0 then 0 else 1) (b := 0)
    (e := 9) 0 (by decide) (by decide)
  have hdec : parse64Safe (fun q => if q = 0 then 0 else 1) 0 9 0 =
      some (9, 0x0101010101010101) := by decide
  refine ⟨(hin.1 _ fun i hi => ?_).symm, hdec, hin.2 9 _ hdec⟩
  simp [show i < 9 by omega]

/-- **The failing input.** The range `[0, 8)` with a `0` header: the check `sz < 8` lets
    it through, the load reads the byte at `8`, one past the end, and the length returned
    is `9`. Two memories that agree on the whole range but not on byte `8` decode to
    different values. A header `0x80` (eight bytes announced) over the same range reaches
    `1ULL << 64`, the defect of `flit_full_length_decode_undefined`. -/
theorem parse64_safe_reads_past_end :
    (∀ i, i < 8 → (fun q => if q = 8 then 1 else 0 : Mem) i = (fun q => if q = 8 then 2 else 0 : Mem) i) ∧
    parse64Safe (fun q => if q = 8 then 1 else 0) 0 8 0 = some (9, 2 ^ 56) ∧
    parse64Safe (fun q => if q = 8 then 2 else 0) 0 8 0 = some (9, 2 ^ 57) ∧
    parse64Safe (fun q => if q = 0 then 0x80 else 0) 0 8 0 = none := by
  refine ⟨by decide, by decide, by decide, by decide⟩

end Flit
end Helio
