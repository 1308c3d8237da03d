import Mathlib

/-!
# Byte memory and bit counts

A byte-addressed memory is a function `Nat → UInt8`. Multi-byte words are read and
written **little-endian**, the only byte order the modelled encoders support, by
`loadLE` and `storeLE`. On top of that sit the two bit counts every compact integer
format needs: `countrZero` (trailing zeros) and `countlZero` (leading zeros) of a value
read as a word of a given width, and `popCount`, the number of set bits.

Nothing here is specific to one format. The lemmas are the ones a decoder proof needs:
a load after a store gives the stored value modulo the width (`loadLE_storeLE`), a store
leaves every other address alone (`storeLE_of_lt`, `storeLE_of_ge`), a load splits at any
byte (`loadLE_add`), and the bit counts are determined by the lowest and highest set bits
(`countrZero_two_pow_mul_odd`, `countlZero_eq`).
-/

set_option autoImplicit false

namespace Bytes

/-- A byte-addressed memory. -/
abbrev Mem := Nat → UInt8

/-! ## Little-endian words -/

/-- The `k`-byte little-endian word stored at `p`. -/
def loadLE (m : Mem) (p : Nat) : Nat → Nat
  | 0 => 0
  | k + 1 => (m p).toNat + 256 * loadLE m (p + 1) k

/-- Write the low `k` bytes of `x` at `p`, little-endian; every other address keeps its
    byte. -/
def storeLE (m : Mem) (p k x : Nat) : Mem :=
  fun q => if p ≤ q ∧ q < p + k then UInt8.ofNat (x / 256 ^ (q - p)) else m q

@[simp] theorem loadLE_zero (m : Mem) (p : Nat) : loadLE m p 0 = 0 := rfl

theorem loadLE_succ (m : Mem) (p k : Nat) :
    loadLE m p (k + 1) = (m p).toNat + 256 * loadLE m (p + 1) k := rfl

/-- A load sees only the `k` bytes it covers. -/
theorem loadLE_congr {m m' : Mem} {p k : Nat} (h : ∀ i, i < k → m (p + i) = m' (p + i)) :
    loadLE m p k = loadLE m' p k := by
  induction k generalizing p with
  | zero => rfl
  | succ k ih =>
    rw [loadLE_succ, loadLE_succ]
    have h0 : m p = m' p := by simpa using h 0 (by omega)
    have hr : loadLE m (p + 1) k = loadLE m' (p + 1) k :=
      ih fun i hi => by simpa [Nat.add_assoc, Nat.add_comm 1 i] using h (i + 1) (by omega)
    rw [h0, hr]

/-- A `j + k`-byte load is the `j`-byte load below the `k`-byte load after it. -/
theorem loadLE_add (m : Mem) (p j k : Nat) :
    loadLE m p (j + k) = loadLE m p j + 256 ^ j * loadLE m (p + j) k := by
  induction j generalizing p with
  | zero => simp
  | succ j ih =>
    rw [Nat.add_right_comm, loadLE_succ, loadLE_succ, ih (p + 1), Nat.pow_succ]
    rw [show p + 1 + j = p + (j + 1) by omega]
    ring

/-! ## Stores -/

theorem storeLE_of_lt {m : Mem} {p k x q : Nat} (h : q < p) : storeLE m p k x q = m q := by
  simp [storeLE, show ¬p ≤ q by omega]

theorem storeLE_of_ge {m : Mem} {p k x q : Nat} (h : p + k ≤ q) : storeLE m p k x q = m q := by
  simp [storeLE, show ¬q < p + k by omega]

theorem storeLE_of_mem {m : Mem} {p k x q : Nat} (h₁ : p ≤ q) (h₂ : q < p + k) :
    storeLE m p k x q = UInt8.ofNat (x / 256 ^ (q - p)) := by
  simp [storeLE, h₁, h₂]

/-- Two stores of one value agree on the bytes both of them write. -/
theorem storeLE_agree {m m' : Mem} {p j k x q : Nat} (hj : j ≤ k) (h₁ : p ≤ q)
    (h₂ : q < p + j) : storeLE m p k x q = storeLE m' p j x q := by
  rw [storeLE_of_mem h₁ (by omega), storeLE_of_mem h₁ h₂]

/-- A load of a prefix of what was stored gives the stored value modulo that width. -/
theorem loadLE_storeLE {m : Mem} {p j k x : Nat} (hj : j ≤ k) :
    loadLE (storeLE m p k x) p j = x % 256 ^ j := by
  induction j generalizing p k x with
  | zero => simp [Nat.mod_one]
  | succ j ih =>
    obtain ⟨k, rfl⟩ : ∃ k', k = k' + 1 := ⟨k - 1, by omega⟩
    rw [loadLE_succ]
    have hhead : (storeLE m p (k + 1) x p).toNat = x % 256 := by
      rw [storeLE_of_mem (Nat.le_refl _) (by omega)]
      simp
    -- the bytes after `p` are the store of `x / 256` one address further on
    have htail : loadLE (storeLE m p (k + 1) x) (p + 1) j
        = loadLE (storeLE m (p + 1) k (x / 256)) (p + 1) j := by
      apply loadLE_congr
      intro i hi
      by_cases hk : i < k
      · rw [storeLE_of_mem (by omega) (by omega), storeLE_of_mem (by omega) (by omega)]
        congr 1
        rw [show p + 1 + i - p = i + 1 by omega, show p + 1 + i - (p + 1) = i by omega,
          Nat.pow_succ, Nat.mul_comm, Nat.div_div_eq_div_mul]
      · omega
    rw [hhead, htail, ih (by omega), Nat.pow_succ, Nat.mul_comm (256 ^ j) 256, Nat.mod_mul]

/-- A load of the bytes after a store sees the memory as it was. -/
theorem loadLE_storeLE_after {m : Mem} {p k x q j : Nat} (h : p + k ≤ q) :
    loadLE (storeLE m p k x) q j = loadLE m q j :=
  loadLE_congr fun _ _ => storeLE_of_ge (by omega)

/-- A load that starts where a store started and runs past its end: the stored bytes
    below whatever the memory held after them. -/
theorem loadLE_storeLE_extend {m : Mem} {p n k x : Nat} (hn : n ≤ k) (hx : x < 256 ^ n) :
    loadLE (storeLE m p n x) p k = x + 256 ^ n * loadLE m (p + n) (k - n) := by
  obtain ⟨j, rfl⟩ : ∃ j, k = n + j := ⟨k - n, by omega⟩
  rw [loadLE_add, loadLE_storeLE (Nat.le_refl _), Nat.mod_eq_of_lt hx,
    loadLE_storeLE_after (Nat.le_refl _), Nat.add_sub_cancel_left]

/-! ## Bit counts -/

/-- Trailing zero bits of `x` read as a `w`-bit word; `w` for the zero word. -/
def countrZero : Nat → Nat → Nat
  | 0, _ => 0
  | w + 1, x => if x % 2 = 1 then 0 else countrZero w (x / 2) + 1

/-- Leading zero bits of `x` read as a `w`-bit word; `w` for the zero word. -/
def countlZero : Nat → Nat → Nat
  | 0, _ => 0
  | w + 1, x => if x.testBit w then 0 else countlZero w x + 1

/-- Set bits of `x` read as a `w`-bit word. -/
def popCount : Nat → Nat → Nat
  | 0, _ => 0
  | w + 1, x => x % 2 + popCount w (x / 2)

/-- **The trailing-zero count is the position of the lowest set bit.** -/
theorem countrZero_two_pow_mul_odd {w j : Nat} (a : Nat) (hj : j < w) :
    countrZero w (2 ^ j * (2 * a + 1)) = j := by
  induction j generalizing w with
  | zero =>
    obtain ⟨w, rfl⟩ : ∃ w', w = w' + 1 := ⟨w - 1, by omega⟩
    simp [countrZero, Nat.add_mod]
  | succ j ih =>
    obtain ⟨w, rfl⟩ : ∃ w', w = w' + 1 := ⟨w - 1, by omega⟩
    have heven : 2 ^ (j + 1) * (2 * a + 1) % 2 = 0 := by
      rw [Nat.pow_succ, Nat.mul_assoc, Nat.mul_comm 2, ← Nat.mul_assoc]; simp
    have hhalf : 2 ^ (j + 1) * (2 * a + 1) / 2 = 2 ^ j * (2 * a + 1) := by
      rw [Nat.pow_succ, Nat.mul_right_comm, Nat.mul_div_cancel _ (by norm_num)]
    simp only [countrZero, heven, hhalf, ih (by omega : j < w)]
    simp

/-- Bits above the lowest set one do not move it. -/
theorem countrZero_two_pow_mul_odd_add {w j k : Nat} (a b : Nat) (hjk : j < k) (hj : j < w) :
    countrZero w (2 ^ j * (2 * a + 1) + 2 ^ k * b) = j := by
  have hsplit : 2 ^ k = 2 ^ j * (2 * 2 ^ (k - j - 1)) := by
    rw [← Nat.pow_succ', ← Nat.pow_add]; congr 1; omega
  have : 2 ^ j * (2 * a + 1) + 2 ^ k * b = 2 ^ j * (2 * (a + 2 ^ (k - j - 1) * b) + 1) := by
    rw [hsplit]; ring
  rw [this, countrZero_two_pow_mul_odd _ hj]

/-- Neither do the bits cut off by reducing below a higher power of two. -/
theorem two_pow_mul_odd_mod {j k : Nat} (a : Nat) (hjk : j < k) :
    ∃ c, 2 ^ j * (2 * a + 1) % 2 ^ k = 2 ^ j * (2 * c + 1) := by
  have hk : 2 ^ k = 2 ^ j * (2 * 2 ^ (k - j - 1)) := by
    rw [← Nat.pow_succ', ← Nat.pow_add]; congr 1; omega
  refine ⟨a % 2 ^ (k - j - 1), ?_⟩
  rw [hk, Nat.mul_mod_mul_left, Nat.mod_mul]
  have h1 : (2 * a + 1) % 2 = 1 := by omega
  have h2 : (2 * a + 1) / 2 = a := by omega
  rw [h1, h2]; ring

/-- A word with a set bit below `w` has fewer than `w` trailing zeros. -/
theorem countrZero_lt {w x : Nat} (hx : x % 2 ^ w ≠ 0) : countrZero w x < w := by
  induction w generalizing x with
  | zero => exact absurd (Nat.mod_one x) (by simpa using hx)
  | succ w ih =>
    unfold countrZero
    split
    · omega
    · -- the low bit is clear, so the set bit is one of the `w` above it
      have hhalf : x / 2 % 2 ^ w ≠ 0 := by
        rw [Nat.pow_succ', Nat.mod_mul] at hx
        omega
      have := ih hhalf
      omega

/-- The leading-zero count of a nonzero `w`-bit word counts the bits above its
    highest set bit. -/
theorem countlZero_eq {w x : Nat} (hx : x ≠ 0) (hw : x < 2 ^ w) :
    countlZero w x = w - 1 - x.log2 := by
  induction w with
  | zero => omega
  | succ w ih =>
    unfold countlZero
    by_cases hb : x.testBit w
    · -- bit `w` is set and nothing above it: `w` is the highest set bit
      have hge : 2 ^ w ≤ x := Nat.ge_two_pow_of_testBit hb
      have hlog : x.log2 = w := (Nat.log2_eq_iff hx).mpr ⟨hge, hw⟩
      simp [hb, hlog]
    · have hlt : x < 2 ^ w := by
        apply Nat.lt_pow_two_of_testBit
        intro i hi
        rcases Nat.lt_or_ge i (w + 1) with h | h
        · have : i = w := by omega
          subst this; simpa using hb
        · exact Nat.testBit_lt_two_pow (Nat.lt_of_lt_of_le hw (Nat.pow_le_pow_right (by norm_num) h))
      have hlog : x.log2 < w := (Nat.log2_lt hx).mpr hlt
      rw [if_neg hb, ih hlt]
      omega

/-- Clearing the lowest bit of a `w`-bit word: the mask `~1` is `2 ^ w - 2`. -/
theorem and_two_pow_sub_two {w x : Nat} (hw : 0 < w) (hx : x < 2 ^ w) :
    x &&& (2 ^ w - 2) = x - x % 2 := by
  have hpow : 2 ^ w = 2 * 2 ^ (w - 1) := by
    rw [← Nat.pow_succ', Nat.succ_eq_add_one, Nat.sub_add_cancel hw]
  have hmask : 2 ^ w - 2 = Nat.bit false (2 ^ (w - 1) - 1) := by
    rw [Nat.bit_val, hpow]
    simp only [Bool.toNat_false]
    have := Nat.two_pow_pos (w - 1)
    omega
  conv_lhs => rw [← Nat.bit_bodd_div2 x, hmask, Nat.land_bit]
  rw [Bool.and_false, Nat.and_two_pow_sub_one_eq_mod, Nat.bit_val, Nat.div2_val,
    Nat.mod_eq_of_lt (by omega)]
  simp only [Bool.toNat_false]
  omega

/-! ## Byte ranges -/

/-- The `n` bytes from `p`. -/
def readBytes (m : Mem) (p n : Nat) : List UInt8 := (List.range n).map fun i => m (p + i)

/-- `bytes` written from `p` on; every other address keeps its byte. -/
def writeBytes (m : Mem) (p : Nat) (bytes : List UInt8) : Mem :=
  fun q => if p ≤ q ∧ q < p + bytes.length then bytes.getD (q - p) 0 else m q

/-- `memcpy(m + dst, m + src, n)` within one memory; undefined (`none`) when the two ranges
    overlap. -/
def memcpy (m : Mem) (dst src n : Nat) : Option Mem :=
  if dst < src + n ∧ src < dst + n then none else some (writeBytes m dst (readBytes m src n))

@[simp] theorem readBytes_length (m : Mem) (p n : Nat) : (readBytes m p n).length = n := by
  simp [readBytes]

@[simp] theorem readBytes_zero (m : Mem) (p : Nat) : readBytes m p 0 = [] := rfl

theorem readBytes_congr {m m' : Mem} {p n : Nat} (h : ∀ i, i < n → m (p + i) = m' (p + i)) :
    readBytes m p n = readBytes m' p n := by
  apply List.map_congr_left
  intro i hi
  exact h i (List.mem_range.mp hi)

/-- A range splits at any byte. -/
theorem readBytes_add (m : Mem) (p j k : Nat) :
    readBytes m p (j + k) = readBytes m p j ++ readBytes m (p + j) k := by
  simp only [readBytes, List.range_add, List.map_append, List.map_map]
  congr 1
  apply List.map_congr_left
  intro i _
  simp only [Function.comp, Nat.add_assoc]

/-- Dropping the first `k` bytes of a range starts it `k` bytes later. -/
theorem readBytes_drop (m : Mem) (p n k : Nat) :
    (readBytes m p n).drop k = readBytes m (p + k) (n - k) := by
  rcases Nat.le_total k n with hk | hk
  · obtain ⟨j, rfl⟩ := Nat.exists_eq_add_of_le hk
    rw [readBytes_add, List.drop_left' (readBytes_length m p k), Nat.add_sub_cancel_left]
  · rw [List.drop_eq_nil_of_le (by simpa using hk), Nat.sub_eq_zero_of_le hk, readBytes_zero]

/-- The first `k` bytes of a range of at least `k`. -/
theorem readBytes_take {m : Mem} {p n k : Nat} (hk : k ≤ n) :
    (readBytes m p n).take k = readBytes m p k := by
  obtain ⟨j, rfl⟩ := Nat.exists_eq_add_of_le hk
  rw [readBytes_add, List.take_left' (readBytes_length m p k)]

theorem writeBytes_of_lt {m : Mem} {p q : Nat} (bytes : List UInt8) (h : q < p) :
    writeBytes m p bytes q = m q := by
  simp only [writeBytes]
  rw [if_neg (by omega)]

/-- Reading back what was written. -/
theorem readBytes_writeBytes (m : Mem) (p : Nat) (bytes : List UInt8) :
    readBytes (writeBytes m p bytes) p bytes.length = bytes := by
  apply List.ext_getElem (readBytes_length _ _ _)
  intro i hi _
  simp only [readBytes, List.getElem_map, List.getElem_range, writeBytes]
  rw [if_pos (by simp at hi; omega), Nat.add_sub_cancel_left, List.getD_eq_getElem]

/-- A range ending where a write starts does not see it. -/
theorem readBytes_writeBytes_before {m : Mem} {p q n : Nat} (bytes : List UInt8) (h : q + n ≤ p) :
    readBytes (writeBytes m p bytes) q n = readBytes m q n :=
  readBytes_congr fun _ hi => writeBytes_of_lt bytes (by omega)

theorem writeBytes_of_ge {m : Mem} {p q : Nat} (bytes : List UInt8) (h : p + bytes.length ≤ q) :
    writeBytes m p bytes q = m q := by
  simp only [writeBytes]
  rw [if_neg (by omega)]

/-- A range inside a write reads the bytes written there. -/
theorem readBytes_writeBytes_inside (m : Mem) (p : Nat) {j n : Nat} (bytes : List UInt8)
    (h : j + n ≤ bytes.length) :
    readBytes (writeBytes m p bytes) (p + j) n = (bytes.drop j).take n := by
  apply List.ext_getElem (by simp; omega)
  intro i hi _
  simp only [readBytes_length] at hi
  simp only [readBytes, List.getElem_map, List.getElem_range, writeBytes, List.getElem_take,
    List.getElem_drop]
  rw [if_pos (by omega), show p + j + i - p = j + i by omega, List.getD_eq_getElem]

/-- The bytes `memcpy` leaves at its destination. -/
theorem memcpy_eq_some {m m' : Mem} {dst src n : Nat} (h : memcpy m dst src n = some m') :
    readBytes m' dst n = readBytes m src n := by
  simp only [memcpy] at h
  split at h
  · cases h
  · cases h
    simpa using readBytes_writeBytes m dst (readBytes m src n)

/-- `memcpy` is defined on ranges that do not overlap. -/
theorem memcpy_isSome {m : Mem} {dst src n : Nat} (h : dst + n ≤ src ∨ src + n ≤ dst) :
    (memcpy m dst src n).isSome := by
  simp only [memcpy]
  rw [if_neg (by omega)]
  rfl

end Bytes
