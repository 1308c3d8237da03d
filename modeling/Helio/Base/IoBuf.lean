import Helio.Lib.Bytes
import Helio.Lib.Trans

/-!
# `base::IoBuf`: a byte queue in a growing buffer

`IoBuf` (`base/io_buf.h`, `base/io_buf.cc`) keeps one allocation `buf_` of `capacity_`
bytes and two offsets into it. The input, what has been written and not yet read, is
`buf_[offs_, size_)`; the append buffer after it is `buf_[size_, capacity_)`. A writer fills
the append buffer and commits what it wrote (`CommitWrite`, `WriteAndCommit`), a reader
takes from the front of the input (`ConsumeInput`, `ReadAndConsume`). Three calls move the
input: `ConsumeInput` copies a short rest to the front once more than half of the used
bytes are consumed, `Reserve` moves it to the start of a new allocation of
`absl::bit_ceil` of the size asked for, and `Clear` drops it.

What the buffer is for is a queue of bytes (`byteQueue`): writes append, reads take from
the front. `inputBuffer` reads the queue off a buffer, and

* `exec_spec`: every call made as the interface asks (`CommitWrite(m)` after writing
  `m <= AppendLen()` bytes, `ReadAndConsume(n)` with `n <= InputLen()`) whose sizes stay in
  `size_t` returns, answers as the queue does, and leaves the queue's next state;
* `io_buf_is_byte_queue`: so every run of such calls from every initial capacity up to
  `2 ^ 63` is a run of the queue, and in every state it reaches `EnsureCapacity(n)` makes
  room for `n` bytes;
* `consume_input_wraps`: `ConsumeInput(n)` tests `offs_ + n >= size_` in `size_t`. When the
  sum wraps the test fails, `offs_` moves back, and consumed bytes are input again.
  `EnsureCapacity(n)` computes `size_ + n` in `size_t` too, and when that wraps it does not
  grow the buffer.

`offs_ <= size_ <= capacity_ <= 2 ^ 63` is a field of the structure: every call keeps it by
construction, the wrapping ones included. Sizes are natural numbers with the `size_t` sums
taken modulo `2 ^ 64`; `buf_` is a byte memory and `new uint8_t[sz]` a memory of zeros.
`memcpy` between overlapping ranges and `bit_ceil` of a size above `2 ^ 63` are undefined,
and `none`. The `assert`s are compiled out, as in the release build.
-/

set_option autoImplicit false

namespace Helio

open Bytes

/-- An `IoBuf`: the bytes of `buf_` and its three sizes. -/
structure IoBuf where
  buf : Mem
  offs : ℕ
  size : ℕ
  capacity : ℕ
  offs_le_size : offs ≤ size
  size_le_capacity : size ≤ capacity
  capacity_le : capacity ≤ 2 ^ 63

namespace IoBuf

/-! ## `bit_ceil` -/

/-- `absl::bit_ceil(sz)` on `size_t`: the least power of two not below `sz` (`1` for `0`
    and `1`), computed as `2 ^ bit_width(sz - 1)`; undefined when it does not fit, that is
    for `sz > 2 ^ 63`. -/
def bitCeil (sz : ℕ) : Option ℕ :=
  if sz ≤ 2 ^ 63 then some (2 ^ (64 - countlZero 64 (sz - 1))) else none

/-- `bit_ceil(sz)` is `1` up to `1` and `2 ^ (log2 (sz - 1) + 1)` from `2` on. -/
theorem bitCeil_cases {sz c : ℕ} (h : bitCeil sz = some c) :
    sz ≤ 2 ^ 63 ∧ (sz ≤ 1 ∧ c = 1 ∨ 2 ≤ sz ∧ c = 2 ^ ((sz - 1).log2 + 1) ∧ (sz - 1).log2 < 63) := by
  simp only [bitCeil] at h
  split at h
  case isFalse => cases h
  case isTrue hsz =>
    cases h
    refine ⟨hsz, ?_⟩
    by_cases hy : sz - 1 = 0
    · -- `sz` is `0` or `1`, and the width of `0` is `0`
      have hclz : countlZero 64 0 = 64 := by decide
      rw [hy, hclz]
      exact .inl ⟨by omega, rfl⟩
    · have hlog : (sz - 1).log2 < 63 := (Nat.log2_lt hy).mpr (by omega)
      rw [countlZero_eq hy (by omega)]
      exact .inr ⟨by omega, by congr 1; omega, hlog⟩

theorem bitCeil_eq_some {sz c : ℕ} (h : bitCeil sz = some c) : sz ≤ c ∧ c ≤ 2 ^ 63 := by
  obtain ⟨-, ⟨hs, rfl⟩ | ⟨-, rfl, hlog⟩⟩ := bitCeil_cases h
  · exact ⟨hs, Nat.one_le_two_pow⟩
  · have := Nat.lt_log2_self (n := sz - 1)
    exact ⟨by omega, Nat.pow_le_pow_right (by norm_num) hlog⟩

theorem bitCeil_eq_pow {sz c : ℕ} (h : bitCeil sz = some c) : ∃ k, c = 2 ^ k := by
  obtain ⟨-, ⟨-, rfl⟩ | ⟨-, rfl, -⟩⟩ := bitCeil_cases h
  · exact ⟨0, rfl⟩
  · exact ⟨_, rfl⟩

/-- `bit_ceil(sz)` of a positive `sz` is below `2 * sz`. -/
theorem bitCeil_lt_two_mul {sz c : ℕ} (h : bitCeil sz = some c) (hsz : 0 < sz) : c < 2 * sz := by
  obtain ⟨-, ⟨-, rfl⟩ | ⟨hs, rfl, -⟩⟩ := bitCeil_cases h
  · omega
  · have := Nat.log2_self_le (n := sz - 1) (by omega)
    rw [Nat.pow_succ]
    omega

theorem bitCeil_isSome {sz : ℕ} (h : sz ≤ 2 ^ 63) : (bitCeil sz).isSome := by
  rw [bitCeil, if_pos h]
  rfl

/-! ## The source -/

/-- `InputLen()`. -/
def inputLen (b : IoBuf) : ℕ := b.size - b.offs

/-- `InputBuffer()`: the bytes from `offs_` to `size_`. -/
def inputBuffer (b : IoBuf) : List UInt8 := readBytes b.buf b.offs b.inputLen

/-- `AppendLen()`. -/
def appendLen (b : IoBuf) : ℕ := b.capacity - b.size

/-- `Clear()`. -/
@[simps] def clear (b : IoBuf) : IoBuf :=
  ⟨b.buf, 0, 0, b.capacity, le_rfl, Nat.zero_le _, b.capacity_le⟩

/-- `Reserve(sz)`: nothing when `sz < capacity_`; otherwise a new allocation of
    `bit_ceil(sz)` bytes with the input copied to its start. -/
def reserve (b : IoBuf) (sz : ℕ) : Option IoBuf :=
  if hsz : sz < b.capacity then some b
  else match hc : bitCeil sz with
    | none => none
    | some c =>
      if b.size > b.offs then
        -- `memcpy(nb, buf_ + offs_, size_ - offs_)` into the new allocation
        some ⟨writeBytes (fun _ => 0) 0 (readBytes b.buf b.offs (b.size - b.offs)), 0,
          b.size - b.offs, c, Nat.zero_le _,
          by have := b.size_le_capacity; have := (bitCeil_eq_some hc).1; omega,
          (bitCeil_eq_some hc).2⟩
      else some ⟨fun _ => 0, 0, 0, c, le_rfl, Nat.zero_le _, (bitCeil_eq_some hc).2⟩

/-- `EnsureCapacity(sz)`: `Reserve(size_ + sz)`, the sum in `size_t`. -/
def ensureCapacity (b : IoBuf) (sz : ℕ) : Option IoBuf := b.reserve ((b.size + sz) % 2 ^ 64)

/-- The caller writes `bytes` into `AppendBuffer()`, then calls
    `CommitWrite(bytes.size())`. A write longer than the span `AppendBuffer()` runs past the
    end of `buf_`. -/
def commitWrite (b : IoBuf) (bytes : List UInt8) : Option IoBuf :=
  if h : bytes.length ≤ b.appendLen then
    -- `size_ += num_written` stays below `capacity_`, so the `size_t` sum does not wrap
    some ⟨writeBytes b.buf b.size bytes, b.offs, b.size + bytes.length, b.capacity,
      by have := b.offs_le_size; omega,
      by have := b.size_le_capacity; unfold appendLen at h; omega, b.capacity_le⟩
  else none

/-- `WriteAndCommit(source, num_write)`: `EnsureCapacity(num_write)`, then the `memcpy` into
    `AppendBuffer()` and `CommitWrite(num_write)`, which is `commitWrite`. -/
def writeAndCommit (b : IoBuf) (src : List UInt8) : Option IoBuf := do
  let b ← b.ensureCapacity src.length
  b.commitWrite src

/-- `ConsumeInput(sz)`. -/
def consumeInput (b : IoBuf) (sz : ℕ) : Option IoBuf :=
  if h : (b.offs + sz) % 2 ^ 64 ≥ b.size then some b.clear
  else
    -- `offs_ += sz`, in `size_t`
    let offs := (b.offs + sz) % 2 ^ 64
    -- `2 * offs_` does not wrap: `offs_ < size_ <= 2 ^ 63`
    if 2 * offs > b.size ∧ b.size - offs < 512 then
      (memcpy b.buf 0 offs (b.size - offs)).map fun buf =>
        ⟨buf, 0, b.size - offs, b.capacity, Nat.zero_le _,
          Nat.le_trans (Nat.sub_le _ _) b.size_le_capacity, b.capacity_le⟩
    else some ⟨b.buf, offs, b.size, b.capacity, (Nat.lt_of_not_le h).le, b.size_le_capacity,
      b.capacity_le⟩

/-- `ReadAndConsume(sz, dest)`: the bytes `memcpy` copies to `dest`, then `ConsumeInput(sz)`.
    Without the `assert`, a copy longer than the input reads stale bytes of `buf_`, and one
    past `capacity_` reads outside the allocation. -/
def readAndConsume (b : IoBuf) (sz : ℕ) : Option (IoBuf × List UInt8) :=
  if b.offs + sz ≤ b.capacity then (b.consumeInput sz).map fun b' => (b', readBytes b.buf b.offs sz)
  else none

/-- The members' defaults: `buf_ = nullptr` and every size `0`. -/
def unallocated : IoBuf := ⟨fun _ => 0, 0, 0, 0, le_rfl, le_rfl, Nat.zero_le _⟩

/-- `IoBuf(capacity)`: `Reserve(capacity)` on the defaults. Its `if (buf_)` is false there,
    and the branch it skips would only set `size_ = offs_ = 0`, which they are. -/
def create (capacity : ℕ) : Option IoBuf := unallocated.reserve capacity

/-- The calls of a run. `commitWrite bytes` is the caller's write of `bytes` into
    `AppendBuffer()` followed by `CommitWrite(bytes.size())`. -/
inductive Op where
  | writeAndCommit (src : List UInt8)
  | ensureCapacity (n : ℕ)
  | commitWrite (bytes : List UInt8)
  | consumeInput (n : ℕ)
  | readAndConsume (n : ℕ)
  | reserve (n : ℕ)
  | clear

/-- One call, with the bytes it hands back: `ReadAndConsume`'s copy, nothing for the
    others. -/
def exec (b : IoBuf) : Op → Option (IoBuf × List UInt8)
  | .writeAndCommit src => (b.writeAndCommit src).map (·, [])
  | .ensureCapacity n => (b.ensureCapacity n).map (·, [])
  | .commitWrite bytes => (b.commitWrite bytes).map (·, [])
  | .consumeInput n => (b.consumeInput n).map (·, [])
  | .readAndConsume n => b.readAndConsume n
  | .reserve n => (b.reserve n).map (·, [])
  | .clear => some (b.clear, [])

/-- What the interface asks of its caller: `CommitWrite(m)` only after writing
    `m <= AppendLen()` bytes, and `ReadAndConsume(n)` with `n <= InputLen()`. -/
def Op.keepsContract (b : IoBuf) : Op → Bool
  | .commitWrite bytes => bytes.length ≤ b.appendLen
  | .readAndConsume n => n ≤ b.inputLen
  | _ => true

/-- The sizes a call computes stay in `size_t`, and within the range of `bit_ceil`. -/
def Op.fitsSizeT (b : IoBuf) : Op → Bool
  | .writeAndCommit src => b.size + src.length ≤ 2 ^ 63
  | .ensureCapacity n => b.size + n ≤ 2 ^ 63
  | .consumeInput n => b.offs + n < 2 ^ 64
  | .reserve n => n ≤ 2 ^ 63
  | _ => true

/-! ## The queue it implements -/

/-- The byte queue: writes append, `ConsumeInput(n)` drops the first `n` bytes (all of them
    when there are fewer), `ReadAndConsume(n)` also hands them back, `Clear()` empties it,
    and the calls that only size the buffer leave it alone. -/
def byteQueue (q : List UInt8) : Op → List UInt8 × List UInt8
  | .writeAndCommit src | .commitWrite src => (q ++ src, [])
  | .ensureCapacity _ | .reserve _ => (q, [])
  | .consumeInput n => (q.drop n, [])
  | .readAndConsume n => (q.drop n, q.take n)
  | .clear => ([], [])

/-! ## One call at a time -/

theorem inputBuffer_clear (b : IoBuf) : b.clear.inputBuffer = [] := by
  simp [inputBuffer, inputLen]

/-- `Reserve(sz)` keeps the input, does not lengthen the used part, and leaves room for
    `sz` bytes in all. -/
theorem reserve_spec {b : IoBuf} {sz : ℕ} (h : sz ≤ 2 ^ 63) :
    ∃ b', b.reserve sz = some b' ∧ b'.inputBuffer = b.inputBuffer ∧ b'.size ≤ b.size ∧
      sz ≤ b'.capacity := by
  unfold reserve
  split
  case isTrue hlt => exact ⟨b, rfl, rfl, le_rfl, hlt.le⟩
  case isFalse =>
    split
    case h_1 hc =>
      have := bitCeil_isSome h
      simp [hc] at this
    case h_2 c hc =>
      have hsz := (bitCeil_eq_some hc).1
      split
      case isTrue hlt =>
        refine ⟨_, rfl, ?_, Nat.sub_le _ _, hsz⟩
        -- the input is the copy at the start of the new allocation
        have hcopy := readBytes_writeBytes (fun _ => 0) 0 (readBytes b.buf b.offs (b.size - b.offs))
        rw [readBytes_length] at hcopy
        simpa [inputBuffer, inputLen] using hcopy
      case isFalse hle =>
        refine ⟨_, rfl, ?_, Nat.zero_le _, hsz⟩
        have hlen : b.size - b.offs = 0 := by omega
        simp [inputBuffer, inputLen, hlen]

/-- `EnsureCapacity(n)` keeps the input and leaves `AppendLen() >= n`. -/
theorem ensureCapacity_spec {b : IoBuf} {n : ℕ} (h : b.size + n ≤ 2 ^ 63) :
    ∃ b', b.ensureCapacity n = some b' ∧ b'.inputBuffer = b.inputBuffer ∧ b'.size ≤ b.size ∧
      n ≤ b'.appendLen := by
  have hmod : (b.size + n) % 2 ^ 64 = b.size + n := Nat.mod_eq_of_lt (by omega)
  obtain ⟨b', hb', hin, hsize, hcap⟩ := reserve_spec (b := b) (hmod ▸ h)
  refine ⟨b', hb', hin, hsize, ?_⟩
  rw [hmod] at hcap
  unfold appendLen
  omega

/-- A write within `AppendBuffer()`, committed, is appended to the input. -/
theorem commitWrite_spec {b : IoBuf} {bytes : List UInt8} (h : bytes.length ≤ b.appendLen) :
    ∃ b', b.commitWrite bytes = some b' ∧ b'.inputBuffer = b.inputBuffer ++ bytes := by
  refine ⟨_, dif_pos h, ?_⟩
  have hoffs := b.offs_le_size
  simp only [inputBuffer, inputLen]
  -- the old input ends where the write starts
  rw [show b.size + bytes.length - b.offs = (b.size - b.offs) + bytes.length by omega,
    readBytes_add, readBytes_writeBytes_before _ (by omega),
    show b.offs + (b.size - b.offs) = b.size by omega, readBytes_writeBytes]

theorem writeAndCommit_spec {b : IoBuf} {src : List UInt8} (h : b.size + src.length ≤ 2 ^ 63) :
    ∃ b', b.writeAndCommit src = some b' ∧ b'.inputBuffer = b.inputBuffer ++ src := by
  obtain ⟨b₁, h₁, hin₁, -, hroom⟩ := ensureCapacity_spec h
  obtain ⟨b₂, h₂, hin₂⟩ := commitWrite_spec hroom
  exact ⟨b₂, by rw [writeAndCommit, h₁]; exact h₂, by rw [hin₂, hin₁]⟩

/-- The compaction of `ConsumeInput` copies `[offs_, size_)` to `[0, size_ - offs_)`: the two
    ranges do not overlap once `2 * offs_ > size_`. -/
theorem consumeInput_compaction_disjoint {offs size : ℕ} (h : 2 * offs > size) :
    0 + (size - offs) ≤ offs := by
  omega

/-- `ConsumeInput(n)` drops the first `n` bytes of the input while `offs_ + n` fits. -/
theorem consumeInput_spec {b : IoBuf} {n : ℕ} (h : b.offs + n < 2 ^ 64) :
    ∃ b', b.consumeInput n = some b' ∧ b'.inputBuffer = b.inputBuffer.drop n := by
  have hmod : (b.offs + n) % 2 ^ 64 = b.offs + n := Nat.mod_eq_of_lt h
  have hoffs := b.offs_le_size
  -- what is left is the range from `offs_ + n` to `size_`
  have hdrop : b.inputBuffer.drop n =
      readBytes b.buf ((b.offs + n) % 2 ^ 64) (b.size - (b.offs + n) % 2 ^ 64) := by
    rw [hmod, inputBuffer, readBytes_drop, inputLen, Nat.sub_sub]
  unfold consumeInput
  split
  case isTrue hge =>
    refine ⟨_, rfl, ?_⟩
    rw [inputBuffer_clear, hdrop, Nat.sub_eq_zero_of_le hge, readBytes_zero]
  case isFalse =>
    dsimp only
    split
    case isTrue hcompact =>
      obtain ⟨buf, hbuf⟩ := Option.isSome_iff_exists.mp
        (memcpy_isSome (m := b.buf) (.inl (consumeInput_compaction_disjoint hcompact.1)))
      rw [hbuf]
      refine ⟨_, rfl, ?_⟩
      simp only [inputBuffer, inputLen, Nat.sub_zero]
      rw [memcpy_eq_some hbuf]
      exact hdrop.symm
    case isFalse => exact ⟨_, rfl, hdrop.symm⟩

@[simp] theorem length_inputBuffer (b : IoBuf) : b.inputBuffer.length = b.inputLen :=
  readBytes_length _ _ _

theorem commitWrite_sizes {b b' : IoBuf} {bytes : List UInt8}
    (h : b.commitWrite bytes = some b') :
    b'.offs = b.offs ∧ b'.size = b.size + bytes.length ∧ b'.capacity = b.capacity := by
  unfold commitWrite at h
  split at h
  · cases h
    exact ⟨rfl, rfl, rfl⟩
  · cases h

/-- While `size_ < 512`, `ConsumeInput` leaves `offs_` at `0` or at most half of `size_`: it
    compacts as soon as more than half is consumed. -/
theorem consumeInput_sizes {b b' : IoBuf} {n : ℕ} (h : b.consumeInput n = some b')
    (hsize : b.size < 512) : (b'.offs = 0 ∨ 2 * b'.offs ≤ b'.size) ∧ b'.capacity = b.capacity := by
  unfold consumeInput at h
  split at h
  · cases h
    exact ⟨Or.inl rfl, rfl⟩
  · dsimp only at h
    split at h
    · obtain ⟨buf, -, rfl⟩ := Option.map_eq_some_iff.mp h
      exact ⟨Or.inl rfl, rfl⟩
    · next hnot =>
      cases h
      refine ⟨Or.inr ?_, rfl⟩
      show 2 * ((b.offs + n) % 2 ^ 64) ≤ b.size
      omega

/-- `ReadAndConsume(n)` within the input hands back its first `n` bytes and drops them. -/
theorem readAndConsume_spec {b : IoBuf} {n : ℕ} (h : n ≤ b.inputLen) :
    ∃ b', b.readAndConsume n = some (b', b.inputBuffer.take n) ∧
      b'.inputBuffer = b.inputBuffer.drop n := by
  have hin : b.offs + n ≤ b.size := by have := b.offs_le_size; unfold inputLen at h; omega
  have hcap := b.size_le_capacity
  obtain ⟨b', hb', hdrop⟩ := consumeInput_spec (b := b) (n := n) (by have := b.capacity_le; omega)
  refine ⟨b', ?_, hdrop⟩
  rw [readAndConsume, if_pos (by omega), hb', Option.map_some, inputBuffer, readBytes_take h]

/-- **Each call answers as the queue does.** A call that keeps the contract and whose sizes
    fit returns, hands back what the queue hands back, and leaves the queue's next state as
    the input. -/
theorem exec_spec {b : IoBuf} {op : Op} (hc : op.keepsContract b = true)
    (hf : op.fitsSizeT b = true) :
    ∃ b', b.exec op = some (b', (byteQueue b.inputBuffer op).2) ∧
      b'.inputBuffer = (byteQueue b.inputBuffer op).1 := by
  cases op with
  | writeAndCommit src =>
    obtain ⟨b', h, hin⟩ := writeAndCommit_spec (by simpa [Op.fitsSizeT] using hf)
    exact ⟨b', by simp [exec, h, byteQueue], hin⟩
  | ensureCapacity n =>
    obtain ⟨b', h, hin, -⟩ := ensureCapacity_spec (by simpa [Op.fitsSizeT] using hf)
    exact ⟨b', by simp [exec, h, byteQueue], hin⟩
  | commitWrite bytes =>
    obtain ⟨b', h, hin⟩ := commitWrite_spec (by simpa [Op.keepsContract] using hc)
    exact ⟨b', by simp [exec, h, byteQueue], hin⟩
  | consumeInput n =>
    obtain ⟨b', h, hin⟩ := consumeInput_spec (by simpa [Op.fitsSizeT] using hf)
    exact ⟨b', by simp [exec, h, byteQueue], hin⟩
  | readAndConsume n =>
    obtain ⟨b', h, hin⟩ := readAndConsume_spec (by simpa [Op.keepsContract] using hc)
    exact ⟨b', h, hin⟩
  | reserve n =>
    obtain ⟨b', h, hin, -⟩ := reserve_spec (by simpa [Op.fitsSizeT] using hf)
    exact ⟨b', by simp [exec, h, byteQueue], hin⟩
  | clear => exact ⟨b.clear, rfl, inputBuffer_clear b⟩

/-- The constructor returns an empty buffer with room for `capacity` bytes. -/
theorem create_spec {capacity : ℕ} (h : capacity ≤ 2 ^ 63) :
    ∃ b, create capacity = some b ∧ b.inputBuffer = [] ∧ capacity ≤ b.capacity := by
  obtain ⟨b, hb, hin, -, hcap⟩ := reserve_spec (b := unallocated) h
  exact ⟨b, hb, hin, hcap⟩

/-! ## Whole runs -/

/-- **`IoBuf` is a byte queue.** From every initial capacity up to `2 ^ 63`, every run of
    calls that keep the contract and whose sizes fit returns (so no `memcpy` on the way,
    the compaction's included, has overlapping ranges), hands back what the byte queue
    hands back, and ends in a buffer whose input is the queue's contents. The sizes keep
    `offs_ <= size_ <= capacity_`, and in the state reached `EnsureCapacity(n)` leaves
    `AppendLen() >= n` with the input unchanged. -/
theorem io_buf_is_byte_queue (c : ℕ) (hc : c ≤ 2 ^ 63) :
    ∃ b₀, create c = some b₀ ∧
      ∀ ops, Trans.meets exec (fun b op => op.keepsContract b && op.fitsSizeT b) b₀ ops = true →
        ∃ b outs, Trans.runOut exec b₀ ops = some (b, outs) ∧
          Trans.runOut (fun q op => some (byteQueue q op)) [] ops = some (b.inputBuffer, outs) ∧
          b.offs ≤ b.size ∧ b.size ≤ b.capacity ∧
          ∀ n, b.size + n ≤ 2 ^ 63 →
            ∃ b', b.ensureCapacity n = some b' ∧ n ≤ b'.appendLen ∧
              b'.inputBuffer = b.inputBuffer := by
  obtain ⟨b₀, h₀, hin₀, -⟩ := create_spec hc
  refine ⟨b₀, h₀, fun ops hops => ?_⟩
  have hstep : ∀ b op, (op.keepsContract b && op.fitsSizeT b) = true →
      ∃ b', b.exec op = some (b', (byteQueue b.inputBuffer op).2) ∧
        b'.inputBuffer = (byteQueue b.inputBuffer op).1 := by
    intro b op h
    rw [Bool.and_eq_true] at h
    exact exec_spec h.1 h.2
  obtain ⟨b, outs, hrun, hqueue⟩ := Trans.runOut_abs byteQueue inputBuffer _ hstep hops
  rw [hin₀] at hqueue
  refine ⟨b, outs, hrun, hqueue, b.offs_le_size, b.size_le_capacity, fun n hn => ?_⟩
  obtain ⟨b', h', hin', -, hroom⟩ := ensureCapacity_spec hn
  exact ⟨b', h', hroom, hin'⟩

/-- `io_buf_is_byte_queue` at the default capacity of the constructor, `256`, on a run that
    keeps the contract: three bytes written, one read back, room for `300` more ensured, and
    one byte written into `AppendBuffer()` and committed. The buffer ends holding `2, 3, 4`. -/
theorem io_buf_is_byte_queue_run :
    (256 : ℕ) ≤ 2 ^ 63 ∧ ∃ b₀, create 256 = some b₀ ∧
      Trans.meets exec (fun b op => op.keepsContract b && op.fitsSizeT b) b₀
        [.writeAndCommit [1, 2, 3], .readAndConsume 1, .ensureCapacity 300, .commitWrite [4]] = true ∧
      ∃ b, Trans.runOut exec b₀
          [.writeAndCommit [1, 2, 3], .readAndConsume 1, .ensureCapacity 300, .commitWrite [4]] =
            some (b, [[], [1], [], []]) ∧ b.inputBuffer = [2, 3, 4] ∧
        b.offs ≤ b.size ∧ b.size ≤ b.capacity ∧
        ∀ n, b.size + n ≤ 2 ^ 63 →
          ∃ b', b.ensureCapacity n = some b' ∧ n ≤ b'.appendLen ∧ b'.inputBuffer = [2, 3, 4] := by
  obtain ⟨b₀, h₀, hall⟩ := io_buf_is_byte_queue 256 (by decide)
  have hmeets : Trans.meets exec (fun b op => op.keepsContract b && op.fitsSizeT b) b₀
      [.writeAndCommit [1, 2, 3], .readAndConsume 1, .ensureCapacity 300, .commitWrite [4]] =
        true := by
    cases h₀
    decide
  obtain ⟨b, outs, hrun, hqueue, hoffs, hsize, hroom⟩ := hall _ hmeets
  -- the byte queue's side of the run, evaluated
  have hspec : Trans.runOut (fun q op => some (byteQueue q op)) []
      [.writeAndCommit [1, 2, 3], .readAndConsume 1, .ensureCapacity 300, .commitWrite [4]] =
        some ([2, 3, 4], [[], [1], [], []]) := by
    decide
  rw [hspec, Option.some.injEq, Prod.mk.injEq] at hqueue
  obtain ⟨hin, rfl⟩ := hqueue
  refine ⟨by decide, b₀, h₀, hmeets, b, hrun, hin.symm, hoffs, hsize, fun n hn => ?_⟩
  rw [hin]
  exact hroom n hn

/-! ## Sums that wrap -/

/-- **The failing run.** From `IoBuf(256)`: two bytes written, one consumed, then
    `ConsumeInput(2 ^ 64 - 1)`, which is at least `InputLen()`. `offs_ + sz` wraps to `0`,
    below `size_`, so `offs_` becomes `0` and both bytes are input again, where the queue is
    empty. After one byte written, `EnsureCapacity(2 ^ 64 - 1)` reserves the wrapped
    `size_ + sz = 0` bytes, and `AppendLen()` stays `255`. -/
theorem consume_input_wraps :
    ∃ b₀, create 256 = some b₀ ∧
      Trans.meets exec (fun b op => op.keepsContract b) b₀
        [.writeAndCommit [1, 2], .consumeInput 1, .consumeInput (2 ^ 64 - 1)] = true ∧
      (Trans.runOut exec b₀
        [.writeAndCommit [1, 2], .consumeInput 1, .consumeInput (2 ^ 64 - 1)]).map
          (fun r => r.1.inputBuffer) = some [1, 2] ∧
      Trans.runOut (fun q op => some (byteQueue q op)) []
        [.writeAndCommit [1, 2], .consumeInput 1, .consumeInput (2 ^ 64 - 1)] =
          some ([], [[], [], []]) ∧
      ((b₀.writeAndCommit [1]).bind fun b => b.ensureCapacity (2 ^ 64 - 1)).map appendLen =
        some 255 := by
  refine ⟨_, rfl, ?_, ?_, ?_, ?_⟩ <;> decide

end IoBuf

end Helio
