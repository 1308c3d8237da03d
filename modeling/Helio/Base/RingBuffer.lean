import Helio.Lib.Trans
import Helio.Lib.Fifo
import Mathlib.Data.Nat.ModEq

/-!
# `base::RingBuffer`: a bounded queue on two free-running counters

`RingBuffer<T>` (`base/ring_buffer.h`) keeps `cap` cells, `cap` a power of two, and two
`unsigned` counters that only ever grow: `head_` counts the items taken out, `tail_` the
items put in. The live items are the cells from `head_` to `tail_`, each read at its
counter masked by `cap - 1`, and `size()` is `tail_ - head_`. Both counters wrap past
`UINT_MAX`; the comment on `TryEmplace` notes that its test `tail_ - head_ < capacity_`
survives that, since the difference of two wrapped counters is still the size.

The abstract model is a bounded queue of capacity `cap` (`Queue.exec`): `TryEmplace` and
`GetTail` append when there is room, `EmplaceOrOverride` appends and drops the oldest item
when the queue was full, `TryDeque` pops, `ConsumeHead(n)` drops `n`. `Rep` says which
queue a buffer holds, and

* `exec_rel`: every operation but `EmplaceOrOverride` answers as the queue does and keeps
  `Rep`, from every state, wrapped counters included; `emplaceOrOverride_rel` is the same
  for `EmplaceOrOverride` while `head_ + capacity_ + 1` stays below `2 ^ 32`;
* `refines_queue`: so every run of the other operations is a run of the queue;
  `refines_queue_before_wrap`: so is every run of all of them shorter than `2 ^ 32 - cap`
  calls, since a call moves `head_ + size()` on by at most one (`exec_taken_le`);
* `emplace_or_override_wraps`: `EmplaceOrOverride` compares `tail_ <= head_ + capacity_`
  directly. Once `head_ + capacity_` wraps and `tail_` does not, it drops the item it has
  just stored. When `tail_` wraps first, it keeps every item, and the ring then holds
  more than `capacity_` of them. Both happen after about `2 ^ 32` operations.

The counters are `UInt32`, the code's `unsigned`. The cells are a function from index to
item, every index in `[0, cap)` a cell of `new T[cap]`.
-/

set_option autoImplicit false

namespace Helio

/-- A `RingBuffer<T>`: its four `unsigned` fields and the cells of `buf_`. -/
structure RingBuffer (T : Type) where
  capacity : UInt32
  mask : UInt32
  head : UInt32
  tail : UInt32
  buf : ℕ → T

namespace RingBuffer

variable {T : Type}

/-! ## The source -/

/-- `RingBuffer(cap)`: `new T[cap]` default-constructs every cell, and
    `mask_ = cap - 1`. -/
def create [Inhabited T] (cap : UInt32) : RingBuffer T :=
  ⟨cap, cap - 1, 0, 0, fun _ => default⟩

/-- `size()`. -/
def size (r : RingBuffer T) : UInt32 := r.tail - r.head

/-- `buf_[i] = u`. -/
@[simps] def store (r : RingBuffer T) (i : UInt32) (u : T) : RingBuffer T :=
  { r with buf := Function.update r.buf i.toNat u }

/-- `TryEmplace(u)`: the buffer and whether `u` went in. -/
def tryEmplace (r : RingBuffer T) (u : T) : RingBuffer T × Bool :=
  if r.tail - r.head < r.capacity then
    ({ r.store (r.tail &&& r.mask) u with tail := r.tail + 1 }, true)
  else (r, false)

/-- `EmplaceOrOverride(u)`: the buffer and whether the item at the head was overridden. -/
def emplaceOrOverride (r : RingBuffer T) (u : T) : RingBuffer T × Bool :=
  let r' := { r.store (r.tail &&& r.mask) u with tail := r.tail + 1 }
  if r'.tail ≤ r'.head + r'.capacity then (r', false)
  else ({ r' with head := r'.head + 1 }, true)

/-- `GetTail()`: the buffer and the cell returned, `none` for `nullptr`. -/
def getTail (r : RingBuffer T) : RingBuffer T × Option UInt32 :=
  if r.tail - r.head < r.capacity then ({ r with tail := r.tail + 1 }, some (r.tail &&& r.mask))
  else (r, none)

/-- `TryDeque(t)`: the buffer and the item moved into `t`, if any. -/
def tryDeque (r : RingBuffer T) : RingBuffer T × Option T :=
  if r.size = 0 then (r, none)
  else ({ r with head := r.head + 1 }, some (r.buf (r.head &&& r.mask).toNat))

/-- `GetItem(index)`, dereferenced. -/
def getItem (r : RingBuffer T) (index : UInt32) : T :=
  r.buf ((r.head + index) &&& r.mask).toNat

/-- `ConsumeHead(n)`. -/
def consumeHead (r : RingBuffer T) (n : UInt32) : RingBuffer T :=
  { r with head := r.head + n }

/-- The items `GetItem(0) .. GetItem(size() - 1)`. -/
def contents (r : RingBuffer T) : List T :=
  (List.range r.size.toNat).map fun i => r.getItem i.toUInt32

/-- The calls of a run. `getTail x` is `GetTail()` followed by the caller's store of `x`
    through the pointer, when it is not null. -/
inductive Op (T : Type) where
  | tryEmplace (x : T)
  | emplaceOrOverride (x : T)
  | getTail (x : T)
  | tryDeque
  | consumeHead (n : UInt32)

/-- What a call returns: the `bool` of the three inserting calls (`GetTail`'s pointer
    is not null), the item `TryDeque` moves out, nothing for `ConsumeHead`. -/
inductive Ret (T : Type) where
  | flag (b : Bool)
  | item (x : Option T)
  | done
  deriving DecidableEq

/-- One call. `ConsumeHead(n)` requires `n <= size()`; `none` outside that. -/
def exec (r : RingBuffer T) : Op T → Option (RingBuffer T × Ret T)
  | .tryEmplace x => some ((r.tryEmplace x).1, .flag (r.tryEmplace x).2)
  | .emplaceOrOverride x => some ((r.emplaceOrOverride x).1, .flag (r.emplaceOrOverride x).2)
  | .getTail x =>
    match r.getTail with
    | (r, some p) => some (r.store p x, .flag true)
    | (r, none) => some (r, .flag false)
  | .tryDeque => some ((r.tryDeque).1, .item (r.tryDeque).2)
  | .consumeHead n => if n ≤ r.size then some (r.consumeHead n, .done) else none

/-! ## The queue it implements -/

/-- The bounded FIFO of capacity `c`: what the ring buffer is meant to implement. -/
def Queue.exec (c : ℕ) (q : List T) : Op T → Option (List T × Ret T)
  | .tryEmplace x | .getTail x =>
    some (match Fifo.tryEnqueue c q x with
      | some q' => (q', .flag true)
      | none => (q, .flag false))
  | .emplaceOrOverride x =>
    some (if q.length < c then (q ++ [x], .flag false) else ((q ++ [x]).drop 1, .flag true))
  | .tryDeque =>
    some (match Fifo.tryDequeue q with
      | some (y, q') => (q', .item (some y))
      | none => (q, .item none))
  | .consumeHead n => if n.toNat ≤ q.length then some (q.drop n.toNat, .done) else none

/-! ## Counters modulo the capacity -/

section Arith

variable {k : ℕ}

theorem mod_word (hk : k < 32) (x : ℕ) : x % 2 ^ 32 % 2 ^ k = x % 2 ^ k :=
  Nat.mod_mod_of_dvd x (Nat.pow_dvd_pow 2 hk.le)

/-- Two offsets below the capacity reach the same cell only if they are equal. -/
theorem index_inj {c a i j : ℕ} (hi : i < c) (hj : j < c) (h : (a + i) % c = (a + j) % c) :
    i = j := by
  have hmod : i % c = j % c := Nat.ModEq.add_left_cancel' a h
  rwa [Nat.mod_eq_of_lt hi, Nat.mod_eq_of_lt hj] at hmod

end Arith

/-- The ring holds the queue `q`: a capacity `2 ^ k` with `k < 32`, the mask one less,
    `size()` the length of `q`, at most the capacity, and the live cells, from `head_`
    on, the items of `q` in order. -/
structure Rep (r : RingBuffer T) (q : List T) : Prop where
  cap_pow : ∃ k, k < 32 ∧ r.capacity.toNat = 2 ^ k
  mask_eq : r.mask = r.capacity - 1
  size_eq : r.size.toNat = q.length
  size_le : q.length ≤ r.capacity.toNat
  cells : ∀ i (h : i < q.length), r.buf ((r.head.toNat + i) % r.capacity.toNat) = q[i]

namespace Rep

variable {r : RingBuffer T} {q : List T}

theorem cap_pos (h : Rep r q) : 0 < r.capacity.toNat := by
  obtain ⟨k, -, hk⟩ := h.cap_pow
  rw [hk]; exact Nat.two_pow_pos k

theorem cap_le (h : Rep r q) : r.capacity.toNat ≤ 2 ^ 31 := by
  obtain ⟨k, hk32, hk⟩ := h.cap_pow
  rw [hk]; exact Nat.pow_le_pow_right (by decide) (by omega)

/-- Reducing modulo `2 ^ 32` first does not move a cell. -/
theorem mod_word_cap (h : Rep r q) (x : ℕ) :
    x % 2 ^ 32 % r.capacity.toNat = x % r.capacity.toNat := by
  obtain ⟨k, hk32, hk⟩ := h.cap_pow
  rw [hk]; exact mod_word hk32 x

/-- A counter moved past `2 ^ 32` lands on the same cell. -/
theorem mod_word_add (h : Rep r q) (a i : ℕ) :
    (a % 2 ^ 32 + i) % r.capacity.toNat = (a + i) % r.capacity.toNat := by
  rw [Nat.add_mod, h.mod_word_cap, ← Nat.add_mod]

/-- **Masking is the remainder modulo the capacity.** -/
theorem slot (h : Rep r q) (x : UInt32) : (x &&& r.mask).toNat = x.toNat % r.capacity.toNat := by
  obtain ⟨k, hk32, hk⟩ := h.cap_pow
  have hm : r.mask.toNat = 2 ^ k - 1 := by
    rw [h.mask_eq, UInt32.toNat_sub, hk, UInt32.toNat_one]
    have : 1 ≤ 2 ^ k := Nat.one_le_two_pow
    have : 2 ^ k ≤ 2 ^ 31 := Nat.pow_le_pow_right (by decide) (by omega)
    omega
  rw [UInt32.toNat_and, hm, Nat.and_two_pow_sub_one_eq_mod, hk]

/-- `tail_` is `head_ + size()` modulo `2 ^ 32`. -/
theorem tail_eq (h : Rep r q) : r.tail.toNat = (r.head.toNat + q.length) % 2 ^ 32 := by
  have hs := h.size_eq
  rw [size, UInt32.toNat_sub] at hs
  have := r.head.toNat_lt
  have := r.tail.toNat_lt
  omega

/-- The cell `tail_` masks to follows the last live one. -/
theorem tail_slot (h : Rep r q) :
    (r.tail &&& r.mask).toNat = (r.head.toNat + q.length) % r.capacity.toNat := by
  rw [h.slot, h.tail_eq, h.mod_word_cap]

/-- `GetItem(i)` reads the `i`-th live cell. -/
theorem getItem_eq (h : Rep r q) {i : ℕ} (hi : i < 2 ^ 32) :
    r.getItem i.toUInt32 = r.buf ((r.head.toNat + i) % r.capacity.toNat) := by
  rw [getItem, h.slot, UInt32.toNat_add, Nat.toUInt32, UInt32.toNat_ofNat', Nat.mod_eq_of_lt hi,
    h.mod_word_cap]

/-- **The ring's contents are the queue.** -/
theorem contents_eq (h : Rep r q) : r.contents = q := by
  apply List.ext_getElem
  · simp [contents, h.size_eq]
  · intro i h₁ h₂
    have hlen : i < 2 ^ 32 := by have := h.size_le; have := h.cap_le; omega
    simp only [contents, List.getElem_map, List.getElem_range]
    rw [h.getItem_eq hlen, h.cells i h₂]

end Rep

/-! ## Each operation on the queue -/

/-- A call of the ring and a call of the queue agree: the same answer, and the ring still
    holds the queue, at the capacity `cap` it had. -/
def Agree (cap : UInt32) (a : RingBuffer T × Ret T) (b : List T × Ret T) : Prop :=
  (Rep a.1 b.1 ∧ a.1.capacity = cap) ∧ a.2 = b.2

section Ops

variable {r : RingBuffer T} {q : List T}

/-- Storing `x` after the last live cell of a ring that is not full gives the queue with
    `x` appended: `TryEmplace`, `GetTail` and a non-overriding `EmplaceOrOverride`. -/
theorem Rep.push (h : Rep r q) (hlt : q.length < r.capacity.toNat) (x : T) :
    Rep { r.store (r.tail &&& r.mask) x with tail := r.tail + 1 } (q ++ [x]) := by
  have hc := h.cap_le
  have hpos := h.cap_pos
  refine ⟨h.cap_pow, h.mask_eq, ?_, by simp; omega, ?_⟩
  · have hs := h.size_eq
    simp only [size, store_head, UInt32.toNat_sub, UInt32.toNat_add, UInt32.toNat_one] at hs ⊢
    have := r.head.toNat_lt
    have := r.tail.toNat_lt
    simp only [List.length_append, List.length_singleton]
    omega
  · intro i hi
    simp only [store_buf, store_head, store_capacity, h.tail_slot]
    by_cases hil : i < q.length
    · -- an old item: its cell is not the one written
      have hne : (r.head.toNat + i) % r.capacity.toNat ≠
          (r.head.toNat + q.length) % r.capacity.toNat :=
        fun he => absurd (index_inj (by omega) hlt he) (by omega)
      rw [Function.update_of_ne hne, h.cells i hil, List.getElem_append_left hil]
    · have hi' : i = q.length := by simp at hi; omega
      subst hi'
      simp

/-- Taking `n ≤ size()` items off the head gives the queue without its first `n`. -/
theorem Rep.drop (h : Rep r q) {n : ℕ} (hn : n ≤ q.length) (m : UInt32) (hm : m.toNat = n) :
    Rep { r with head := r.head + m } (q.drop n) := by
  have hc := h.cap_le
  refine ⟨h.cap_pow, h.mask_eq, ?_, by simp; have := h.size_le; omega, ?_⟩
  · have hs := h.size_eq
    simp only [size, UInt32.toNat_sub, UInt32.toNat_add] at hs ⊢
    have := r.head.toNat_lt
    have := r.tail.toNat_lt
    rw [List.length_drop, hm]
    omega
  · intro i hi
    simp only [UInt32.toNat_add, hm]
    have hi' : n + i < q.length := by simp at hi; omega
    rw [h.mod_word_add, Nat.add_assoc, h.cells (n + i) hi', List.getElem_drop]

/-- Storing `x` after the last live cell of a full ring and moving the head past the
    oldest item gives the queue with `x` appended and its first item dropped: the new
    item lands in the cell the head leaves. -/
theorem Rep.override (h : Rep r q) (hfull : q.length = r.capacity.toNat) (x : T) :
    Rep { { r.store (r.tail &&& r.mask) x with tail := r.tail + 1 } with head := r.head + 1 }
      ((q ++ [x]).drop 1) := by
  have hc := h.cap_le
  have hpos := h.cap_pos
  refine ⟨h.cap_pow, h.mask_eq, ?_, by simp; omega, ?_⟩
  · have hs := h.size_eq
    simp only [size, UInt32.toNat_sub, UInt32.toNat_add, UInt32.toNat_one] at hs ⊢
    have := r.head.toNat_lt
    have := r.tail.toNat_lt
    simp only [List.length_drop, List.length_append, List.length_singleton]
    omega
  · intro i hi
    have hi' : i < q.length := by simp at hi; omega
    simp only [store_buf, store_capacity, h.tail_slot, UInt32.toNat_add, UInt32.toNat_one]
    rw [h.mod_word_add, Nat.add_assoc, List.getElem_drop]
    by_cases hil : 1 + i < q.length
    · -- an item after the oldest: its cell is not the one written
      have hne : (r.head.toNat + (1 + i)) % r.capacity.toNat ≠
          (r.head.toNat + q.length) % r.capacity.toNat := by
        intro he
        rw [hfull, Nat.add_mod_right, ← Nat.add_zero r.head.toNat] at he
        exact absurd (index_inj (by omega) hpos he) (by omega)
      rw [Function.update_of_ne hne, h.cells (1 + i) hil, List.getElem_append_left hil]
    · have hi1 : 1 + i = q.length := by omega
      simp [hi1]

theorem exec_tryEmplace_rel (h : Rep r q) (x : T) :
    Option.Rel (Agree r.capacity) (r.exec (.tryEmplace x))
      (Queue.exec r.capacity.toNat q (.tryEmplace x)) := by
  by_cases hlt : q.length < r.capacity.toNat
  · have hc : r.tail - r.head < r.capacity := by
      rw [UInt32.lt_iff_toNat_lt, ← size, h.size_eq]; exact hlt
    simp only [exec, tryEmplace, if_pos hc, Queue.exec, Fifo.tryEnqueue_of_lt x hlt]
    exact .some ⟨⟨h.push hlt x, rfl⟩, rfl⟩
  · have hc : ¬ r.tail - r.head < r.capacity := by
      rw [UInt32.lt_iff_toNat_lt, ← size, h.size_eq]; exact hlt
    have hq : Fifo.tryEnqueue r.capacity.toNat q x = none := Fifo.tryEnqueue_eq_none.mpr (by omega)
    simp only [exec, tryEmplace, if_neg hc, Queue.exec, hq]
    exact .some ⟨⟨h, rfl⟩, rfl⟩

theorem exec_getTail_rel (h : Rep r q) (x : T) :
    Option.Rel (Agree r.capacity) (r.exec (.getTail x))
      (Queue.exec r.capacity.toNat q (.getTail x)) := by
  by_cases hlt : q.length < r.capacity.toNat
  · have hc : r.tail - r.head < r.capacity := by
      rw [UInt32.lt_iff_toNat_lt, ← size, h.size_eq]; exact hlt
    simp only [exec, getTail, if_pos hc, Queue.exec, Fifo.tryEnqueue_of_lt x hlt]
    exact .some ⟨⟨h.push hlt x, rfl⟩, rfl⟩
  · have hc : ¬ r.tail - r.head < r.capacity := by
      rw [UInt32.lt_iff_toNat_lt, ← size, h.size_eq]; exact hlt
    have hq : Fifo.tryEnqueue r.capacity.toNat q x = none := Fifo.tryEnqueue_eq_none.mpr (by omega)
    simp only [exec, getTail, if_neg hc, Queue.exec, hq]
    exact .some ⟨⟨h, rfl⟩, rfl⟩

theorem exec_tryDeque_rel (h : Rep r q) :
    Option.Rel (Agree r.capacity) (r.exec .tryDeque)
      (Queue.exec r.capacity.toNat q .tryDeque) := by
  cases q with
  | nil =>
    have hs : r.size = 0 := by rw [UInt32.ext_iff, h.size_eq]; rfl
    simp only [exec, tryDeque, if_pos hs, Queue.exec, Fifo.tryDequeue_nil]
    exact .some ⟨⟨h, rfl⟩, rfl⟩
  | cons y q =>
    have hs : r.size ≠ 0 := by rw [Ne, UInt32.ext_iff, h.size_eq]; simp
    have hy : r.buf (r.head &&& r.mask).toNat = y := by
      have h0 := h.cells 0 (by simp)
      rw [Nat.add_zero] at h0
      rw [h.slot]
      exact h0
    simp only [exec, tryDeque, if_neg hs, Queue.exec, Fifo.tryDequeue_cons, hy]
    exact .some ⟨⟨by simpa using h.drop (n := 1) (by simp) 1 rfl, rfl⟩, rfl⟩

theorem exec_consumeHead_rel (h : Rep r q) (n : UInt32) :
    Option.Rel (Agree r.capacity) (r.exec (.consumeHead n))
      (Queue.exec r.capacity.toNat q (.consumeHead n)) := by
  by_cases hn : n.toNat ≤ q.length
  · have hc : n ≤ r.size := by rw [UInt32.le_iff_toNat_le, h.size_eq]; exact hn
    simp only [exec, if_pos hc, Queue.exec, if_pos hn]
    exact .some ⟨⟨h.drop hn n rfl, rfl⟩, rfl⟩
  · have hc : ¬ n ≤ r.size := by rw [UInt32.le_iff_toNat_le, h.size_eq]; exact hn
    simp only [exec, if_neg hc, Queue.exec, if_neg hn]
    exact .none

/-- The operations whose tests are wrap-safe. -/
def Op.wrapSafe : Op T → Prop
  | .emplaceOrOverride _ => False
  | _ => True

/-- **Every wrap-safe operation answers as the queue does and keeps `Rep`**, from every
    state that holds a queue. -/
theorem exec_rel (h : Rep r q) (op : Op T) (hop : op.wrapSafe) :
    Option.Rel (Agree r.capacity) (r.exec op)
      (Queue.exec r.capacity.toNat q op) := by
  cases op with
  | tryEmplace x => exact exec_tryEmplace_rel h x
  | emplaceOrOverride x => exact absurd hop id
  | getTail x => exact exec_getTail_rel h x
  | tryDeque => exact exec_tryDeque_rel h
  | consumeHead n => exact exec_consumeHead_rel h n

/-- **`EmplaceOrOverride` answers as the queue does while `head_ + capacity_ + 1` does not
    wrap**: then neither side of its comparison has wrapped. -/
theorem emplaceOrOverride_rel (h : Rep r q) (x : T)
    (hw : r.head.toNat + r.capacity.toNat + 1 < 2 ^ 32) :
    Option.Rel (Agree r.capacity) (r.exec (.emplaceOrOverride x))
      (Queue.exec r.capacity.toNat q (.emplaceOrOverride x)) := by
  have hle := h.size_le
  have ht : r.tail.toNat = r.head.toNat + q.length := by
    rw [h.tail_eq, Nat.mod_eq_of_lt (by omega)]
  -- with no wrap the test compares the exact values
  have hiff : r.tail + 1 ≤ r.head + r.capacity ↔ q.length < r.capacity.toNat := by
    rw [UInt32.le_iff_toNat_le, UInt32.toNat_add, UInt32.toNat_add, UInt32.toNat_one, ht,
      Nat.mod_eq_of_lt (by omega), Nat.mod_eq_of_lt (by omega)]
    omega
  simp only [exec, emplaceOrOverride, Queue.exec, store_head, store_capacity]
  by_cases hlt : q.length < r.capacity.toNat
  · rw [if_pos (hiff.mpr hlt), if_pos hlt]
    exact .some ⟨⟨h.push hlt x, rfl⟩, rfl⟩
  · rw [if_neg (mt hiff.mp hlt), if_neg hlt]
    exact .some ⟨⟨h.override (by omega) x, rfl⟩, rfl⟩

end Ops

/-! ## Runs -/

/-- `RingBuffer(cap)`, `cap` a power of two below `2 ^ 32`, holds the empty queue. -/
theorem Rep.create [Inhabited T] {cap : UInt32} {k : ℕ} (hk : k < 32) (hcap : cap.toNat = 2 ^ k) :
    Rep (create cap : RingBuffer T) [] :=
  ⟨⟨k, hk, hcap⟩, rfl, by simp [RingBuffer.create, size], Nat.zero_le _,
    fun _ h => absurd h (Nat.not_lt_zero _)⟩

/-- What `Rep` at the end of a run tells a caller: the ring's items are the queue's, at most
    `cap` of them. -/
theorem rel_contents {cap : UInt32} {a : Option (RingBuffer T × List (Ret T))}
    {b : Option (List T × List (Ret T))}
    (h : Option.Rel (fun x y => (Rep x.1 y.1 ∧ x.1.capacity = cap) ∧ x.2 = y.2) a b) :
    Option.Rel (fun x y => x.1.contents = y.1 ∧ x.1.size.toNat ≤ cap.toNat ∧ x.2 = y.2) a b :=
  Trans.rel_mono h fun _ _ ⟨⟨hrep, hc⟩, hret⟩ =>
    ⟨hrep.contents_eq, by rw [hrep.size_eq, ← hc]; exact hrep.size_le, hret⟩

/-- **The ring buffer refines the bounded queue on every run of wrap-safe calls.** From
    `RingBuffer(cap)`, `cap` a power of two, every sequence of `TryEmplace`, `GetTail`,
    `TryDeque` and `ConsumeHead` calls, however often the counters wrap, is enabled
    exactly when the queue's is, returns what the queue returns, and leaves the queue's
    items in `GetItem(0) .. GetItem(size() - 1)`, with `size()` at most `cap`. -/
theorem refines_queue [Inhabited T] {cap : UInt32} {k : ℕ} (hk : k < 32)
    (hcap : cap.toNat = 2 ^ k) (ops : List (Op T)) (hops : ∀ op ∈ ops, op.wrapSafe) :
    Option.Rel (fun a b => a.1.contents = b.1 ∧ a.1.size.toNat ≤ cap.toNat ∧ a.2 = b.2)
      (Trans.runOut exec (create cap) ops) (Trans.runOut (Queue.exec cap.toNat) [] ops) := by
  have hrun := Trans.runOut_rel (f := exec) (g := Queue.exec cap.toNat)
    (fun r q => Rep r q ∧ r.capacity = cap) Op.wrapSafe
    (fun r q op hr hop => by
      have hrel := exec_rel hr.1 op hop
      rw [hr.2] at hrel
      exact hrel)
    ⟨Rep.create hk hcap, rfl⟩ hops
  exact rel_contents hrun

/-- A ring of two cells, filled, refused, drained by one and refilled through `GetTail`: its
    answers and items are the queue's. -/
theorem refines_queue_two :
    ∃ r : RingBuffer ℕ, Trans.runOut exec (create 2)
        [.tryEmplace 1, .getTail 2, .tryEmplace 3, .tryDeque, .getTail 4, .consumeHead 1] =
      some (r, [.flag true, .flag true, .flag false, .item (some 1), .flag true, .done]) ∧
      r.contents = [4] ∧ r.size.toNat ≤ 2 := by
  have hrel := refines_queue (T := ℕ) (k := 1) (by decide)
    (show (2 : UInt32).toNat = 2 ^ 1 by decide)
    [.tryEmplace 1, .getTail 2, .tryEmplace 3, .tryDeque, .getTail 4, .consumeHead 1]
    (by simp [Op.wrapSafe])
  have hq : Trans.runOut (Queue.exec (2 : UInt32).toNat) []
      [.tryEmplace 1, .getTail 2, .tryEmplace 3, .tryDeque, .getTail 4, .consumeHead 1] =
      some ([4], [.flag true, .flag true, .flag false, .item (some 1), .flag true, .done]) := rfl
  rw [hq] at hrel
  obtain ⟨⟨r, rets⟩, hrun, hc, hs, hret⟩ := Trans.rel_some hrel
  dsimp only at hc hs hret
  subst hret
  exact ⟨r, hrun, hc, hs⟩

/-- **What a call does to the counters.** It leaves both, moves the tail on by one, moves
    both on by one (`EmplaceOrOverride` overriding), or moves the head on by at most
    `size()`. -/
theorem exec_counters {r r' : RingBuffer T} {op : Op T} {x : Ret T}
    (ha : r.exec op = some (r', x)) :
    (r'.head = r.head ∧ r'.tail = r.tail) ∨ (r'.head = r.head ∧ r'.tail = r.tail + 1) ∨
      (r'.head = r.head + 1 ∧ r'.tail = r.tail + 1) ∨
      (∃ n, n ≤ r.size ∧ r'.head = r.head + n ∧ r'.tail = r.tail) := by
  cases op with
  | tryEmplace u =>
    simp only [exec, Option.some.injEq, Prod.mk.injEq] at ha
    obtain ⟨rfl, -⟩ := ha
    unfold tryEmplace
    split
    · exact .inr (.inl ⟨rfl, rfl⟩)
    · exact .inl ⟨rfl, rfl⟩
  | emplaceOrOverride u =>
    simp only [exec, Option.some.injEq, Prod.mk.injEq] at ha
    obtain ⟨rfl, -⟩ := ha
    unfold emplaceOrOverride
    dsimp only
    split
    · exact .inr (.inl ⟨rfl, rfl⟩)
    · exact .inr (.inr (.inl ⟨rfl, rfl⟩))
  | getTail u =>
    by_cases hc : r.tail - r.head < r.capacity
    · simp only [exec, getTail, if_pos hc, Option.some.injEq, Prod.mk.injEq] at ha
      obtain ⟨rfl, -⟩ := ha
      exact .inr (.inl ⟨rfl, rfl⟩)
    · simp only [exec, getTail, if_neg hc, Option.some.injEq, Prod.mk.injEq] at ha
      obtain ⟨rfl, -⟩ := ha
      exact .inl ⟨rfl, rfl⟩
  | tryDeque =>
    simp only [exec, Option.some.injEq, Prod.mk.injEq] at ha
    obtain ⟨rfl, -⟩ := ha
    unfold tryDeque
    split
    · exact .inl ⟨rfl, rfl⟩
    · rename_i h0
      refine .inr (.inr (.inr ⟨1, ?_, rfl, rfl⟩))
      rw [UInt32.le_iff_toNat_le, UInt32.toNat_one]
      have : r.size.toNat ≠ 0 := fun h => h0 (UInt32.toNat_inj.mp h)
      omega
  | consumeHead n =>
    simp only [exec] at ha
    split at ha
    · rename_i hn
      simp only [Option.some.injEq, Prod.mk.injEq] at ha
      obtain ⟨rfl, -⟩ := ha
      exact .inr (.inr (.inr ⟨n, hn, rfl, rfl⟩))
    · cases ha

/-- `head_ + size()`, the items taken in, grows by at most one a call while it does not
    wrap. -/
theorem exec_taken_le {r r' : RingBuffer T} {op : Op T} {x : Ret T}
    (ha : r.exec op = some (r', x)) (hT : r.head.toNat + r.size.toNat + 1 < 2 ^ 32) :
    r'.head.toNat + r'.size.toNat ≤ r.head.toNat + r.size.toNat + 1 := by
  have hh := r.head.toNat_lt
  have ht := r.tail.toNat_lt
  have hs : r.size.toNat = (2 ^ 32 - r.head.toNat + r.tail.toNat) % 2 ^ 32 := by
    rw [size, UInt32.toNat_sub]
  rcases exec_counters ha with ⟨h₁, h₂⟩ | ⟨h₁, h₂⟩ | ⟨h₁, h₂⟩ | ⟨n, hn, h₁, h₂⟩ <;>
    simp only [size, h₁, h₂, UInt32.toNat_sub, UInt32.toNat_add, UInt32.toNat_one] at hs ⊢
  · omega
  · omega
  · omega
  · rw [UInt32.le_iff_toNat_le, size, UInt32.toNat_sub] at hn
    omega
/-- **Before the counters wrap, `EmplaceOrOverride` refines the queue too.** From
    `RingBuffer(cap)`, `cap` a power of two, every sequence of fewer than `2 ^ 32 - cap`
    calls, `EmplaceOrOverride` included, is enabled exactly when the queue's is, returns what
    the queue returns, and leaves the queue's items in the ring, at most `cap` of them. -/
theorem refines_queue_before_wrap [Inhabited T] {cap : UInt32} {k : ℕ} (hk : k < 32)
    (hcap : cap.toNat = 2 ^ k) (ops : List (Op T)) (hlen : ops.length + cap.toNat < 2 ^ 32) :
    Option.Rel (fun a b => a.1.contents = b.1 ∧ a.1.size.toNat ≤ cap.toNat ∧ a.2 = b.2)
      (Trans.runOut exec (create cap) ops) (Trans.runOut (Queue.exec cap.toNat) [] ops) := by
  -- the budget: `head_ + size()` stays below `2 ^ 32 - cap` less the calls still to come
  have hrun := Trans.runOut_rel_graded (f := exec) (g := Queue.exec cap.toNat)
    (fun n r q => Rep r q ∧ r.capacity = cap ∧ r.head.toNat + q.length + n + cap.toNat < 2 ^ 32)
    (fun _ => True) (fun n r q op hr _ => by
      obtain ⟨hrep, hc, hT⟩ := hr
      have hrel : Option.Rel (Agree r.capacity) (r.exec op) (Queue.exec r.capacity.toNat q op) := by
        cases op with
        | emplaceOrOverride x => exact emplaceOrOverride_rel hrep x (by rw [hc]; omega)
        | tryEmplace x => exact exec_rel hrep _ trivial
        | getTail x => exact exec_rel hrep _ trivial
        | tryDeque => exact exec_rel hrep _ trivial
        | consumeHead m => exact exec_rel hrep _ trivial
      rw [hc] at hrel
      generalize hx : r.exec op = x at hrel ⊢
      generalize Queue.exec cap.toNat q op = y at hrel ⊢
      cases hrel with
      | none => exact .none
      | @some a b hab =>
        obtain ⟨⟨hrep', hc'⟩, hret⟩ := hab
        -- one call takes in at most one item
        have htaken := exec_taken_le hx (by rw [hrep.size_eq]; omega)
        rw [hrep.size_eq, hrep'.size_eq] at htaken
        exact .some ⟨⟨hrep', hc', by omega⟩, hret⟩)
    (s := create cap) (t := [])
    ⟨Rep.create hk hcap, rfl, by simpa [create] using hlen⟩ (fun _ (_ : _ ∈ ops) => trivial)
  -- the budget is spent; `Rep` is what is left
  exact rel_contents (Trans.rel_mono hrun fun _ _ h => ⟨⟨h.1.1, h.1.2.1⟩, h.2⟩)

/-- A ring of two cells: `EmplaceOrOverride` appends while there is room, then drops the
    oldest item, as the queue does. -/
theorem refines_queue_before_wrap_override :
    ∃ r : RingBuffer ℕ, Trans.runOut exec (create 2)
        [.tryEmplace 1, .emplaceOrOverride 2, .emplaceOrOverride 3, .tryDeque] =
      some (r, [.flag true, .flag false, .flag true, .item (some 2)]) ∧
      r.contents = [3] ∧ r.size.toNat ≤ 2 := by
  have hrel := refines_queue_before_wrap (T := ℕ) (k := 1) (by decide)
    (show (2 : UInt32).toNat = 2 ^ 1 by decide)
    [.tryEmplace 1, .emplaceOrOverride 2, .emplaceOrOverride 3, .tryDeque] (by decide)
  have hq : Trans.runOut (Queue.exec (2 : UInt32).toNat) []
      [.tryEmplace 1, .emplaceOrOverride 2, .emplaceOrOverride 3, .tryDeque] =
      some ([3], [.flag true, .flag false, .flag true, .item (some 2)]) := rfl
  rw [hq] at hrel
  obtain ⟨⟨r, rets⟩, hrun, hc, hs, hret⟩ := Trans.rel_some hrel
  dsimp only at hc hs hret
  subst hret
  exact ⟨r, hrun, hc, hs⟩

/-! ## `EmplaceOrOverride` after the counters wrap -/

/-- The ring's calls without their answers. -/
def step (r : RingBuffer T) (op : Op T) : Option (RingBuffer T) := (r.exec op).map Prod.fst

/-- A `TryEmplace` with room moves only the tail. -/
theorem tryEmplace_counters {r : RingBuffer T} {x : T} (h : r.tail - r.head < r.capacity) :
    (r.tryEmplace x).1.capacity = r.capacity ∧ (r.tryEmplace x).1.mask = r.mask ∧
      (r.tryEmplace x).1.head = r.head ∧ (r.tryEmplace x).1.tail = r.tail + 1 := by
  simp [tryEmplace, h]

/-- A `TryEmplace` followed by a `TryDeque` moves both counters of an empty ring of four
    cells on by one, so every pair of equal counters is reachable. -/
theorem reachable_counters (n : ℕ) (hn : n < 2 ^ 32) :
    ∃ r : RingBuffer ℕ, Trans.Reachable step (create 4) r ∧ r.capacity = 4 ∧ r.mask = 3 ∧
      r.head.toNat = n ∧ r.tail.toNat = n := by
  induction n with
  | zero => exact ⟨_, .refl _, rfl, rfl, rfl, rfl⟩
  | succ n ih =>
    obtain ⟨r, hr, hc, hm, hh, ht⟩ := ih (by omega)
    have heq : r.tail = r.head := UInt32.ext_iff.mpr (by rw [hh, ht])
    have hempty : r.tail - r.head < r.capacity := by rw [heq, hc, UInt32.sub_self]; decide
    have h₁ : step r (.tryEmplace 0) =
        some { r.store (r.tail &&& r.mask) 0 with tail := r.tail + 1 } := by
      simp [step, exec, tryEmplace, hempty]
    have h₂ : step { r.store (r.tail &&& r.mask) 0 with tail := r.tail + 1 } .tryDeque =
        some { r.store (r.tail &&& r.mask) 0 with tail := r.tail + 1, head := r.head + 1 } := by
      simp [step, exec, tryDeque, size, heq]
    refine ⟨_, (hr.tail h₁).tail h₂, hc, hm, ?_, ?_⟩
    · simp [UInt32.toNat_add, hh]; omega
    · simp [UInt32.toNat_add, ht]; omega

/-- **The failing inputs.** A ring of four cells whose counters both stand at
    `2 ^ 32 - 2`: it is empty, and `EmplaceOrOverride(7)` stores the item, finds
    `tail_ = 2 ^ 32 - 1` above the wrapped `head_ + capacity_ = 2`, moves the head past the
    item it has just stored and returns true; the ring is empty again. The queue appends
    and returns false. A full ring whose head stands at `2 ^ 32 - 5`: the increment wraps
    `tail_` to `0`, below `head_ + capacity_ = 2 ^ 32 - 1`, so nothing is dropped, false is
    returned, and `size()` is `5`, more than the capacity. -/
theorem emplace_or_override_wraps :
    (∃ r : RingBuffer ℕ, Trans.Reachable step (create 4) r ∧ r.contents = [] ∧
      ∃ r', r.exec (.emplaceOrOverride 7) = some (r', .flag true) ∧ r'.contents = []) ∧
    Queue.exec 4 ([] : List ℕ) (.emplaceOrOverride 7) = some ([7], .flag false) ∧
    (∃ r : RingBuffer ℕ, Trans.Reachable step (create 4) r ∧ r.size = 4 ∧
      ∃ r', r.exec (.emplaceOrOverride 7) = some (r', .flag false) ∧ r'.size = 5) := by
  refine ⟨?_, rfl, ?_⟩
  · obtain ⟨r, hr, hc, -, hh, ht⟩ := reachable_counters (2 ^ 32 - 2) (by decide)
    have hh' : r.head = 4294967294 := UInt32.ext_iff.mpr (by rw [hh]; rfl)
    have ht' : r.tail = 4294967294 := UInt32.ext_iff.mpr (by rw [ht]; rfl)
    -- `tail_ + 1 = 2 ^ 32 - 1` against the wrapped `head_ + capacity_ = 2`
    have hov : (r.emplaceOrOverride 7).2 = true := by simp [emplaceOrOverride, hh', ht', hc]
    refine ⟨r, hr, by simp [contents, size, hh', ht'], (r.emplaceOrOverride 7).1,
      by simp only [exec, hov], ?_⟩
    simp [contents, size, emplaceOrOverride, hh', ht', hc]
  · obtain ⟨r, hr, hc, hm, hh, ht⟩ := reachable_counters (2 ^ 32 - 5) (by decide)
    have hh' : r.head = 4294967291 := UInt32.ext_iff.mpr (by rw [hh]; rfl)
    have ht' : r.tail = 4294967291 := UInt32.ext_iff.mpr (by rw [ht]; rfl)
    -- four `TryEmplace` calls fill the ring, the last taking `tail_` to `2 ^ 32 - 1`
    obtain ⟨c₁, m₁, h₁, t₁⟩ := tryEmplace_counters (x := 0) (by rw [hh', ht', hc]; decide)
    obtain ⟨c₂, m₂, h₂, t₂⟩ := tryEmplace_counters (r := (r.tryEmplace 0).1) (x := 0)
      (by rw [c₁, h₁, t₁, hh', ht', hc]; decide)
    obtain ⟨c₃, m₃, h₃, t₃⟩ := tryEmplace_counters (r := ((r.tryEmplace 0).1.tryEmplace 0).1)
      (x := 0) (by rw [c₂, h₂, t₂, c₁, h₁, t₁, hh', ht', hc]; decide)
    obtain ⟨c₄, m₄, h₄, t₄⟩ := tryEmplace_counters
      (r := (((r.tryEmplace 0).1.tryEmplace 0).1.tryEmplace 0).1) (x := 0)
      (by rw [c₃, h₃, t₃, c₂, h₂, t₂, c₁, h₁, t₁, hh', ht', hc]; decide)
    set r₄ := ((((r.tryEmplace 0).1.tryEmplace 0).1.tryEmplace 0).1.tryEmplace 0).1
    have hc₄ : r₄.capacity = 4 := by rw [c₄, c₃, c₂, c₁, hc]
    have hh₄ : r₄.head = 4294967291 := by rw [h₄, h₃, h₂, h₁, hh']
    have ht₄ : r₄.tail = 4294967295 := by rw [t₄, t₃, t₂, t₁, ht']; decide
    have hreach : Trans.Reachable step (create 4) r₄ := by
      refine Trans.Reachable.tail (a := Op.tryEmplace 0) ?_ rfl
      refine Trans.Reachable.tail (a := Op.tryEmplace 0) ?_ rfl
      refine Trans.Reachable.tail (a := Op.tryEmplace 0) ?_ rfl
      exact Trans.Reachable.tail (a := Op.tryEmplace 0) hr rfl
    -- `tail_ + 1` wraps to `0`, below `head_ + capacity_ = 2 ^ 32 - 1`
    have hov : (r₄.emplaceOrOverride 7).2 = false := by simp [emplaceOrOverride, hh₄, ht₄, hc₄]
    refine ⟨r₄, hreach, by rw [size, hh₄, ht₄]; decide, (r₄.emplaceOrOverride 7).1,
      by simp only [exec, hov], ?_⟩
    have hle : r₄.tail + 1 ≤ r₄.head + r₄.capacity := by rw [hh₄, ht₄, hc₄]; decide
    have hkeep : (r₄.emplaceOrOverride 7).1 =
        { r₄.store (r₄.tail &&& r₄.mask) 7 with tail := r₄.tail + 1 } := by
      simp only [emplaceOrOverride, store_head, store_capacity]
      rw [if_pos hle]
    rw [hkeep, size]
    simp only [store_head, ht₄, hh₄]
    decide

end RingBuffer
end Helio
