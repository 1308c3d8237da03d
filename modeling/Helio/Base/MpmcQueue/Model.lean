import Helio.Lib.Trans
import Helio.Lib.Fifo

/-!
# The bounded MPMC queue

`base::mpmc_bounded_queue<T>` (`base/mpmc_bounded_queue.h`) is Dmitry Vyukov's bounded
queue for any number of producer and consumer threads. It is a ring of `buffer_size`
cells, a power of two, each an atomic `sequence` and the storage of one item, and two
atomic counters, `enqueue_pos_` and `dequeue_pos_`, that only grow. Position `pos` lives in
cell `pos & buffer_mask_`, and the cell's `sequence` says what the position may do next:

* `sequence == pos`: the cell is free for the enqueue of `pos`;
* `sequence == pos + 1`: it holds the item of `pos`, for its dequeue;
* `sequence == pos + buffer_size`: the dequeue of `pos` is done, and the cell is free for
  the enqueue of the position one lap on.

`try_enqueue` loads `enqueue_pos_`, loads the cell's `sequence`, and claims the position
with a `compare_exchange_weak` when the two agree; it then constructs the item in the
storage and publishes it by storing `pos + 1`. A `sequence` behind the position means the
cell is still in use a lap back, and the call returns `false`. `try_dequeue` is the mirror
image, and frees the cell by storing `pos + buffer_mask_ + 1`.

This file is the code, one atomic access (or one access to a cell's storage) per step of a
thread (`State.step`). What holds over every interleaving is
`Helio.Base.MpmcQueue.Invariant`.

The counters are `size_t` and the differences are taken in `intptr_t` (`intptr`). The model
takes them in `ℕ` and `ℤ` (`dif`), which is the code while the positions stay below `2 ^ 63`:
`Helio.Base.MpmcQueue.Safety` shows that they do in every state reached with fewer than
`2 ^ 63 - capacity()` items enqueued (`reachable_positions_exact`).
-/

set_option autoImplicit false

namespace Helio

namespace MpmcBoundedQueue

/-- `cell_t`: the atomic `sequence`, and the storage, which holds an item or nothing. -/
structure Cell (T : Type) where
  sequence : ℕ
  storage : Option T
  deriving DecidableEq, Repr

end MpmcBoundedQueue

open MpmcBoundedQueue in
/-- The members of `mpmc_bounded_queue<T>` (the padding apart). `buffer_` is a function
    from cell indices; the indices from `buffer_mask_ + 1` on are never read. -/
structure MpmcBoundedQueue (T : Type) where
  buffer : ℕ → Cell T
  bufferMask : ℕ
  enqueuePos : ℕ
  dequeuePos : ℕ

namespace MpmcBoundedQueue

variable {T : Type}

/-- The constructor `mpmc_bounded_queue(buffer_size)`: cell `i` starts at `sequence = i`, and
    a size below `2` or not a power of two throws. -/
def create (bufferSize : ℕ) : Option (MpmcBoundedQueue T) :=
  if bufferSize < 2 ∨ bufferSize &&& (bufferSize - 1) ≠ 0 then none
  else
    some
      { buffer := fun i => ⟨i, none⟩
        bufferMask := bufferSize - 1
        enqueuePos := 0
        dequeuePos := 0 }

/-- `capacity()`. -/
def capacity (q : MpmcBoundedQueue T) : ℕ := q.bufferMask + 1

/-- `buffer_[pos & buffer_mask_]`. -/
def cellAt (q : MpmcBoundedQueue T) (pos : ℕ) : Cell T := q.buffer (pos &&& q.bufferMask)

/-- A store into `buffer_[pos & buffer_mask_]`. -/
def setCell (q : MpmcBoundedQueue T) (pos : ℕ) (c : Cell T) : MpmcBoundedQueue T :=
  { q with buffer := Function.update q.buffer (pos &&& q.bufferMask) c }

/-- `intptr_t(seq) - intptr_t(pos)`, on the positions as the model counts them: exact while
    both are below `2 ^ 63` (`intptr_sub_intptr`). -/
def dif (seq pos : ℕ) : ℤ := (seq : ℤ) - pos

/-- `(intptr_t)x` for a `size_t` that holds `x`: `x` modulo `2 ^ 64`, read as a signed word. -/
def intptr (x : ℕ) : ℤ :=
  if x % 2 ^ 64 < 2 ^ 63 then ((x % 2 ^ 64 : ℕ) : ℤ) else ((x % 2 ^ 64 : ℕ) : ℤ) - 2 ^ 64

theorem intptr_of_lt {x : ℕ} (hx : x < 2 ^ 63) : intptr x = x := by
  have hmod : x % 2 ^ 64 = x := Nat.mod_eq_of_lt (by omega)
  rw [intptr, hmod, if_pos hx]

/-- Below `2 ^ 63` the code's difference is the model's, and it does not overflow. -/
theorem intptr_sub_intptr {seq pos : ℕ} (hs : seq < 2 ^ 63) (hp : pos < 2 ^ 63) :
    intptr seq - intptr pos = dif seq pos := by
  rw [intptr_of_lt hs, intptr_of_lt hp, dif]

/-- `is_full()`: the cell of `enqueue_pos_` is behind it. The two relaxed loads are read at one
    instant. -/
def isFull (q : MpmcBoundedQueue T) : Bool :=
  decide (dif (q.cellAt q.enqueuePos).sequence q.enqueuePos < 0)

/-- `empty()`: the cell of `dequeue_pos_` does not hold its item, the two loads read at one
    instant. -/
def empty (q : MpmcBoundedQueue T) : Bool :=
  decide (dif (q.cellAt q.dequeuePos).sequence (q.dequeuePos + 1) < 0)

/-- The loop of `~mpmc_bounded_queue()` from position `pos`, with `fuel` turns left: the items
    it destroys, in order, until a cell does not hold the item of its position. Destroying the
    storage of a cell that holds nothing is undefined, and is `none`; so is running out of
    fuel, which the loop of the source does not have. -/
def destroyLoop (q : MpmcBoundedQueue T) : ℕ → ℕ → Option (List T)
  | 0, _ => none
  | fuel + 1, pos =>
    let cell := q.cellAt pos
    if dif cell.sequence (pos + 1) < 0 then some []
    else
      match cell.storage with
      | some data => (destroyLoop q fuel (pos + 1)).map (data :: ·)
      | none => none

/-- `~mpmc_bounded_queue()`, from `dequeue_pos_`. -/
def destroy (q : MpmcBoundedQueue T) (fuel : ℕ) : Option (List T) :=
  q.destroyLoop fuel q.dequeuePos

/-! ## Threads -/

/-- Where a thread is in its call: before which access of `try_enqueue(data)` or
    `try_dequeue(data)`. -/
inductive Pc (T : Type) where
  | idle
  /-- `pos = enqueue_pos_.load()` -/
  | enqLoad (data : T)
  /-- `seq = cell->sequence.load()` -/
  | enqSeq (data : T) (pos : ℕ)
  /-- `enqueue_pos_.compare_exchange_weak(pos, pos + 1)` -/
  | enqCas (data : T) (pos : ℕ)
  /-- `new (&cell->storage) T(data)` -/
  | enqWrite (data : T) (pos : ℕ)
  /-- `cell->sequence.store(pos + 1)` -/
  | enqPublish (pos : ℕ)
  /-- `pos = dequeue_pos_.load()` -/
  | deqLoad
  /-- `seq = cell->sequence.load()` -/
  | deqSeq (pos : ℕ)
  /-- `dequeue_pos_.compare_exchange_weak(pos, pos + 1)` -/
  | deqCas (pos : ℕ)
  /-- `data = std::forward<T>(src); src.~T()` -/
  | deqRead (pos : ℕ)
  /-- `cell->sequence.store(pos + buffer_mask_ + 1)`, with the item moved out -/
  | deqFree (pos : ℕ) (data : T)
  deriving DecidableEq, Repr

/-- What a call returned: `try_enqueue`'s `bool`, or `try_dequeue`'s with the item. -/
inductive Ret (T : Type) where
  | enqueued (ok : Bool)
  | dequeued (data : Option T)
  deriving DecidableEq, Repr

/-- The queue, its threads, and three histories the code never reads: the item of every
    enqueue position, in the order of the positions; the position and item of every dequeue
    that has moved its item out; and what each call returned. -/
structure State (Th T : Type) where
  queue : MpmcBoundedQueue T
  pc : Th → Pc T
  enqueued : List T
  moved : List (ℕ × T)
  returns : List (Th × Ret T)

inductive Label (Th T : Type) where
  /-- thread `t` calls `try_enqueue(data)` -/
  | tryEnqueue (t : Th) (data : T)
  /-- thread `t` calls `try_dequeue(data)` -/
  | tryDequeue (t : Th)
  /-- the next access of thread `t` -/
  | step (t : Th)
  /-- a spurious failure of thread `t`'s `compare_exchange_weak` -/
  | casFail (t : Th)
  deriving DecidableEq, Repr

variable {Th : Type}

/-- The state after the constructor, with every thread idle. -/
def start (q : MpmcBoundedQueue T) : State Th T := ⟨q, fun _ => .idle, [], [], []⟩

@[simp] theorem start_queue (q : MpmcBoundedQueue T) : (start q : State Th T).queue = q := rfl

@[simp] theorem start_pc (q : MpmcBoundedQueue T) (t : Th) :
    (start q : State Th T).pc t = .idle := rfl

@[simp] theorem start_enqueued (q : MpmcBoundedQueue T) :
    (start q : State Th T).enqueued = [] := rfl

@[simp] theorem start_moved (q : MpmcBoundedQueue T) : (start q : State Th T).moved = [] := rfl

variable [DecidableEq Th]

namespace State

def setPc (s : State Th T) (t : Th) (p : Pc T) : State Th T :=
  { s with pc := Function.update s.pc t p }

/-- A call of `t` returns `r`. -/
def finish (s : State Th T) (t : Th) (r : Ret T) : State Th T :=
  { s with pc := Function.update s.pc t .idle, returns := s.returns ++ [(t, r)] }

section Frames

variable (s : State Th T) (t : Th)

@[simp] theorem setPc_queue (p : Pc T) : (s.setPc t p).queue = s.queue := rfl
@[simp] theorem setPc_pc (p : Pc T) : (s.setPc t p).pc = Function.update s.pc t p := rfl
@[simp] theorem setPc_enqueued (p : Pc T) : (s.setPc t p).enqueued = s.enqueued := rfl
@[simp] theorem setPc_moved (p : Pc T) : (s.setPc t p).moved = s.moved := rfl
@[simp] theorem setPc_returns (p : Pc T) : (s.setPc t p).returns = s.returns := rfl
@[simp] theorem finish_queue (r : Ret T) : (s.finish t r).queue = s.queue := rfl
@[simp] theorem finish_pc (r : Ret T) : (s.finish t r).pc = Function.update s.pc t .idle := rfl
@[simp] theorem finish_enqueued (r : Ret T) : (s.finish t r).enqueued = s.enqueued := rfl
@[simp] theorem finish_moved (r : Ret T) : (s.finish t r).moved = s.moved := rfl
@[simp] theorem finish_returns (r : Ret T) : (s.finish t r).returns = s.returns ++ [(t, r)] :=
  rfl

end Frames

/-- The next access of thread `t`. A `dif` above zero is a cell a lap ahead of the position
    loaded, and the loop starts again; reading the storage of a cell that holds nothing is
    undefined, and is `none`. -/
def next (s : State Th T) (t : Th) : Option (State Th T) :=
  let q := s.queue
  match s.pc t with
  | .idle => none
  | .enqLoad data => some (s.setPc t (.enqSeq data q.enqueuePos))
  | .enqSeq data pos =>
    let d := dif (q.cellAt pos).sequence pos
    if d = 0 then some (s.setPc t (.enqCas data pos))
    else if d < 0 then some (s.finish t (.enqueued false))
    else some (s.setPc t (.enqLoad data))
  | .enqCas data pos =>
    if q.enqueuePos = pos then
      some { s.setPc t (.enqWrite data pos) with
        queue := { q with enqueuePos := pos + 1 }
        enqueued := s.enqueued ++ [data] }
    else some (s.setPc t (.enqLoad data))
  | .enqWrite data pos =>
    some { s.setPc t (.enqPublish pos) with
      queue := q.setCell pos { q.cellAt pos with storage := some data } }
  | .enqPublish pos =>
    some { s.finish t (.enqueued true) with
      queue := q.setCell pos { q.cellAt pos with sequence := pos + 1 } }
  | .deqLoad => some (s.setPc t (.deqSeq q.dequeuePos))
  | .deqSeq pos =>
    let d := dif (q.cellAt pos).sequence (pos + 1)
    if d = 0 then some (s.setPc t (.deqCas pos))
    else if d < 0 then some (s.finish t (.dequeued none))
    else some (s.setPc t .deqLoad)
  | .deqCas pos =>
    if q.dequeuePos = pos then
      some { s.setPc t (.deqRead pos) with queue := { q with dequeuePos := pos + 1 } }
    else some (s.setPc t .deqLoad)
  | .deqRead pos =>
    match (q.cellAt pos).storage with
    | some data =>
      some { s.setPc t (.deqFree pos data) with
        queue := q.setCell pos { q.cellAt pos with storage := none }
        moved := s.moved ++ [(pos, data)] }
    | none => none
  | .deqFree pos data =>
    some { s.finish t (.dequeued (some data)) with
      queue := q.setCell pos { q.cellAt pos with sequence := pos + q.bufferMask + 1 } }

section Accesses

/-! What `next` does in each phase, one equation per branch, so that proofs never unfold it. -/

variable (s : State Th T) {t : Th} {data : T} {pos : ℕ}

theorem next_idle (h : s.pc t = .idle) : s.next t = none := by
  simp only [next, h]

theorem next_enqLoad (h : s.pc t = .enqLoad data) :
    s.next t = some (s.setPc t (.enqSeq data s.queue.enqueuePos)) := by
  simp only [next, h]

theorem next_enqSeq_eq (h : s.pc t = .enqSeq data pos)
    (hs : (s.queue.cellAt pos).sequence = pos) : s.next t = some (s.setPc t (.enqCas data pos)) := by
  have h0 : dif (s.queue.cellAt pos).sequence pos = 0 := by unfold dif; omega
  simp only [next, h, h0, ↓reduceIte]

theorem next_enqSeq_lt (h : s.pc t = .enqSeq data pos) (hs : (s.queue.cellAt pos).sequence < pos) :
    s.next t = some (s.finish t (.enqueued false)) := by
  have h0 : dif (s.queue.cellAt pos).sequence pos ≠ 0 := by unfold dif; omega
  have h1 : dif (s.queue.cellAt pos).sequence pos < 0 := by unfold dif; omega
  simp only [next, h, h0, h1, ↓reduceIte]

theorem next_enqSeq_gt (h : s.pc t = .enqSeq data pos) (hs : pos < (s.queue.cellAt pos).sequence) :
    s.next t = some (s.setPc t (.enqLoad data)) := by
  have h0 : dif (s.queue.cellAt pos).sequence pos ≠ 0 := by unfold dif; omega
  have h1 : ¬ dif (s.queue.cellAt pos).sequence pos < 0 := by unfold dif; omega
  simp only [next, h, h0, h1, ↓reduceIte]

theorem next_enqCas_eq (h : s.pc t = .enqCas data pos) (hE : s.queue.enqueuePos = pos) :
    s.next t = some { s.setPc t (.enqWrite data pos) with
      queue := { s.queue with enqueuePos := pos + 1 }
      enqueued := s.enqueued ++ [data] } := by
  simp only [next, h, hE, ↓reduceIte]

theorem next_enqCas_ne (h : s.pc t = .enqCas data pos) (hE : s.queue.enqueuePos ≠ pos) :
    s.next t = some (s.setPc t (.enqLoad data)) := by
  simp only [next, h, hE, ↓reduceIte]

theorem next_enqWrite (h : s.pc t = .enqWrite data pos) :
    s.next t = some { s.setPc t (.enqPublish pos) with
      queue := s.queue.setCell pos { s.queue.cellAt pos with storage := some data } } := by
  simp only [next, h]

theorem next_enqPublish (h : s.pc t = .enqPublish pos) :
    s.next t = some { s.finish t (.enqueued true) with
      queue := s.queue.setCell pos { s.queue.cellAt pos with sequence := pos + 1 } } := by
  simp only [next, h]

theorem next_deqLoad (h : s.pc t = .deqLoad) :
    s.next t = some (s.setPc t (.deqSeq s.queue.dequeuePos)) := by
  simp only [next, h]

theorem next_deqSeq_eq (h : s.pc t = .deqSeq pos)
    (hs : (s.queue.cellAt pos).sequence = pos + 1) : s.next t = some (s.setPc t (.deqCas pos)) := by
  have h0 : dif (s.queue.cellAt pos).sequence (pos + 1) = 0 := by unfold dif; omega
  simp only [next, h, h0, ↓reduceIte]

theorem next_deqSeq_lt (h : s.pc t = .deqSeq pos)
    (hs : (s.queue.cellAt pos).sequence < pos + 1) :
    s.next t = some (s.finish t (.dequeued none)) := by
  have h0 : dif (s.queue.cellAt pos).sequence (pos + 1) ≠ 0 := by unfold dif; omega
  have h1 : dif (s.queue.cellAt pos).sequence (pos + 1) < 0 := by unfold dif; omega
  simp only [next, h, h0, h1, ↓reduceIte]

theorem next_deqSeq_gt (h : s.pc t = .deqSeq pos)
    (hs : pos + 1 < (s.queue.cellAt pos).sequence) : s.next t = some (s.setPc t .deqLoad) := by
  have h0 : dif (s.queue.cellAt pos).sequence (pos + 1) ≠ 0 := by unfold dif; omega
  have h1 : ¬ dif (s.queue.cellAt pos).sequence (pos + 1) < 0 := by unfold dif; omega
  simp only [next, h, h0, h1, ↓reduceIte]

theorem next_deqCas_eq (h : s.pc t = .deqCas pos) (hD : s.queue.dequeuePos = pos) :
    s.next t = some
      { s.setPc t (.deqRead pos) with queue := { s.queue with dequeuePos := pos + 1 } } := by
  simp only [next, h, hD, ↓reduceIte]

theorem next_deqCas_ne (h : s.pc t = .deqCas pos) (hD : s.queue.dequeuePos ≠ pos) :
    s.next t = some (s.setPc t .deqLoad) := by
  simp only [next, h, hD, ↓reduceIte]

theorem next_deqRead_some (h : s.pc t = .deqRead pos)
    (hd : (s.queue.cellAt pos).storage = some data) :
    s.next t = some { s.setPc t (.deqFree pos data) with
      queue := s.queue.setCell pos { s.queue.cellAt pos with storage := none }
      moved := s.moved ++ [(pos, data)] } := by
  simp only [next, h, hd]

theorem next_deqRead_none (h : s.pc t = .deqRead pos) (hd : (s.queue.cellAt pos).storage = none) :
    s.next t = none := by
  simp only [next, h, hd]

theorem next_deqFree (h : s.pc t = .deqFree pos data) :
    s.next t = some { s.finish t (.dequeued (some data)) with
      queue := s.queue.setCell pos
        { s.queue.cellAt pos with sequence := pos + s.queue.bufferMask + 1 } } := by
  simp only [next, h]

end Accesses

/-- One step of the system: a call begins, a thread takes its next access, or a
    `compare_exchange_weak` fails spuriously and its loop starts again. -/
def step (s : State Th T) : Label Th T → Option (State Th T)
  | .tryEnqueue t data =>
    match s.pc t with
    | .idle => some (s.setPc t (.enqLoad data))
    | _ => none
  | .tryDequeue t =>
    match s.pc t with
    | .idle => some (s.setPc t .deqLoad)
    | _ => none
  | .step t => s.next t
  | .casFail t =>
    match s.pc t with
    | .enqCas data _ => some (s.setPc t (.enqLoad data))
    | .deqCas _ => some (s.setPc t .deqLoad)
    | _ => none

end State

end MpmcBoundedQueue

end Helio
