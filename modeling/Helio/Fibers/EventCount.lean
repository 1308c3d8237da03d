import Helio.Lib.Trans

/-!
# The fiber `EventCount`

`fb2::EventCount` (`util/fibers/synchronization.h`) is the primitive every blocking
structure of the fiber library is built on. Its whole state is one 64-bit atomic word
`val_`, holding an **epoch** in the high 32 bits and a **waiter count** in the low 32
bits, and a wait queue of suspended fibers behind a spin lock:

* `prepareWait()` adds one to the waiter count and returns a `Key` that remembers the
  epoch it saw; the `Key`'s destructor takes the one away again;
* `notify()` and `notifyAll()` first add one to the epoch, and only if the waiter count
  they saw was nonzero take the lock and wake the front fiber, or all of them;
* `wait(epoch)` takes the lock and suspends the fiber only if the epoch is still the one
  its `Key` saw: a notification that came in between has moved the epoch on.

This file is the object and its operations, one definition per atomic step of the
source (an atomic read-modify-write, or a block under the lock), over an arbitrary type
`F` of fibers. `Helio.Fibers.Await` builds the protocol of `await` callers and notifiers
from them, and the scheduler model uses them for the timed waits.

The word is a `UInt64`, as in the source, so the two fields wrap exactly as the C++ ones
do. The facts below say how each operation moves the word read as a number.
-/

set_option autoImplicit false

namespace Helio

/-! ## Constants -/

namespace EventCount

def kAddWaiter : UInt64 := 1
def kEpochShift : UInt64 := 32
def kAddEpoch : UInt64 := 1 <<< kEpochShift
def kWaiterMask : UInt64 := kAddEpoch - 1

end EventCount

/-- `val_` and `wait_queue_` of an `EventCount` whose waiting fibers are of type `F`. -/
structure EventCount (F : Type) where
  val : UInt64
  waitQueue : List F
  deriving DecidableEq, Repr

namespace EventCount

variable {F : Type}

/-- The constructor: `val_(0)` and an empty queue. -/
def empty : EventCount F := ⟨0, []⟩

/-- The epoch `val_ >> kEpochShift` as the `uint32_t` a `Key` keeps. -/
def epochOf (v : UInt64) : UInt32 := (v >>> kEpochShift).toUInt32

/-! ## Operations -/

/-- `prepareWait`: `fetch_add(kAddWaiter)`, the `Key` keeps the epoch of the old value. -/
def prepareWait (ec : EventCount F) : EventCount F × UInt32 :=
  ({ ec with val := ec.val + kAddWaiter }, epochOf ec.val)

/-- `~Key`: `fetch_sub(kAddWaiter)`. -/
def releaseKey (ec : EventCount F) : EventCount F :=
  { ec with val := ec.val - kAddWaiter }

/-- The first step of `notify` and `notifyAll`: `fetch_add(kAddEpoch)`, and whether the old
    value had any waiter (`prev & kWaiterMask`). -/
def addEpoch (ec : EventCount F) : EventCount F × Bool :=
  ({ ec with val := ec.val + kAddEpoch }, ec.val &&& kWaiterMask != 0)

/-- The locked block of `wait(epoch)` (and of `wait_until`): if the epoch has not moved,
    the fiber is pushed at the back of the queue and will be suspended. -/
def waitLocked (ec : EventCount F) (f : F) (epoch : UInt32) : EventCount F × Bool :=
  if ec.val >>> kEpochShift = epoch.toUInt64 then
    ({ ec with waitQueue := ec.waitQueue ++ [f] }, true)
  else (ec, false)

/-- The locked block of `notify`: pop the front fiber, if there is one. -/
def popFront (ec : EventCount F) : EventCount F × Option F :=
  match ec.waitQueue with
  | [] => (ec, none)
  | f :: fs => ({ ec with waitQueue := fs }, some f)

/-- The locked block of `notifyAll`: `tmp_queue.swap(wait_queue_)`. -/
def takeQueue (ec : EventCount F) : EventCount F × List F :=
  ({ ec with waitQueue := [] }, ec.waitQueue)

/-- `notify()` taken whole: the epoch step, and the front fiber if a waiter was seen. Models
    that do not look inside the `EventCount` use this and `notifyAll` as one step each. -/
def notify (ec : EventCount F) : EventCount F × Option F :=
  let (ec', waiters) := ec.addEpoch
  if waiters then ec'.popFront else (ec', none)

/-- `notifyAll()` taken whole: the epoch step, and the whole queue if a waiter was seen. -/
def notifyAll (ec : EventCount F) : EventCount F × List F :=
  let (ec', waiters) := ec.addEpoch
  if waiters then ec'.takeQueue else (ec', [])

/-- With at most one fiber queued, `notify` takes what `notifyAll` would. -/
theorem popFront_eq_takeQueue {ec : EventCount F} (h : ec.waitQueue.length ≤ 1) :
    ec.popFront.1 = ec.takeQueue.1 ∧ ec.popFront.2.toList = ec.takeQueue.2 := by
  rcases ec with ⟨val, _ | ⟨f, _ | ⟨g, fs⟩⟩⟩
  · simp [popFront, takeQueue]
  · simp [popFront, takeQueue]
  · simp at h

/-! ## The word read as a number -/

theorem toNat_add_kAddWaiter (v : UInt64) : (v + kAddWaiter).toNat = (v.toNat + 1) % 2 ^ 64 := by
  simp [kAddWaiter, UInt64.toNat_add]

theorem toNat_add_kAddEpoch (v : UInt64) :
    (v + kAddEpoch).toNat = (v.toNat + 2 ^ 32) % 2 ^ 64 := by
  simp [kAddEpoch, kEpochShift, UInt64.toNat_add]

theorem toNat_sub_kAddWaiter {v : UInt64} (h : 1 ≤ v.toNat) :
    (v - kAddWaiter).toNat = v.toNat - 1 := by
  rw [UInt64.toNat_sub_of_le]
  · rfl
  · simpa [UInt64.le_iff_toNat_le, kAddWaiter] using h

theorem toNat_and_kWaiterMask (v : UInt64) : (v &&& kWaiterMask).toNat = v.toNat % 2 ^ 32 := by
  have hm : kWaiterMask.toNat = 2 ^ 32 - 1 := by decide
  rw [UInt64.toNat_and, hm, Nat.and_two_pow_sub_one_eq_mod]

theorem toNat_shiftRight_kEpochShift (v : UInt64) :
    (v >>> kEpochShift).toNat = v.toNat / 2 ^ 32 := by
  simp [kEpochShift, UInt64.toNat_shiftRight, Nat.shiftRight_eq_div_pow]

theorem toNat_epochOf (v : UInt64) : (epochOf v).toNat = v.toNat / 2 ^ 32 % 2 ^ 32 := by
  rw [epochOf, UInt64.toNat_toUInt32, toNat_shiftRight_kEpochShift]

/-- `wait`'s test `(val_ >> kEpochShift) == epoch` is a test on the epoch field. -/
theorem shiftRight_eq_iff (v : UInt64) (e : UInt32) :
    v >>> kEpochShift = e.toUInt64 ↔ v.toNat / 2 ^ 32 = e.toNat := by
  rw [UInt64.ext_iff, toNat_shiftRight_kEpochShift, UInt32.toNat_toUInt64]

end EventCount

end Helio
