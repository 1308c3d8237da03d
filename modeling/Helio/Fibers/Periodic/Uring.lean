import Helio.Fibers.Periodic.Base
import Helio.Fibers.UringEpoll.Model

/-!
# Periodic tasks on `UringProactor`

`UringProactor::SchedulePeriodic(id, item)` (`util/fibers/uring_proactor.cc`) submits a
timeout under a new `centries_` entry whose callback is `PeriodicCb(res, id, item)`, and
stores the submission's user data in `item->val1`. `PeriodicCb` deletes an item that is out of
the map. Otherwise it checks `res == -ETIME`, runs the task, and appends the pair to
`schedule_periodic_list_`. The main loop re-arms that list with `SchedulePeriodic` once it
has reaped its batch of completions, before any fiber runs again.
`CancelPeriodicInternal(val1, val2)` submits a timeout-remove of `val1` whose callback wakes
the calling fiber, which suspends until then.

The model puts the kernel into the state, as `Helio.UringEpoll` does for polls. Submissions
are taken in ring order. A timeout is armed when taken, and an armed timeout may expire at any
time (`-ETIME`). A timeout-remove cancels its armed target, which then completes with
`-ECANCELED` while the remove completes with `0`; if the target is not armed, the remove
completes with `-ENOENT`. Completions are reaped in any order. For each one, `DispatchCqe`
(the model of `Helio.Completion`) releases its entry and runs its callback. The main loop
re-arms one pair of the list at a time, and the fibers that call `AddPeriodic` and
`CancelPeriodic` run only when the list is empty. Those calls and the kernel's actions come
in any order. The period of a timeout does not matter to the model, which lets the kernel
expire an armed timeout whenever it likes.
-/

set_option autoImplicit false

namespace Helio

namespace Periodic

open Completion UringEpoll

/-- The callbacks that periodic tasks submit: `PeriodicCb(res, id, item)` of
    `SchedulePeriodic`, and the waker of the fiber in `CancelPeriodicInternal`. -/
inductive PCb where
  | periodicCb (id item : ℕ)
  | waker (fiber : ℕ)
  deriving DecidableEq

/-- A submission: `PrepTimeout`, or `PrepTimeoutRemove(target)`, each under its own user
    data. -/
inductive Sqe where
  | timeout (ud : ℕ)
  | timeoutRemove (ud target : ℕ)
  deriving DecidableEq

/-- The user data of a submission. -/
def Sqe.ud : Sqe → ℕ
  | .timeout ud => ud
  | .timeoutRemove ud _ => ud

/-- `ETIME`: an expired timeout completes with its negation. -/
def ETIME : ℤ := 62

namespace UringProactor

/-- The proactor's periodic tasks and the kernel: `centries_`, the submissions not yet taken,
    what the kernel holds of each user data, `schedule_periodic_list_`, and the fibers
    suspended in `CancelPeriodicInternal`, numbered as they call it. -/
structure State (T : Type) extends Base T where
  uring : Uring PCb
  sq : List Sqe
  kst : ℕ → KSt
  schedulePeriodicList : List (ℕ × ℕ)
  suspended : ℕ → Bool
  nextFiber : ℕ

variable {T : Type}

/-- A proactor whose submission queue has `sqEntries` entries, before its first
    `AddPeriodic`. -/
def init (sqEntries : ℕ) : State T :=
  ⟨Base.init, Uring.init sqEntries, [], fun _ => .idle, [], fun _ => false, 0⟩

/-- The callback registered for a user data. -/
def State.cbs (s : State T) (ud : ℕ) : Option PCb := s.uring.callback ud

/-- `SchedulePeriodic(id, item)`: a timeout under a new entry for `PeriodicCb(res, id, item)`,
    whose user data goes to `item->val1`. -/
def schedulePeriodic (s : State T) (id p : ℕ) : Option (State T) := do
  let (u, ud) ← s.uring.getSubmitEntry (some (.periodicCb id p))
  let b ← s.toBase.setItem p fun it => { it with val1 := ud }
  some { s with toBase := b, uring := u, sq := s.sq ++ [.timeout ud] }

/-- `AddPeriodic(ms, f)`. -/
def addPeriodic (s : State T) (ms : ℕ) (f : T) : Option (State T) := do
  let (b, id, p) ← s.toBase.addPeriodic ms f
  schedulePeriodic { s with toBase := b } id p

/-- `CancelPeriodicInternal(val1, val2)` up to `me->Suspend()`: a timeout-remove of `val1`
    whose callback wakes the calling fiber. -/
def cancelPeriodicInternal (s : State T) (val1 : ℕ) : Option (State T) :=
  (s.uring.getSubmitEntry (some (.waker s.nextFiber))).map fun r =>
    { s with
      uring := r.1
      sq := s.sq ++ [.timeoutRemove r.2 val1]
      suspended := Function.update s.suspended s.nextFiber true
      nextFiber := s.nextFiber + 1 }

/-- `CancelPeriodic(id)`, run by a new fiber. -/
def cancelPeriodic (s : State T) (id : ℕ) : Option (State T) := do
  let (b, _, val1, _) ← s.toBase.cancelPeriodic id
  cancelPeriodicInternal { s with toBase := b } val1

/-- `PeriodicCb(res, task_id, item)`. -/
def periodicCb (s : State T) (res : ℤ) (id p : ℕ) : Option (State T) :=
  match s.items p with
  -- `item->in_map` reads a deleted item
  | none => none
  | some it =>
    if it.inMap = false then (s.toBase.delete p).map fun b => { s with toBase := b }
    -- `CHECK_EQ(res, -ETIME)`
    else if res ≠ -ETIME then none
    else (s.toBase.runTask p).map fun b =>
      { s with toBase := b, schedulePeriodicList := s.schedulePeriodicList ++ [(id, p)] }

/-- The waker of `CancelPeriodicInternal`: `ActivateOther(me)` of the suspended fiber. -/
def waker (s : State T) (f : ℕ) : Option (State T) :=
  if s.suspended f = true then some { s with suspended := Function.update s.suspended f false }
  else none

/-- The main loop reaps the completion of `ud`, and `DispatchCqe` runs its callback. -/
def dispatch (s : State T) (ud : ℕ) : Option (State T) :=
  match s.kst ud with
  | .posted res =>
    match s.uring.dispatchCqe ud with
    | some (u, some (.periodicCb id p)) =>
      periodicCb { s with uring := u, kst := Function.update s.kst ud .idle } res id p
    | some (u, some (.waker f)) => waker { s with uring := u, kst := Function.update s.kst ud .idle } f
    | some (u, none) => some { s with uring := u, kst := Function.update s.kst ud .idle }
    | none => none
  | _ => none

/-- The main loop re-arms the first pair of `schedule_periodic_list_`. -/
def rearm (s : State T) : Option (State T) :=
  match s.schedulePeriodicList with
  | [] => none
  | (id, p) :: rest => schedulePeriodic { s with schedulePeriodicList := rest } id p

/-- The kernel takes the next submission. A timeout is armed; a timeout-remove cancels its
    armed target, or completes with `-ENOENT`. -/
def submit (s : State T) : Option (State T) :=
  match s.sq with
  | [] => none
  | .timeout ud :: sq => some { s with sq := sq, kst := Function.update s.kst ud .armed }
  | .timeoutRemove ud t :: sq =>
    if s.kst t = .armed then
      some { s with
        sq := sq
        kst := Function.update (Function.update s.kst t (.posted (-ECANCELED))) ud (.posted 0) }
    else some { s with sq := sq, kst := Function.update s.kst ud (.posted (-ENOENT)) }

/-- An armed timeout expires. -/
def fire (s : State T) (ud : ℕ) : Option (State T) :=
  if s.kst ud = .armed then some { s with kst := Function.update s.kst ud (.posted (-ETIME)) }
  else none

/-- What a fiber, the kernel or the main loop does next. -/
inductive Op (T : Type) where
  | addPeriodic (ms : ℕ) (f : T)
  | cancelPeriodic (id : ℕ)
  | submit
  | fire (ud : ℕ)
  | dispatch (ud : ℕ)
  | rearm

/-- The state a step leaves. -/
def exec (s : State T) : Op T → Option (State T)
  | .addPeriodic ms f => addPeriodic s ms f
  | .cancelPeriodic id => cancelPeriodic s id
  | .submit => submit s
  | .fire ud => fire s ud
  | .dispatch ud => dispatch s ud
  | .rearm => rearm s

/-- The calls of the contract: `CancelPeriodic` of an id in the map, and `AddPeriodic` while
    `next_task_id_` is no id of the map, each while fewer than `2 ^ 31` entries are in
    flight. -/
def Op.allowed (s : State T) : Op T → Bool
  | .addPeriodic _ _ =>
    decide (s.periodicMap s.nextTaskId = none) && decide (s.uring.outstanding < 2 ^ 31)
  | .cancelPeriodic id => (s.periodicMap id).isSome && decide (s.uring.outstanding < 2 ^ 31)
  | _ => true

/-- What can happen next: a fiber calls once the main loop has re-armed; the kernel takes a
    submission or expires an armed timeout; the main loop reaps a posted completion, or
    re-arms. -/
def Op.enabled (s : State T) : Op T → Bool
  | .addPeriodic _ _ | .cancelPeriodic _ => s.schedulePeriodicList.isEmpty
  | .submit => !s.sq.isEmpty
  | .fire ud => decide (s.kst ud = .armed)
  | .dispatch ud => match s.kst ud with
    | .posted _ => true
    | _ => false
  | .rearm => !s.schedulePeriodicList.isEmpty

/-- The runs of the contract. -/
def step (s : State T) (op : Op T) : Option (State T) :=
  if op.allowed s && op.enabled s then exec s op else none

end UringProactor

end Periodic

end Helio
