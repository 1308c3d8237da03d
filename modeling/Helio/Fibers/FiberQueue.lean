import Helio.Fibers.EventCount
import Helio.Lib.Fifo

/-!
# `FiberQueue`: tasks for one consumer loop

`fb2::FiberQueue` (`util/fibers/fiberqueue_threadpool.{h,cc}`) is a bounded MPMC queue of
callbacks drained by a single loop, `Run()`. Producers `Add` callbacks, blocking on
`push_ec_` while the queue is full; `Run` waits on `pull_ec_` with
`pull_ec_.await(cb)`, where the predicate `cb` itself dequeues a callback, or, when there
is none, reads `is_closed_`. `Shutdown()` stores `is_closed_` and notifies `pull_ec_`; its
documentation says it "notifies `Run()` function to empty the queue and to exit", and the
`FibersTest.FiberQueue` test expects every callback added before `Shutdown` to have run.

The model has any number of producers, each adding its own list of tasks, one consumer
running `Run`, and one party calling `Shutdown`. Every call into an `EventCount` is one
step, the queue is a linearizable bounded FIFO, and running a task appends it to `ran`.

`cb` reads the queue and then the flag, and `Run` exits on the flag alone: a task added
and a `Shutdown` issued between those two reads are never run
(`run_exits_with_task_queued`).
-/

set_option autoImplicit false

namespace Helio

namespace FiberQueue

open EventCount

/-- Where a producer is in its `Add`s. `fs` are the tasks it has still to add, the current
    one first. -/
inductive ProducerPc (F : Type)
  /-- `Add(f)`: the fast-path `TryAdd`'s enqueue -/
  | add (fs : List F)
  /-- `TryAdd` succeeded on the fast path: `pull_ec_.notify()` -/
  | notifyFast (fs : List F)
  /-- loop head: `auto key = push_ec_.prepareWait()` -/
  | prepare (fs : List F)
  /-- `TryAdd`'s enqueue with the key held -/
  | retry (epoch : UInt32) (fs : List F)
  /-- `TryAdd` succeeded with the key held: `pull_ec_.notify()` -/
  | notifyKeyed (fs : List F)
  /-- `push_ec_.wait(key.epoch())` -/
  | wait (epoch : UInt32) (fs : List F)
  | suspended (fs : List F)
  /-- `~Key` at the end of the loop body -/
  | loopEnd (fs : List F)
  /-- `~Key` after `break`: `Add` returns -/
  | dropKey (fs : List F)
  deriving DecidableEq, Repr

/-- Where `Run()` is. `cb` is the predicate of `pull_ec_.await(cb)`. -/
inductive ConsumerPc (F : Type)
  /-- `await`'s fast-path `cb()`: `queue_.try_dequeue(func)` -/
  | dequeueFast
  /-- `cb` dequeued `f`: `push_ec_.notify()`, then `await` returns -/
  | notifyFast (f : F)
  /-- `cb` found no task: `is_closed_.load()` -/
  | closedFast
  /-- `await`'s loop head: `Key key = prepareWait()` -/
  | prepare
  /-- `cb()` with the key held: `try_dequeue` -/
  | dequeue (epoch : UInt32)
  /-- `cb` dequeued `f` with the key held: `push_ec_.notify()` -/
  | notifyKeyed (f : F)
  /-- `cb` found no task with the key held: `is_closed_.load()` -/
  | closed (epoch : UInt32)
  /-- `wait(key.epoch())` -/
  | wait (epoch : UInt32)
  | suspended
  /-- `~Key` at the end of `await`'s loop body -/
  | loopEnd
  /-- `~Key` on `break`: `await` returns with a task, or with `is_closed` set -/
  | dropKey (task : Option F)
  /-- `func()` -/
  | run (f : F)
  /-- `Run()` returned -/
  | done
  deriving DecidableEq, Repr

/-- Where the caller of `Shutdown()` is. -/
inductive CloserPc
  /-- `is_closed_.store(true)` -/
  | store
  /-- `pull_ec_.notify()` -/
  | notify
  | done
  deriving DecidableEq, Repr

/-- The queue, its two event counts and flag, and every party. -/
@[ext] structure State (F P : Type) where
  queue : List F
  isClosed : Bool
  pushEc : EventCount P
  pullEc : EventCount Unit
  producer : P → ProducerPc F
  consumer : ConsumerPc F
  closer : CloserPc
  /-- the tasks `Run` has executed, in order -/
  ran : List F

/-- Who moves. -/
inductive Label (P : Type)
  | producer (p : P)
  | consumer
  | closer
  deriving DecidableEq, Repr

variable {F P : Type} [DecidableEq P]

/-- `ActivateOther` on a producer suspended in `push_ec_.wait`. -/
def ProducerPc.wake : ProducerPc F → ProducerPc F
  | .suspended fs => .loopEnd fs
  | pc => pc

/-- `ActivateOther` on `Run` suspended in `pull_ec_.wait`. -/
def ConsumerPc.wake : ConsumerPc F → ConsumerPc F
  | .suspended => .loopEnd
  | pc => pc

namespace State

def setProducer (s : State F P) (p : P) (pc : ProducerPc F) : State F P :=
  { s with producer := Function.update s.producer p pc }

/-- `pull_ec_.notify()`: `Run`, if it is queued, is activated. -/
def notifyPull (s : State F P) : State F P :=
  match s.pullEc.notify with
  | (ec, none) => { s with pullEc := ec }
  | (ec, some ()) => { s with pullEc := ec, consumer := s.consumer.wake }

/-- `push_ec_.notify()`. -/
def notifyPush (s : State F P) : State F P :=
  match s.pushEc.notify with
  | (ec, none) => { s with pushEc := ec }
  | (ec, some p) => { s with pushEc := ec }.setProducer p (s.producer p).wake

end State

-- the capacity `queue_size` of the queue
variable (cap : ℕ)

/-- Every producer with its tasks, before anything runs. -/
def init (tasks : P → List F) : State F P :=
  ⟨[], false, EventCount.empty, EventCount.empty, fun p => .add (tasks p), .dequeueFast,
    .store, []⟩

/-- One step of producer `p` in `Add`. -/
def producerStep (s : State F P) (p : P) : Option (State F P) :=
  match s.producer p with
  | .add [] => none
  | .add (f :: fs) =>
    match Fifo.tryEnqueue cap s.queue f with
    | some q => some ({ s with queue := q }.setProducer p (.notifyFast fs))
    | none => some (s.setProducer p (.prepare (f :: fs)))
  | .notifyFast fs => some (s.notifyPull.setProducer p (.add fs))
  | .prepare fs =>
    let (ec, e) := s.pushEc.prepareWait
    some ({ s with pushEc := ec }.setProducer p (.retry e fs))
  | .retry _ [] => none
  | .retry e (f :: fs) =>
    match Fifo.tryEnqueue cap s.queue f with
    | some q => some ({ s with queue := q }.setProducer p (.notifyKeyed fs))
    | none => some (s.setProducer p (.wait e (f :: fs)))
  | .notifyKeyed fs => some (s.notifyPull.setProducer p (.dropKey fs))
  | .wait e fs =>
    let (ec, pushed) := s.pushEc.waitLocked p e
    some ({ s with pushEc := ec }.setProducer p (if pushed then .suspended fs else .loopEnd fs))
  | .suspended _ => none
  | .loopEnd fs => some ({ s with pushEc := s.pushEc.releaseKey }.setProducer p (.prepare fs))
  | .dropKey fs => some ({ s with pushEc := s.pushEc.releaseKey }.setProducer p (.add fs))

/-- One step of `Run()`. -/
def consumerStep (s : State F P) : Option (State F P) :=
  match s.consumer with
  | .dequeueFast =>
    match Fifo.tryDequeue s.queue with
    | some (f, q) => some { s with queue := q, consumer := .notifyFast f }
    | none => some { s with consumer := .closedFast }
  | .notifyFast f => some { s.notifyPush with consumer := .run f }
  -- `cb` sets the local `is_closed` and returns true; `Run` then breaks out of its loop
  | .closedFast => some { s with consumer := if s.isClosed then .done else .prepare }
  | .prepare =>
    let (ec, e) := s.pullEc.prepareWait
    some { s with pullEc := ec, consumer := .dequeue e }
  | .dequeue e =>
    match Fifo.tryDequeue s.queue with
    | some (f, q) => some { s with queue := q, consumer := .notifyKeyed f }
    | none => some { s with consumer := .closed e }
  | .notifyKeyed f => some { s.notifyPush with consumer := .dropKey (some f) }
  | .closed e => some { s with consumer := if s.isClosed then .dropKey none else .wait e }
  | .wait e =>
    let (ec, pushed) := s.pullEc.waitLocked () e
    some { s with pullEc := ec, consumer := if pushed then .suspended else .loopEnd }
  | .suspended => none
  | .loopEnd => some { s with pullEc := s.pullEc.releaseKey, consumer := .prepare }
  | .dropKey t =>
    some { s with pullEc := s.pullEc.releaseKey,
                  consumer := match t with | some f => .run f | none => .done }
  | .run f => some { s with ran := s.ran ++ [f], consumer := .dequeueFast }
  | .done => none

/-- One step of `Shutdown()`. -/
def closerStep (s : State F P) : Option (State F P) :=
  match s.closer with
  | .store => some { s with isClosed := true, closer := .notify }
  | .notify => some { s.notifyPull with closer := .done }
  | .done => none

/-- The interleaving of all parties. -/
def step (s : State F P) : Label P → Option (State F P)
  | .producer p => producerStep cap s p
  | .consumer => consumerStep s
  | .closer => closerStep s

/-! ## `Run` exits with a task still queued -/

/-- `Run`'s `cb` finds the queue empty, then the producer adds its task and returns. -/
def addTrace : List (Label (Fin 1)) := [.consumer, .producer 0, .producer 0]

/-- `Shutdown()` runs whole, then `cb` reads `is_closed_`. -/
def shutdownTrace : List (Label (Fin 1)) := [.closer, .closer, .consumer]

/-- **`Run` returns without running a task added before `Shutdown`.** A queue of size `2`
    and one producer adding task `7`: after its `Add` has returned and before `Shutdown()`
    is called, the run can go on so that `Run()` returns with `7` still queued and nothing
    run. -/
theorem run_exits_with_task_queued :
    ∃ s₁, Trans.Reachable (step (F := ℕ) (P := Fin 1) 2) (init fun _ => [7]) s₁ ∧
      s₁.producer 0 = .add [] ∧ s₁.closer = .store ∧
      ∃ s₂, Trans.Reachable (step 2) s₁ s₂ ∧
        s₂.consumer = .done ∧ s₂.queue = [7] ∧ s₂.ran = [] := by
  obtain ⟨s₁, h₁, hp₁⟩ := @Trans.exists_reachable_of_run _ _ (step 2) (init fun _ => [7])
    addTrace
    (fun s => s.producer 0 == .add [] && s.closer == .store &&
      (Trans.run (step 2) s shutdownTrace).map
        (fun s => s.consumer == .done && s.queue == [7] && s.ran == []) == some true)
    (by decide)
  simp only [Bool.and_eq_true, beq_iff_eq] at hp₁
  obtain ⟨s₂, h₂, hp₂⟩ := Trans.exists_reachable_of_run shutdownTrace _ hp₁.2
  simp only [Bool.and_eq_true, beq_iff_eq] at hp₂
  exact ⟨s₁, h₁, hp₁.1.1, hp₁.1.2, s₂, h₂, hp₂.1.1, hp₂.1.2, hp₂.2⟩

end FiberQueue

end Helio
