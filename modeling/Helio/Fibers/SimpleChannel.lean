import Helio.Fibers.EventCount
import Helio.Lib.Fifo

/-!
# `SimpleChannel`: a bounded queue with blocking ends

`fb2::SimpleChannel` (`util/fibers/simple_channel.h`) puts two `EventCount`s around a
lock-free bounded queue: producers block on `push_ec_` while the queue is full, consumers
on `pop_ec_` while it is empty, and each side notifies the other after it has moved an
item. `StartClosing()` counts the producers that are done in `is_closing_`; once all of
them are, `IsClosing()` holds. The documentation of `StartClosing` promises that
"consumers may still pop the existing items until `Pop()` returns false".

The model runs any number of producers, each pushing its own list of items with `Push`
and then calling `StartClosing`, against any number of consumers that call `Pop` until it
returns false and keep what it returned. The queue is a linearizable bounded FIFO
(`Helio.Lib.Fifo`), as the two queues the channel is instantiated with are. Every call into an `EventCount` (`prepareWait`, the key's destructor, `wait`,
`notify`, `notifyAll`) is one step; `Helio.Fibers.Await` takes those apart.

`Pop`'s slow path tests the queue (`TryPop`) and then the closing flag (`IsClosing`), and
returns false on the second without looking at the queue again. A producer that pushes
an item and closes between the two tests makes `Pop` return false with the item still
queued (`pop_false_leaves_item`).
-/

set_option autoImplicit false

namespace Helio

namespace SimpleChannel

open EventCount

/-- Where a producer is. `xs` are the items it has still to push, the current one first. -/
inductive ProducerPc (T : Type)
  /-- `Push(x)`: the fast-path `TryPush`'s enqueue; `StartClosing()` once `xs` is empty -/
  | push (xs : List T)
  /-- `TryPush` succeeded on the fast path: `pop_ec_.notify()` -/
  | notifyFast (xs : List T)
  /-- loop head: `Key key = push_ec_.prepareWait()` -/
  | prepare (xs : List T)
  /-- `TryPush`'s enqueue with the key held -/
  | retry (epoch : UInt32) (xs : List T)
  /-- `TryPush` succeeded with the key held: `pop_ec_.notify()` -/
  | notifyKeyed (xs : List T)
  /-- `push_ec_.wait(key.epoch())` -/
  | wait (epoch : UInt32) (xs : List T)
  | suspended (xs : List T)
  /-- `~Key` at the end of the loop body -/
  | loopEnd (xs : List T)
  /-- `~Key` after `break`: `Push` returns -/
  | dropKey (xs : List T)
  /-- `StartClosing()`: `is_closing_.fetch_add(1)` -/
  | closing
  /-- `StartClosing()`: `pop_ec_.notifyAll()` -/
  | notifyAll
  | done
  deriving DecidableEq, Repr

/-- Where a consumer is in `while (Pop(x))`. -/
inductive ConsumerPc
  /-- `Pop`: the fast-path `TryPop`'s dequeue -/
  | pop
  /-- `TryPop` failed on the fast path: `push_ec_.notify()` -/
  | notifyFast
  /-- loop head: `Key key = pop_ec_.prepareWait()` -/
  | prepare
  /-- `TryPop`'s dequeue with the key held -/
  | retry (epoch : UInt32)
  /-- `TryPop` failed with the key held: `push_ec_.notify()` -/
  | notifyKeyed (epoch : UInt32)
  /-- `if (IsClosing()) return false` -/
  | isClosing (epoch : UInt32)
  /-- `pop_ec_.wait(key.epoch())` -/
  | wait (epoch : UInt32)
  | suspended
  /-- `~Key` at the end of the loop body -/
  | loopEnd
  /-- `~Key` on `return`: `Pop` returned true (and the consumer pops again) or false -/
  | leave (result : Bool)
  /-- `Pop` returned false -/
  | done
  deriving DecidableEq, Repr

/-- The channel and every party. `got c` is what consumer `c`'s `Pop`s have returned. -/
@[ext] structure State (T P C : Type) where
  q : List T
  isClosing : ℕ
  pushEc : EventCount P
  popEc : EventCount C
  producer : P → ProducerPc T
  consumer : C → ConsumerPc
  got : C → List T

/-- Who moves. -/
inductive Label (P C : Type)
  | producer (p : P)
  | consumer (c : C)
  deriving DecidableEq, Repr

variable {T P C : Type} [DecidableEq P] [DecidableEq C]

/-- `ActivateOther` on a producer suspended in `push_ec_.wait`: `wait` returns. -/
def ProducerPc.wake : ProducerPc T → ProducerPc T
  | .suspended xs => .loopEnd xs
  | pc => pc

/-- `ActivateOther` on a consumer suspended in `pop_ec_.wait`. -/
def ConsumerPc.wake : ConsumerPc → ConsumerPc
  | .suspended => .loopEnd
  | pc => pc

namespace State

def setProducer (s : State T P C) (p : P) (pc : ProducerPc T) : State T P C :=
  { s with producer := Function.update s.producer p pc }

def setConsumer (s : State T P C) (c : C) (pc : ConsumerPc) : State T P C :=
  { s with consumer := Function.update s.consumer c pc }

/-- `pop_ec_.notify()`: the popped consumer, if any, is activated. -/
def notifyPop (s : State T P C) : State T P C :=
  match s.popEc.notify with
  | (ec, none) => { s with popEc := ec }
  | (ec, some c) => { s with popEc := ec }.setConsumer c (s.consumer c).wake

/-- `pop_ec_.notifyAll()`: every consumer taken from the queue is activated. -/
def notifyAllPop (s : State T P C) : State T P C :=
  let (ec, cs) := s.popEc.notifyAll
  cs.foldl (fun s c => s.setConsumer c (s.consumer c).wake) { s with popEc := ec }

/-- `push_ec_.notify()`. -/
def notifyPush (s : State T P C) : State T P C :=
  match s.pushEc.notify with
  | (ec, none) => { s with pushEc := ec }
  | (ec, some p) => { s with pushEc := ec }.setProducer p (s.producer p).wake

end State

section Step

-- the capacity of the underlying queue, and `num_producers_`
variable (cap numProducers : ℕ)

/-- Every producer with its items, before anything runs. -/
def init (items : P → List T) : State T P C :=
  ⟨[], 0, EventCount.empty, EventCount.empty, fun p => .push (items p), fun _ => .pop,
    fun _ => []⟩

/-- One step of producer `p` in `Push` and `StartClosing`. -/
def producerStep (s : State T P C) (p : P) : Option (State T P C) :=
  match s.producer p with
  | .push [] => some (s.setProducer p .closing)
  | .push (x :: xs) =>
    match Fifo.tryEnqueue cap s.q x with
    | some q => some ({ s with q }.setProducer p (.notifyFast xs))
    | none => some (s.setProducer p (.prepare (x :: xs)))
  | .notifyFast xs => some (s.notifyPop.setProducer p (.push xs))
  | .prepare xs =>
    let (ec, e) := s.pushEc.prepareWait
    some ({ s with pushEc := ec }.setProducer p (.retry e xs))
  | .retry _ [] => none
  | .retry e (x :: xs) =>
    match Fifo.tryEnqueue cap s.q x with
    | some q => some ({ s with q }.setProducer p (.notifyKeyed xs))
    | none => some (s.setProducer p (.wait e (x :: xs)))
  | .notifyKeyed xs => some (s.notifyPop.setProducer p (.dropKey xs))
  | .wait e xs =>
    let (ec, pushed) := s.pushEc.waitLocked p e
    some ({ s with pushEc := ec }.setProducer p (if pushed then .suspended xs else .loopEnd xs))
  | .suspended _ => none
  | .loopEnd xs => some ({ s with pushEc := s.pushEc.releaseKey }.setProducer p (.prepare xs))
  | .dropKey xs => some ({ s with pushEc := s.pushEc.releaseKey }.setProducer p (.push xs))
  | .closing => some ({ s with isClosing := s.isClosing + 1 }.setProducer p .notifyAll)
  | .notifyAll => some (s.notifyAllPop.setProducer p .done)
  | .done => none

/-- `IsClosing()`: every producer has called `StartClosing`. -/
def isClosingNow (s : State T P C) : Bool := decide (numProducers ≤ s.isClosing)

/-- One step of consumer `c` in `while (Pop(x))`. -/
def consumerStep (s : State T P C) (c : C) : Option (State T P C) :=
  match s.consumer c with
  | .pop =>
    match Fifo.tryDequeue s.q with
    | some (x, q) =>
      some { s with q, got := Function.update s.got c (s.got c ++ [x]) }
    | none => some (s.setConsumer c .notifyFast)
  | .notifyFast => some (s.notifyPush.setConsumer c .prepare)
  | .prepare =>
    let (ec, e) := s.popEc.prepareWait
    some ({ s with popEc := ec }.setConsumer c (.retry e))
  | .retry e =>
    match Fifo.tryDequeue s.q with
    | some (x, q) =>
      some ({ s with q, got := Function.update s.got c (s.got c ++ [x]) }.setConsumer c
        (.leave true))
    | none => some (s.setConsumer c (.notifyKeyed e))
  | .notifyKeyed e => some (s.notifyPush.setConsumer c (.isClosing e))
  | .isClosing e =>
    some (s.setConsumer c (if isClosingNow numProducers s then .leave false else .wait e))
  | .wait e =>
    let (ec, pushed) := s.popEc.waitLocked c e
    some ({ s with popEc := ec }.setConsumer c (if pushed then .suspended else .loopEnd))
  | .suspended => none
  | .loopEnd => some ({ s with popEc := s.popEc.releaseKey }.setConsumer c .prepare)
  | .leave r =>
    some ({ s with popEc := s.popEc.releaseKey }.setConsumer c (if r then .pop else .done))
  | .done => none

/-- The interleaving of all parties. -/
def step (s : State T P C) : Label P C → Option (State T P C)
  | .producer p => producerStep cap s p
  | .consumer c => consumerStep numProducers s c

end Step

/-! ## `Pop` returns false with an item still queued -/

/-- One producer pushes `7` and closes between the consumer's `TryPop` and its
    `IsClosing` test. -/
def lateCloseTrace : List (Label (Fin 1) (Fin 1)) :=
  List.replicate 5 (.consumer ⟨0, Nat.one_pos⟩) ++ List.replicate 5 (.producer ⟨0, Nat.one_pos⟩) ++
    List.replicate 2 (.consumer ⟨0, Nat.one_pos⟩)

/-- **`Pop` returns false while an item is queued.** A channel of capacity `2` with one
    producer: the producer's `Push(7)` completes and it calls `StartClosing()`, and the
    consumer's `Pop` returns false with `7` still in the queue and nothing popped. -/
theorem pop_false_leaves_item :
    ∃ s, Trans.Reachable (step (T := ℕ) (P := Fin 1) (C := Fin 1) 2 1) (init fun _ => [7]) s ∧
      s.producer 0 = .done ∧ s.consumer 0 = .done ∧ s.q = [7] ∧ s.got 0 = [] := by
  obtain ⟨s, hs, hp⟩ := @Trans.exists_reachable_of_run _ _ (step 2 1) (init fun _ => [7])
    lateCloseTrace
    (fun s => s.producer 0 == .done && s.consumer 0 == .done && s.q == [7] && s.got 0 == [])
    (by decide)
  simp only [Bool.and_eq_true, beq_iff_eq] at hp
  exact ⟨s, hs, hp.1.1.1, hp.1.1.2, hp.1.2, hp.2⟩

end SimpleChannel

end Helio
