import Mathlib.Data.List.Basic

/-!
# Bounded FIFO queues

The lock-free queues a concurrent component is built on (`mpmc_bounded_queue`,
`ProducerConsumerQueue`, a ring of tasks) are taken here by their contract only: a
**linearizable bounded FIFO**. Each `try_enqueue` and `try_dequeue` takes effect at one
instant, an enqueue fails exactly when the queue holds `cap` items and a dequeue exactly
when it is empty, and items leave in the order they came.

So the queue is a list, front first, and the two operations are the ones below. The
lemmas give each operation's result on a queue with room or full, empty or not, so that a
model's proofs never unfold them.
-/

set_option autoImplicit false

namespace Fifo

variable {α : Type*}

/-- `try_enqueue` on a queue of capacity `cap`: the item goes to the back, unless the
    queue is full. -/
def tryEnqueue (cap : ℕ) (q : List α) (x : α) : Option (List α) :=
  if q.length < cap then some (q ++ [x]) else none

/-- `try_dequeue`: the front item, unless the queue is empty. -/
def tryDequeue : List α → Option (α × List α)
  | [] => none
  | x :: q => some (x, q)

theorem tryEnqueue_of_lt {cap : ℕ} {q : List α} (x : α) (h : q.length < cap) :
    tryEnqueue cap q x = some (q ++ [x]) := by
  simp [tryEnqueue, h]

theorem tryEnqueue_eq_none {cap : ℕ} {q : List α} {x : α} :
    tryEnqueue cap q x = none ↔ cap ≤ q.length := by
  unfold tryEnqueue
  split <;> simp <;> omega

@[simp] theorem tryDequeue_nil : tryDequeue ([] : List α) = none := rfl

@[simp] theorem tryDequeue_cons (x : α) (q : List α) : tryDequeue (x :: q) = some (x, q) := rfl

end Fifo
