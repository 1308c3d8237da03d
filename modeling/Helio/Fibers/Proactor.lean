import Helio.Lib.Trans

/-!
# Proactor wakeups: `tq_seq_` and the eventfd

A proactor thread runs a `MainLoop` that drains its task queue, dispatches I/O
completions, moves fibers scheduled from other threads (`remote_ready_queue_`) to the
ready queue, and runs ready fibers. When there is nothing to do it blocks in the kernel
(`epoll_wait` with timeout `-1` for `EpollProactor`). Other threads hand it work by
pushing a task (`EmplaceTaskQueue`) or a fiber (`Scheduler::ScheduleFromRemote`) and then
calling `WakeupIfNeeded()`: `tq_seq_.fetch_add(2)`, and a write to the wake eventfd
(`WakeRing`) only by the producer that saw exactly `WAIT_SECTION_STATE`
(`util/fibers/proactor_base.{h,cc}`).

The loop may block only after a compare-and-swap of `tq_seq_` from the value it loaded at
the top of the iteration to `WAIT_SECTION_STATE`: a producer that bumped `tq_seq_` after
that load makes the swap fail. So everything a producer published *before* the load must
be seen by the loop between the load and the swap. `UringProactor::MainLoop` runs
`ProcessRemoteReady` there; `EpollProactor::MainLoop` (`util/fibers/epoll_proactor.cc`)
runs it only after `epoll_wait`, at the bottom of the iteration. A fiber pushed between one
iteration's `ProcessRemoteReady` and the next iteration's load is not seen, the swap
succeeds, and the loop blocks with the fiber pending and no wake write outstanding
(`epoll_blocks_with_fiber_pending`).

The model is the `EpollProactor` loop with one step per access to shared state, the task
queue and `remote_ready_queue_` as linearizable FIFOs of ids, and the eventfd as a count of
unread writes. Timing (the 500 µs task quota, sleeping fibers and their finite timeouts,
spurious failures of `compare_exchange_weak`) only makes the loop run more, and is left
out.
-/

set_option autoImplicit false

namespace Helio

namespace Proactor

/-- `WAIT_SECTION_STATE`. -/
def kWaitSectionState : UInt32 := (1 : UInt32) <<< 31

/-- `kMaxSpinLimit`. -/
def kMaxSpinLimit : ℕ := 5

/-- What a producer hands the proactor. -/
inductive Work
  /-- a task for `task_queue_` (`DispatchBrief`) -/
  | task (t : ℕ)
  /-- a fiber for `remote_ready_queue_` (`ScheduleFromRemote`) -/
  | fiber (f : ℕ)
  deriving DecidableEq, Repr

/-- Where a producer is. -/
inductive ProducerPc
  /-- the enqueue or the push -/
  | push (w : Work)
  /-- `WakeupIfNeeded()`: `tq_seq_.fetch_add(2)` -/
  | wakeup
  /-- `WakeRing()`: the eventfd write -/
  | wakeRing
  | done
  deriving DecidableEq, Repr

/-- Where `EpollProactor::MainLoop` is. -/
inductive LoopPc
  /-- `tq_seq = tq_seq_.load()` -/
  | top
  /-- `task_queue_.try_dequeue(task)`, running each task it yields -/
  | dequeue
  /-- `if (!HasReady() && spin_loops >= kMaxSpinLimit)`: the compare-and-swap -/
  | spinCheck
  /-- `epoll_wait(..., timeout)` -/
  | epollWait (timeout : ℤ)
  /-- after a blocking wait: `tq_seq_.fetch_and(1)` -/
  | reset
  /-- `scheduler->ProcessRemoteReady()` -/
  | processRemote
  /-- `if (HasReady())`: switch to the first ready fiber -/
  | switch
  /-- nothing happened: `Pause(spin_loops)`, `++spin_loops` -/
  | idle
  deriving DecidableEq, Repr

/-- The shared state, the loop's locals and every producer. -/
structure State (P : Type) where
  tqSeq : UInt32
  tasks : List ℕ
  remote : List ℕ
  /-- the scheduler's `ready_queue_` -/
  ready : List ℕ
  /-- eventfd writes not yet read -/
  wake : ℕ
  loop : LoopPc
  /-- the loop's `tq_seq` -/
  seen : UInt32
  spinLoops : ℕ
  cqeCount : ℕ
  producer : P → ProducerPc
  /-- what the loop has run: tasks and fibers -/
  ran : List Work

/-- Who moves. -/
inductive Label (P : Type)
  | loop
  | producer (p : P)
  deriving DecidableEq, Repr

variable {P : Type} [DecidableEq P]

/-- Every producer with its work, the loop at the top of its first iteration. -/
def init (work : P → Work) : State P :=
  ⟨0, [], [], [], 0, .top, 0, 0, 0, fun p => .push (work p), []⟩

/-- `ProcessRemoteReady`: pop every remote fiber; one already linked in the ready queue is
    skipped. -/
def processRemoteReady (remote ready : List ℕ) : List ℕ :=
  remote.foldl (fun ready f => if f ∈ ready then ready else ready ++ [f]) ready

/-- One step of `EpollProactor::MainLoop`. -/
def loopStep (s : State P) : Option (State P) :=
  match s.loop with
  | .top => some { s with seen := s.tqSeq, loop := .dequeue }
  | .dequeue =>
    match s.tasks with
    | t :: ts => some { s with tasks := ts, ran := s.ran ++ [.task t] }
    | [] => some { s with loop := .spinCheck }
  | .spinCheck =>
    if s.ready = [] ∧ kMaxSpinLimit ≤ s.spinLoops then
      -- `compare_exchange_weak(tq_seq, WAIT_SECTION_STATE)`; on failure `tq_seq` is reloaded
      if s.tqSeq = s.seen then
        some { s with spinLoops := 0, tqSeq := kWaitSectionState, loop := .epollWait (-1) }
      else some { s with spinLoops := 0, seen := s.tqSeq, loop := .epollWait 0 }
    else some { s with loop := .epollWait 0 }
  | .epollWait t =>
    -- the wake eventfd is the only descriptor: `epoll_wait` returns its event, if any;
    -- with timeout `-1` it returns only then
    if 0 < s.wake then
      some { s with wake := 0, cqeCount := 1, loop := if t = -1 then .reset else .processRemote }
    else if t = -1 then none
    else some { s with cqeCount := 0, loop := .processRemote }
  | .reset => some { s with tqSeq := s.tqSeq &&& 1, loop := .processRemote }
  | .processRemote =>
    some { s with ready := processRemoteReady s.remote s.ready, remote := [], loop := .switch }
  | .switch =>
    match s.ready with
    | f :: fs => some { s with ready := fs, ran := s.ran ++ [.fiber f], cqeCount := 1, loop := .top }
    | [] => some { s with loop := if 0 < s.cqeCount then .top else .idle }
  | .idle => some { s with spinLoops := s.spinLoops + 1, loop := .top }

/-- One step of producer `p`. -/
def producerStep (s : State P) (p : P) : Option (State P) :=
  match s.producer p with
  | .push (.task t) =>
    some { s with tasks := s.tasks ++ [t], producer := Function.update s.producer p .wakeup }
  | .push (.fiber f) =>
    some { s with remote := s.remote ++ [f], producer := Function.update s.producer p .wakeup }
  | .wakeup =>
    some { s with tqSeq := s.tqSeq + 2,
                  producer := Function.update s.producer p
                    (if s.tqSeq = kWaitSectionState then .wakeRing else .done) }
  | .wakeRing =>
    some { s with wake := s.wake + 1, producer := Function.update s.producer p .done }
  | .done => none

/-- The interleaving of the loop and the producers. -/
def step (s : State P) : Label P → Option (State P)
  | .loop => loopStep s
  | .producer p => producerStep s p

/-- **A lost wakeup**: the loop is blocked in `epoll_wait(-1)` with work pending, and no
    eventfd write is read or on its way. -/
def LostWakeup (s : State P) : Prop :=
  s.loop = .epollWait (-1) ∧ s.wake = 0 ∧ (s.tasks ≠ [] ∨ s.remote ≠ []) ∧
    ∀ p, s.producer p ≠ .wakeRing

/-! ## A fiber scheduled just before the load -/

/-- Five idle iterations bring `spin_loops` to `kMaxSpinLimit`; then one producer
    schedules fiber `1` from its thread, and the loop starts the next iteration. -/
def lateFiberTrace : List (Label (Fin 1)) :=
  List.replicate 35 .loop ++ List.replicate 2 (.producer ⟨0, Nat.one_pos⟩) ++ List.replicate 3 .loop

/-- **The `EpollProactor` loop blocks with a fiber pending.** After the trace the loop is
    in `epoll_wait(-1)` with fiber `1` in `remote_ready_queue_`, the producer has finished
    without writing the eventfd, and no party can move. -/
theorem epoll_blocks_with_fiber_pending :
    ∃ s, Trans.Reachable step (init fun _ : Fin 1 => .fiber 1) s ∧ LostWakeup s ∧
      s.remote = [1] ∧ ∀ l, step s l = none := by
  obtain ⟨s, hs, hp⟩ := @Trans.exists_reachable_of_run _ _ step (init fun _ => .fiber 1)
    lateFiberTrace
    (fun s => s.loop == .epollWait (-1) && s.wake == 0 && s.remote == [1] &&
      s.producer 0 == .done && (step s .loop).isNone && (step s (.producer 0)).isNone)
    (by decide)
  simp only [Bool.and_eq_true, beq_iff_eq, Option.isNone_iff_eq_none] at hp
  obtain ⟨⟨⟨⟨⟨hloop, hwake⟩, hremote⟩, hdone⟩, hl⟩, hpr⟩ := hp
  refine ⟨s, hs, ⟨hloop, hwake, .inr (by simp [hremote]), fun p => ?_⟩, hremote, ?_⟩
  · rw [Subsingleton.elim p 0, hdone]
    simp
  · rintro (_ | p)
    · exact hl
    · rw [Subsingleton.elim p 0]
      exact hpr

end Proactor

end Helio
