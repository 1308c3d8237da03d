import Helio.Fibers.EventCount

/-!
# The fiber scheduler and its queues

Every thread that runs fibers has a `Scheduler` (`util/fibers/detail/scheduler.{h,cc}`)
with three queues of fibers, each threaded through a hook of the fiber object itself:

* `ready_queue_`, an intrusive list on `list_hook`, of the fibers that may run next;
* `sleep_queue_`, an intrusive multiset on `sleep_hook` ordered by the time point `tp_`,
  of the fibers in a timed wait;
* `remote_ready_queue_`, an MPSC queue of fibers that other threads have woken.

A third hook, `wait_hook`, links a fiber into the wait queue of the `EventCount`,
`CondVarAny` or `Mutex` it blocks on (`util/fibers/synchronization.{h,cc}`). Waking a fiber
is `ActivateOther`: `AddReady` when it belongs to the waker's thread, `ScheduleFromRemote`
otherwise. A hook can be in one list at a time, so the design rests on a discipline:
`AddReady` is only applied to a fiber whose `list_hook` is free, and a fiber is pushed to a
`remote_ready_queue_` only when its previous push has been popped. `ActivateOther` only
`DCHECK`s the first; `ProcessRemoteReady` tolerates a fiber that is already ready, but
nothing stops a second push.

A timed wait (`EventCount::wait_until`, `CondVarAny::wait_until`) links the fiber in two
places at once: the wait queue and `sleep_queue_`. When the time point passes,
`ProcessSleep` moves it from `sleep_queue_` to `ready_queue_`, and it is unlinked from the
wait queue only later, when it runs again. A notification issued in between pops it from
the wait queue and activates it a second time: with a local notifier `AddReady` puts it into
`ready_queue_` twice, with a remote one it is pushed to `remote_ready_queue_` while its
earlier push is still there (`expired_waiter_activated_twice`).

The model is a labelled step function. Each thread has a scheduler and one active context
(its dispatcher or a worker); a label names the thread that moves and what its active
context does: one pass of `DefaultDispatch`, a call of the running fiber, or the code that a
fiber resumes at after its `Preempt`. The fibers' calls are the operations of one
`CondVarAny`, one `EventCount` and one `Mutex`, `Yield` and sleeping; a fiber only moves
when its thread switches to it, and between switches a thread runs without interruption,
so each call up to its `Preempt` is one step. The intrusive lists are lists, their hooks
membership, and the steady clock a counter that the `tick` label advances.
-/

set_option autoImplicit false

namespace Helio

namespace Scheduler

/-- What a scheduler switches to: its dispatcher fiber or a worker fiber. -/
inductive Ctx (F : Type) where
  | dispatcher
  | worker (f : F)
  deriving DecidableEq, Repr

/-- The code a suspended fiber runs when it is switched to again, after its `Preempt`. -/
inductive Resume where
  | yield
  | sleep
  | cvWait
  /-- `CondVarAny::wait_until`: unlink from `wait_queue_` if still linked (a timeout) -/
  | cvWaitUntil
  | ecWait
  /-- `EventCount::wait_until`: the same, under the `EventCount`'s lock -/
  | ecWaitUntil
  /-- `Mutex::lock`: the loop tries to take the mutex again -/
  | lock
  deriving DecidableEq, Repr

/-- A fiber runs its own code, or is suspended; `key` is the epoch of the `EventCount::Key`
    it holds, if any. -/
inductive FiberPc where
  | running (key : Option UInt32)
  | suspended (key : Option UInt32) (r : Resume)
  deriving DecidableEq, Repr

/-- The calls a running fiber makes. -/
inductive Call where
  | yield
  | sleepUntil (tp : ℕ)
  | cvWait
  | cvWaitUntil (tp : ℕ)
  | cvNotifyOne
  | cvNotifyAll
  /-- `EventCount::prepareWait`: take a `Key` -/
  | ecPrepare
  /-- `~Key` -/
  | ecRelease
  | ecWait
  | ecWaitUntil (tp : ℕ)
  | ecNotify
  | ecNotifyAll
  | lock
  | unlock
  deriving DecidableEq, Repr

/-- The queues of one `Scheduler` and the context its thread runs. -/
structure Sched (F : Type) where
  ready : List (Ctx F)
  sleep : List (F × ℕ)
  remote : List F
  active : Ctx F
  deriving DecidableEq, Repr

/-- All threads, all fibers and the synchronization objects they share. -/
@[ext] structure State (T F : Type) where
  now : ℕ
  sched : T → Sched F
  pc : F → FiberPc
  /-- `CondVarAny::wait_queue_` -/
  cv : List F
  ec : EventCount F
  /-- `Mutex::owner_` and `Mutex::wait_queue_` -/
  owner : Option F
  mutexQueue : List F

inductive Label (T : Type) where
  /-- one pass of the dispatcher's loop -/
  | dispatch (t : T)
  /-- the running fiber of thread `t` makes a call -/
  | call (t : T) (c : Call)
  /-- the fiber thread `t` switched to runs the rest of the call it was suspended in -/
  | resume (t : T)
  /-- the steady clock advances -/
  | tick
  deriving DecidableEq, Repr

/-! ## One scheduler -/

namespace Sched

variable {F : Type} [DecidableEq F]

/-- `sleep_queue_.insert`: ordered by time point, after the entries with the same one. -/
def sleepInsert (e : F × ℕ) : List (F × ℕ) → List (F × ℕ)
  | [] => [e]
  | e' :: es => if e.2 < e'.2 then e :: e' :: es else e' :: sleepInsert e es

/-- `AddReady`: to the back of `ready_queue_`, and out of `sleep_queue_` if linked there. -/
def addReady (sc : Sched F) (c : Ctx F) : Sched F :=
  { sc with ready := sc.ready ++ [c], sleep := sc.sleep.eraseP fun e => c = .worker e.1 }

/-- `Preempt`: switch to the front of `ready_queue_`, or to the dispatcher if it is empty. -/
def preempt (sc : Sched F) : Sched F :=
  match sc.ready with
  | [] => { sc with active := .dispatcher }
  | c :: cs => { sc with ready := cs, active := c }

/-- `WaitUntil(tp, me)`: into `sleep_queue_`, then `Preempt`. -/
def waitUntil (sc : Sched F) (f : F) (tp : ℕ) : Sched F :=
  preempt { sc with sleep := sleepInsert (f, tp) sc.sleep }

/-- `ProcessSleep`: from the front of `sleep_queue_`, every fiber whose time point has come
    moves to the back of `ready_queue_`. -/
def processSleep (now : ℕ) (sc : Sched F) : Sched F :=
  { sc with
    ready := sc.ready ++ (sc.sleep.takeWhile fun e => e.2 ≤ now).map fun e => .worker e.1
    sleep := sc.sleep.dropWhile fun e => e.2 ≤ now }

/-- The loop of `ProcessRemoteReady` over the popped fibers: one already linked in
    `ready_queue_` is skipped, the others are `AddReady`. -/
def processRemote : Sched F → List F → Sched F
  | sc, [] => sc
  | sc, f :: fs =>
    processRemote (if Ctx.worker f ∈ sc.ready then sc else sc.addReady (.worker f)) fs

def processRemoteReady (sc : Sched F) : Sched F :=
  processRemote { sc with remote := [] } sc.remote

/-- One pass of `DispatcherImpl::DefaultDispatch`: remote fibers, expired sleepers, then a
    switch to the front of `ready_queue_` with the dispatcher `AddReady` behind it. With
    nothing ready the dispatcher waits for a wakeup or the next time point, which the model
    leaves to the next pass. -/
def dispatch (now : ℕ) (sc : Sched F) : Sched F :=
  let sc := sc.processRemoteReady
  let sc := if sc.sleep.isEmpty then sc else sc.processSleep now
  match sc.ready with
  | [] => sc
  | fi :: rest => { ({ sc with ready := rest }.addReady .dispatcher) with active := fi }

end Sched

/-! ## Threads and synchronization objects -/

variable {T F : Type} [DecidableEq T] [DecidableEq F]

namespace State

def setSched (s : State T F) (t : T) (sc : Sched F) : State T F :=
  { s with sched := Function.update s.sched t sc }

def setPc (s : State T F) (f : F) (p : FiberPc) : State T F :=
  { s with pc := Function.update s.pc f p }

/-- The running fiber `f` of thread `t` leaves it with the scheduler `sc` (after its
    `Preempt`), to resume at `r`. -/
def suspend (s : State T F) (t : T) (f : F) (key : Option UInt32) (r : Resume)
    (sc : Sched F) : State T F :=
  (s.setSched t sc).setPc f (.suspended key r)

end State

section Step

-- `home f` is the scheduler a fiber is attached to (`scheduler_`).
variable (home : F → T)

/-- `active->ActivateOther(f)` by a fiber of thread `me`. -/
def activateOther (me : T) (s : State T F) (f : F) : State T F :=
  if home f = me then s.setSched me ((s.sched me).addReady (.worker f))
  else s.setSched (home f) { s.sched (home f) with remote := (s.sched (home f)).remote ++ [f] }

/-- The loops of `notify_all` and `notifyAll` over the queue they took. -/
def activateAll (me : T) (s : State T F) (fs : List F) : State T F :=
  fs.foldl (activateOther home me) s

/-- `Mutex::lock`, and its loop after a wakeup: take a free mutex, or queue and `Preempt`. -/
def lockStep (s : State T F) (t : T) (f : F) (key : Option UInt32) : Option (State T F) :=
  match s.owner with
  | none => some ({ s with owner := some f }.setPc f (.running key))
  | some o =>
    -- CHECK(active != owner_)
    if o = f then none
    else some ({ s with mutexQueue := s.mutexQueue ++ [f] }.suspend t f key .lock
      (s.sched t).preempt)

/-- The call `c` of the fiber `f` running on thread `t`, up to its `Preempt` or its return.
    A `CHECK` that fails, and a call the model's fibers do not make (a second `Key`, a `wait`
    without one), are not enabled. -/
def callStep (s : State T F) (t : T) (f : F) (key : Option UInt32) : Call → Option (State T F)
  | .yield => some (s.suspend t f key .yield ((s.sched t).addReady (.worker f)).preempt)
  | .sleepUntil tp => some (s.suspend t f key .sleep ((s.sched t).waitUntil f tp))
  | .cvWait => some ({ s with cv := s.cv ++ [f] }.suspend t f key .cvWait (s.sched t).preempt)
  | .cvWaitUntil tp =>
    some ({ s with cv := s.cv ++ [f] }.suspend t f key .cvWaitUntil ((s.sched t).waitUntil f tp))
  | .cvNotifyOne =>
    match s.cv with
    | [] => some s
    | g :: gs => some (activateOther home t { s with cv := gs } g)
  | .cvNotifyAll => some (activateAll home t { s with cv := [] } s.cv)
  | .ecPrepare =>
    match key with
    | none => some ({ s with ec := s.ec.prepareWait.1 }.setPc f (.running (some s.ec.prepareWait.2)))
    | some _ => none
  | .ecRelease =>
    match key with
    | some _ => some ({ s with ec := s.ec.releaseKey }.setPc f (.running none))
    | none => none
  | .ecWait =>
    match key with
    | some e =>
      if (s.ec.waitLocked f e).2 then
        some ({ s with ec := (s.ec.waitLocked f e).1 }.suspend t f key .ecWait (s.sched t).preempt)
      else some s
    | none => none
  | .ecWaitUntil tp =>
    match key with
    | some e =>
      if (s.ec.waitLocked f e).2 then
        some ({ s with ec := (s.ec.waitLocked f e).1 }.suspend t f key .ecWaitUntil
          ((s.sched t).waitUntil f tp))
      else some s
    | none => none
  | .ecNotify =>
    match s.ec.notify with
    | (ec, none) => some { s with ec := ec }
    | (ec, some g) => some (activateOther home t { s with ec := ec } g)
  | .ecNotifyAll => some (activateAll home t { s with ec := s.ec.notifyAll.1 } s.ec.notifyAll.2)
  | .lock => lockStep s t f key
  | .unlock =>
    -- CHECK(owner_ == active)
    if s.owner = some f then
      match s.mutexQueue with
      | [] => some { s with owner := none }
      | g :: gs => some (activateOther home t { s with owner := none, mutexQueue := gs } g)
    else none

/-- The rest of the call `f` was suspended in, once its thread has switched back to it. -/
def resumeStep (s : State T F) (t : T) (f : F) (key : Option UInt32) : Resume → Option (State T F)
  | .yield | .sleep | .cvWait | .ecWait => some (s.setPc f (.running key))
  -- `if (active->wait_hook.is_linked()) wait_queue_.erase(...)`: a timeout
  | .cvWaitUntil => some ({ s with cv := s.cv.erase f }.setPc f (.running key))
  | .ecWaitUntil =>
    some ({ s with ec := { s.ec with waitQueue := s.ec.waitQueue.erase f } }.setPc f (.running key))
  | .lock => lockStep s t f key

def step (s : State T F) : Label T → Option (State T F)
  | .dispatch t =>
    if (s.sched t).active = .dispatcher then some (s.setSched t ((s.sched t).dispatch s.now))
    else none
  | .call t c =>
    match (s.sched t).active with
    | .worker f =>
      match s.pc f with
      | .running key => callStep home s t f key c
      | .suspended _ _ => none
    | .dispatcher => none
  | .resume t =>
    match (s.sched t).active with
    | .worker f =>
      match s.pc f with
      | .suspended key r => resumeStep s t f key r
      | .running _ => none
    | .dispatcher => none
  | .tick => some { s with now := s.now + 1 }

end Step

/-- The fibers `fs` started with `Launch::post` on their threads, every dispatcher active. -/
def init (home : F → T) (fs : List F) : State T F where
  now := 0
  sched t := ⟨(fs.filter fun f => home f = t).map .worker, [], [], .dispatcher⟩
  pc _ := .running none
  cv := []
  ec := EventCount.empty
  owner := none
  mutexQueue := []

/-! ## A timed-out waiter woken again -/

/-- One thread, fibers `0` and `1`: `0` waits on the `CondVarAny` with a time point that has
    already come, `1` yields, the dispatcher's `ProcessSleep` puts `0` back in
    `ready_queue_` behind `1`, and `1` resumes; its `notify_one` comes next. -/
def cvLocalTrace : List (Label Unit) :=
  [.dispatch (), .call () (.cvWaitUntil 0), .call () .yield, .dispatch (), .resume ()]

/-- The same with the `EventCount`: `0` takes a `Key` and calls `wait_until`. -/
def ecLocalTrace : List (Label Unit) :=
  [.dispatch (), .call () .ecPrepare, .call () (.ecWaitUntil 0), .call () .yield, .dispatch (),
    .resume ()]

/-- Two threads, fiber `i` on thread `i`: `0`'s wait times out and thread `0` switches to
    it; `1`'s `notify_one` pushes it to thread `0`'s `remote_ready_queue_`; `0` runs, finds
    itself unlinked (no timeout) and waits again; `1`'s next `notify_one` comes next. -/
def cvRemoteTrace : List (Label (Fin 2)) :=
  [.dispatch 0, .call 0 (.cvWaitUntil 0), .dispatch 0, .dispatch 1, .call 1 .cvNotifyOne,
    .resume 0, .call 0 .cvWait]

/-- **A fiber whose timed wait expired is activated twice.** In each run the timed-out fiber
    `0` is still linked in the wait queue when a notification comes: a local `notify_one` or
    `notify()` applies `AddReady` to it while it is already in `ready_queue_` (it ends up there
    twice), and a remote `notify_one` pushes it to `remote_ready_queue_` while its previous
    push is still unpopped. -/
theorem expired_waiter_activated_twice :
    (∃ s, Trans.Reachable (step fun _ : Fin 2 => ()) (init (fun _ => ()) [0, 1]) s ∧
      (s.sched ()).ready.count (.worker 0) = 1 ∧ 0 ∈ s.cv ∧
      ∃ s', step (fun _ => ()) s (.call () .cvNotifyOne) = some s' ∧
        (s'.sched ()).ready.count (.worker 0) = 2) ∧
    (∃ s, Trans.Reachable (step fun _ : Fin 2 => ()) (init (fun _ => ()) [0, 1]) s ∧
      (s.sched ()).ready.count (.worker 0) = 1 ∧ 0 ∈ s.ec.waitQueue ∧
      ∃ s', step (fun _ => ()) s (.call () .ecNotify) = some s' ∧
        (s'.sched ()).ready.count (.worker 0) = 2) ∧
    (∃ s, Trans.Reachable (step fun f : Fin 2 => f) (init id [0, 1]) s ∧
      (s.sched 0).remote = [0] ∧ 0 ∈ s.cv ∧
      ∃ s', step id s (.call 1 .cvNotifyOne) = some s' ∧ (s'.sched 0).remote = [0, 0]) := by
  refine ⟨?_, ?_, ?_⟩
  · obtain ⟨s, hs, hp⟩ := @Trans.exists_reachable_of_run _ _ (step fun _ : Fin 2 => ())
      (init (fun _ => ()) [0, 1]) cvLocalTrace
      (fun s => (s.sched ()).ready.count (.worker 0) == 1 && decide (0 ∈ s.cv) &&
        ((step (fun _ => ()) s (.call () .cvNotifyOne)).map
          fun s' => (s'.sched ()).ready.count (.worker 0)) == some 2)
      (by decide)
    simp only [Bool.and_eq_true, beq_iff_eq, decide_eq_true_eq, Option.map_eq_some_iff] at hp
    obtain ⟨⟨hready, hcv⟩, s', hs', htwice⟩ := hp
    exact ⟨s, hs, hready, hcv, s', hs', htwice⟩
  · obtain ⟨s, hs, hp⟩ := @Trans.exists_reachable_of_run _ _ (step fun _ : Fin 2 => ())
      (init (fun _ => ()) [0, 1]) ecLocalTrace
      (fun s => (s.sched ()).ready.count (.worker 0) == 1 && decide (0 ∈ s.ec.waitQueue) &&
        ((step (fun _ => ()) s (.call () .ecNotify)).map
          fun s' => (s'.sched ()).ready.count (.worker 0)) == some 2)
      (by decide)
    simp only [Bool.and_eq_true, beq_iff_eq, decide_eq_true_eq, Option.map_eq_some_iff] at hp
    obtain ⟨⟨hready, hec⟩, s', hs', htwice⟩ := hp
    exact ⟨s, hs, hready, hec, s', hs', htwice⟩
  · obtain ⟨s, hs, hp⟩ := @Trans.exists_reachable_of_run _ _ (step fun f : Fin 2 => f)
      (init id [0, 1]) cvRemoteTrace
      (fun s => (s.sched 0).remote == [0] && decide (0 ∈ s.cv) &&
        ((step id s (.call 1 .cvNotifyOne)).map fun s' => (s'.sched 0).remote) == some [0, 0])
      (by decide)
    simp only [Bool.and_eq_true, beq_iff_eq, decide_eq_true_eq, Option.map_eq_some_iff] at hp
    obtain ⟨⟨hremote, hcv⟩, s', hs', htwice⟩ := hp
    exact ⟨s, hs, hremote, hcv, s', hs', htwice⟩

end Scheduler

end Helio
