import Helio.Fibers.Completion

/-!
# The epoll emulation of `UringProactor`

`UringProactor::EpollAdd(fd, cb, event_mask)` (`util/fibers/uring_proactor.cc`) gives a
descriptor an epoll-like registration on top of one-shot io_uring polls. The registration is
an `EpollEntry` of `epoll_entries_`; the free entries form a list threaded through their
`index` from `next_epoll_free_`, grown like `centries_`. While the registration is armed, the
entry's `index` holds the user data of its poll:

* `EpollAddInternal(id)` submits a poll-add whose completion callback, `uring_cb`, runs the
  user callback with the events, and then submits the next poll while `event_mask` is set, or
  releases the entry (`EpollDelInternal`) once it is `0`; a failed poll (`-ECANCELED`) only
  logs;
* `EpollDel(id)`, called from a fiber, clears `event_mask`, submits a poll-remove of the
  poll's user data through a `FiberCall`, suspends until the remove completes, and releases
  the entry itself if the remove returned `0`.

So an entry is released either by the poll callback, when the poll fired before the remove
reached it, or by the fiber, when the remove cancelled the poll.

The model puts the kernel into the state. Submissions are taken in ring order; a poll-add
arms its poll, an armed poll may fire at any time, and a poll-remove cancels the armed poll of
its target (which then completes with `-ECANCELED` while the remove completes with `0`) or
completes with `-ENOENT`. Completions are reaped in any order; for each one `DispatchCqe`
(the model of `Helio.Completion`) releases its `centries_` entry and runs the callback. A
callback is `uring_cb` of an id or the waker of a fiber in `EpollDel`. User callbacks are
values of a type `ECb`, and make no calls on the emulation, as in the repository's one user,
the DNS resolver, whose callbacks wake a fiber.

`epoll_entries_` is a `Completion.Table` whose callbacks are the pair of an `EpollEntry`'s
`cb` and `event_mask`: an entry's `event_mask` matters only while it has a callback. The
entry's `fd` only goes to the kernel, which the model lets complete any armed poll. Two
fields are ghosts, read by no call of the code: `nextFiber` numbers the fibers that call
`EpollDel`, and `cur` names, for an id being deleted, the fiber whose `EpollDel` deletes it.
-/

set_option autoImplicit false

namespace Helio

namespace UringEpoll

open Completion

/-- The callbacks the emulation submits: `uring_cb` of `EpollAddInternal(id)`, and the waker of
    the `FiberCall` of a fiber in `EpollDel`. -/
inductive UringCb where
  | pollCb (id : ℕ)
  | waker (fiber : ℕ)
  deriving DecidableEq

/-- `ECANCELED`: the result of a cancelled poll is its negation. -/
def ECANCELED : ℤ := 125

/-- `ENOENT`: a poll-remove that finds no armed poll completes with its negation. -/
def ENOENT : ℤ := 2

/-- A submission: `PrepPollAdd` of an entry, or `PrepPollRemove(target)`, each under its own
    user data. -/
inductive Sqe where
  | pollAdd (ud : ℕ)
  | pollRemove (ud target : ℕ)
  deriving DecidableEq

/-- The user data of a submission. -/
def Sqe.ud : Sqe → ℕ
  | .pollAdd ud => ud
  | .pollRemove ud _ => ud

/-- What the kernel holds of a user data once its submission was taken: an armed poll, or a
    completion posted and not yet reaped. -/
inductive KSt where
  | idle
  | armed
  | posted (res : ℤ)
  deriving DecidableEq

/-- A fiber in `EpollDel(id)`: suspended in `fc.Get()`, or woken with the remove's result. -/
inductive FiberSt where
  | waiting (id : ℕ)
  | woken (id : ℕ) (res : ℤ)
  deriving DecidableEq

/-- The id a fiber deletes. -/
def FiberSt.id : FiberSt → ℕ
  | .waiting id => id
  | .woken id _ => id

/-- What a call does to the entries: a user callback run with the events, and an
    entry put back on the free list. -/
inductive Event where
  | called (id res : ℕ)
  | released (id : ℕ)
  deriving DecidableEq

/-- The emulation and the kernel. -/
structure Emu (ECb : Type) where
  uring : Uring UringCb
  epoll : Table (ECb × ℕ)
  fibers : ℕ → Option FiberSt
  sq : List Sqe
  kst : ℕ → KSt
  nextFiber : ℕ
  cur : ℕ → Option ℕ

/-- The callback `centries_` holds for a user data. -/
def callbacks (u : Uring UringCb) (ud : ℕ) : Option UringCb :=
  if kUserDataCbIndex ≤ ud then u.table (ud - kUserDataCbIndex) else none

namespace Emu

variable {ECb : Type}

/-- After `Init`: `centries_` of `sq_entries` entries, `epoll_entries_` empty with
    `next_epoll_free_ = -1`, and nothing submitted. -/
def init (sqEntries : ℕ) : Emu ECb :=
  ⟨Uring.init sqEntries, ⟨0, fun _ => ⟨none, -1⟩, -1⟩, fun _ => none, [], fun _ => .idle, 0,
    fun _ => none⟩

/-- The callback registered for a user data. -/
def cbs (s : Emu ECb) (ud : ℕ) : Option UringCb := callbacks s.uring ud

/-- The growth in `EpollAdd` once `next_epoll_free_ == -1`: eight entries, then twice as many,
    with `next_epoll_free_ = prev` and the new entries linked in order; the `index` is an
    `int64_t`, so no link wraps. -/
def grow (t : Table (ECb × ℕ)) : Option (Table (ECb × ℕ)) :=
  if t.size = 0 then some (Table.create 8 id) else t.regrowCentries id

/-- `EpollAddInternal(id)`: a poll-add whose callback is `uring_cb` of `id`; the entry's `index`
    becomes its user data. -/
def epollAddInternal (s : Emu ECb) (id : ℕ) : Option (Emu ECb) :=
  (s.uring.getSubmitEntry (some (.pollCb id))).map fun r =>
    { s with
      uring := r.1
      sq := s.sq ++ [.pollAdd r.2]
      epoll := ⟨s.epoll.size,
        Function.update s.epoll.entries id ⟨(s.epoll.entries id).cb, r.2⟩, s.epoll.nextFreeCe⟩ }

/-- `EpollDelInternal(id)`: `epoll.index = next_epoll_free_; epoll.cb = nullptr;
    next_epoll_free_ = id`. The deletion of `id` is over. -/
def epollDelInternal (s : Emu ECb) (id : ℕ) : Emu ECb :=
  { s with epoll := s.epoll.free id, cur := Function.update s.cur id none }

/-- `EpollAdd(fd, cb, event_mask)`: the id it returns. The head of the free list, after the
    growth when it is empty, gets `cb` and `event_mask`, and `next_epoll_free_` its `index`. -/
def epollAdd (s : Emu ECb) (cb : ECb) (eventMask : ℕ) : Option (Emu ECb × ℕ) :=
  -- `CHECK_GT(event_mask, 0U)`
  if eventMask = 0 then none
  else do
    let t ← (if s.epoll.nextFreeCe = -1 then grow s.epoll else some s.epoll)
    let r ← t.take (cb, eventMask) id
    let s ← epollAddInternal { s with epoll := r.1 } r.2
    some (s, r.2)

/-- `EpollDel(id)` up to the suspension in `fc.Get()`, run by a new fiber: `event_mask = 0`,
    then a poll-remove of `uid`, the entry's `index` as an `unsigned`, through a `FiberCall`. -/
def epollDel (s : Emu ECb) (id : ℕ) : Option (Emu ECb) :=
  -- `CHECK_LT(id, epoll_entries_.size())`
  if id < s.epoll.size then
    (s.uring.getSubmitEntry (some (.waker s.nextFiber))).map fun r =>
      { s with
        uring := r.1
        sq := s.sq ++ [.pollRemove r.2 ((s.epoll.entries id).index % 2 ^ 32).toNat]
        epoll := ⟨s.epoll.size, Function.update s.epoll.entries id
          ⟨(s.epoll.entries id).cb.map fun c => (c.1, 0), (s.epoll.entries id).index⟩,
          s.epoll.nextFreeCe⟩
        fibers := Function.update s.fibers s.nextFiber (some (.waiting id))
        nextFiber := s.nextFiber + 1
        cur := Function.update s.cur id (some s.nextFiber) }
  else none

/-- The rest of `EpollDel` once its fiber runs again: `EpollDelInternal(id)` if the remove
    returned `0`. -/
def resume (s : Emu ECb) (f : ℕ) : Option (Emu ECb × List Event) :=
  match s.fibers f with
  | some (.woken id res) =>
    if res = 0 then
      some (epollDelInternal { s with fibers := Function.update s.fibers f none } id, [.released id])
    else some ({ s with fibers := Function.update s.fibers f none }, [])
  | _ => none

/-- `uring_cb` of `EpollAddInternal(id)`, run with the poll's result. -/
def uringCb (s : Emu ECb) (id : ℕ) (res : ℤ) : Option (Emu ECb × List Event) :=
  if id < s.epoll.size then
    if 0 ≤ res then
      match (s.epoll.entries id).cb with
      | some (_, eventMask) =>
        if eventMask ≠ 0 then (s.epollAddInternal id).map (·, [.called id res.toNat])
        else some (s.epollDelInternal id, [.called id res.toNat, .released id])
      -- `epoll.cb(res)` of an empty `std::function` throws `std::bad_function_call`
      | none => none
    -- `LOG_IF(ERROR, res != ECANCELED)`
    else some (s, [])
  -- `epoll_entries_[id]` past the end of the vector
  else none

/-- The waker of a `FiberCall`: `io_res_ = res`, and its fiber made ready. -/
def waker (s : Emu ECb) (f : ℕ) (res : ℤ) : Option (Emu ECb × List Event) :=
  match s.fibers f with
  | some (.waiting id) => some ({ s with fibers := Function.update s.fibers f (some (.woken id res)) }, [])
  -- no `FiberCall` of that fiber is waiting
  | _ => none

/-- The main loop reaps the completion of `ud`, and `DispatchCqe` runs its callback. -/
def dispatch (s : Emu ECb) (ud : ℕ) : Option (Emu ECb × List Event) :=
  match s.kst ud with
  | .posted res =>
    match s.uring.dispatchCqe ud with
    | some (u, some (.pollCb id)) => uringCb { s with uring := u, kst := Function.update s.kst ud .idle } id res
    | some (u, some (.waker f)) => waker { s with uring := u, kst := Function.update s.kst ud .idle } f res
    | some (u, none) => some ({ s with uring := u, kst := Function.update s.kst ud .idle }, [])
    | none => none
  | _ => none

/-- The kernel takes the next submission. A poll-add arms its poll; a poll-remove cancels the
    armed poll of its target, or completes with `-ENOENT`. -/
def submit (s : Emu ECb) : Option (Emu ECb) :=
  match s.sq with
  | [] => none
  | .pollAdd ud :: sq => some { s with sq := sq, kst := Function.update s.kst ud .armed }
  | .pollRemove ud target :: sq =>
    if s.kst target = .armed then
      some { s with sq := sq, kst := Function.update (Function.update s.kst target
        (.posted (-ECANCELED))) ud (.posted 0) }
    else some { s with sq := sq, kst := Function.update s.kst ud (.posted (-ENOENT)) }

/-- An armed poll completes with the events `res`. -/
def fire (s : Emu ECb) (ud res : ℕ) : Option (Emu ECb) :=
  if s.kst ud = .armed then some { s with kst := Function.update s.kst ud (.posted res) }
  else none

/-- What a fiber, the kernel or the main loop does next. -/
inductive Op (ECb : Type) where
  | epollAdd (cb : ECb) (eventMask : ℕ)
  | epollDel (id : ℕ)
  | resume (fiber : ℕ)
  | submit
  | fire (ud res : ℕ)
  | dispatch (ud : ℕ)

/-- A step, and what it does to the entries. -/
def exec (s : Emu ECb) : Op ECb → Option (Emu ECb × List Event)
  | .epollAdd cb eventMask => (s.epollAdd cb eventMask).map fun r => (r.1, [])
  | .epollDel id => (s.epollDel id).map (·, [])
  | .resume f => s.resume f
  | .submit => s.submit.map (·, [])
  | .fire ud res => (s.fire ud res).map (·, [])
  | .dispatch ud => s.dispatch ud

/-- Where an id stands: free, registered with events to poll, or being deleted. -/
inductive Phase where
  | free
  | live
  | deleting
  deriving DecidableEq

/-- The phase of an id, read off its entry. -/
def phase (s : Emu ECb) (id : ℕ) : Phase :=
  match (s.epoll.entries id).cb with
  | none => .free
  | some (_, eventMask) => if eventMask = 0 then .deleting else .live

/-- The calls of the contract: `EpollAdd` with a nonzero mask, and `EpollDel` of a registered id
    that no other `EpollDel` deletes, each while fewer than `2 ^ 31` ids are in use and fewer
    than `2 ^ 31` `centries_` entries are in flight. -/
def Op.allowed (s : Emu ECb) : Op ECb → Bool
  | .epollAdd _ eventMask => decide (0 < eventMask) && decide (s.epoll.outstanding < 2 ^ 31) &&
      decide (s.uring.outstanding < 2 ^ 31)
  | .epollDel id => decide (s.phase id = .live) && decide (s.uring.outstanding < 2 ^ 31)
  | _ => true

/-- The steps that can be taken: a woken fiber resumes, the kernel takes a submission or fires
    an armed poll, the main loop reaps a posted completion; the calls can always be made. -/
def Op.enabled (s : Emu ECb) : Op ECb → Bool
  | .resume f => match s.fibers f with
    | some (.woken _ _) => true
    | _ => false
  | .submit => !s.sq.isEmpty
  | .fire ud _ => decide (s.kst ud = .armed)
  | .dispatch ud => match s.kst ud with
    | .posted _ => true
    | _ => false
  | _ => true

/-- The runs of the contract. -/
def step (s : Emu ECb) (op : Op ECb) : Option (Emu ECb) :=
  if op.allowed s && op.enabled s then (s.exec op).map Prod.fst else none

end Emu

end UringEpoll

end Helio
