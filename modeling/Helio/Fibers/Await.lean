import Helio.Fibers.EventCount
import Mathlib.Data.Fintype.EquivFin

/-!
# `await` against `notify`: the protocol of an `EventCount`

The use `EventCount` is made for: waiters run `await(cond)`, and notifiers first make
`cond` true and then call `notifyAll()` (or, with a single waiter, `notify()`). The
promise is that **no wakeup is lost**: once every notifier has finished and the condition
holds, no waiter is left suspended in the wait queue.

The parties and their program counters follow `EventCount::await`, `wait`, `notify` and
`notifyAll` in `util/fibers/synchronization.h`, one step per atomic operation or locked
block of the source:

* a waiter tests `cond` (the fast path), then loops: `prepareWait()`, test `cond` with
  the key held, `wait(key.epoch())`, and the `Key` destructor at the end of each round or
  on the way out;
* a notifier sets `cond`, does the `fetch_add` on the epoch, and if it saw a waiter takes
  the lock to pop the front fiber (`notify`) or swap the whole queue out (`notifyAll`),
  then activates the fibers it took, one step each.

A suspended waiter takes no step; the notifier's activation is what moves it on.
The condition is a shared flag that only the notifiers set.

The safety argument is an inductive invariant (`Inv`), found in the section below. Its
load-bearing facts are that the word always reads as *epoch = notifiers past their
`fetch_add`* and *waiter count = live keys*, and that a waiter only ever pushes itself
while no notifier has moved the epoch. Both need the counts to stay below `2 ^ 32`: with
`2 ^ 32` notifications the epoch comes back to the one a slow waiter saw, and the lost
wakeup is real (`Helio.Await.epoch_wrap_loses_wakeup`).
-/

set_option autoImplicit false
set_option linter.unusedSectionVars false

namespace Helio

namespace Await

open EventCount

/-- Where a fiber running `await(cond)` is. The `Key` of the current round is live from
    `check` to `loopExit`. -/
inductive WaiterPc
  /-- the fast-path `condition()` test, before any key -/
  | start
  /-- the head of the loop: `Key key = prepareWait()` -/
  | prepare
  /-- `condition()` with the key of epoch `epoch` held -/
  | check (epoch : UInt32)
  /-- `wait(key.epoch())`: the locked epoch test and push -/
  | wait (epoch : UInt32)
  /-- preempted in `wait`, until a notifier activates it -/
  | suspended
  /-- `wait` returned; the key is destroyed at the end of the loop body -/
  | loopEnd
  /-- `break`: the key is destroyed on the way out -/
  | loopExit
  | done
  deriving DecidableEq, Repr

/-- Which call a notifier makes. -/
inductive Notify
  /-- `notify()` -/
  | one
  /-- `notifyAll()` -/
  | all
  deriving DecidableEq, Repr

/-- Where a notifier is. -/
inductive NotifierPc (W : Type)
  /-- about to make the condition true -/
  | start
  /-- `val_.fetch_add(kAddEpoch)` -/
  | add
  /-- the locked block: pop the front fiber, or swap the queue out -/
  | lock
  /-- `ActivateOther` on each fiber it took, in order -/
  | activate (batch : List W)
  | done
  deriving DecidableEq, Repr

/-- The shared state and every party's program counter. -/
@[ext] structure State (W N : Type) where
  ec : EventCount W
  cond : Bool
  waiter : W → WaiterPc
  notifier : N → NotifierPc W

/-- Who moves. -/
inductive Label (W N : Type)
  | waiter (w : W)
  | notifier (n : N)
  deriving DecidableEq, Repr

variable {W N : Type} [DecidableEq W] [DecidableEq N]

namespace State

def setWaiter (s : State W N) (w : W) (pc : WaiterPc) : State W N :=
  { s with waiter := Function.update s.waiter w pc }

def setNotifier (s : State W N) (n : N) (pc : NotifierPc W) : State W N :=
  { s with notifier := Function.update s.notifier n pc }

@[simp] theorem setWaiter_waiter (s : State W N) (w : W) (pc : WaiterPc) :
    (s.setWaiter w pc).waiter = Function.update s.waiter w pc := rfl
@[simp] theorem setWaiter_notifier (s : State W N) (w : W) (pc : WaiterPc) :
    (s.setWaiter w pc).notifier = s.notifier := rfl
@[simp] theorem setWaiter_ec (s : State W N) (w : W) (pc : WaiterPc) :
    (s.setWaiter w pc).ec = s.ec := rfl
@[simp] theorem setWaiter_cond (s : State W N) (w : W) (pc : WaiterPc) :
    (s.setWaiter w pc).cond = s.cond := rfl
@[simp] theorem setNotifier_waiter (s : State W N) (n : N) (pc : NotifierPc W) :
    (s.setNotifier n pc).waiter = s.waiter := rfl
@[simp] theorem setNotifier_notifier (s : State W N) (n : N) (pc : NotifierPc W) :
    (s.setNotifier n pc).notifier = Function.update s.notifier n pc := rfl
@[simp] theorem setNotifier_ec (s : State W N) (n : N) (pc : NotifierPc W) :
    (s.setNotifier n pc).ec = s.ec := rfl
@[simp] theorem setNotifier_cond (s : State W N) (n : N) (pc : NotifierPc W) :
    (s.setNotifier n pc).cond = s.cond := rfl

end State

/-- Nothing has happened: `val_(0)`, an empty queue, the condition false. -/
def init : State W N := ⟨EventCount.empty, false, fun _ => .start, fun _ => .start⟩

/-- One step of waiter `w` in `EventCount::await`. -/
def waiterStep (s : State W N) (w : W) : Option (State W N) :=
  match s.waiter w with
  | .start => some (s.setWaiter w (if s.cond then .done else .prepare))
  | .prepare =>
    let (ec, e) := s.ec.prepareWait
    some ({ s with ec }.setWaiter w (.check e))
  | .check e => some (s.setWaiter w (if s.cond then .loopExit else .wait e))
  | .wait e =>
    let (ec, pushed) := s.ec.waitLocked w e
    some ({ s with ec }.setWaiter w (if pushed then .suspended else .loopEnd))
  | .suspended => none
  | .loopEnd => some ({ s with ec := s.ec.releaseKey }.setWaiter w .prepare)
  | .loopExit => some ({ s with ec := s.ec.releaseKey }.setWaiter w .done)
  | .done => none

/-- One step of notifier `n`, which calls `notify()` or `notifyAll()` as `kind n` says. -/
def notifierStep (kind : N → Notify) (s : State W N) (n : N) : Option (State W N) :=
  match s.notifier n with
  | .start => some ({ s with cond := true }.setNotifier n .add)
  | .add =>
    let (ec, waiters) := s.ec.addEpoch
    some ({ s with ec }.setNotifier n (if waiters then .lock else .done))
  | .lock =>
    match kind n with
    | .one =>
      let (ec, f) := s.ec.popFront
      some ({ s with ec }.setNotifier n (.activate f.toList))
    | .all =>
      let (ec, fs) := s.ec.takeQueue
      some ({ s with ec }.setNotifier n (.activate fs))
  | .activate [] => some (s.setNotifier n .done)
  -- `ActivateOther(fi)`: the fiber resumes in `wait`, which returns `true`
  | .activate (f :: fs) => some ((s.setWaiter f .loopEnd).setNotifier n (.activate fs))
  | .done => none

/-- The interleaving of all parties. -/
def step (kind : N → Notify) (s : State W N) : Label W N → Option (State W N)
  | .waiter w => waiterStep s w
  | .notifier n => notifierStep kind s n

/-! ### One lemma per transition -/

section Spec

variable {kind : N → Notify} {s : State W N}

theorem waiterStep_of_start {w : W} (h : s.waiter w = .start) :
    waiterStep s w = some (s.setWaiter w (if s.cond then .done else .prepare)) := by
  simp only [waiterStep, h]

theorem waiterStep_of_prepare {w : W} (h : s.waiter w = .prepare) :
    waiterStep s w = some ({ s with ec := s.ec.prepareWait.1 }.setWaiter w
      (.check s.ec.prepareWait.2)) := by
  simp only [waiterStep, h]

theorem waiterStep_of_check {w : W} {e : UInt32} (h : s.waiter w = .check e) :
    waiterStep s w = some (s.setWaiter w (if s.cond then .loopExit else .wait e)) := by
  simp only [waiterStep, h]

theorem waiterStep_of_wait {w : W} {e : UInt32} (h : s.waiter w = .wait e) :
    waiterStep s w = some ({ s with ec := (s.ec.waitLocked w e).1 }.setWaiter w
      (if (s.ec.waitLocked w e).2 then .suspended else .loopEnd)) := by
  simp only [waiterStep, h]

theorem notifierStep_of_start {n : N} (h : s.notifier n = .start) :
    notifierStep kind s n = some ({ s with cond := true }.setNotifier n .add) := by
  simp only [notifierStep, h]

theorem notifierStep_of_add {n : N} (h : s.notifier n = .add) :
    notifierStep kind s n = some ({ s with ec := s.ec.addEpoch.1 }.setNotifier n
      (if s.ec.addEpoch.2 then .lock else .done)) := by
  simp only [notifierStep, h]

theorem notifierStep_of_lock_all {n : N} (h : s.notifier n = .lock) (hk : kind n = .all) :
    notifierStep kind s n = some ({ s with ec := s.ec.takeQueue.1 }.setNotifier n
      (.activate s.ec.takeQueue.2)) := by
  simp only [notifierStep, h, hk]

theorem notifierStep_of_activate_nil {n : N} (h : s.notifier n = .activate []) :
    notifierStep kind s n = some (s.setNotifier n .done) := by
  simp only [notifierStep, h]

end Spec

example :
    ((Trans.run (step (W := Fin 1) (N := Fin 1) fun _ => .all) init
      [.waiter 0, .waiter 0, .waiter 0, .waiter 0, .notifier 0, .notifier 0, .notifier 0,
       .notifier 0, .notifier 0, .waiter 0, .waiter 0, .waiter 0, .waiter 0]).map
      fun s => (s.waiter 0, s.notifier 0, s.ec)) = some (.done, .done, ⟨2 ^ 32, []⟩) := by
  decide

/-! ## Sleepers and live keys -/

/-- The program counters at which the round's `Key` is live. -/
def holdsKey : WaiterPc → Bool
  | .check _ | .wait _ | .suspended | .loopEnd | .loopExit => true
  | .start | .prepare | .done => false

/-- Past the `fetch_add` on the epoch. -/
def addedEpoch : NotifierPc W → Bool
  | .lock | .activate _ | .done => true
  | .start | .add => false

/-- Not yet past the locked block, so still able to take fibers from the queue. -/
def yetToLock : NotifierPc W → Bool
  | .start | .add | .lock => true
  | .activate _ | .done => false

/-- The fibers a notifier has taken from the queue and not yet activated. -/
def batch : NotifierPc W → List W
  | .activate fs => fs
  | _ => []

section Counts

variable [Fintype W] [Fintype N]

/-- The live `Key`s: `prepareWait` calls whose key has not been destroyed. -/
def liveKeys (waiter : W → WaiterPc) : ℕ := Trans.count (fun pc => holdsKey pc = true) waiter

/-- The notifiers that have added to the epoch. -/
def epochsAdded (notifier : N → NotifierPc W) : ℕ :=
  Trans.count (fun pc => addedEpoch pc = true) notifier

/-- **A lost wakeup**: every notifier has finished and the condition holds, yet a waiter is
    still suspended in the wait queue. -/
def Lost (s : State W N) : Prop :=
  (∀ n, s.notifier n = .done) ∧ s.cond = true ∧
    ∃ w, s.waiter w = .suspended ∧ w ∈ s.ec.waitQueue

theorem liveKeys_update (l : W → WaiterPc) (w : W) (pc : WaiterPc) :
    liveKeys (Function.update l w pc) + (if holdsKey (l w) = true then 1 else 0)
      = liveKeys l + (if holdsKey pc = true then 1 else 0) :=
  Trans.count_update _ l w pc

theorem epochsAdded_update (l : N → NotifierPc W) (n : N) (pc : NotifierPc W) :
    epochsAdded (Function.update l n pc) + (if addedEpoch (l n) = true then 1 else 0)
      = epochsAdded l + (if addedEpoch pc = true then 1 else 0) :=
  Trans.count_update _ l n pc

theorem liveKeys_update_of_eq {l : W → WaiterPc} {w : W} {pc : WaiterPc}
    (h : holdsKey pc = holdsKey (l w)) : liveKeys (Function.update l w pc) = liveKeys l := by
  have := liveKeys_update l w pc
  rw [h] at this
  omega

theorem epochsAdded_update_of_eq {l : N → NotifierPc W} {n : N} {pc : NotifierPc W}
    (h : addedEpoch pc = addedEpoch (l n)) :
    epochsAdded (Function.update l n pc) = epochsAdded l := by
  have := epochsAdded_update l n pc
  rw [h] at this
  omega

theorem epochsAdded_eq_zero_of_forall {l : N → NotifierPc W} (h : ∀ n, addedEpoch (l n) = false) :
    epochsAdded l = 0 := by
  unfold epochsAdded Trans.count
  rw [Finset.card_eq_zero, Finset.filter_eq_empty_iff]
  simp [h]

theorem epochsAdded_eq_zero {l : N → NotifierPc W} (h : epochsAdded l = 0) (n : N) :
    addedEpoch (l n) = false := by
  unfold epochsAdded Trans.count at h
  rw [Finset.card_eq_zero, Finset.filter_eq_empty_iff] at h
  simpa using h (Finset.mem_univ n)

theorem liveKeys_pos {l : W → WaiterPc} {w : W} (h : holdsKey (l w) = true) :
    0 < liveKeys l :=
  Finset.card_pos.mpr ⟨w, by simpa using h⟩

end Counts

/-! ## The invariant

Everything below is for fewer than `2 ^ 32` waiters and fewer than `2 ^ 32` notifiers, so
that neither field of the word can wrap. -/

section Invariant

variable [Fintype W] [Fintype N]

/-- The inductive invariant of the protocol. -/
structure Inv (s : State W N) : Prop where
  /-- the word is the epoch over the waiter count, both exact -/
  val : s.ec.val.toNat = epochsAdded s.notifier * 2 ^ 32 + liveKeys s.waiter
  /-- only the notifiers set the condition, first thing -/
  cond : s.cond = true ↔ ∃ n, s.notifier n ≠ .start
  /-- a key taken while the condition was still false saw epoch `0` -/
  check : ∀ w e, s.waiter w = .check e → s.cond = false → e = 0
  /-- so a waiter only gets to `wait` with a key of epoch `0` -/
  wait : ∀ w e, s.waiter w = .wait e → e = 0
  /-- a queued fiber is suspended, and no notifier has taken the queue since it came -/
  queued : ∀ w ∈ s.ec.waitQueue, s.waiter w = .suspended ∧ ∀ n, yetToLock (s.notifier n) = true
  nodup : s.ec.waitQueue.Nodup
  /-- a notifier with fibers left to activate took the whole queue: nothing is queued, no
      other notifier holds any, and each fiber is there once and still suspended -/
  batched : ∀ n, batch (s.notifier n) ≠ [] →
    s.ec.waitQueue = [] ∧ (∀ n', n' ≠ n → batch (s.notifier n') = []) ∧
      (batch (s.notifier n)).Nodup ∧ ∀ g ∈ batch (s.notifier n), s.waiter g = .suspended

theorem liveKeys_lt (hW : Fintype.card W < 2 ^ 32) (l : W → WaiterPc) : liveKeys l < 2 ^ 32 :=
  lt_of_le_of_lt (Trans.count_le_card _ l) hW

theorem epochsAdded_lt (hN : Fintype.card N < 2 ^ 32) (l : N → NotifierPc W) :
    epochsAdded l < 2 ^ 32 :=
  lt_of_le_of_lt (Trans.count_le_card _ l) hN

theorem batch_of_yetToLock {pc : NotifierPc W} (h : yetToLock pc = true) : batch pc = [] := by
  cases pc <;> simp_all [yetToLock, batch]

theorem yetToLock_of_not_addedEpoch {pc : NotifierPc W} (h : addedEpoch pc = false) :
    yetToLock pc = true := by
  cases pc <;> simp_all [yetToLock, addedEpoch]

theorem addedEpoch_of_batch {pc : NotifierPc W} (h : batch pc ≠ []) : addedEpoch pc = true := by
  cases pc <;> simp_all [addedEpoch, batch]

variable {s : State W N}

/-- The epoch field counts the notifiers past their `fetch_add`. -/
theorem Inv.epoch (hW : Fintype.card W < 2 ^ 32) (hi : Inv s) :
    s.ec.val.toNat / 2 ^ 32 = epochsAdded s.notifier := by
  have := hi.val
  have := liveKeys_lt hW s.waiter
  omega

/-- The waiter field counts the live keys. -/
theorem Inv.waiters (hW : Fintype.card W < 2 ^ 32) (hi : Inv s) :
    s.ec.val.toNat % 2 ^ 32 = liveKeys s.waiter := by
  have := hi.val
  have := liveKeys_lt hW s.waiter
  omega

theorem inv_init : Inv (init : State W N) where
  val := by simp [init, EventCount.empty, epochsAdded, liveKeys, Trans.count, addedEpoch, holdsKey]
  cond := by simp [init]
  check := by simp [init]
  wait := by simp [init]
  queued := by simp [init, EventCount.empty]
  nodup := by simp [init, EventCount.empty]
  batched := by simp [init, batch]

/-! ### Waiter steps -/

/-- **A waiter moves, the word follows.** Waiter `w`, not suspended, moves to `q` and the
    word becomes `v`, which reads as the counts after the move. No fiber enters or leaves
    the queue. -/
theorem Inv.setWaiterWord {w : W} {q : WaiterPc} {v : UInt64} (hi : Inv s)
    (hp : s.waiter w ≠ .suspended)
    (hval : v.toNat = epochsAdded s.notifier * 2 ^ 32 + liveKeys (Function.update s.waiter w q))
    (hcheck : ∀ e, q = .check e → s.cond = false → e = 0) (hwait : ∀ e, q = .wait e → e = 0) :
    Inv ({ s with ec := { s.ec with val := v } }.setWaiter w q) := by
  -- the suspended fibers are all other than `w`, and keep their program counters
  have hother : ∀ g, s.waiter g = .suspended → Function.update s.waiter w q g = .suspended := by
    intro g hg
    rw [Function.update_of_ne (by rintro rfl; exact hp hg)]
    exact hg
  refine ⟨hval, hi.cond, ?_, ?_, ?_, hi.nodup, ?_⟩
  · intro g e hg hc
    simp only [State.setWaiter_waiter, Function.update_apply] at hg
    split at hg
    · exact hcheck e hg hc
    · exact hi.check g e hg hc
  · intro g e hg
    simp only [State.setWaiter_waiter, Function.update_apply] at hg
    split at hg
    · exact hwait e hg
    · exact hi.wait g e hg
  · intro g hg
    obtain ⟨hs, hn⟩ := hi.queued g hg
    exact ⟨hother g hs, hn⟩
  · intro n hn
    obtain ⟨hqueue, hothers, hnd, hsusp⟩ := hi.batched n hn
    exact ⟨hqueue, hothers, hnd, fun g hg => hother g (hsusp g hg)⟩

/-- A waiter step that neither takes nor drops a key leaves the word alone. -/
theorem Inv.moveWaiter {w : W} {q : WaiterPc} (hi : Inv s)
    (hp : s.waiter w ≠ .suspended) (hkey : holdsKey q = holdsKey (s.waiter w))
    (hcheck : ∀ e, q = .check e → s.cond = false → e = 0) (hwait : ∀ e, q = .wait e → e = 0) :
    Inv (s.setWaiter w q) :=
  hi.setWaiterWord hp (by rw [liveKeys_update_of_eq hkey]; exact hi.val) hcheck hwait

theorem epochOf_eq_zero {v : UInt64} (h : v.toNat < 2 ^ 32) : epochOf v = 0 := by
  apply UInt32.toNat_inj.mp
  rw [toNat_epochOf, Nat.div_eq_of_lt h]
  rfl

/-- `prepareWait`: the waiter count goes up with the live keys, and a key taken while the
    condition is false sees epoch `0`. -/
theorem Inv.prepare (hW : Fintype.card W < 2 ^ 32) (hN : Fintype.card N < 2 ^ 32) {w : W}
    (hi : Inv s) (hw : s.waiter w = .prepare) :
    Inv ({ s with ec := s.ec.prepareWait.1 }.setWaiter w (.check s.ec.prepareWait.2)) := by
  have hlive : liveKeys (Function.update s.waiter w (.check s.ec.prepareWait.2))
      = liveKeys s.waiter + 1 := by
    have := liveKeys_update s.waiter w (.check s.ec.prepareWait.2)
    simp [hw, holdsKey] at this
    omega
  have hbound := liveKeys_lt hW (Function.update s.waiter w (.check s.ec.prepareWait.2))
  have hE := epochsAdded_lt hN s.notifier
  have hval := hi.val
  refine hi.setWaiterWord (by simp [hw]) ?_ ?_ (by simp)
  · rw [toNat_add_kAddWaiter, hlive, Nat.mod_eq_of_lt (by omega)]
    omega
  · -- the condition is still false: no notifier has started, so the epoch is `0`
    rintro e ⟨⟩ hc
    have hstart : ∀ n, s.notifier n = .start := by
      intro n
      by_contra hn
      have := hi.cond.mpr ⟨n, hn⟩
      simp_all
    have hzero : epochsAdded s.notifier = 0 :=
      epochsAdded_eq_zero_of_forall fun n => by simp [hstart n, addedEpoch]
    exact epochOf_eq_zero (by have := liveKeys_lt hW s.waiter; omega)

/-- The `Key` destructor: the waiter count goes down with the live keys. -/
theorem Inv.release {w : W} {q : WaiterPc} (hi : Inv s) (hw : holdsKey (s.waiter w) = true)
    (hp : s.waiter w ≠ .suspended) (hq : holdsKey q = false) :
    Inv ({ s with ec := s.ec.releaseKey }.setWaiter w q) := by
  have hlive : liveKeys (Function.update s.waiter w q) + 1 = liveKeys s.waiter := by
    have := liveKeys_update s.waiter w q
    simp [hw, hq] at this
    omega
  have hval := hi.val
  refine hi.setWaiterWord hp ?_ (by rintro e rfl; simp [holdsKey] at hq)
    (by rintro e rfl; simp [holdsKey] at hq)
  show (s.ec.val - kAddWaiter).toNat = _
  rw [toNat_sub_kAddWaiter (by omega)]
  omega

/-- The locked block of `wait` when the epoch has not moved: the waiter queues itself. By
    the invariant this happens only while no notifier is past its `fetch_add`. -/
theorem Inv.push (hW : Fintype.card W < 2 ^ 32) {w : W} {e : UInt32} (hi : Inv s)
    (hw : s.waiter w = .wait e) (he : s.ec.val >>> kEpochShift = e.toUInt64) :
    Inv ({ s with ec := { s.ec with waitQueue := s.ec.waitQueue ++ [w] } }.setWaiter w
      .suspended) := by
  -- the key saw epoch `0` and the epoch has not moved: no notifier has added to it
  have hzero : epochsAdded s.notifier = 0 := by
    rw [shiftRight_eq_iff, hi.wait w e hw] at he
    rw [← hi.epoch hW]
    simpa using he
  have hearly : ∀ n, yetToLock (s.notifier n) = true :=
    fun n => yetToLock_of_not_addedEpoch (epochsAdded_eq_zero hzero n)
  have hnotin : w ∉ s.ec.waitQueue := fun hmem => by simp [(hi.queued w hmem).1] at hw
  have hlive : liveKeys (Function.update s.waiter w .suspended) = liveKeys s.waiter :=
    liveKeys_update_of_eq (by simp [hw, holdsKey])
  -- the fibers queued before are other than `w`, and stay suspended
  have hother : ∀ g ∈ s.ec.waitQueue, Function.update s.waiter w .suspended g = .suspended := by
    intro g hg
    rw [Function.update_of_ne (by rintro rfl; exact hnotin hg)]
    exact (hi.queued g hg).1
  refine ⟨by simpa [hlive] using hi.val, hi.cond, ?_, ?_, ?_, ?_, ?_⟩
  · intro g e' hg hc
    simp only [State.setWaiter_waiter, Function.update_apply] at hg
    split at hg
    · cases hg
    · exact hi.check g e' hg hc
  · intro g e' hg
    simp only [State.setWaiter_waiter, Function.update_apply] at hg
    split at hg
    · cases hg
    · exact hi.wait g e' hg
  · intro g hg
    have hg' : g ∈ s.ec.waitQueue ++ [w] := hg
    rcases List.mem_append.mp hg' with hg | hg
    · exact ⟨hother g hg, hearly⟩
    · rw [List.mem_singleton.mp hg]
      exact ⟨by simp, hearly⟩
  · exact List.nodup_append.mpr ⟨hi.nodup, List.nodup_singleton w,
      fun a ha b hb => by rw [List.mem_singleton.mp hb]; rintro rfl; exact hnotin ha⟩
  · intro n hn
    have h1 : addedEpoch (s.notifier n) = true := addedEpoch_of_batch hn
    rw [epochsAdded_eq_zero hzero n] at h1
    cases h1

/-! ### Notifier steps -/

/-- **A notifier moves without taking fibers.** Notifier `n` moves to a program counter
    with nothing to activate, the word becomes `v` and the condition `c`; the word reads as
    the counts after the move, the condition only goes up, and the notifier can still take
    the queue while anything is queued. -/
theorem Inv.setNotifierWord {n : N} {q : NotifierPc W} {v : UInt64} {c : Bool} (hi : Inv s)
    (hq : batch q = [])
    (hval : v.toNat = epochsAdded (Function.update s.notifier n q) * 2 ^ 32 + liveKeys s.waiter)
    (hcond : c = true ↔ ∃ n', Function.update s.notifier n q n' ≠ .start)
    (hup : c = false → s.cond = false)
    (hqueued : s.ec.waitQueue ≠ [] → yetToLock q = true) :
    Inv ({ s with ec := { s.ec with val := v }, cond := c }.setNotifier n q) := by
  refine ⟨hval, hcond, fun g e hg hc => hi.check g e hg (hup hc), hi.wait, ?_, hi.nodup, ?_⟩
  · intro g hg
    refine ⟨(hi.queued g hg).1, fun n' => ?_⟩
    simp only [State.setNotifier_notifier, Function.update_apply]
    split
    · exact hqueued (List.ne_nil_of_mem hg)
    · exact (hi.queued g hg).2 n'
  · intro n' hn'
    -- the notifier that moved holds nothing, so the one with a batch is another
    have hne : n' ≠ n := by
      rintro rfl
      simp [hq] at hn'
    simp only [State.setNotifier_notifier, Function.update_of_ne hne] at hn' ⊢
    obtain ⟨hqueue, hothers, hnd, hsusp⟩ := hi.batched n' hn'
    refine ⟨hqueue, fun n'' hn'' => ?_, hnd, hsusp⟩
    rw [Function.update_apply]
    split
    · exact hq
    · exact hothers n'' hn''

/-- The notifier makes the condition true. -/
theorem Inv.notifierStart {n : N} (hi : Inv s) (hn : s.notifier n = .start) :
    Inv ({ s with cond := true }.setNotifier n .add) :=
  hi.setNotifierWord (v := s.ec.val) (by simp [batch])
    (by rw [epochsAdded_update_of_eq (by simp [hn, addedEpoch])]; exact hi.val)
    (by simp only [true_iff]; exact ⟨n, by simp⟩) (by simp) (fun _ => rfl)

/-- `fetch_add(kAddEpoch)`: the epoch goes up with the notifiers past it, and a notifier
    that sees no waiter has an empty queue to skip. -/
theorem Inv.add (hW : Fintype.card W < 2 ^ 32) (hN : Fintype.card N < 2 ^ 32) {n : N}
    (hi : Inv s) (hn : s.notifier n = .add) :
    Inv ({ s with ec := s.ec.addEpoch.1 }.setNotifier n
      (if s.ec.addEpoch.2 then .lock else .done)) := by
  have hq : addedEpoch (if s.ec.addEpoch.2 then .lock else .done : NotifierPc W) = true := by
    split <;> rfl
  have hsucc : epochsAdded (Function.update s.notifier n
      (if s.ec.addEpoch.2 then .lock else .done)) = epochsAdded s.notifier + 1 := by
    have := epochsAdded_update s.notifier n (if s.ec.addEpoch.2 then .lock else .done)
    rw [hn, hq] at this
    simp [addedEpoch] at this
    omega
  have hbound := epochsAdded_lt hN (Function.update s.notifier n
    (if s.ec.addEpoch.2 then .lock else .done))
  have hval := hi.val
  have hlive := liveKeys_lt hW s.waiter
  have hcond : s.cond = true := hi.cond.mpr ⟨n, by simp [hn]⟩
  refine hi.setNotifierWord (c := s.cond) (by split <;> rfl) ?_ ?_ (fun h => h) ?_
  · show (s.ec.val + kAddEpoch).toNat = _
    rw [toNat_add_kAddEpoch, hsucc, Nat.mod_eq_of_lt (by omega)]
    omega
  · simp only [hcond, true_iff]
    exact ⟨n, by split <;> simp⟩
  · -- a queued fiber holds a key, so the waiter count it saw is not zero
    intro hne
    obtain ⟨g, hg⟩ := List.exists_mem_of_ne_nil _ hne
    have hpos : 0 < liveKeys s.waiter :=
      liveKeys_pos (w := g) (by simp [(hi.queued g hg).1, holdsKey])
    have hseen : s.ec.addEpoch.2 = true := by
      have hw := hi.waiters hW
      simp only [addEpoch, bne_iff_ne, ne_eq]
      intro h0
      have := congrArg UInt64.toNat h0
      rw [toNat_and_kWaiterMask] at this
      simp at this
      omega
    simp [hseen, yetToLock]

/-- The notifier is done with its batch. -/
theorem Inv.activateNil {n : N} (hi : Inv s) (hn : s.notifier n = .activate []) :
    Inv (s.setNotifier n .done) :=
  hi.setNotifierWord (v := s.ec.val) (c := s.cond) (by simp [batch])
    (by rw [epochsAdded_update_of_eq (by simp [hn, addedEpoch])]; exact hi.val)
    (by
      rw [hi.cond]
      exact ⟨fun _ => ⟨n, by simp⟩, fun _ => ⟨n, by simp [hn]⟩⟩)
    (fun h => h)
    (fun hne => by
      obtain ⟨g, hg⟩ := List.exists_mem_of_ne_nil _ hne
      have := (hi.queued g hg).2 n
      simp [hn, yetToLock] at this)

/-- The locked block of `notifyAll`: the notifier takes the whole queue. Whatever was
    queued came while every notifier could still take it, so no other notifier holds a
    batch. -/
theorem Inv.take {n : N} (hi : Inv s) (hn : s.notifier n = .lock) :
    Inv ({ s with ec := s.ec.takeQueue.1 }.setNotifier n (.activate s.ec.takeQueue.2)) := by
  have hcond : s.cond = true := hi.cond.mpr ⟨n, by simp [hn]⟩
  have hepoch : epochsAdded (Function.update s.notifier n (.activate s.ec.waitQueue))
      = epochsAdded s.notifier := epochsAdded_update_of_eq (by simp [hn, addedEpoch])
  refine ⟨by simpa [takeQueue, hepoch] using hi.val, ?_, hi.check, hi.wait, ?_, ?_, ?_⟩
  · simp only [State.setNotifier_cond, hcond, true_iff]
    exact ⟨n, by simp⟩
  · intro g hg
    simp [takeQueue] at hg
  · simp [takeQueue]
  · intro n' hn'
    by_cases hnn : n' = n
    · -- the new batch is the old queue
      subst hnn
      have hq : s.ec.waitQueue ≠ [] := by simpa [takeQueue, batch] using hn'
      obtain ⟨g, hg⟩ := List.exists_mem_of_ne_nil _ hq
      refine ⟨rfl, fun n'' hn'' => ?_, by simpa [takeQueue, batch] using hi.nodup,
        fun g' hg' => (hi.queued g' (by simpa [takeQueue, batch] using hg')).1⟩
      simp only [State.setNotifier_notifier, Function.update_of_ne hn'']
      exact batch_of_yetToLock ((hi.queued g hg).2 n'')
    · -- another notifier's batch: the queue was already empty
      simp only [State.setNotifier_notifier, Function.update_of_ne hnn] at hn' ⊢
      obtain ⟨hqueue, hothers, hnd, hsusp⟩ := hi.batched n' hn'
      refine ⟨rfl, fun n'' hn'' => ?_, hnd, hsusp⟩
      rw [Function.update_apply]
      split
      · simp [takeQueue, batch, hqueue]
      · exact hothers n'' hn''

/-- `ActivateOther` on the front fiber of the batch: it resumes in `wait`. -/
theorem Inv.activateCons {n : N} {f : W} {fs : List W} (hi : Inv s)
    (hn : s.notifier n = .activate (f :: fs)) :
    Inv ((s.setWaiter f .loopEnd).setNotifier n (.activate fs)) := by
  obtain ⟨hqueue, hothers, hnd, hsusp⟩ := hi.batched n (by simp [hn, batch])
  simp only [hn, batch] at hnd hsusp
  have hf : s.waiter f = .suspended := hsusp f List.mem_cons_self
  have hnotin : f ∉ fs := (List.nodup_cons.mp hnd).1
  have hcond : s.cond = true := hi.cond.mpr ⟨n, by simp [hn]⟩
  have hlive : liveKeys (Function.update s.waiter f .loopEnd) = liveKeys s.waiter :=
    liveKeys_update_of_eq (by simp [hf, holdsKey])
  have hepoch : epochsAdded (Function.update s.notifier n (.activate fs))
      = epochsAdded s.notifier := epochsAdded_update_of_eq (by simp [hn, addedEpoch])
  refine ⟨by simpa [hlive, hepoch] using hi.val, ?_, ?_, ?_, ?_, hi.nodup, ?_⟩
  · simp only [State.setNotifier_cond, State.setWaiter_cond, hcond, true_iff]
    exact ⟨n, by simp⟩
  · intro g e hg hc
    simp only [State.setNotifier_waiter, State.setWaiter_waiter, Function.update_apply] at hg
    split at hg
    · cases hg
    · exact hi.check g e hg hc
  · intro g e hg
    simp only [State.setNotifier_waiter, State.setWaiter_waiter, Function.update_apply] at hg
    split at hg
    · cases hg
    · exact hi.wait g e hg
  · intro g hg
    have : g ∈ s.ec.waitQueue := hg
    simp [hqueue] at this
  · intro n' hn'
    by_cases hnn : n' = n
    · subst hnn
      refine ⟨hqueue, fun n'' hn'' => ?_, by simpa [batch] using (List.nodup_cons.mp hnd).2, ?_⟩
      · simpa [Function.update_of_ne hn''] using hothers n'' hn''
      · -- the rest of the batch is other than `f`, and still suspended
        intro g hg
        simp only [State.setNotifier_notifier, Function.update_self, batch] at hg
        simp only [State.setNotifier_waiter, State.setWaiter_waiter]
        rw [Function.update_of_ne (by rintro rfl; exact hnotin hg)]
        exact hsusp g (List.mem_cons_of_mem f hg)
    · simp only [State.setNotifier_notifier, Function.update_of_ne hnn] at hn'
      exact absurd (hothers n' hnn) hn'

/-! ### Every step -/

variable {kind : N → Notify}

theorem Inv.waiterStep (hW : Fintype.card W < 2 ^ 32) (hN : Fintype.card N < 2 ^ 32)
    {w : W} {s' : State W N} (hi : Inv s) (h : Await.waiterStep s w = some s') : Inv s' := by
  cases hpc : s.waiter w with
  | start =>
    simp only [Await.waiterStep, hpc, Option.some.injEq] at h
    subst h
    exact hi.moveWaiter (by simp [hpc]) (by split <;> simp [holdsKey, hpc])
      (by split <;> simp) (by split <;> simp)
  | prepare =>
    simp only [Await.waiterStep, hpc, Option.some.injEq] at h
    subst h
    exact hi.prepare hW hN hpc
  | check e =>
    simp only [Await.waiterStep, hpc, Option.some.injEq] at h
    subst h
    -- with the condition still false the waiter goes on to `wait`, with epoch `0`
    refine hi.moveWaiter (by simp [hpc]) (by split <;> simp [holdsKey, hpc]) (by split <;> simp) ?_
    intro e' he'
    split at he'
    · cases he'
    · cases he'
      exact hi.check w e hpc (by simpa using ‹¬s.cond = true›)
  | wait e =>
    simp only [Await.waiterStep, hpc, waitLocked, Option.some.injEq] at h
    split at h
    · subst h
      exact hi.push hW hpc ‹_›
    · subst h
      exact hi.moveWaiter (by simp [hpc]) (by simp [holdsKey, hpc]) (by simp) (by simp)
  | suspended => simp [Await.waiterStep, hpc] at h
  | loopEnd =>
    simp only [Await.waiterStep, hpc, Option.some.injEq] at h
    subst h
    exact hi.release (by simp [hpc, holdsKey]) (by simp [hpc]) rfl
  | loopExit =>
    simp only [Await.waiterStep, hpc, Option.some.injEq] at h
    subst h
    exact hi.release (by simp [hpc, holdsKey]) (by simp [hpc]) rfl
  | done => simp [Await.waiterStep, hpc] at h

theorem Inv.notifierStep (hW : Fintype.card W < 2 ^ 32) (hN : Fintype.card N < 2 ^ 32)
    (hone : ∀ n, kind n = .one → ∀ w w' : W, w = w') {n : N} {s' : State W N} (hi : Inv s)
    (h : Await.notifierStep kind s n = some s') : Inv s' := by
  cases hpc : s.notifier n with
  | start =>
    simp only [Await.notifierStep, hpc, Option.some.injEq] at h
    subst h
    exact hi.notifierStart hpc
  | add =>
    simp only [Await.notifierStep, hpc, Option.some.injEq] at h
    subst h
    exact hi.add hW hN hpc
  | lock =>
    cases hk : kind n with
    | one =>
      simp only [Await.notifierStep, hpc, hk, Option.some.injEq] at h
      subst h
      -- a single waiter: at most one fiber is queued, and `notify` takes what `notifyAll` would
      have hlen : s.ec.waitQueue.length ≤ 1 :=
        hi.nodup.length_le_card.trans (Fintype.card_le_one_iff.mpr (hone n hk))
      obtain ⟨hec, hfs⟩ := popFront_eq_takeQueue hlen
      rw [hec, hfs]
      exact hi.take hpc
    | all =>
      simp only [Await.notifierStep, hpc, hk, Option.some.injEq] at h
      subst h
      exact hi.take hpc
  | activate fs =>
    cases fs with
    | nil =>
      simp only [Await.notifierStep, hpc, Option.some.injEq] at h
      subst h
      exact hi.activateNil hpc
    | cons f fs =>
      simp only [Await.notifierStep, hpc, Option.some.injEq] at h
      subst h
      exact hi.activateCons hpc
  | done => simp [Await.notifierStep, hpc] at h

theorem Inv.step (hW : Fintype.card W < 2 ^ 32) (hN : Fintype.card N < 2 ^ 32)
    (hone : ∀ n, kind n = .one → ∀ w w' : W, w = w') {l : Label W N} {s' : State W N}
    (hi : Inv s) (h : step kind s l = some s') : Inv s' := by
  cases l with
  | waiter w => exact hi.waiterStep hW hN h
  | notifier n => exact hi.notifierStep hW hN hone h

/-- **The invariant holds of every reachable state.** -/
theorem Inv.reachable (hW : Fintype.card W < 2 ^ 32) (hN : Fintype.card N < 2 ^ 32)
    (hone : ∀ n, kind n = .one → ∀ w w' : W, w = w')
    (h : Trans.Reachable (Await.step kind) init s) : Inv s :=
  Trans.Reachable.invariant Inv (fun _ _ _ hi hs => hi.step hW hN hone hs) h inv_init

end Invariant

/-! ## No lost wakeup -/

section NoLostWakeup

variable [Fintype W] [Fintype N] {kind : N → Notify}

/-- **No wakeup is lost, and the waiter count is the number of live keys**, for any
    interleaving of fewer than `2 ^ 32` waiters and fewer than `2 ^ 32` notifiers, the
    notifiers calling `notifyAll()`, or `notify()` where there is a single waiter. -/
theorem await_no_lost_wakeup (hW : Fintype.card W < 2 ^ 32) (hN : Fintype.card N < 2 ^ 32)
    (hone : ∀ n, kind n = .one → ∀ w w' : W, w = w') {s : State W N}
    (h : Trans.Reachable (step kind) init s) :
    ¬ Lost s ∧ (s.ec.val &&& kWaiterMask).toNat = liveKeys s.waiter := by
  have hi := Inv.reachable hW hN hone h
  refine ⟨?_, by rw [toNat_and_kWaiterMask]; exact hi.waiters hW⟩
  -- a queued fiber means no notifier is past its locked block, but the condition says
  -- one has started and they have all finished
  rintro ⟨hdone, hcond, w, -, hw⟩
  obtain ⟨n, -⟩ := hi.cond.mp hcond
  have := (hi.queued w hw).2 n
  simp [hdone n, yetToLock] at this

/-- Waiter `0` suspends in `wait`; waiter `1` takes a key of epoch `0`; the notifier makes the
    condition true, adds an epoch, takes the queue and activates waiter `0`. Both waiters still
    hold their keys, and `await_no_lost_wakeup` holds of the state reached. -/
theorem await_no_lost_wakeup_woken :
    Fintype.card (Fin 2) < 2 ^ 32 ∧ Fintype.card (Fin 1) < 2 ^ 32 ∧
    ∃ s : State (Fin 2) (Fin 1), Trans.Reachable (step fun _ => .all) init s ∧
      s.notifier 0 = .done ∧ s.cond = true ∧ s.waiter 0 = .loopEnd ∧ s.waiter 1 = .check 0 ∧
      ¬ Lost s ∧ (s.ec.val &&& kWaiterMask).toNat = liveKeys s.waiter := by
  have hW : Fintype.card (Fin 2) < 2 ^ 32 := by simp
  have hN : Fintype.card (Fin 1) < 2 ^ 32 := by simp
  obtain ⟨s, hs, hend⟩ := @Trans.exists_reachable_of_run _ _ (step fun _ => .all)
    (init : State (Fin 2) (Fin 1))
    [.waiter 0, .waiter 0, .waiter 0, .waiter 0, .waiter 1, .waiter 1,
      .notifier 0, .notifier 0, .notifier 0, .notifier 0, .notifier 0]
    (fun s => s.notifier 0 == .done && s.cond && s.waiter 0 == .loopEnd && s.waiter 1 == .check 0)
    (by decide)
  simp only [Bool.and_eq_true, beq_iff_eq] at hend
  exact ⟨hW, hN, s, hs, hend.1.1.1, hend.1.1.2, hend.1.2, hend.2,
    await_no_lost_wakeup hW hN (fun _ h => by simp at h) hs⟩

end NoLostWakeup

/-! ## Where it fails: the fields wrap

Both fields of the word are 32 bits wide. With `2 ^ 32` notifications between a waiter's
`prepareWait` and its locked epoch test the epoch is back where the key saw it, and the
waiter queues itself after every notifier has come and gone. With `2 ^ 32` live keys the
waiter count reads `0`. -/

section Wrap

/-- The run with `2 ^ 32` notifiers and one waiter, after `i` notifiers have finished: the
    waiter holds a key of epoch `0` and is about to take the lock in `wait`. -/
def wrapState (i : ℕ) : State Unit (Fin (2 ^ 32)) where
  ec := ⟨UInt64.ofNat (i * 2 ^ 32 + 1), []⟩
  cond := decide (0 < i)
  waiter := fun _ => .wait 0
  notifier := fun n => if n.val < i then .done else .start

/-- Every notifier of the run sees the waiter's key. -/
theorem wrap_seen (i : ℕ) : (UInt64.ofNat (i * 2 ^ 32 + 1) &&& kWaiterMask != 0) = true := by
  have h : (UInt64.ofNat (i * 2 ^ 32 + 1) &&& kWaiterMask).toNat = 1 := by
    rw [toNat_and_kWaiterMask, UInt64.toNat_ofNat']
    omega
  simp only [bne_iff_ne, ne_eq]
  intro h0
  rw [h0] at h
  simp at h

theorem wrap_add (i : ℕ) :
    UInt64.ofNat (i * 2 ^ 32 + 1) + kAddEpoch = UInt64.ofNat ((i + 1) * 2 ^ 32 + 1) := by
  apply UInt64.toNat_inj.mp
  have h : i * 2 ^ 32 + 1 + 2 ^ 32 = (i + 1) * 2 ^ 32 + 1 := by
    rw [Nat.succ_mul]
    omega
  rw [toNat_add_kAddEpoch, UInt64.toNat_ofNat', UInt64.toNat_ofNat', Nat.mod_add_mod, h]

/-- The waiter takes its key and finds the condition false. -/
theorem reach_wrapState_zero : Trans.Reachable (step fun _ => .all) init (wrapState 0) := by
  let t₁ : State Unit (Fin (2 ^ 32)) := init.setWaiter () .prepare
  let t₂ := { t₁ with ec := t₁.ec.prepareWait.1 }.setWaiter () (.check t₁.ec.prepareWait.2)
  let t₃ := t₂.setWaiter () (.wait t₁.ec.prepareWait.2)
  have h₁ : step (fun _ => .all) init (.waiter ()) = some t₁ := by
    rw [step, waiterStep_of_start rfl]
    rfl
  have h₂ : step (fun _ => .all) t₁ (.waiter ()) = some t₂ := by
    rw [step, waiterStep_of_prepare (by simp [t₁])]
  have h₃ : step (fun _ => .all) t₂ (.waiter ()) = some t₃ := by
    rw [step, waiterStep_of_check (e := t₁.ec.prepareWait.2) (by simp [t₂])]
    rfl
  have heq : t₃ = wrapState 0 := by
    ext u
    · rfl
    · rfl
    · simp only [t₃, wrapState, State.setWaiter_waiter, Function.update_self]
      congr 1
      decide
    · simp [t₃, t₂, t₁, init, wrapState]
  rw [← heq]
  exact ((Trans.Reachable.refl _ |>.tail h₁).tail h₂).tail h₃

/-- Notifier `i` runs `notifyAll` from start to end: it sees the key, takes the empty
    queue and activates nobody. -/
theorem reach_wrapState_succ {i : ℕ} (hi : i < 2 ^ 32) :
    Trans.Reachable (step fun _ => .all) (wrapState i) (wrapState (i + 1)) := by
  let n : Fin (2 ^ 32) := ⟨i, hi⟩
  let s₁ := { wrapState i with cond := true }.setNotifier n .add
  let s₂ := { s₁ with ec := s₁.ec.addEpoch.1 }.setNotifier n .lock
  let s₃ := { s₂ with ec := s₂.ec.takeQueue.1 }.setNotifier n (.activate [])
  have h₁ : step (fun _ => .all) (wrapState i) (.notifier n) = some s₁ := by
    rw [step]
    exact notifierStep_of_start (by simp [wrapState, n])
  have h₂ : step (fun _ => .all) s₁ (.notifier n) = some s₂ := by
    rw [step, notifierStep_of_add (by simp [s₁])]
    have hseen : s₁.ec.addEpoch.2 = true := wrap_seen i
    rw [hseen]
    rfl
  have h₃ : step (fun _ => .all) s₂ (.notifier n) = some s₃ := by
    rw [step, notifierStep_of_lock_all (by simp [s₂]) rfl]
    rfl
  have h₄ : step (fun _ => .all) s₃ (.notifier n) = some (s₃.setNotifier n .done) := by
    rw [step]
    exact notifierStep_of_activate_nil (by simp [s₃])
  have heq : s₃.setNotifier n .done = wrapState (i + 1) := by
    ext m
    · show EventCount.mk (UInt64.ofNat (i * 2 ^ 32 + 1) + kAddEpoch) [] = _
      rw [wrap_add]
      rfl
    · show true = decide (0 < i + 1)
      simp
    · rfl
    · simp only [s₃, s₂, s₁, State.setNotifier_notifier, Function.update_idem,
        Function.update_apply]
      split
      · subst m
        simp [wrapState, n]
      · -- another notifier: finished before exactly when it is numbered below `i`
        have hm : m.val ≠ i := fun h => ‹¬m = n› (Fin.ext h)
        have hc : ((⟨i, hi⟩ : Fin (2 ^ 32)) : ℕ) = i := rfl
        simp only [wrapState]
        split <;> split <;> first | rfl | omega
  rw [← heq]
  exact (((Trans.Reachable.refl _ |>.tail h₁).tail h₂).tail h₃).tail h₄

/-- The run with `2 ^ 32` waiters and no notifier, after `i` waiters have taken a key. -/
def keyState (i : ℕ) : State (Fin (2 ^ 32)) Empty where
  ec := ⟨UInt64.ofNat i, []⟩
  cond := false
  waiter := fun w => if w.val < i then .check 0 else .start
  notifier := Empty.elim

/-- Waiter `i` finds the condition false and takes a key of epoch `0`. -/
theorem reach_keyState_succ {i : ℕ} (hi : i < 2 ^ 32) :
    Trans.Reachable (step Empty.elim) (keyState i) (keyState (i + 1)) := by
  let w : Fin (2 ^ 32) := ⟨i, hi⟩
  let t₁ := (keyState i).setWaiter w .prepare
  have h₁ : step Empty.elim (keyState i) (.waiter w) = some t₁ := by
    rw [step, waiterStep_of_start (by simp [keyState, w])]
    rfl
  have h₂ : step Empty.elim t₁ (.waiter w)
      = some ({ t₁ with ec := t₁.ec.prepareWait.1 }.setWaiter w (.check t₁.ec.prepareWait.2)) := by
    rw [step, waiterStep_of_prepare (by simp [t₁])]
  have heq : { t₁ with ec := t₁.ec.prepareWait.1 }.setWaiter w (.check t₁.ec.prepareWait.2)
      = keyState (i + 1) := by
    -- the key's epoch is `0`: fewer than `2 ^ 32` keys so far
    have hepoch : epochOf (UInt64.ofNat i) = 0 := epochOf_eq_zero (by simp; omega)
    ext v
    · show EventCount.mk (UInt64.ofNat i + kAddWaiter) [] = EventCount.mk (UInt64.ofNat (i + 1)) []
      congr 1
      apply UInt64.toNat_inj.mp
      rw [toNat_add_kAddWaiter, UInt64.toNat_ofNat', UInt64.toNat_ofNat', Nat.mod_add_mod]
    · rfl
    · simp only [t₁, State.setWaiter_waiter, Function.update_apply]
      split
      · subst v
        simp [keyState, w, prepareWait, hepoch]
      · have hv : v.val ≠ i := fun h => ‹¬v = w› (Fin.ext h)
        simp only [keyState]
        split <;> split <;> first | rfl | omega
    · exact v.elim
  rw [← heq]
  exact (Trans.Reachable.refl _ |>.tail h₁).tail h₂

theorem init_eq_keyState_zero : (init : State (Fin (2 ^ 32)) Empty) = keyState 0 := by
  ext v
  · rfl
  · rfl
  · simp [init, keyState]
  · exact v.elim

/-- **A wakeup is lost at `2 ^ 32`.** With `2 ^ 32` notifiers calling `notifyAll()` the
    wakeup of a single waiter is lost; with `2 ^ 32` waiters the waiter count no longer
    counts the live keys. -/
theorem epoch_wrap_loses_wakeup :
    (∃ s, Trans.Reachable (step (W := Unit) (N := Fin (2 ^ 32)) fun _ => .all) init s ∧
      Lost s) ∧
    (∃ s, Trans.Reachable (step (W := Fin (2 ^ 32)) (N := Empty) Empty.elim) init s ∧
      (s.ec.val &&& kWaiterMask).toNat ≠ liveKeys s.waiter) := by
  constructor
  · -- after all the notifiers, the epoch reads `0` again and the waiter queues itself
    have hrun : Trans.Reachable (step fun _ => .all) init (wrapState (2 ^ 32)) :=
      reach_wrapState_zero.trans
        (Trans.Reachable.of_chain wrapState fun _ hi => reach_wrapState_succ hi)
    let final := { wrapState (2 ^ 32) with
      ec := ((wrapState (2 ^ 32)).ec.waitLocked () 0).1 }.setWaiter () .suspended
    have hpush : ((wrapState (2 ^ 32)).ec.waitLocked () 0).2 = true := by decide
    have hqueue : ((wrapState (2 ^ 32)).ec.waitLocked () 0).1.waitQueue = [()] := by decide
    have hstep : step (fun _ => .all) (wrapState (2 ^ 32)) (.waiter ()) = some final := by
      rw [step, waiterStep_of_wait rfl, hpush]
      rfl
    refine ⟨final, hrun.tail hstep, fun n => by simp [final, wrapState], by decide,
      (), by simp [final], ?_⟩
    show () ∈ ((wrapState (2 ^ 32)).ec.waitLocked () 0).1.waitQueue
    rw [hqueue]
    exact List.mem_singleton_self ()
  · -- `2 ^ 32` keys carry into the epoch: the waiter count reads `0`
    have hrun : Trans.Reachable (step Empty.elim) init (keyState (2 ^ 32)) := by
      rw [init_eq_keyState_zero]
      exact Trans.Reachable.of_chain keyState fun _ hi => reach_keyState_succ hi
    refine ⟨_, hrun, ?_⟩
    have hkeys : liveKeys (keyState (2 ^ 32)).waiter = 2 ^ 32 := by
      unfold liveKeys Trans.count
      rw [Finset.filter_true_of_mem (by simp [keyState, holdsKey]), Finset.card_univ,
        Fintype.card_fin]
    rw [hkeys, toNat_and_kWaiterMask]
    decide

end Wrap

end Await

end Helio
