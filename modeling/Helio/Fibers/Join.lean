import Helio.Lib.Trans

/-!
# `FiberInterface::Join` and `Terminate`: no joiner is stranded

A fiber `T` that ends runs `Terminate()` (`util/fibers/detail/fiber_interface.cc`). The
fibers that wait for it run `Join()`. They meet on `T`'s `flags_`, a `uint16_t` word, and on
its `wait_queue_`. `kBusyBit` is a spin lock that `Join` takes with
`fetch_or(kBusyBit)` and `Terminate` with `fetch_or(kTerminatedBit | kBusyBit)`. Each loop
owns the lock when the value it saw had `kBusyBit` clear. A joiner that owns it before
`kTerminatedBit` is set pushes itself to the front of `wait_queue_`, releases the lock and
suspends. `Terminate`, once it owns the lock, pops every joiner, activates it
(`ActivateOther`, on its own thread or a remote one), and releases the lock. A joiner that
sees `kTerminatedBit` returns at once, and releases the lock first if its `fetch_or` took it.

Each `fetch_or`, `fetch_and` and queue operation is one step of one party (`step`). A party
is `T` or one call of `Join()`, of any number, so every interleaving of the code is a run of
the model. `ActivateOther` is recorded in a log of activations.

`join_never_strands`: in every reachable state at most one party owns `kBusyBit`, and the bit
is set exactly while one does. A step that clears it is its owner's release, and one that sets
it makes its mover the owner. Every joiner that returned saw `kTerminatedBit`. Every joiner
in the queue pushed itself while owning the lock, before `Terminate` owned it. A suspended
joiner is in `wait_queue_` until `Terminate` activates it, and is activated at most once. Once
`Terminate` has released the lock the queue is empty and every suspended joiner has been
activated exactly once.
-/

set_option autoImplicit false

namespace Helio

namespace Join

def kTerminatedBit : UInt16 := 0x1

def kBusyBit : UInt16 := 0x2

/-- Where `Terminate()` of `T` is. -/
inductive TermPc where
  /-- before its first `fetch_or` -/
  | start
  /-- in its `fetch_or` loop, after one that found `kBusyBit` set -/
  | spin
  /-- owns `kBusyBit` and drains `wait_queue_` -/
  | drain
  /-- has released `kBusyBit` -/
  | done
  deriving DecidableEq, Repr

/-- Where a call of `Join()` on `T` is. -/
inductive Pc where
  /-- not called yet -/
  | idle
  /-- in its `fetch_or(kBusyBit)` loop -/
  | spin
  /-- owns `kBusyBit` after seeing `kTerminatedBit`, before the `fetch_and` that releases it -/
  | ownerTerminated
  /-- owns `kBusyBit` before `kTerminatedBit`, before `wait_queue_.push_front` -/
  | owner
  /-- in `wait_queue_` and still owning `kBusyBit`, before its release -/
  | pushed
  /-- in `Preempt()`, until `T` activates it -/
  | suspended
  /-- returned without suspending -/
  | returned
  deriving DecidableEq, Repr

/-- The places where a call of `Join()` owns `kBusyBit`. -/
def Pc.holds : Pc → Bool
  | .ownerTerminated | .owner | .pushed => true
  | _ => false

/-- Who moves: `T` in `Terminate()`, or a call of `Join()`. -/
inductive Party (ι : Type) where
  | terminator
  | joiner (i : ι)
  deriving DecidableEq

/-- `flags_`, `wait_queue_`, where every party is, and the log of `ActivateOther`. -/
structure State (ι : Type) where
  flags : UInt16
  waitQueue : List ι
  terminate : TermPc
  pc : ι → Pc
  activated : List ι

variable {ι : Type} [DecidableEq ι]

/-- The next operation of `Terminate()`. -/
def terminateStep (s : State ι) : Option (State ι) :=
  match s.terminate with
  | .start | .spin =>
    some { s with
      flags := s.flags ||| (kTerminatedBit ||| kBusyBit)
      terminate := if s.flags &&& kBusyBit = 0 then .drain else .spin }
  | .drain =>
    match s.waitQueue with
    -- `pop_front`, then `ActivateOther`
    | i :: q => some { s with waitQueue := q, activated := s.activated ++ [i] }
    | [] => some { s with flags := s.flags &&& ~~~kBusyBit, terminate := .done }
  | .done => none

/-- Where `Join()`'s `fetch_or(kBusyBit)` leaves the joiner, `fprev` being the value it saw. -/
def afterFetchOr (fprev : UInt16) : Pc :=
  if fprev &&& kTerminatedBit ≠ 0 then
    if fprev &&& kBusyBit = 0 then .ownerTerminated else .returned
  else if fprev &&& kBusyBit = 0 then .owner else .spin

/-- The next operation of the call `i` of `Join()`. -/
def joinStep (s : State ι) (i : ι) : Option (State ι) :=
  match s.pc i with
  | .idle => some { s with pc := Function.update s.pc i .spin }
  | .spin =>
    some { s with flags := s.flags ||| kBusyBit, pc := Function.update s.pc i (afterFetchOr s.flags) }
  | .ownerTerminated =>
    some { s with flags := s.flags &&& ~~~kBusyBit, pc := Function.update s.pc i .returned }
  | .owner => some { s with waitQueue := i :: s.waitQueue, pc := Function.update s.pc i .pushed }
  | .pushed =>
    some { s with flags := s.flags &&& ~~~kBusyBit, pc := Function.update s.pc i .suspended }
  | .suspended | .returned => none

/-- One party makes its next operation. -/
def step (s : State ι) : Party ι → Option (State ι)
  | .terminator => terminateStep s
  | .joiner i => joinStep s i

/-- `flags_(0)`, an empty queue, `T` running, no call of `Join()` made. -/
def init : State ι := ⟨0, [], .start, fun _ => .idle, []⟩

/-- `p` owns `kBusyBit`. -/
def Holds (s : State ι) : Party ι → Prop
  | .terminator => s.terminate = .drain
  | .joiner i => (s.pc i).holds = true

/-! ## The word -/

section Flags

variable {f : UInt16}

theorem flags_cases (h : f.toNat < 4) : f = 0 ∨ f = 1 ∨ f = 2 ∨ f = 3 := by
  rw [← UInt16.ofNat_toNat (x := f)]
  have : f.toNat = 0 ∨ f.toNat = 1 ∨ f.toNat = 2 ∨ f.toNat = 3 := by omega
  rcases this with h | h | h | h <;> rw [h] <;> decide

/-- `fetch_or(kTerminatedBit | kBusyBit)` sets both bits. -/
theorem or_both (h : f.toNat < 4) :
    (f ||| (kTerminatedBit ||| kBusyBit)).toNat < 4 ∧
      (f ||| (kTerminatedBit ||| kBusyBit)) &&& kTerminatedBit ≠ 0 ∧
      (f ||| (kTerminatedBit ||| kBusyBit)) &&& kBusyBit ≠ 0 := by
  rcases flags_cases h with rfl | rfl | rfl | rfl <;> decide

/-- `fetch_or(kBusyBit)` sets `kBusyBit` and keeps `kTerminatedBit`. -/
theorem or_busy (h : f.toNat < 4) :
    (f ||| kBusyBit).toNat < 4 ∧ (f ||| kBusyBit) &&& kTerminatedBit = f &&& kTerminatedBit ∧
      (f ||| kBusyBit) &&& kBusyBit ≠ 0 := by
  rcases flags_cases h with rfl | rfl | rfl | rfl <;> decide

/-- `fetch_and(~kBusyBit)` clears `kBusyBit` and keeps `kTerminatedBit`. -/
theorem and_not_busy (h : f.toNat < 4) :
    (f &&& ~~~kBusyBit).toNat < 4 ∧
      (f &&& ~~~kBusyBit) &&& kTerminatedBit = f &&& kTerminatedBit ∧
      (f &&& ~~~kBusyBit) &&& kBusyBit = 0 := by
  rcases flags_cases h with rfl | rfl | rfl | rfl <;> decide

/-- The joiner owns the lock after its `fetch_or` exactly when `kBusyBit` was clear. -/
theorem afterFetchOr_holds : (afterFetchOr f).holds = true ↔ f &&& kBusyBit = 0 := by
  unfold afterFetchOr
  split_ifs <;> simp [Pc.holds, *]

theorem afterFetchOr_not_queued : afterFetchOr f ≠ .pushed ∧ afterFetchOr f ≠ .suspended := by
  unfold afterFetchOr
  split_ifs <;> simp

/-- A joiner that is to push itself saw `kTerminatedBit` clear. -/
theorem afterFetchOr_owner (h : afterFetchOr f = .owner) : f &&& kTerminatedBit = 0 := by
  unfold afterFetchOr at h
  split_ifs at h with ht
  exact not_ne_iff.mp ht

/-- A joiner that is to return saw `kTerminatedBit`. -/
theorem afterFetchOr_returns (h : afterFetchOr f = .ownerTerminated ∨ afterFetchOr f = .returned) :
    f &&& kTerminatedBit ≠ 0 := by
  unfold afterFetchOr at h
  split_ifs at h <;> simp_all

end Flags

/-! ## What a step does -/

omit [DecidableEq ι] in
/-- **What `Terminate()` can do**: its `fetch_or`, which owns the lock when `kBusyBit` was
    clear; pop a joiner and activate it; or release the lock once the queue is empty. -/
theorem terminateStep_cases {s s' : State ι} (h : terminateStep s = some s') :
    ((s.terminate = .start ∨ s.terminate = .spin) ∧
      s' = { s with flags := s.flags ||| (kTerminatedBit ||| kBusyBit),
                    terminate := if s.flags &&& kBusyBit = 0 then .drain else .spin }) ∨
    (∃ i q, s.terminate = .drain ∧ s.waitQueue = i :: q ∧
      s' = { s with waitQueue := q, activated := s.activated ++ [i] }) ∨
    (s.terminate = .drain ∧ s.waitQueue = [] ∧
      s' = { s with flags := s.flags &&& ~~~kBusyBit, terminate := .done }) := by
  unfold terminateStep at h
  split at h
  · exact Or.inl ⟨Or.inl ‹_›, (Option.some.inj h).symm⟩
  · exact Or.inl ⟨Or.inr ‹_›, (Option.some.inj h).symm⟩
  · split at h
    · exact Or.inr (Or.inl ⟨_, _, ‹_›, ‹_›, (Option.some.inj h).symm⟩)
    · exact Or.inr (Or.inr ⟨‹_›, ‹_›, (Option.some.inj h).symm⟩)
  · cases h

/-- **What a call of `Join()` can do**: be made; its `fetch_or`, after which it owns the
    lock, returns, or spins on; release after `kTerminatedBit`; push itself; or release and
    suspend. -/
theorem joinStep_cases {s s' : State ι} {i : ι} (h : joinStep s i = some s') :
    (s.pc i = .idle ∧ s' = { s with pc := Function.update s.pc i .spin }) ∨
    (s.pc i = .spin ∧
      s' = { s with flags := s.flags ||| kBusyBit, pc := Function.update s.pc i (afterFetchOr s.flags) }) ∨
    (s.pc i = .ownerTerminated ∧
      s' = { s with flags := s.flags &&& ~~~kBusyBit, pc := Function.update s.pc i .returned }) ∨
    (s.pc i = .owner ∧
      s' = { s with waitQueue := i :: s.waitQueue, pc := Function.update s.pc i .pushed }) ∨
    (s.pc i = .pushed ∧
      s' = { s with flags := s.flags &&& ~~~kBusyBit, pc := Function.update s.pc i .suspended }) := by
  unfold joinStep at h
  split at h <;> rename_i hpc
  · exact Or.inl ⟨hpc, (Option.some.inj h).symm⟩
  · exact Or.inr (Or.inl ⟨hpc, (Option.some.inj h).symm⟩)
  · exact Or.inr (Or.inr (Or.inl ⟨hpc, (Option.some.inj h).symm⟩))
  · exact Or.inr (Or.inr (Or.inr (Or.inl ⟨hpc, (Option.some.inj h).symm⟩)))
  · exact Or.inr (Or.inr (Or.inr (Or.inr ⟨hpc, (Option.some.inj h).symm⟩)))
  · cases h
  · cases h

/-! ## The invariant -/

/-- The lock: the word has the two bits only, `kTerminatedBit` says `Terminate()` has begun,
    and `kBusyBit` is set exactly while one party owns the lock. -/
structure Lock (s : State ι) : Prop where
  flags_lt : s.flags.toNat < 4
  term_iff : s.flags &&& kTerminatedBit ≠ 0 ↔ s.terminate ≠ .start
  busy_iff : s.flags &&& kBusyBit ≠ 0 ↔ ∃ p, Holds s p
  holds_unique : ∀ p q, Holds s p → Holds s q → p = q

/-- The queue holds exactly the joiners that pushed themselves and have not been activated,
    and only a suspended joiner is activated, once. -/
structure Queue (s : State ι) : Prop where
  queue_nodup : s.waitQueue.Nodup
  mem_queue : ∀ i, i ∈ s.waitQueue ↔ (s.pc i = .pushed ∨ s.pc i = .suspended) ∧ i ∉ s.activated
  activated_nodup : s.activated.Nodup
  mem_activated : ∀ i, i ∈ s.activated → s.pc i = .suspended

/-- What every reachable state satisfies: the lock and the queue, and how the joiners stand
    to `Terminate()`. A joiner pushes itself before `Terminate()` owns the lock, returns only
    after its `fetch_or` began, and the queue is empty once it is done. -/
structure Inv (s : State ι) : Prop extends Lock s, Queue s where
  pushed_before : ∀ i, s.pc i = .owner ∨ s.pc i = .pushed →
    s.terminate = .start ∨ s.terminate = .spin
  returned_term : ∀ i, s.pc i = .ownerTerminated ∨ s.pc i = .returned → s.terminate ≠ .start
  done_empty : s.terminate = .done → s.waitQueue = []

omit [DecidableEq ι] in
theorem Inv.of_init : Inv (init : State ι) where
  flags_lt := show (0 : UInt16).toNat < 4 by decide
  term_iff := by simp [init]
  busy_iff := by
    constructor
    · intro h
      exact absurd (show (0 : UInt16) &&& kBusyBit = 0 by decide) h
    · rintro ⟨_ | _, h⟩ <;> simp [init, Holds, Pc.holds] at h
  holds_unique := by rintro (_ | _) _ h <;> simp [init, Holds, Pc.holds] at h
  queue_nodup := List.nodup_nil
  mem_queue := by simp [init]
  activated_nodup := List.nodup_nil
  mem_activated := by simp [init]
  pushed_before := by simp [init]
  returned_term := by simp [init]
  done_empty := by simp [init]

section Frames

variable {s s' : State ι} {i : ι} {c : Pc}

omit [DecidableEq ι] in
theorem holds_joiner (h : s.pc i = .ownerTerminated ∨ s.pc i = .owner ∨ s.pc i = .pushed) :
    Holds s (.joiner i) := by
  rcases h with h | h | h <;> simp [Holds, h, Pc.holds]

omit [DecidableEq ι] in
/-- With `kBusyBit` clear nobody owns the lock. -/
theorem Lock.not_holds (hl : Lock s) (h : s.flags &&& kBusyBit = 0) (p : Party ι) :
    ¬Holds s p := fun hp => (hl.busy_iff.mpr ⟨p, hp⟩) h

omit [DecidableEq ι] in
/-- While `Terminate()` drains, no joiner owns the lock. -/
theorem Lock.joiner_not_holds (hl : Lock s) (h : s.terminate = .drain) (i : ι) :
    ¬Holds s (.joiner i) := fun hi => by
  cases hl.holds_unique .terminator (.joiner i) h hi

omit [DecidableEq ι] in
theorem Queue.not_mem_queue (hq : Queue s) (h : s.pc i ≠ .pushed ∧ s.pc i ≠ .suspended) :
    i ∉ s.waitQueue := fun hm => by
  rcases ((hq.mem_queue i).mp hm).1 with h' | h'
  · exact h.1 h'
  · exact h.2 h'

omit [DecidableEq ι] in
theorem Queue.not_mem_activated (hq : Queue s) (h : s.pc i ≠ .suspended) : i ∉ s.activated :=
  fun hm => h (hq.mem_activated i hm)

/-- After a joiner's move, every party owns the lock as before but the mover. -/
theorem holds_update (ht : s'.terminate = s.terminate) (hpc : s'.pc = Function.update s.pc i c)
    (q : Party ι) : Holds s' q ↔ if q = .joiner i then c.holds = true else Holds s q := by
  cases q with
  | terminator => simp [Holds, ht]
  | joiner j =>
    by_cases hj : j = i
    · subst hj
      simp [Holds, hpc]
    · simp [Holds, hpc, hj]

/-- A joiner's move between two places that own the lock alike changes no owner. -/
theorem holds_update_of_eq (ht : s'.terminate = s.terminate)
    (hpc : s'.pc = Function.update s.pc i c) (h : c.holds = (s.pc i).holds) (q : Party ι) :
    Holds s' q ↔ Holds s q := by
  rw [holds_update ht hpc]
  split
  · next hq =>
    subst hq
    simp [Holds, h]
  · rfl

/-- A joiner that owned the lock and moves to a place that does not leaves no owner. -/
theorem not_holds_of_release (hl : Lock s) (hi : Holds s (.joiner i))
    (ht : s'.terminate = s.terminate) (hpc : s'.pc = Function.update s.pc i c)
    (hc : c.holds = false) (q : Party ι) : ¬Holds s' q := by
  rw [holds_update ht hpc]
  split
  · simp [hc]
  · next hq => exact fun hq' => hq (hl.holds_unique q _ hq' hi)

omit [DecidableEq ι] in
/-- A step that keeps `kBusyBit` and every owner keeps the lock. -/
theorem Lock.of_holders (hl : Lock s) (hlt : s'.flags.toNat < 4)
    (hterm : s'.flags &&& kTerminatedBit ≠ 0 ↔ s'.terminate ≠ .start)
    (hbusy : s'.flags &&& kBusyBit = 0 ↔ s.flags &&& kBusyBit = 0)
    (hh : ∀ p, Holds s' p ↔ Holds s p) : Lock s' where
  flags_lt := hlt
  term_iff := hterm
  busy_iff := by rw [Ne, hbusy, ← Ne, hl.busy_iff]; simp only [hh]
  holds_unique p q hp hq := hl.holds_unique p q ((hh p).mp hp) ((hh q).mp hq)

omit [DecidableEq ι] in
/-- A step that keeps the word, whether `Terminate()` has begun, and every owner. -/
theorem Lock.of_flags_eq (hl : Lock s) (hf : s'.flags = s.flags)
    (ht : s'.terminate = .start ↔ s.terminate = .start) (hh : ∀ p, Holds s' p ↔ Holds s p) :
    Lock s' :=
  hl.of_holders (hf ▸ hl.flags_lt) (by rw [hf, hl.term_iff, Ne, Ne, ht]) (by rw [hf]) hh

omit [DecidableEq ι] in
/-- **A release**: `fetch_and(~kBusyBit)`, after which nobody owns the lock. -/
theorem Lock.of_release (hl : Lock s) (hf : s'.flags = s.flags &&& ~~~kBusyBit)
    (ht : s'.terminate = .start ↔ s.terminate = .start) (hh : ∀ p, ¬Holds s' p) : Lock s' where
  flags_lt := hf ▸ (and_not_busy hl.flags_lt).1
  term_iff := by rw [hf, (and_not_busy hl.flags_lt).2.1, hl.term_iff, Ne, Ne, ht]
  busy_iff := by
    rw [hf, (and_not_busy hl.flags_lt).2.2]
    simp [hh]
  holds_unique p _ hp := absurd hp (hh p)

omit [DecidableEq ι] in
/-- A step that keeps the queue, the log and every place keeps the queue's invariant. -/
theorem Queue.of_eq (hq : Queue s) (hw : s'.waitQueue = s.waitQueue)
    (hpc : s'.pc = s.pc) (ha : s'.activated = s.activated) : Queue s' where
  queue_nodup := hw ▸ hq.queue_nodup
  mem_queue := by rw [hw, hpc, ha]; exact hq.mem_queue
  activated_nodup := ha ▸ hq.activated_nodup
  mem_activated := by rw [hpc, ha]; exact hq.mem_activated

/-- A joiner's move between two places outside the queue keeps the queue's invariant. -/
theorem Queue.of_update (hq : Queue s) (hw : s'.waitQueue = s.waitQueue)
    (ha : s'.activated = s.activated) (hpc : s'.pc = Function.update s.pc i c)
    (hold : s.pc i ≠ .pushed ∧ s.pc i ≠ .suspended) (hnew : c ≠ .pushed ∧ c ≠ .suspended) :
    Queue s' where
  queue_nodup := hw ▸ hq.queue_nodup
  mem_queue j := by
    rw [hw, ha, hpc]
    by_cases hj : j = i
    · subst hj
      simp [hq.not_mem_queue hold, hnew.1, hnew.2]
    · simp [Function.update_of_ne hj, hq.mem_queue j]
  activated_nodup := ha ▸ hq.activated_nodup
  mem_activated j hj := by
    rw [ha] at hj
    have hji : j ≠ i := fun h => hq.not_mem_activated hold.2 (h ▸ hj)
    rw [hpc, Function.update_of_ne hji]
    exact hq.mem_activated j hj

/-- What holds of every joiner's place, and of the mover's new place, holds after its move. -/
theorem forall_update_of {P : Pc → Prop} (hpc : s'.pc = Function.update s.pc i c) (hc : P c)
    (h : ∀ j, P (s.pc j)) (j : ι) : P (s'.pc j) := by
  rw [hpc]
  by_cases hj : j = i
  · subst hj
    simpa using hc
  · rw [Function.update_of_ne hj]
    exact h j

omit [DecidableEq ι] in
/-- **An acquire**: a `fetch_or` that found `kBusyBit` clear makes its mover the one owner. -/
theorem Lock.of_acquire {p : Party ι} (hlt : s'.flags.toNat < 4)
    (hterm : s'.flags &&& kTerminatedBit ≠ 0 ↔ s'.terminate ≠ .start)
    (hbusy : s'.flags &&& kBusyBit ≠ 0) (hh : ∀ q, Holds s' q ↔ q = p) : Lock s' where
  flags_lt := hlt
  term_iff := hterm
  busy_iff := iff_of_true hbusy ⟨p, (hh p).mpr rfl⟩
  holds_unique q r hq hr := ((hh q).mp hq).trans ((hh r).mp hr).symm

end Frames

/-! ## Every step keeps the invariant -/

section Steps

variable {s : State ι} {i : ι}

omit [DecidableEq ι] in
/-- **`Terminate()`'s `fetch_or`.** It sets both bits. When `kBusyBit` was clear `T` owns the
    lock; otherwise the joiner that owns it keeps it, and `T` spins on. -/
theorem Inv.terminate_fetch_or (hv : Inv s) (hpc : s.terminate = .start ∨ s.terminate = .spin) :
    Inv { s with flags := s.flags ||| (kTerminatedBit ||| kBusyBit),
                 terminate := if s.flags &&& kBusyBit = 0 then .drain else .spin } := by
  obtain ⟨hlt, hterm, hbusy⟩ := or_both hv.flags_lt
  have hT : (if s.flags &&& kBusyBit = 0 then TermPc.drain else .spin) ≠ .start := by
    split <;> simp
  refine
    { toQueue := hv.toQueue.of_eq rfl rfl rfl, toLock := ?_, pushed_before := ?_,
      returned_term := fun _ _ => hT, done_empty := by split <;> simp }
  · by_cases hb : s.flags &&& kBusyBit = 0
    · -- the lock was free: `T` owns it now
      refine Lock.of_acquire (p := .terminator) hlt (iff_of_true hterm hT) hbusy fun q => ?_
      cases q with
      | terminator => simp [Holds, hb]
      | joiner j => exact iff_of_false (hv.not_holds hb (.joiner j)) (by simp)
    · -- a joiner owns the lock and keeps it
      refine hv.toLock.of_holders hlt (iff_of_true hterm hT) (iff_of_false hbusy hb) fun q => ?_
      cases q with
      | terminator => rcases hpc with h | h <;> simp [Holds, hb, h]
      | joiner j => exact Iff.rfl
  · -- a joiner that owns the lock found it before `T` did
    intro i h
    have hb : s.flags &&& kBusyBit ≠ 0 := hv.busy_iff.mpr ⟨.joiner i, holds_joiner (Or.inr h)⟩
    simp [hb]

omit [DecidableEq ι] in
/-- **`pop_front` and `ActivateOther`.** The joiner at the front of the queue leaves it and is
    activated. It is suspended: one that had not released the lock would own it beside `T`. -/
theorem Inv.pop (hv : Inv s) {q : List ι} (hd : s.terminate = .drain)
    (hq : s.waitQueue = i :: q) :
    Inv { s with waitQueue := q, activated := s.activated ++ [i] } := by
  have hnd := List.nodup_cons.mp (hq ▸ hv.queue_nodup)
  have hmem : ∀ j, j ∈ i :: q ↔ (s.pc j = .pushed ∨ s.pc j = .suspended) ∧ j ∉ s.activated :=
    hq ▸ hv.mem_queue
  have hi : s.pc i = .suspended := by
    rcases ((hmem i).mp List.mem_cons_self).1 with h | h
    · exact absurd (holds_joiner (Or.inr (Or.inr h))) (hv.joiner_not_holds hd i)
    · exact h
  refine
    { toLock := hv.toLock.of_flags_eq rfl Iff.rfl fun _ => Iff.rfl,
      pushed_before := hv.pushed_before, returned_term := hv.returned_term,
      done_empty := by simp [hd], queue_nodup := hnd.2, mem_queue := fun j => ?_,
      activated_nodup := ?_, mem_activated := fun j hj => ?_ }
  · simp only [List.mem_append, List.mem_singleton, not_or]
    constructor
    · intro hj
      have hji : j ≠ i := fun h => hnd.1 (h ▸ hj)
      obtain ⟨hpc, hact⟩ := (hmem j).mp (List.mem_cons_of_mem i hj)
      exact ⟨hpc, hact, hji⟩
    · rintro ⟨hpc, hact, hji⟩
      exact (List.mem_cons.mp ((hmem j).mpr ⟨hpc, hact⟩)).resolve_left hji
  · exact hv.activated_nodup.append (List.nodup_singleton i)
      (List.disjoint_singleton.mpr ((hmem i).mp List.mem_cons_self).2)
  · rcases List.mem_append.mp hj with hj | hj
    · exact hv.mem_activated j hj
    · rw [List.mem_singleton.mp hj]
      exact hi

omit [DecidableEq ι] in
/-- **`Terminate()`'s release.** With the queue empty `T` clears `kBusyBit`, and nobody owns
    the lock. -/
theorem Inv.terminate_release (hv : Inv s) (hd : s.terminate = .drain) (hq : s.waitQueue = []) :
    Inv { s with flags := s.flags &&& ~~~kBusyBit, terminate := .done } where
  toLock := hv.toLock.of_release rfl (by simp [hd]) fun p => by
    cases p with
    | terminator => simp [Holds]
    | joiner j => exact hv.joiner_not_holds hd j
  toQueue := hv.toQueue.of_eq rfl rfl rfl
  pushed_before i h := absurd (holds_joiner (Or.inr h)) (hv.joiner_not_holds hd i)
  returned_term _ _ := by simp
  done_empty _ := hq

/-- **`Join()` is called.** -/
theorem Inv.join_call (hv : Inv s) (hpc : s.pc i = .idle) :
    Inv { s with pc := Function.update s.pc i .spin } where
  toLock := hv.toLock.of_flags_eq rfl Iff.rfl (holds_update_of_eq rfl rfl (by rw [hpc]; rfl))
  toQueue := hv.toQueue.of_update rfl rfl rfl (by simp [hpc]) (by simp)
  pushed_before := forall_update_of
    (P := fun c => c = .owner ∨ c = .pushed → s.terminate = .start ∨ s.terminate = .spin)
    rfl (by simp) hv.pushed_before
  returned_term := forall_update_of
    (P := fun c => c = .ownerTerminated ∨ c = .returned → s.terminate ≠ .start)
    rfl (by simp) hv.returned_term
  done_empty := hv.done_empty

/-- **`Join()`'s `fetch_or(kBusyBit)`.** The joiner owns the lock when `kBusyBit` was clear.
    When `kTerminatedBit` was set it is to return, and otherwise to push itself if it owns the
    lock or to spin on. -/
theorem Inv.join_fetch_or (hv : Inv s) (hpc : s.pc i = .spin) :
    Inv { s with flags := s.flags ||| kBusyBit,
                 pc := Function.update s.pc i (afterFetchOr s.flags) } := by
  obtain ⟨hlt, hterm, hbusy⟩ := or_busy hv.flags_lt
  have hterm' : (s.flags ||| kBusyBit) &&& kTerminatedBit ≠ 0 ↔ s.terminate ≠ .start := by
    rw [hterm]
    exact hv.term_iff
  refine
    { toQueue := hv.toQueue.of_update rfl rfl rfl (by simp [hpc]) afterFetchOr_not_queued,
      toLock := ?_,
      pushed_before := forall_update_of
        (P := fun c => c = .owner ∨ c = .pushed → s.terminate = .start ∨ s.terminate = .spin)
        rfl (fun h => Or.inl ?_) hv.pushed_before,
      returned_term := forall_update_of
        (P := fun c => c = .ownerTerminated ∨ c = .returned → s.terminate ≠ .start)
        rfl (fun h => hv.term_iff.mp (afterFetchOr_returns h)) hv.returned_term,
      done_empty := hv.done_empty }
  · by_cases hb : s.flags &&& kBusyBit = 0
    · -- the lock was free: the joiner owns it now
      refine Lock.of_acquire (p := .joiner i) hlt hterm' hbusy fun q =>
        (holds_update (s := s) (i := i) (c := afterFetchOr s.flags) (by rfl) (by rfl) q).trans ?_
      split
      · next hq => simp [hq, afterFetchOr_holds.mpr hb]
      · next hq => exact iff_of_false (hv.not_holds hb q) hq
    · -- somebody else owns it and keeps it
      have hfree : (afterFetchOr s.flags).holds = false :=
        Bool.eq_false_iff.mpr fun h => hb (afterFetchOr_holds.mp h)
      exact hv.toLock.of_holders hlt hterm' (iff_of_false hbusy hb)
        (holds_update_of_eq rfl rfl (by rw [hpc, hfree]; rfl))
  · -- a joiner to push itself saw `kTerminatedBit` clear
    by_contra ht
    exact hv.term_iff.mpr ht (afterFetchOr_owner (h.resolve_right afterFetchOr_not_queued.1))

/-- **The release of a joiner that saw `kTerminatedBit`**, which then returns. -/
theorem Inv.join_release_terminated (hv : Inv s) (hpc : s.pc i = .ownerTerminated) :
    Inv { s with flags := s.flags &&& ~~~kBusyBit, pc := Function.update s.pc i .returned } where
  toLock := hv.toLock.of_release rfl Iff.rfl
    (not_holds_of_release hv.toLock (holds_joiner (Or.inl hpc)) rfl rfl rfl)
  toQueue := hv.toQueue.of_update rfl rfl rfl (by simp [hpc]) (by simp)
  pushed_before := forall_update_of
    (P := fun c => c = .owner ∨ c = .pushed → s.terminate = .start ∨ s.terminate = .spin)
    rfl (by simp) hv.pushed_before
  returned_term := forall_update_of
    (P := fun c => c = .ownerTerminated ∨ c = .returned → s.terminate ≠ .start)
    rfl (fun _ => hv.returned_term i (Or.inl hpc)) hv.returned_term
  done_empty := hv.done_empty

/-- **`wait_queue_.push_front`** by the joiner that owns the lock, before `T` owns it. -/
theorem Inv.join_push (hv : Inv s) (hpc : s.pc i = .owner) :
    Inv { s with waitQueue := i :: s.waitQueue, pc := Function.update s.pc i .pushed } := by
  have hq : i ∉ s.waitQueue := hv.not_mem_queue (by simp [hpc])
  have ha : i ∉ s.activated := hv.not_mem_activated (by simp [hpc])
  have hT := hv.pushed_before i (Or.inl hpc)
  refine
    { toLock := hv.toLock.of_flags_eq rfl Iff.rfl (holds_update_of_eq rfl rfl (by rw [hpc]; rfl)),
      queue_nodup := List.nodup_cons.mpr ⟨hq, hv.queue_nodup⟩, mem_queue := fun j => ?_,
      activated_nodup := hv.activated_nodup, mem_activated := fun j hj => ?_,
      pushed_before := forall_update_of
        (P := fun c => c = .owner ∨ c = .pushed → s.terminate = .start ∨ s.terminate = .spin)
        rfl (fun _ => hT) hv.pushed_before,
      returned_term := forall_update_of
        (P := fun c => c = .ownerTerminated ∨ c = .returned → s.terminate ≠ .start)
        rfl (by simp) hv.returned_term,
      done_empty := fun h => ?_ }
  · by_cases hj : j = i
    · subst hj
      simp [ha]
    · simp [hj, hv.mem_queue j]
  · have hji : j ≠ i := fun h => ha (h ▸ hj)
    simp [Function.update_of_ne hji, hv.mem_activated j hj]
  · rcases hT with h' | h' <;> simp [h'] at h

/-- **The release of a joiner in the queue**, which then suspends. -/
theorem Inv.join_suspend (hv : Inv s) (hpc : s.pc i = .pushed) :
    Inv { s with flags := s.flags &&& ~~~kBusyBit, pc := Function.update s.pc i .suspended } where
  toLock := hv.toLock.of_release rfl Iff.rfl
    (not_holds_of_release hv.toLock (holds_joiner (Or.inr (Or.inr hpc))) rfl rfl rfl)
  queue_nodup := hv.queue_nodup
  mem_queue j := by
    by_cases hj : j = i
    · subst hj
      simp [hv.mem_queue j, hpc]
    · simp [Function.update_of_ne hj, hv.mem_queue j]
  activated_nodup := hv.activated_nodup
  mem_activated j hj := by
    by_cases hji : j = i
    · subst hji
      simp
    · simp [Function.update_of_ne hji, hv.mem_activated j hj]
  pushed_before := forall_update_of
    (P := fun c => c = .owner ∨ c = .pushed → s.terminate = .start ∨ s.terminate = .spin)
    rfl (by simp) hv.pushed_before
  returned_term := forall_update_of
    (P := fun c => c = .ownerTerminated ∨ c = .returned → s.terminate ≠ .start)
    rfl (by simp) hv.returned_term
  done_empty := hv.done_empty

omit [DecidableEq ι] in
theorem Inv.of_terminateStep {s' : State ι} (hv : Inv s) (h : terminateStep s = some s') : Inv s' := by
  rcases terminateStep_cases h with ⟨hpc, rfl⟩ | ⟨i, q, hd, hq, rfl⟩ | ⟨hd, hq, rfl⟩
  · exact hv.terminate_fetch_or hpc
  · exact hv.pop hd hq
  · exact hv.terminate_release hd hq

theorem Inv.of_joinStep {s' : State ι} (hv : Inv s) (h : joinStep s i = some s') : Inv s' := by
  rcases joinStep_cases h with ⟨hpc, rfl⟩ | ⟨hpc, rfl⟩ | ⟨hpc, rfl⟩ | ⟨hpc, rfl⟩ | ⟨hpc, rfl⟩
  · exact hv.join_call hpc
  · exact hv.join_fetch_or hpc
  · exact hv.join_release_terminated hpc
  · exact hv.join_push hpc
  · exact hv.join_suspend hpc

theorem Inv.of_step {s' : State ι} {p : Party ι} (hv : Inv s) (h : step s p = some s') :
    Inv s' := by
  cases p with
  | terminator => exact hv.of_terminateStep h
  | joiner i => exact hv.of_joinStep h

/-- Every reachable state satisfies the invariant. -/
theorem Inv.reachable (h : Trans.Reachable step init s) : Inv s :=
  Trans.Reachable.invariant Inv (fun _ _ _ hv h => hv.of_step h) h Inv.of_init

theorem Inv.of_run {s' : State ι} {as : List (Party ι)} (hv : Inv s)
    (h : Trans.run step s as = some s') : Inv s' :=
  Trans.Reachable.invariant Inv (fun _ _ _ hv h => hv.of_step h) (Trans.reachable_of_run as h) hv

end Steps

/-! ## The lock changes hands only by acquire and release -/

section Lock

variable {s s' : State ι} {p : Party ι}

/-- **Who can clear `kBusyBit`**: only its owner, and then nobody owns the lock. -/
theorem Inv.step_release (hv : Inv s) (h : step s p = some s') (hb : s.flags &&& kBusyBit ≠ 0)
    (hb' : s'.flags &&& kBusyBit = 0) : Holds s p ∧ ∀ q, ¬Holds s' q := by
  refine ⟨?_, (hv.of_step h).not_holds hb'⟩
  cases p with
  | terminator =>
    rcases terminateStep_cases h with ⟨-, rfl⟩ | ⟨_, _, -, -, rfl⟩ | ⟨hd, -, rfl⟩
    · exact absurd hb' (or_both hv.flags_lt).2.2
    · exact absurd hb' hb
    · exact hd
  | joiner i =>
    rcases joinStep_cases h with ⟨-, rfl⟩ | ⟨-, rfl⟩ | ⟨hpc, rfl⟩ | ⟨-, rfl⟩ | ⟨hpc, rfl⟩
    · exact absurd hb' hb
    · exact absurd hb' (or_busy hv.flags_lt).2.2
    · exact holds_joiner (Or.inl hpc)
    · exact absurd hb' hb
    · exact holds_joiner (Or.inr (Or.inr hpc))

/-- **Who can set `kBusyBit`**: a `fetch_or` that found it clear, whose mover then owns the
    lock. -/
theorem Inv.step_acquire (hv : Inv s) (h : step s p = some s') (hb : s.flags &&& kBusyBit = 0)
    (hb' : s'.flags &&& kBusyBit ≠ 0) : Holds s' p := by
  cases p with
  | terminator =>
    rcases terminateStep_cases h with ⟨-, rfl⟩ | ⟨_, _, -, -, rfl⟩ | ⟨-, -, rfl⟩
    · simp [Holds, hb]
    · exact absurd hb hb'
    · exact absurd (and_not_busy hv.flags_lt).2.2 hb'
  | joiner i =>
    rcases joinStep_cases h with ⟨-, rfl⟩ | ⟨-, rfl⟩ | ⟨-, rfl⟩ | ⟨-, rfl⟩ | ⟨-, rfl⟩
    · exact absurd hb hb'
    · simpa [Holds] using afterFetchOr_holds.mpr hb
    · exact absurd (and_not_busy hv.flags_lt).2.2 hb'
    · exact absurd hb hb'
    · exact absurd (and_not_busy hv.flags_lt).2.2 hb'

/-- A joiner's step leaves `Terminate()` where it is and moves the joiner only. -/
theorem joinStep_frame {i : ι} (h : joinStep s i = some s') :
    s'.terminate = s.terminate ∧ ∃ c, s'.pc = Function.update s.pc i c := by
  rcases joinStep_cases h with ⟨-, rfl⟩ | ⟨-, rfl⟩ | ⟨-, rfl⟩ | ⟨-, rfl⟩ | ⟨-, rfl⟩ <;>
    exact ⟨rfl, _, rfl⟩

/-- A step changes who owns the lock only for its mover. -/
theorem step_holds_ne (h : step s p = some s') {q : Party ι} (hq : q ≠ p) :
    Holds s' q ↔ Holds s q := by
  cases p with
  | terminator =>
    cases q with
    | terminator => exact absurd rfl hq
    | joiner j =>
      rcases terminateStep_cases h with ⟨-, rfl⟩ | ⟨_, _, -, -, rfl⟩ | ⟨-, -, rfl⟩ <;> exact Iff.rfl
  | joiner i =>
    obtain ⟨ht, c, hpc⟩ := joinStep_frame h
    rw [holds_update ht hpc, if_neg hq]

/-- **Only a push grows the queue**: by the joiner that owns the lock, before `T` owns it. -/
theorem Inv.step_push (hv : Inv s) (h : step s p = some s')
    (hlen : s.waitQueue.length < s'.waitQueue.length) :
    ∃ i, p = .joiner i ∧ s'.waitQueue = i :: s.waitQueue ∧ Holds s p ∧
      (s.terminate = .start ∨ s.terminate = .spin) := by
  cases p with
  | terminator =>
    rcases terminateStep_cases h with ⟨-, rfl⟩ | ⟨_, _, -, hq, rfl⟩ | ⟨-, -, rfl⟩
    · exact absurd hlen (lt_irrefl _)
    · simp only [hq, List.length_cons] at hlen
      omega
    · exact absurd hlen (lt_irrefl _)
  | joiner i =>
    rcases joinStep_cases h with ⟨-, rfl⟩ | ⟨-, rfl⟩ | ⟨-, rfl⟩ | ⟨hpc, rfl⟩ | ⟨-, rfl⟩
    · exact absurd hlen (lt_irrefl _)
    · exact absurd hlen (lt_irrefl _)
    · exact absurd hlen (lt_irrefl _)
    · exact ⟨i, rfl, rfl, holds_joiner (Or.inr (Or.inl hpc)), hv.pushed_before i (Or.inl hpc)⟩
    · exact absurd hlen (lt_irrefl _)

end Lock

/-! ## The owner releases the lock -/

section Release

variable {s : State ι}

omit [DecidableEq ι] in
theorem terminateStep_pop {i : ι} {q : List ι} (hd : s.terminate = .drain)
    (hq : s.waitQueue = i :: q) :
    terminateStep s = some { s with waitQueue := q, activated := s.activated ++ [i] } := by
  simp [terminateStep, hd, hq]

omit [DecidableEq ι] in
theorem terminateStep_release (hd : s.terminate = .drain) (hq : s.waitQueue = []) :
    terminateStep s = some { s with flags := s.flags &&& ~~~kBusyBit, terminate := .done } := by
  simp [terminateStep, hd, hq]

/-- **`Terminate()` drains the queue.** Once `T` owns the lock, `n + 1` steps of `T` alone,
    `n` being the length of the queue, activate its joiners front to back and release the
    lock. The induction is on `n`, each pop keeping the invariant and `T` draining. -/
theorem Inv.drain_run : ∀ (n : ℕ) (s : State ι), Inv s → s.terminate = .drain →
    s.waitQueue.length = n →
    ∃ s', Trans.run step s (List.replicate (n + 1) .terminator) = some s' ∧
      s'.terminate = .done ∧ s'.activated = s.activated ++ s.waitQueue ∧
      s'.flags &&& kBusyBit = 0
  | 0, s, hv, hd, hn => by
    have hq : s.waitQueue = [] := List.eq_nil_of_length_eq_zero hn
    refine ⟨{ s with flags := s.flags &&& ~~~kBusyBit, terminate := .done }, ?_, rfl,
      by simp [hq], (and_not_busy hv.flags_lt).2.2⟩
    simp [step, terminateStep_release hd hq]
  | n + 1, s, hv, hd, hn => by
    obtain ⟨i, q, hq⟩ := List.exists_cons_of_length_eq_add_one hn
    obtain ⟨s', hrun, hdone, hact, hb⟩ :=
      Inv.drain_run n _ (hv.pop hd hq) hd (by simpa [hq] using hn)
    refine ⟨s', ?_, hdone, ?_, hb⟩
    · rw [List.replicate_succ, Trans.run_cons]
      simpa [step, terminateStep_pop hd hq] using hrun
    · rw [hact, hq]
      simp

/-- **The owner releases the lock by its own steps**: a joiner at once or after pushing
    itself, and `T` after draining the queue. -/
theorem Inv.holder_releases (hv : Inv s) {p : Party ι} (hp : Holds s p) :
    ∃ n s', Trans.run step s (List.replicate n p) = some s' ∧ s'.flags &&& kBusyBit = 0 ∧
      ∀ q, ¬Holds s' q := by
  suffices h : ∃ n s', Trans.run step s (List.replicate n p) = some s' ∧
      s'.flags &&& kBusyBit = 0 by
    obtain ⟨n, s', hrun, hb⟩ := h
    exact ⟨n, s', hrun, hb, (hv.of_run hrun).not_holds hb⟩
  cases p with
  | terminator =>
    obtain ⟨s', hrun, -, -, hb⟩ := hv.drain_run _ s hp rfl
    exact ⟨_, s', hrun, hb⟩
  | joiner i =>
    have hpc : s.pc i = .ownerTerminated ∨ s.pc i = .owner ∨ s.pc i = .pushed := by
      simp only [Holds] at hp
      cases h : s.pc i <;> simp_all [Pc.holds]
    rcases hpc with hpc | hpc | hpc
    · exact ⟨1, { s with flags := s.flags &&& ~~~kBusyBit, pc := Function.update s.pc i .returned },
        by simp [step, joinStep, hpc], (and_not_busy hv.flags_lt).2.2⟩
    · -- push, then release
      exact ⟨2, { s with flags := s.flags &&& ~~~kBusyBit, waitQueue := i :: s.waitQueue,
                         pc := Function.update s.pc i .suspended },
        by simp [step, joinStep, hpc], (and_not_busy hv.flags_lt).2.2⟩
    · exact ⟨1, { s with flags := s.flags &&& ~~~kBusyBit, pc := Function.update s.pc i .suspended },
        by simp [step, joinStep, hpc], (and_not_busy hv.flags_lt).2.2⟩

/-- Once `T` is done, every suspended joiner has been activated exactly once. -/
theorem Inv.count_activated (hv : Inv s) (hd : s.terminate = .done) {i : ι}
    (hi : s.pc i = .suspended) : s.activated.count i = 1 := by
  have hmem : i ∈ s.activated := by
    by_contra hna
    have hq := (hv.mem_queue i).mpr ⟨Or.inr hi, hna⟩
    rw [hv.done_empty hd] at hq
    exact List.not_mem_nil hq
  exact List.count_eq_one_of_mem hv.activated_nodup hmem

end Release

/-! ## No joiner is stranded -/

/-- **No joiner is stranded.** In every state that an interleaving of `Terminate()` with any
    number of `Join()` calls reaches:
    * `kBusyBit` is set exactly while one party owns it, and at most one does;
    * a joiner that is to return or has returned saw `kTerminatedBit`. A joiner that is to push
      itself, or is in the queue still owning the lock, owns it while `T` does not. Every step
      that grows the queue is such a push;
    * a suspended joiner is in the queue until it is activated. It is activated at most once,
      and only suspended joiners are activated;
    * once `T` has released the lock, the queue is empty and every suspended joiner has been
      activated exactly once;
    * only the owner clears `kBusyBit`, and then nobody owns it. A step that sets it makes its
      mover the owner. No step changes what another party owns, and the owner's own steps
      release it. -/
theorem join_never_strands {s : State ι} (h : Trans.Reachable step init s) :
    (s.flags &&& kBusyBit ≠ 0 ↔ ∃ p, Holds s p) ∧ (∀ p q, Holds s p → Holds s q → p = q) ∧
    (∀ i, s.pc i = .ownerTerminated ∨ s.pc i = .returned → s.flags &&& kTerminatedBit ≠ 0) ∧
    (∀ i, s.pc i = .owner ∨ s.pc i = .pushed →
      Holds s (.joiner i) ∧ (s.terminate = .start ∨ s.terminate = .spin)) ∧
    (∀ p s', step s p = some s' → s.waitQueue.length < s'.waitQueue.length →
      ∃ i, p = .joiner i ∧ s'.waitQueue = i :: s.waitQueue ∧ Holds s p ∧
        (s.terminate = .start ∨ s.terminate = .spin)) ∧
    (∀ i, s.pc i = .suspended → (i ∈ s.waitQueue ↔ i ∉ s.activated)) ∧
    s.activated.Nodup ∧ (∀ i ∈ s.activated, s.pc i = .suspended) ∧
    (s.terminate = .done →
      s.waitQueue = [] ∧ ∀ i, s.pc i = .suspended → s.activated.count i = 1) ∧
    (∀ p s', step s p = some s' →
      (s.flags &&& kBusyBit ≠ 0 → s'.flags &&& kBusyBit = 0 → Holds s p ∧ ∀ q, ¬Holds s' q) ∧
      (s.flags &&& kBusyBit = 0 → s'.flags &&& kBusyBit ≠ 0 → Holds s' p) ∧
      (∀ q, q ≠ p → (Holds s' q ↔ Holds s q))) ∧
    (∀ p, Holds s p → ∃ n s', Trans.run step s (List.replicate n p) = some s' ∧
      s'.flags &&& kBusyBit = 0 ∧ ∀ q, ¬Holds s' q) := by
  have hv := Inv.reachable h
  refine ⟨hv.busy_iff, hv.holds_unique, fun i hi => hv.term_iff.mpr (hv.returned_term i hi),
    fun i hi => ⟨holds_joiner (Or.inr hi), hv.pushed_before i hi⟩,
    fun p s' hs hlen => hv.step_push hs hlen, fun i hi => ?_, hv.activated_nodup,
    hv.mem_activated, fun hd => ⟨hv.done_empty hd, fun i hi => hv.count_activated hd hi⟩,
    fun p s' hs => ⟨hv.step_release hs, hv.step_acquire hs, fun q hq => step_holds_ne hs hq⟩,
    fun p hp => hv.holder_releases hp⟩
  rw [hv.mem_queue i]
  simp [hi]

/-- Two calls of `Join()`: the first suspends before `T` runs, `T` activates it, and the
    second, made after `T` is done, returns. The state it ends in is reachable, and
    `join_never_strands` holds of it. -/
theorem join_never_strands_two_calls :
    ∃ s : State (Fin 2), Trans.Reachable step init s ∧ s.terminate = .done ∧
      s.activated = [0] ∧ s.pc 1 = .returned ∧
    (s.flags &&& kBusyBit ≠ 0 ↔ ∃ p, Holds s p) ∧ (∀ p q, Holds s p → Holds s q → p = q) ∧
    (∀ i, s.pc i = .ownerTerminated ∨ s.pc i = .returned → s.flags &&& kTerminatedBit ≠ 0) ∧
    (∀ i, s.pc i = .owner ∨ s.pc i = .pushed →
      Holds s (.joiner i) ∧ (s.terminate = .start ∨ s.terminate = .spin)) ∧
    (∀ p s', step s p = some s' → s.waitQueue.length < s'.waitQueue.length →
      ∃ i, p = .joiner i ∧ s'.waitQueue = i :: s.waitQueue ∧ Holds s p ∧
        (s.terminate = .start ∨ s.terminate = .spin)) ∧
    (∀ i, s.pc i = .suspended → (i ∈ s.waitQueue ↔ i ∉ s.activated)) ∧
    s.activated.Nodup ∧ (∀ i ∈ s.activated, s.pc i = .suspended) ∧
    (s.terminate = .done →
      s.waitQueue = [] ∧ ∀ i, s.pc i = .suspended → s.activated.count i = 1) ∧
    (∀ p s', step s p = some s' →
      (s.flags &&& kBusyBit ≠ 0 → s'.flags &&& kBusyBit = 0 → Holds s p ∧ ∀ q, ¬Holds s' q) ∧
      (s.flags &&& kBusyBit = 0 → s'.flags &&& kBusyBit ≠ 0 → Holds s' p) ∧
      (∀ q, q ≠ p → (Holds s' q ↔ Holds s q))) ∧
    (∀ p, Holds s p → ∃ n s', Trans.run step s (List.replicate n p) = some s' ∧
      s'.flags &&& kBusyBit = 0 ∧ ∀ q, ¬Holds s' q) := by
  obtain ⟨s, hs, hend⟩ := @Trans.exists_reachable_of_run _ _ step (init : State (Fin 2))
    [.joiner 0, .joiner 0, .joiner 0, .joiner 0, .terminator, .terminator, .terminator,
      .joiner 1, .joiner 1, .joiner 1]
    (fun s => s.terminate == .done && s.activated == [0] && s.pc 1 == .returned) (by decide)
  simp only [Bool.and_eq_true, beq_iff_eq] at hend
  exact ⟨s, hs, hend.1.1, hend.1.2, hend.2, join_never_strands hs⟩

end Join

end Helio
