import Helio.Fibers.Periodic.Base
import Helio.Fibers.Completion

/-!
# Periodic tasks on `EpollProactor`

`EpollProactor::SchedulePeriodic(id, item)` (`util/fibers/epoll_proactor.cc`) creates a timer
descriptor `tfd`, stores it in `item->val1`, and arms it under a `centries_` entry whose
callback is `PeriodicCb(item)`; `item->val2` is the entry. `PeriodicCb` deletes an item out of
the map, and otherwise runs the task and reads the descriptor.
`CancelPeriodicInternal(tfd, arm_id)` runs the entry's callback one last time, so the item
is deleted there, clears the entry, then `Disarm`s it and closes `tfd`. Unlike
`UringProactor`, which waits for the kernel, the cancellation is synchronous.

The state holds the table of `Helio.Completion.Epoll` and the descriptors registered with
epoll, each with the entry it was armed under. `timerfd_create` returns a descriptor that is
not open, and the kernel reports a registered descriptor as readable at any time. Fibers
call `AddPeriodic` and `CancelPeriodic` between two batches of events. The period is read
only by the kernel, which the model lets report readiness whenever it likes.

`Inv` says that every live item is in the map, its entry holds its callback, and its
descriptor is registered under that entry; that every armed entry belongs to a live item;
and that the descriptors are distinct. From it, `epoll_periodic_kept` gives the proactor's
half of the periodic-task contract, in which a cancelled item is deleted at once.
-/

set_option autoImplicit false

namespace Helio

namespace Periodic

namespace EpollProactor

open Completion Trace

/-- The proactor's periodic tasks: `centries_`, whose callbacks are `PeriodicCb(item)` of an
    item's address, and the descriptors registered with epoll, each with its entry. -/
structure State (T : Type) extends Base T where
  centries : Table ℕ
  registered : List (ℕ × ℕ)

variable {T : Type}

/-- A proactor before its first `AddPeriodic`. -/
def init : State T := ⟨Base.init, Epoll.init, []⟩

/-- `SchedulePeriodic(id, item)` with the descriptor `tfd` that `timerfd_create` returned:
    `item->val1 = tfd`, then `Arm` of `PeriodicCb(item)`, whose entry is `item->val2`. -/
def schedulePeriodic (s : State T) (p tfd : ℕ) : Option (State T) := do
  let (t, armId) ← Epoll.arm s.centries p
  let b ← s.toBase.setItem p fun it => { it with val1 := tfd, val2 := armId }
  some { s with toBase := b, centries := t, registered := s.registered ++ [(tfd, armId)] }

/-- `AddPeriodic(ms, f)`. -/
def addPeriodic (s : State T) (ms : ℕ) (f : T) (tfd : ℕ) : Option (State T) := do
  let (b, _, p) ← s.toBase.addPeriodic ms f
  schedulePeriodic { s with toBase := b } p tfd

/-- `PeriodicCb(item)`. -/
def periodicCb (s : State T) (p : ℕ) : Option (State T) :=
  match s.items p with
  -- `item->in_map` reads a deleted item
  | none => none
  | some it =>
    if it.inMap = false then (s.toBase.delete p).map fun b => { s with toBase := b }
    -- `item->task()`, then a `read` of `val1` whose failure is only logged
    else (s.toBase.runTask p).map fun b => { s with toBase := b }

/-- `CancelPeriodicInternal(tfd, arm_id)`: the entry's callback one last time, then `Disarm`,
    whose `CHECK_EQ(0, epoll_ctl(.., EPOLL_CTL_DEL, fd, ..))` needs `tfd` registered, and
    `close(tfd)`. -/
def cancelPeriodicInternal (s : State T) (tfd armId : ℕ) : Option (State T) := do
  let (t, cb) ← Epoll.cancelPeriodicInternal s.centries armId
  let s₁ ← match cb with
    | some p => periodicCb { s with centries := t } p
    | none => some { s with centries := t }
  if tfd ∈ s₁.registered.map Prod.fst then
    some { s₁ with registered := s₁.registered.filter fun r => r.1 ≠ tfd }
  else none

/-- `CancelPeriodic(id)`. -/
def cancelPeriodic (s : State T) (id : ℕ) : Option (State T) := do
  let (b, _, val1, val2) ← s.toBase.cancelPeriodic id
  cancelPeriodicInternal { s with toBase := b } val1 val2

/-- One event of `DispatchCompletions`: the descriptor registered under `armId` is
    readable. -/
def expire (s : State T) (armId : ℕ) : Option (State T) :=
  match Epoll.dispatchCompletion s.centries (armId + kUserDataCbIndex) with
  | some (some p) => periodicCb s p
  | some none => some s
  | none => none

/-- What a fiber or the kernel does next. -/
inductive Op (T : Type) where
  | addPeriodic (ms : ℕ) (f : T) (tfd : ℕ)
  | cancelPeriodic (id : ℕ)
  | expire (armId : ℕ)

/-- The state a step leaves. -/
def exec (s : State T) : Op T → Option (State T)
  | .addPeriodic ms f tfd => addPeriodic s ms f tfd
  | .cancelPeriodic id => cancelPeriodic s id
  | .expire armId => expire s armId

/-- The calls of the contract: `CancelPeriodic` of an id in the map, and `AddPeriodic` while
    `next_task_id_` is no id of the map and fewer than `2 ^ 31` entries are armed. -/
def Op.allowed (s : State T) : Op T → Bool
  | .addPeriodic _ _ _ =>
    decide (s.periodicMap s.nextTaskId = none) && decide (s.centries.outstanding < 2 ^ 31)
  | .cancelPeriodic id => (s.periodicMap id).isSome
  | .expire _ => true

/-- What the kernel allows: `timerfd_create` returns a descriptor that is not registered,
    and only a registered descriptor is reported. -/
def Op.enabled (s : State T) : Op T → Bool
  | .addPeriodic _ _ tfd => decide (tfd ∉ s.registered.map Prod.fst)
  | .cancelPeriodic _ => true
  | .expire armId => decide (armId ∈ s.registered.map Prod.snd)

/-- The runs of the contract. -/
def step (s : State T) (op : Op T) : Option (State T) :=
  if op.allowed s && op.enabled s then exec s op else none

/-! ## The invariant -/

/-- **What each item owns.** A live item is in the map, its entry `val2` holds its callback,
    and its descriptor `val1` is registered under that entry; an armed entry and a registered
    descriptor belong to a live item; no descriptor is registered twice. -/
structure Inv (s : State T) : Prop where
  ledger : s.toBase.Ledger
  centries : s.centries.Inv
  live : ∀ p it, s.items p = some it →
    it.inMap = true ∧ s.centries.table it.val2 = some p ∧ (it.val1, it.val2) ∈ s.registered
  armed : ∀ a p, s.centries.table a = some p → ∃ it, s.items p = some it ∧ it.val2 = a
  registered_live : ∀ fd a, (fd, a) ∈ s.registered →
    ∃ p it, s.items p = some it ∧ it.val1 = fd ∧ it.val2 = a
  fd_nodup : (s.registered.map Prod.fst).Nodup

theorem Inv.of_init : Inv (init : State T) where
  ledger := Base.Ledger.of_init
  centries := Table.Inv.of_create (k := 9) (by omega) toInt32 Epoll.toInt32_wrap
  live := by simp [init, Base.init]
  armed a p h := by
    simp only [init, Epoll.init, Table.table, Table.create] at h
    by_cases ha : a < 512 <;> simp [ha] at h
  registered_live := by simp [init]
  fd_nodup := List.nodup_nil

variable {s s' : State T}

/-- Two descriptors registered under the entries of two items are the same only for the same
    item. -/
theorem Inv.val2_of_val1 (hv : Inv s) {p q : ℕ} {it it' : PeriodicItem T}
    (hp : s.items p = some it) (hq : s.items q = some it') (h : it'.val1 = it.val1) :
    it'.val2 = it.val2 := by
  have h₁ := (hv.live p it hp).2.2
  have h₂ := (hv.live q it' hq).2.2
  rw [h] at h₂
  exact (List.inj_on_of_nodup_map hv.fd_nodup h₂ h₁ rfl |> Prod.mk.inj).2

/-- An armed entry holds the callback of one item only. -/
theorem Inv.item_of_table (hv : Inv s) {p q : ℕ} {it : PeriodicItem T} (hp : s.items p = some it)
    (hq : s.centries.table it.val2 = some q) : q = p := by
  rw [(hv.live p it hp).2.1, Option.some.injEq] at hq
  exact hq.symm

/-! ## `AddPeriodic` -/

section Add

theorem addPeriodic_eq {ms : ℕ} {f : T} {tfd : ℕ} {b : Base T} {id p a : ℕ} {t : Table ℕ}
    (h : s.toBase.addPeriodic ms f = some (b, id, p)) (harm : Epoll.arm s.centries p = some (t, a)) :
    addPeriodic s ms f tfd = some { s with
      toBase := { b with
        items := Function.update b.items p
          (some ⟨f, (ms / 1000, ms % 1000 * 1000000), tfd, a, true⟩) }
      centries := t
      registered := s.registered ++ [(tfd, a)] } := by
  obtain ⟨-, -, rfl, rfl⟩ := Base.addPeriodic_eq h
  simp [addPeriodic, h, schedulePeriodic, harm, Base.setItem]

/-- **`AddPeriodic`** arms a free entry for the new item and registers a descriptor that was
    not. -/
theorem Inv.add_next (hv : Inv s) {ms : ℕ} {f : T} {tfd : ℕ} {b : Base T} {id p a : ℕ}
    {t : Table ℕ} (h : s.toBase.addPeriodic ms f = some (b, id, p))
    (harm : Epoll.arm s.centries p = some (t, a)) (hfree : s.centries.table a = none)
    (htable : t.table = Function.update s.centries.table a (some p)) (ht : t.Inv)
    (hfd : tfd ∉ s.registered.map Prod.fst) (hs : addPeriodic s ms f tfd = some s') : Inv s' := by
  have hl₁ := hv.ledger.addPeriodic h
  rw [addPeriodic_eq h harm, Option.some.injEq] at hs
  subst hs
  obtain ⟨-, -, rfl, rfl⟩ := Base.addPeriodic_eq h
  -- the new item's address was fresh
  have hnew : s.items s.nextItem = none := hv.ledger.items_fresh (Nat.le_refl _)
  have hold : ∀ q it, s.items q = some it → q ≠ s.nextItem := fun q it hq h => by
    rw [h, hnew] at hq
    cases hq
  constructor <;> dsimp only
  · exact hl₁.setItem (p := s.nextItem)
      (f := fun it => { it with val1 := tfd, val2 := a }) (fun _ => rfl) (by simp [Base.setItem])
  · exact ht
  · intro q it hq
    by_cases hqp : q = s.nextItem
    · subst hqp
      simp only [Function.update_self, Option.some.injEq] at hq
      subst hq
      simp [htable]
    · simp only [Function.update_of_ne hqp] at hq
      obtain ⟨hin, hta, hreg⟩ := hv.live q it hq
      have hne : it.val2 ≠ a := fun h => by rw [h, hfree] at hta; cases hta
      exact ⟨hin, by rw [htable, Function.update_of_ne hne]; exact hta,
        List.mem_append_left _ hreg⟩
  · intro a' q hq
    rw [htable] at hq
    by_cases ha : a' = a
    · subst ha
      simp only [Function.update_self, Option.some.injEq] at hq
      subst hq
      simp
    · rw [Function.update_of_ne ha] at hq
      obtain ⟨it, hit, hval⟩ := hv.armed a' q hq
      exact ⟨it, by simp [Function.update_of_ne (hold q it hit), hit], hval⟩
  · intro fd a' hr
    rcases List.mem_append.mp hr with hr | hr
    · obtain ⟨q, it, hit, h1, h2⟩ := hv.registered_live fd a' hr
      exact ⟨q, it, by simp [Function.update_of_ne (hold q it hit), hit], h1, h2⟩
    · rw [List.mem_singleton, Prod.mk.injEq] at hr
      obtain ⟨rfl, rfl⟩ := hr
      exact ⟨s.nextItem, _, Function.update_self _ _ _, rfl, rfl⟩
  · rw [List.map_append, List.map_singleton, List.nodup_append]
    exact ⟨hv.fd_nodup, List.nodup_singleton _, fun x hx y hy hxy => hfd (by
      rw [List.mem_singleton] at hy
      rwa [hxy, hy] at hx)⟩

end Add

/-! ## `CancelPeriodic` -/

section Cancel

/-- **`CancelPeriodic`** of an id in the map, spelled out: the entry's callback deletes the
    item, the entry is released, and the item's descriptor is unregistered. -/
theorem cancelPeriodic_eq (hv : Inv s) {id p : ℕ} {it : PeriodicItem T}
    (hmap : s.periodicMap id = some p) (hit : s.items p = some it) :
    cancelPeriodic s id = some { s with
      toBase := { s.toBase with
        periodicMap := Function.update s.periodicMap id none
        items := Function.update s.items p none
        log := s.log ++ [.cancelled id p, .deleted p] }
      centries := s.centries.free it.val2
      registered := s.registered.filter fun r => r.1 ≠ it.val1 } := by
  obtain ⟨-, hta, hreg⟩ := hv.live p it hit
  obtain ⟨hlt, hcb⟩ := Table.table_eq_some hta
  have hfd : it.val1 ∈ s.registered.map Prod.fst := List.mem_map_of_mem hreg
  simp [cancelPeriodic, Base.cancelPeriodic, hmap, hit, cancelPeriodicInternal,
    Epoll.cancelPeriodicInternal_eq hlt, hcb, periodicCb, Base.delete, hfd]

/-- **`CancelPeriodic` keeps the invariant**: the item deleted and its descriptor gone, what
    is left belongs to other items. -/
theorem Inv.cancel_next (hv : Inv s) {id p : ℕ} {it : PeriodicItem T}
    (hmap : s.periodicMap id = some p) (hit : s.items p = some it)
    (hs : cancelPeriodic s id = some s') : Inv s' := by
  rw [cancelPeriodic_eq hv hmap hit, Option.some.injEq] at hs
  subst hs
  obtain ⟨-, hta, -⟩ := hv.live p it hit
  obtain ⟨htable, -, ht⟩ := hv.centries.free hta
  -- the ledger goes through the cancellation, then the deletion
  have hc : s.toBase.cancelPeriodic id = some ({ s.toBase with
      periodicMap := Function.update s.periodicMap id none
      items := Function.update s.items p (some { it with inMap := false })
      log := s.log ++ [.cancelled id p] }, p, it.val1, it.val2) := by
    simp [Base.cancelPeriodic, hmap, hit]
  have hdel : Base.delete { s.toBase with
      periodicMap := Function.update s.periodicMap id none
      items := Function.update s.items p (some { it with inMap := false })
      log := s.log ++ [.cancelled id p] } p = some { s.toBase with
        periodicMap := Function.update s.periodicMap id none
        items := Function.update s.items p none
        log := s.log ++ [.cancelled id p, .deleted p] } := by
    simp [Base.delete]
  constructor <;> dsimp only
  · exact (hv.ledger.cancelPeriodic hc).delete
      (Function.update_self p (some { it with inMap := false }) s.items) rfl hdel
  · exact ht
  · intro q it' hq
    have hqp : q ≠ p := fun h => by simp [h] at hq
    simp only [Function.update_of_ne hqp] at hq
    obtain ⟨hin, hta', hreg⟩ := hv.live q it' hq
    have hne : it'.val2 ≠ it.val2 := fun h => hqp (hv.item_of_table hit (h ▸ hta'))
    have hfd : it'.val1 ≠ it.val1 := fun h => hne (hv.val2_of_val1 hit hq h)
    refine ⟨hin, by rw [htable, Function.update_of_ne hne]; exact hta', ?_⟩
    exact List.mem_filter.mpr ⟨hreg, by simpa using hfd⟩
  · intro a q hq
    rw [htable] at hq
    have ha : a ≠ it.val2 := fun h => by simp [h] at hq
    rw [Function.update_of_ne ha] at hq
    obtain ⟨it', hit', hval⟩ := hv.armed a q hq
    have hqp : q ≠ p := fun h => by
      rw [h, hit, Option.some.injEq] at hit'
      exact ha (hit' ▸ hval.symm)
    exact ⟨it', by simp [Function.update_of_ne hqp, hit'], hval⟩
  · intro fd a hr
    obtain ⟨hr, hne⟩ := List.mem_filter.mp hr
    obtain ⟨q, it', hit', h1, h2⟩ := hv.registered_live fd a hr
    have hqp : q ≠ p := fun h => by
      rw [h, hit, Option.some.injEq] at hit'
      subst hit'
      simp [h1] at hne
    exact ⟨q, it', by simp [Function.update_of_ne hqp, hit'], h1, h2⟩
  · exact hv.fd_nodup.sublist (List.filter_sublist.map Prod.fst)

end Cancel

/-! ## An event -/

section Expire

/-- **A registered descriptor is readable**: its entry's callback runs the task of its item,
    which is in the map. -/
theorem expire_eq (hv : Inv s) {fd a : ℕ} (hr : (fd, a) ∈ s.registered) :
    ∃ p, expire s a = some { s with toBase := { s.toBase with log := s.log ++ [.ran p] } } ∧
      ∃ it, s.items p = some it ∧ it.inMap = true := by
  obtain ⟨p, it, hit, -, rfl⟩ := hv.registered_live fd a hr
  obtain ⟨hin, hta, -⟩ := hv.live p it hit
  obtain ⟨hlt, -⟩ := Table.table_eq_some hta
  refine ⟨p, ?_, ⟨it, hit, hin⟩⟩
  unfold expire
  rw [Epoll.dispatchCompletion_eq hlt]
  simp only [hta]
  unfold periodicCb
  simp only [hit, hin, Base.runTask, Bool.true_eq_false, if_false, Option.map_some]

theorem Inv.expire_next (hv : Inv s) {a : ℕ} (ha : a ∈ s.registered.map Prod.snd)
    (hs : expire s a = some s') : Inv s' := by
  obtain ⟨⟨fd, a'⟩, hr, rfl⟩ := List.mem_map.mp ha
  obtain ⟨p, he, it, hit, hin⟩ := expire_eq hv hr
  rw [he, Option.some.injEq] at hs
  subst hs
  exact { hv with ledger := hv.ledger.runTask hit hin (by simp [Base.runTask, hit]) }

end Expire

/-! ## Every step -/

/-- **Every step of the contract keeps the invariant.** -/
theorem Inv.next (hv : Inv s) {op : Op T} (h : step s op = some s') : Inv s' := by
  unfold step at h
  split at h
  · next hok =>
    rw [Bool.and_eq_true] at hok
    obtain ⟨hal, hen⟩ := hok
    cases op with
    | addPeriodic ms f tfd =>
      simp only [Op.allowed, Bool.and_eq_true, decide_eq_true_eq] at hal
      simp only [Op.enabled, decide_eq_true_eq] at hen
      obtain ⟨b, id, p, hadd⟩ : ∃ b id p, s.toBase.addPeriodic ms f = some (b, id, p) := by
        simp [Base.addPeriodic, hal.1]
      obtain ⟨t, a, harm, hfree, htable, -, ht⟩ := Epoll.arm_spec hv.centries hal.2 p
      exact hv.add_next hadd harm hfree htable ht hen h
    | cancelPeriodic id =>
      simp only [Op.allowed, Option.isSome_iff_exists] at hal
      obtain ⟨p, hmap⟩ := hal
      obtain ⟨it, hit⟩ := Option.ne_none_iff_exists'.mp (hv.ledger.items_of_map hmap)
      exact hv.cancel_next hmap hit h
    | expire a =>
      simp only [Op.enabled, decide_eq_true_eq] at hen
      exact hv.expire_next hen h
  · cases h

/-- **The invariant holds of every reachable state.** -/
theorem Inv.reachable (h : Trans.Reachable step init s) : Inv s :=
  Trans.Reachable.invariant Inv (fun _ _ _ hv hs => hv.next hs) h Inv.of_init

/-! ## The contract on `EpollProactor` -/

theorem step_addPeriodic {ms : ℕ} {f : T} {tfd : ℕ} (hfree : s.periodicMap s.nextTaskId = none)
    (hlt : s.centries.outstanding < 2 ^ 31) (hfd : tfd ∉ s.registered.map Prod.fst) :
    step s (.addPeriodic ms f tfd) = addPeriodic s ms f tfd := by
  have hlt' : s.centries.outstanding < 2147483648 := hlt
  simp [step, Op.allowed, Op.enabled, exec, hfree, hlt', hfd]

theorem step_cancelPeriodic {id p : ℕ} (hmap : s.periodicMap id = some p) :
    step s (.cancelPeriodic id) = cancelPeriodic s id := by
  simp [step, Op.allowed, Op.enabled, exec, hmap]

/-- A cancelled item is deleted: every live item is in the map. -/
theorem Inv.deleted_of_cancelled (hv : Inv s) {id p : ℕ} (hc : .cancelled id p ∈ s.log) :
    .deleted p ∈ s.log := by
  by_contra hdel
  have hadd := hv.ledger.cancelled_added id p hc
  obtain ⟨it, hit⟩ := Option.ne_none_iff_exists'.mp
    ((hv.ledger.live_iff p).mpr ⟨⟨id, hadd⟩, hdel⟩)
  obtain ⟨id', hid'⟩ := (hv.ledger.in_map p it hit).mp (hv.live p it hit).1
  -- the id that maps to the item is the one it was added and cancelled with
  have heq : id' = id :=
    hv.ledger.added_unique id' id p ((hv.ledger.map_iff id' p).mp hid').1 hadd
  rw [heq] at hid'
  exact ((hv.ledger.map_iff id p).mp hid').2 hc

/-- **The periodic-task contract on `EpollProactor`**, over every run of the contract. The map
    holds exactly the ids added and not cancelled; an item is deleted once at most, and it is
    deleted exactly when it is cancelled; no task runs after its cancellation; and each item of
    the map has one entry, its `val2`, under which its descriptor `val1` is registered, so
    that `CancelPeriodic` of its id goes through. -/
theorem epoll_periodic_kept {s : State T} (h : Trans.Reachable step init s) :
    (∀ id p, s.periodicMap id = some p ↔ .added id p ∈ s.log ∧ .cancelled id p ∉ s.log) ∧
    (∀ p, s.log.count (.deleted p) ≤ 1) ∧
    (∀ p, .deleted p ∈ s.log ↔ ∃ id, .cancelled id p ∈ s.log) ∧
    (∀ id p, NotAfter (.cancelled id p) (.ran p) s.log) ∧
    (∀ id p, s.periodicMap id = some p →
      ∃ it, s.items p = some it ∧ s.centries.table it.val2 = some p ∧
        (it.val1, it.val2) ∈ s.registered ∧ (∀ a, s.centries.table a = some p → a = it.val2) ∧
        ∃ s', step s (.cancelPeriodic id) = some s') := by
  have hv := Inv.reachable h
  refine ⟨hv.ledger.map_iff, hv.ledger.deleted_once, fun p => ⟨hv.ledger.deleted_cancelled p,
    fun ⟨id, hc⟩ => hv.deleted_of_cancelled hc⟩, hv.ledger.no_run_after_cancel,
    fun id p hmap => ?_⟩
  obtain ⟨it, hit⟩ := Option.ne_none_iff_exists'.mp (hv.ledger.items_of_map hmap)
  obtain ⟨-, hta, hreg⟩ := hv.live p it hit
  refine ⟨it, hit, hta, hreg, fun a ha => ?_, _,
    (step_cancelPeriodic hmap).trans (cancelPeriodic_eq hv hmap hit)⟩
  obtain ⟨it', hit', hval⟩ := hv.armed a p ha
  rw [hit, Option.some.injEq] at hit'
  rw [← hval, hit']

end EpollProactor

end Periodic

end Helio
