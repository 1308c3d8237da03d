import Helio.Lib.Trace

/-!
# Periodic tasks: what `ProactorBase` does

`ProactorBase::AddPeriodic(ms, f)` (`util/fibers/proactor_base.cc`) takes the next id of
`next_task_id_`, a `uint32_t`. It allocates a `PeriodicItem` with the task and its period,
records it in `periodic_map_` (`CHECK(inserted)`), and hands it to the proactor's
`SchedulePeriodic`. `CancelPeriodic(id)` finds the item (`CHECK`) and reads its two payloads
`val1` and `val2`. It then sets `in_map = false`, erases the item from the map, and calls the
proactor's `CancelPeriodicInternal(val1, val2)`. Each proactor's timer callback `PeriodicCb`
deletes an item that is out of the map, and otherwise runs its task.

This module models the parts the two proactors share: the item, the map, the heap the items
live in, and the trace of what happens to the items (`Event`). A `new` returns a fresh address,
so reading an item after its `delete` reads nothing, which is undefined (`none`). The payloads
of a new item are indeterminate until `SchedulePeriodic` sets them; the model starts them at
`0`.

`Ledger` is what the shared parts keep of the trace:
* the map holds exactly the ids added and not cancelled, and `in_map` says whether the item is
  in it;
* an item is deleted at most once, and only after its cancellation;
* its task never runs after it is cancelled.
-/

set_option autoImplicit false

namespace Helio

namespace Periodic

open Trace

/-- `PeriodicItem`: the task, its `period` as `tv_sec` and `tv_nsec`, the payloads of the
    proactor, and `in_map`. -/
structure PeriodicItem (T : Type) where
  task : T
  period : ℕ × ℕ
  val1 : ℕ
  val2 : ℕ
  inMap : Bool

/-- What happens to an item, by its address. -/
inductive Event where
  | added (id item : ℕ)
  | ran (item : ℕ)
  | cancelled (id item : ℕ)
  | deleted (item : ℕ)
  deriving DecidableEq

/-- `next_task_id_`, `periodic_map_`, the items on the heap with the next fresh address, and
    the trace. -/
structure Base (T : Type) where
  nextTaskId : ℕ
  periodicMap : ℕ → Option ℕ
  items : ℕ → Option (PeriodicItem T)
  nextItem : ℕ
  log : List Event

namespace Base

variable {T : Type}

/-- A proactor before its first `AddPeriodic`: `next_task_id_{1}`. -/
def init : Base T := ⟨1, fun _ => none, fun _ => none, 0, []⟩

/-- `AddPeriodic(ms, f)` up to `SchedulePeriodic(id, item)`: the id and the item. -/
def addPeriodic (b : Base T) (ms : ℕ) (f : T) : Option (Base T × ℕ × ℕ) :=
  -- `CHECK(inserted)`
  if b.periodicMap b.nextTaskId = none then
    some ({ nextTaskId := (b.nextTaskId + 1) % 2 ^ 32
            periodicMap := Function.update b.periodicMap b.nextTaskId (some b.nextItem)
            items := Function.update b.items b.nextItem
              (some ⟨f, (ms / 1000, ms % 1000 * 1000000), 0, 0, true⟩)
            nextItem := b.nextItem + 1
            log := b.log ++ [.added b.nextTaskId b.nextItem] }, b.nextTaskId, b.nextItem)
  else none

/-- `CancelPeriodic(id)` up to `CancelPeriodicInternal(val1, val2)`: the item, `val1` and
    `val2`. -/
def cancelPeriodic (b : Base T) (id : ℕ) : Option (Base T × ℕ × ℕ × ℕ) :=
  -- `CHECK(it != periodic_map_.end())`
  (b.periodicMap id).bind fun p => (b.items p).map fun it =>
    ({ b with
        periodicMap := Function.update b.periodicMap id none
        items := Function.update b.items p (some { it with inMap := false })
        log := b.log ++ [.cancelled id p] }, p, it.val1, it.val2)

/-- A write through the address `p` of a live item. -/
def setItem (b : Base T) (p : ℕ) (f : PeriodicItem T → PeriodicItem T) : Option (Base T) :=
  (b.items p).map fun it => { b with items := Function.update b.items p (some (f it)) }

/-- `delete item`. -/
def delete (b : Base T) (p : ℕ) : Option (Base T) :=
  (b.items p).map fun _ => { b with items := Function.update b.items p none, log := b.log ++ [.deleted p] }

/-- `item->task()`. -/
def runTask (b : Base T) (p : ℕ) : Option (Base T) :=
  (b.items p).map fun _ => { b with log := b.log ++ [.ran p] }

/-! ## What the calls do -/

variable {b b' : Base T}

theorem addPeriodic_eq {ms : ℕ} {f : T} {id p : ℕ} (h : b.addPeriodic ms f = some (b', id, p)) :
    b.periodicMap b.nextTaskId = none ∧ id = b.nextTaskId ∧ p = b.nextItem ∧
      b' = { nextTaskId := (b.nextTaskId + 1) % 2 ^ 32
             periodicMap := Function.update b.periodicMap id (some p)
             items := Function.update b.items p
               (some ⟨f, (ms / 1000, ms % 1000 * 1000000), 0, 0, true⟩)
             nextItem := p + 1
             log := b.log ++ [.added id p] } := by
  unfold addPeriodic at h
  split at h
  · next hfree =>
    simp only [Option.some.injEq, Prod.mk.injEq] at h
    obtain ⟨rfl, rfl, rfl⟩ := h
    exact ⟨hfree, rfl, rfl, rfl⟩
  · cases h

theorem cancelPeriodic_eq {id p v₁ v₂ : ℕ} (h : b.cancelPeriodic id = some (b', p, v₁, v₂)) :
    ∃ it, b.periodicMap id = some p ∧ b.items p = some it ∧ v₁ = it.val1 ∧ v₂ = it.val2 ∧
      b' = { b with
        periodicMap := Function.update b.periodicMap id none
        items := Function.update b.items p (some { it with inMap := false })
        log := b.log ++ [.cancelled id p] } := by
  obtain ⟨q, hq, hmap⟩ := Option.bind_eq_some_iff.mp h
  obtain ⟨it, hit, heq⟩ := Option.map_eq_some_iff.mp hmap
  simp only [Prod.mk.injEq] at heq
  obtain ⟨rfl, rfl, rfl, rfl⟩ := heq
  exact ⟨it, hq, hit, rfl, rfl, rfl⟩

theorem setItem_eq {p : ℕ} {f : PeriodicItem T → PeriodicItem T} (h : b.setItem p f = some b') :
    ∃ it, b.items p = some it ∧ b' = { b with items := Function.update b.items p (some (f it)) } := by
  obtain ⟨it, hit, rfl⟩ := Option.map_eq_some_iff.mp h
  exact ⟨it, hit, rfl⟩

theorem delete_eq {p : ℕ} (h : b.delete p = some b') :
    b.items p ≠ none ∧
      b' = { b with items := Function.update b.items p none, log := b.log ++ [.deleted p] } := by
  obtain ⟨it, hit, rfl⟩ := Option.map_eq_some_iff.mp h
  exact ⟨by simp [hit], rfl⟩

theorem runTask_eq {p : ℕ} (h : b.runTask p = some b') :
    b.items p ≠ none ∧ b' = { b with log := b.log ++ [.ran p] } := by
  obtain ⟨it, hit, rfl⟩ := Option.map_eq_some_iff.mp h
  exact ⟨by simp [hit], rfl⟩

end Base

/-! ## The ledger -/

namespace Base

variable {T : Type}

/-- **What the trace says of the map and the heap.** The map holds exactly the ids added and
    not cancelled, each to its own item; `in_map` says whether an item is in the map; a live
    item is one added and not deleted; a fresh address is in no event. The trace's own facts:
    a deletion happens once at most, after a cancellation and never before one, and no task
    runs after its item is cancelled. -/
structure Ledger (b : Base T) : Prop where
  map_iff : ∀ id p, b.periodicMap id = some p ↔ .added id p ∈ b.log ∧ .cancelled id p ∉ b.log
  in_map : ∀ p it, b.items p = some it → (it.inMap = true ↔ ∃ id, b.periodicMap id = some p)
  live_iff : ∀ p, b.items p ≠ none ↔ (∃ id, .added id p ∈ b.log) ∧ .deleted p ∉ b.log
  added_unique : ∀ id id' p, .added id p ∈ b.log → .added id' p ∈ b.log → id = id'
  cancelled_added : ∀ id p, .cancelled id p ∈ b.log → .added id p ∈ b.log
  fresh : ∀ p, b.nextItem ≤ p → ∀ id, .added id p ∉ b.log
  deleted_once : ∀ p, b.log.count (.deleted p) ≤ 1
  deleted_cancelled : ∀ p, .deleted p ∈ b.log → ∃ id, .cancelled id p ∈ b.log
  cancel_before_delete : ∀ id p, NotAfter (.deleted p) (.cancelled id p) b.log
  no_run_after_cancel : ∀ id p, NotAfter (.cancelled id p) (.ran p) b.log

theorem Ledger.of_init : Ledger (init : Base T) where
  map_iff := by simp [init]
  in_map := by simp [init]
  live_iff := by simp [init]
  added_unique := by simp [init]
  cancelled_added := by simp [init]
  fresh := by simp [init]
  deleted_once := by simp [init]
  deleted_cancelled := by simp [init]
  cancel_before_delete _ _ := NotAfter.nil _ _
  no_run_after_cancel _ _ := NotAfter.nil _ _

variable {b b' : Base T}

/-- An item in the map is live. -/
theorem Ledger.items_of_map (hl : b.Ledger) {id p : ℕ} (h : b.periodicMap id = some p) :
    b.items p ≠ none := by
  obtain ⟨hadd, -⟩ := (hl.map_iff id p).mp h
  refine (hl.live_iff p).mpr ⟨⟨id, hadd⟩, fun hdel => ?_⟩
  obtain ⟨id', hc⟩ := hl.deleted_cancelled p hdel
  have hid : id' = id := hl.added_unique _ _ p (hl.cancelled_added id' p hc) hadd
  rw [hid] at hc
  exact ((hl.map_iff id p).mp h).2 hc

/-- The map sends one id to an item at most. -/
theorem Ledger.map_inj (hl : b.Ledger) {id id' p : ℕ} (h : b.periodicMap id = some p)
    (h' : b.periodicMap id' = some p) : id = id' :=
  hl.added_unique _ _ p ((hl.map_iff id p).mp h).1 ((hl.map_iff id' p).mp h').1

/-- A fresh address holds nothing. -/
theorem Ledger.items_fresh (hl : b.Ledger) {p : ℕ} (hp : b.nextItem ≤ p) : b.items p = none := by
  by_contra hne
  obtain ⟨⟨id, hadd⟩, -⟩ := (hl.live_iff p).mp hne
  exact hl.fresh p hp id hadd

/-- A live item that is out of the map was cancelled. -/
theorem Ledger.cancelled_of_out (hl : b.Ledger) {p : ℕ} {it : PeriodicItem T}
    (hit : b.items p = some it) (hout : it.inMap = false) : ∃ id, .cancelled id p ∈ b.log := by
  obtain ⟨⟨id, hadd⟩, -⟩ := (hl.live_iff p).mp (by simp [hit])
  refine ⟨id, by_contra fun hc => ?_⟩
  have hmap := (hl.map_iff id p).mpr ⟨hadd, hc⟩
  have := (hl.in_map p it hit).mpr ⟨id, hmap⟩
  simp [hout] at this

/-- A live item in the map was never cancelled. -/
theorem Ledger.not_cancelled_of_in (hl : b.Ledger) {p : ℕ} {it : PeriodicItem T}
    (hit : b.items p = some it) (hin : it.inMap = true) (id : ℕ) : .cancelled id p ∉ b.log := by
  obtain ⟨id', hmap⟩ := (hl.in_map p it hit).mp hin
  intro hc
  have hid : id = id' := hl.added_unique _ _ p (hl.cancelled_added id p hc) ((hl.map_iff id' p).mp hmap).1
  rw [hid] at hc
  exact ((hl.map_iff id' p).mp hmap).2 hc

/-! ## The calls keep the ledger -/

/-- **`AddPeriodic`** records a fresh item under the next id, which was free. -/
theorem Ledger.addPeriodic (hl : b.Ledger) {ms : ℕ} {f : T} {id p : ℕ}
    (h : b.addPeriodic ms f = some (b', id, p)) : b'.Ledger := by
  obtain ⟨hfree, rfl, rfl, rfl⟩ := addPeriodic_eq h
  -- the new address is in no event yet
  have hnew : ∀ id', .added id' b.nextItem ∉ b.log := hl.fresh _ (Nat.le_refl _)
  have hnew_c : ∀ id', .cancelled id' b.nextItem ∉ b.log :=
    fun id' hc => hnew id' (hl.cancelled_added _ _ hc)
  have hnew_d : .deleted b.nextItem ∉ b.log := fun hd => by
    obtain ⟨id', hc⟩ := hl.deleted_cancelled _ hd
    exact hnew_c id' hc
  constructor <;> dsimp only
  · intro id' q
    by_cases hid : id' = b.nextTaskId
    · subst hid
      by_cases hq : q = b.nextItem
      · subst hq
        simp [hnew_c]
      · have hold := hl.map_iff b.nextTaskId q
        simp only [hfree, reduceCtorEq, false_iff, not_and, not_not] at hold
        simp only [Function.update_self, Option.some.injEq, List.mem_append, List.mem_singleton,
          Event.added.injEq, true_and, reduceCtorEq, or_false]
        constructor
        · intro heq
          exact absurd heq.symm hq
        · rintro ⟨hadd | hq', hc⟩
          · exact absurd (hold hadd) hc
          · exact absurd hq' hq
    · simp [hl.map_iff id' q, hid]
  · intro q it hit
    by_cases hq : q = b.nextItem
    · subst hq
      simp only [Function.update_self, Option.some.injEq] at hit
      subst hit
      exact iff_of_true rfl ⟨b.nextTaskId, by simp⟩
    · simp only [Function.update_of_ne hq] at hit
      rw [hl.in_map q it hit]
      constructor
      · rintro ⟨id', hmap⟩
        have hid : id' ≠ b.nextTaskId := fun h => by simp [h, hfree] at hmap
        exact ⟨id', by rw [Function.update_of_ne hid]; exact hmap⟩
      · rintro ⟨id', hmap⟩
        by_cases hid : id' = b.nextTaskId
        · subst hid
          simp [Ne.symm hq] at hmap
        · exact ⟨id', by rwa [Function.update_of_ne hid] at hmap⟩
  · intro q
    by_cases hq : q = b.nextItem
    · subst hq
      simp [hnew_d]
    · simp [hl.live_iff q, hq]
  · intro id₁ id₂ q h₁ h₂
    simp only [List.mem_append, List.mem_singleton, Event.added.injEq] at h₁ h₂
    rcases h₁ with h₁ | ⟨rfl, rfl⟩
    · rcases h₂ with h₂ | ⟨rfl, rfl⟩
      · exact hl.added_unique _ _ _ h₁ h₂
      · exact absurd h₁ (hnew _)
    · rcases h₂ with h₂ | ⟨rfl, -⟩
      · exact absurd h₂ (hnew _)
      · rfl
  · intro id' q hc
    simp only [List.mem_append, List.mem_singleton, reduceCtorEq, or_false] at hc
    exact List.mem_append_left _ (hl.cancelled_added _ _ hc)
  · intro q hq id' hadd
    simp only [List.mem_append, List.mem_singleton, Event.added.injEq] at hadd
    rcases hadd with hadd | ⟨-, rfl⟩
    · exact hl.fresh q (by omega) id' hadd
    · omega
  · exact fun q => count_concat_le_one (hl.deleted_once q) (by simp)
  · intro q hd
    simp only [List.mem_append, List.mem_singleton, reduceCtorEq, or_false] at hd
    obtain ⟨id', hc⟩ := hl.deleted_cancelled q hd
    exact ⟨id', List.mem_append_left _ hc⟩
  · exact fun id' q => (hl.cancel_before_delete id' q).concat_of_ne (by simp)
  · exact fun id' q => (hl.no_run_after_cancel id' q).concat_of_ne (by simp)

/-- **`CancelPeriodic`** takes an id out of the map, its item out of `in_map`, and records the
    cancellation. -/
theorem Ledger.cancelPeriodic (hl : b.Ledger) {id p v₁ v₂ : ℕ}
    (h : b.cancelPeriodic id = some (b', p, v₁, v₂)) : b'.Ledger := by
  obtain ⟨it, hmap, hit, -, -, rfl⟩ := cancelPeriodic_eq h
  obtain ⟨hadd, hnc⟩ := (hl.map_iff id p).mp hmap
  have hnd : .deleted p ∉ b.log := ((hl.live_iff p).mp (by simp [hit])).2
  constructor <;> dsimp only
  · intro id' q
    by_cases hid : id' = id
    · subst hid
      -- the id named another item before only if that one was cancelled
      have hq : .added id' q ∈ b.log → q ≠ p → .cancelled id' q ∈ b.log := fun ha hq => by
        by_contra hc
        have := (hl.map_iff id' q).mpr ⟨ha, hc⟩
        rw [hmap] at this
        exact hq (Option.some.inj this).symm
      by_cases hqp : q = p
      · subst hqp
        simp
      · simp only [Function.update_self, reduceCtorEq, false_iff, List.mem_append,
          List.mem_singleton, Event.cancelled.injEq, true_and, hqp, or_false, not_and, not_not]
        exact fun ha => hq ha hqp
    · simp [hid, hl.map_iff id' q]
  · intro q it' hit'
    by_cases hq : q = p
    · subst hq
      simp only [Function.update_self, Option.some.injEq] at hit'
      subst hit'
      simp only [Bool.false_eq_true, false_iff, not_exists]
      intro id'
      by_cases hid : id' = id
      · simp [hid]
      · rw [Function.update_of_ne hid]
        exact fun h' => hid (hl.map_inj h' hmap)
    · simp only [Function.update_of_ne hq] at hit'
      rw [hl.in_map q it' hit']
      constructor
      · rintro ⟨id', hmap'⟩
        have hid : id' ≠ id := fun h' => hq (Option.some.inj ((h' ▸ hmap').symm.trans hmap))
        exact ⟨id', by rw [Function.update_of_ne hid]; exact hmap'⟩
      · rintro ⟨id', hmap'⟩
        by_cases hid : id' = id
        · simp [hid] at hmap'
        · exact ⟨id', by rwa [Function.update_of_ne hid] at hmap'⟩
  · intro q
    by_cases hq : q = p
    · subst hq
      simpa [hnd] using ⟨id, hadd⟩
    · simp [hl.live_iff q, hq]
  · intro id₁ id₂ q h₁ h₂
    simp only [List.mem_append, List.mem_singleton, reduceCtorEq, or_false] at h₁ h₂
    exact hl.added_unique _ _ _ h₁ h₂
  · intro id' q hc
    simp only [List.mem_append, List.mem_singleton, Event.cancelled.injEq] at hc
    rcases hc with hc | ⟨rfl, rfl⟩
    · exact List.mem_append_left _ (hl.cancelled_added _ _ hc)
    · exact List.mem_append_left _ hadd
  · intro q hq id' hadd'
    simp only [List.mem_append, List.mem_singleton, reduceCtorEq, or_false] at hadd'
    exact hl.fresh q hq id' hadd'
  · exact fun q => count_concat_le_one (hl.deleted_once q) (by simp)
  · intro q hd
    simp only [List.mem_append, List.mem_singleton, reduceCtorEq, or_false] at hd
    obtain ⟨id', hc⟩ := hl.deleted_cancelled q hd
    exact ⟨id', List.mem_append_left _ hc⟩
  · -- the item is live, so not deleted yet
    intro id' q
    refine (hl.cancel_before_delete id' q).concat fun he => ?_
    simp only [Event.cancelled.injEq] at he
    obtain ⟨-, rfl⟩ := he
    exact hnd
  · exact fun id' q => (hl.no_run_after_cancel id' q).concat_of_ne (by simp)

/-- **A write through a live address** that keeps `in_map` keeps the ledger. -/
theorem Ledger.setItem (hl : b.Ledger) {p : ℕ} {f : PeriodicItem T → PeriodicItem T}
    (hf : ∀ it, (f it).inMap = it.inMap) (h : b.setItem p f = some b') : b'.Ledger := by
  obtain ⟨it, hit, rfl⟩ := setItem_eq h
  refine { hl with in_map := fun q it' hit' => ?_, live_iff := fun q => ?_ }
  · by_cases hq : q = p
    · subst hq
      simp only [Function.update_self, Option.some.injEq] at hit'
      subst hit'
      rw [hf]
      exact hl.in_map q it hit
    · simp only [Function.update_of_ne hq] at hit'
      exact hl.in_map q it' hit'
  · by_cases hq : q = p
    · subst hq
      simpa [hit] using hl.live_iff q
    · simpa [Function.update_of_ne hq] using hl.live_iff q

/-- **`delete item`** of a live item out of the map: a cancelled item, deleted for the first
    time. -/
theorem Ledger.delete (hl : b.Ledger) {p : ℕ} {it : PeriodicItem T} (hit : b.items p = some it)
    (hout : it.inMap = false) (h : b.delete p = some b') : b'.Ledger := by
  obtain ⟨-, rfl⟩ := delete_eq h
  have hnd : .deleted p ∉ b.log := ((hl.live_iff p).mp (by simp [hit])).2
  constructor <;> dsimp only
  · intro id q
    simp [hl.map_iff id q]
  · intro q it' hit'
    by_cases hq : q = p
    · subst hq
      simp at hit'
    · simp only [Function.update_of_ne hq] at hit'
      exact hl.in_map q it' hit'
  · intro q
    by_cases hq : q = p
    · subst hq
      simp
    · simp [hl.live_iff q, hq]
  · intro id₁ id₂ q h₁ h₂
    simp only [List.mem_append, List.mem_singleton, reduceCtorEq, or_false] at h₁ h₂
    exact hl.added_unique _ _ _ h₁ h₂
  · intro id q hc
    simp only [List.mem_append, List.mem_singleton, reduceCtorEq, or_false] at hc
    exact List.mem_append_left _ (hl.cancelled_added _ _ hc)
  · intro q hq id hadd
    simp only [List.mem_append, List.mem_singleton, reduceCtorEq, or_false] at hadd
    exact hl.fresh q hq id hadd
  · exact fun q => count_concat_le_one (hl.deleted_once q) fun he => by
      simp only [Event.deleted.injEq] at he
      exact he ▸ hnd
  · intro q hd
    simp only [List.mem_append, List.mem_singleton, Event.deleted.injEq] at hd
    rcases hd with hd | rfl
    · obtain ⟨id, hc⟩ := hl.deleted_cancelled q hd
      exact ⟨id, List.mem_append_left _ hc⟩
    · obtain ⟨id, hc⟩ := hl.cancelled_of_out hit hout
      exact ⟨id, List.mem_append_left _ hc⟩
  · exact fun id q => (hl.cancel_before_delete id q).concat_of_ne (by simp)
  · exact fun id q => (hl.no_run_after_cancel id q).concat_of_ne (by simp)

/-- **`item->task()`** of an item in the map: its cancellation has not happened. -/
theorem Ledger.runTask (hl : b.Ledger) {p : ℕ} {it : PeriodicItem T} (hit : b.items p = some it)
    (hin : it.inMap = true) (h : b.runTask p = some b') : b'.Ledger := by
  obtain ⟨-, rfl⟩ := runTask_eq h
  constructor <;> dsimp only
  · intro id q
    simp [hl.map_iff id q]
  · exact hl.in_map
  · intro q
    simp [hl.live_iff q]
  · intro id₁ id₂ q h₁ h₂
    simp only [List.mem_append, List.mem_singleton, reduceCtorEq, or_false] at h₁ h₂
    exact hl.added_unique _ _ _ h₁ h₂
  · intro id q hc
    simp only [List.mem_append, List.mem_singleton, reduceCtorEq, or_false] at hc
    exact List.mem_append_left _ (hl.cancelled_added _ _ hc)
  · intro q hq id hadd
    simp only [List.mem_append, List.mem_singleton, reduceCtorEq, or_false] at hadd
    exact hl.fresh q hq id hadd
  · exact fun q => count_concat_le_one (hl.deleted_once q) (by simp)
  · intro q hd
    simp only [List.mem_append, List.mem_singleton, reduceCtorEq, or_false] at hd
    obtain ⟨id, hc⟩ := hl.deleted_cancelled q hd
    exact ⟨id, List.mem_append_left _ hc⟩
  · exact fun id q => (hl.cancel_before_delete id q).concat_of_ne (by simp)
  · intro id q
    refine (hl.no_run_after_cancel id q).concat fun he => ?_
    simp only [Event.ran.injEq] at he
    subst he
    exact hl.not_cancelled_of_in hit hin id

end Base

end Periodic

end Helio
