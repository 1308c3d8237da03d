import Helio.Fibers.Periodic.UringSafety

/-!
# Runs of `UringProactor`'s periodic tasks

`Helio.Periodic.UringProactor.Inv` says what holds in every reachable state. This module adds
what the proactor can still do from one. A cancelled item is deleted once its timer's
completion is reaped, whatever the kernel has done with that timer so far:

* a timer still queued is armed once the kernel has taken every submission ahead of it
  (`reach_armed`, by induction on the submissions ahead);
* an armed timer expires (`-ETIME`) or has been cancelled (`-ECANCELED`);
* reaping the posted completion runs `PeriodicCb`, which finds the item out of the map and
  deletes it (`Inv.dispatch_deletes`).

With the invariant this gives the proactor's half of the periodic-task contract:
`uring_periodic_kept`.
-/

set_option autoImplicit false

namespace Helio

namespace Periodic

namespace UringProactor

open Completion UringEpoll Trace

variable {T : Type} {s s' : State T}

/-! ## The kernel's steps -/

theorem KernelFrame.trans {s'' : State T} (hf : KernelFrame s s') (hf' : KernelFrame s' s'') :
    KernelFrame s s'' :=
  ⟨hf'.uring.trans hf.uring, hf'.base.trans hf.base, hf'.sched.trans hf.sched,
    hf'.suspended.trans hf.suspended, hf'.nextFiber.trans hf.nextFiber⟩

/-- **The kernel takes the head of a non-empty queue**, and arms it if it is a timeout. -/
theorem submit_of_cons {e : Sqe} {rest : List Sqe} (hq : s.sq = e :: rest) :
    ∃ s₁, submit s = some s₁ ∧ KernelFrame s s₁ ∧ s₁.sq = rest ∧
      ∀ ud, e = .timeout ud → s₁.kst ud = .armed := by
  cases e with
  | timeout ud =>
    refine ⟨{ s with sq := rest, kst := Function.update s.kst ud .armed },
      by simp only [submit, hq], ⟨rfl, rfl, rfl, rfl, rfl⟩, rfl, fun ud' h => ?_⟩
    rw [Sqe.timeout.injEq] at h
    rw [h]
    exact Function.update_self _ _ _
  | timeoutRemove ud t =>
    by_cases harm : s.kst t = .armed
    · exact ⟨{ s with
          sq := rest
          kst := Function.update (Function.update s.kst t (.posted (-ECANCELED))) ud (.posted 0) },
        by simp only [submit, hq, harm, if_true], ⟨rfl, rfl, rfl, rfl, rfl⟩, rfl,
        fun _ h => by cases h⟩
    · exact ⟨{ s with sq := rest, kst := Function.update s.kst ud (.posted (-ENOENT)) },
        by simp only [submit, hq, harm, if_false], ⟨rfl, rfl, rfl, rfl, rfl⟩, rfl,
        fun _ h => by cases h⟩

theorem step_submit (hq : s.sq ≠ []) : step s .submit = submit s := by
  simp [step, Op.allowed, Op.enabled, exec, hq]

theorem step_fire {ud : ℕ} (harm : s.kst ud = .armed) : step s (.fire ud) = fire s ud := by
  simp [step, Op.allowed, Op.enabled, exec, harm]

theorem step_dispatch {ud : ℕ} {r : ℤ} (hpost : s.kst ud = .posted r) :
    step s (.dispatch ud) = dispatch s ud := by
  simp [step, Op.allowed, Op.enabled, exec, hpost]

/-- **A queued timeout gets armed**: the kernel takes every submission ahead of it, then the
    timeout itself. The induction is on the submissions ahead. -/
theorem reach_armed {ud : ℕ} (pre : List Sqe) :
    ∀ {s : State T} {rest : List Sqe}, s.sq = pre ++ .timeout ud :: rest →
      ∃ s', Trans.Reachable step s s' ∧ KernelFrame s s' ∧ s'.kst ud = .armed := by
  induction pre with
  | nil =>
    intro s rest hq
    obtain ⟨s₁, hs, hf, -, harm⟩ := submit_of_cons hq
    have hstep : step s .submit = some s₁ := by
      rw [step_submit (by rw [hq]; simp)]
      exact hs
    exact ⟨s₁, Trans.Reachable.tail (Trans.Reachable.refl s) hstep, hf, harm ud rfl⟩
  | cons e pre ih =>
    intro s rest hq
    obtain ⟨s₁, hs, hf, hsq, -⟩ := submit_of_cons hq
    have hstep : step s .submit = some s₁ := by
      rw [step_submit (by rw [hq]; simp)]
      exact hs
    obtain ⟨s', hr, hf', harm⟩ := ih hsq
    exact ⟨s', (Trans.Reachable.tail (Trans.Reachable.refl s) hstep).trans hr, hf.trans hf', harm⟩

/-! ## A cancelled item is deleted -/

/-- The invariant holds all along a run. -/
theorem Inv.of_reachable (hv : Inv s) (h : Trans.Reachable step s s') : Inv s' :=
  Trans.Reachable.invariant Inv (fun _ _ _ hv hs => hv.next hs) h hv

/-- **Reaping the completion of a cancelled item's timer deletes the item.** -/
theorem Inv.dispatch_deletes (hv : Inv s) {ud id p : ℕ} {r : ℤ} {it : PeriodicItem T}
    (hpost : s.kst ud = .posted r) (hc : s.cbs ud = some (.periodicCb id p))
    (hit : s.items p = some it) (hout : it.inMap = false) :
    ∃ s', dispatch s ud = some s' ∧ .deleted p ∈ s'.log := by
  obtain ⟨u, hdis, -⟩ := hv.books.uring.callback_dispatch hc
  simp [dispatch, hpost, hdis, periodicCb, hit, hout, Base.delete]

theorem Inv.reach_deleted_of_posted (hv : Inv s) {ud id p : ℕ} {r : ℤ} {it : PeriodicItem T}
    (hpost : s.kst ud = .posted r) (hc : s.cbs ud = some (.periodicCb id p))
    (hit : s.items p = some it) (hout : it.inMap = false) :
    ∃ s', Trans.Reachable step s s' ∧ .deleted p ∈ s'.log := by
  obtain ⟨s', hs, hdel⟩ := hv.dispatch_deletes hpost hc hit hout
  refine ⟨s', Trans.Reachable.tail (a := .dispatch ud) (Trans.Reachable.refl s) ?_, hdel⟩
  rw [step_dispatch hpost]
  exact hs

/-- An armed timer expires, and its completion is then reaped. -/
theorem Inv.reach_deleted_of_armed (hv : Inv s) {ud id p : ℕ} {it : PeriodicItem T}
    (harm : s.kst ud = .armed) (hc : s.cbs ud = some (.periodicCb id p))
    (hit : s.items p = some it) (hout : it.inMap = false) :
    ∃ s', Trans.Reachable step s s' ∧ .deleted p ∈ s'.log := by
  have hfire : fire s ud = some { s with kst := Function.update s.kst ud (.posted (-ETIME)) } := by
    simp [fire, harm]
  have hstep := (step_fire harm).trans hfire
  obtain ⟨s', hr, hdel⟩ := (hv.fire_next hfire).reach_deleted_of_posted
    (by exact Function.update_self _ _ _) hc hit hout
  exact ⟨s', (Trans.Reachable.tail (Trans.Reachable.refl s) hstep).trans hr, hdel⟩

/-- **A cancelled item not yet deleted gets deleted.** It is out of the list to re-arm, so it
    owns a timer; the timer is queued, armed, or posted. -/
theorem Inv.reach_deleted (hv : Inv s) {p : ℕ} {it : PeriodicItem T} (hit : s.items p = some it)
    (hout : it.inMap = false) : ∃ s', Trans.Reachable step s s' ∧ .deleted p ∈ s'.log := by
  have hns : ∀ id, (id, p) ∉ s.schedulePeriodicList := fun id h => by
    have hin := (hv.owns.ledger.in_map p it hit).mpr ⟨id, hv.owns.sched_in_map id p h⟩
    rw [hout] at hin
    cases hin
  obtain ⟨ud, id, hc⟩ : ∃ ud id, s.cbs ud = some (.periodicCb id p) :=
    (hv.owns.owned p (by simp [hit])).resolve_right fun ⟨id, h⟩ => hns id h
  rcases hv.books.timer_pending ud id p hc with hq | hk
  · -- the kernel takes the queue up to the timeout
    obtain ⟨pre, rest, hq⟩ := List.mem_iff_append.mp hq
    obtain ⟨s₁, hr, hf, harm⟩ := reach_armed pre hq
    have hit₁ : s₁.items p = some it := by rw [hf.base]; exact hit
    obtain ⟨s', hr', hdel⟩ := (hv.of_reachable hr).reach_deleted_of_armed harm
      (by rw [hf.cbs]; exact hc) hit₁ hout
    exact ⟨s', hr.trans hr', hdel⟩
  · cases hkst : s.kst ud with
    | idle => exact absurd hkst hk
    | armed => exact hv.reach_deleted_of_armed hkst hc hit hout
    | posted r => exact hv.reach_deleted_of_posted hkst hc hit hout

/-! ## The contract on `UringProactor` -/

/-- **An item in the map has one timer, `val1`**, whenever a fiber can call `CancelPeriodic`:
    the remove it queues names the item's only entry. -/
theorem Inv.val1_targets (hv : Inv s) (hs : s.schedulePeriodicList = []) {id p : ℕ}
    (hmap : s.periodicMap id = some p) :
    ∃ it, s.items p = some it ∧ s.cbs it.val1 = some (.periodicCb id p) ∧
      ∀ ud id', s.cbs ud = some (.periodicCb id' p) → ud = it.val1 := by
  obtain ⟨it, hit⟩ := Option.ne_none_iff_exists'.mp (hv.owns.ledger.items_of_map hmap)
  have hin : it.inMap = true := (hv.owns.ledger.in_map p it hit).mpr ⟨id, hmap⟩
  obtain ⟨ud, id', hc⟩ : ∃ ud id', s.cbs ud = some (.periodicCb id' p) :=
    (hv.owns.owned p (by simp [hit])).resolve_right fun ⟨_, h⟩ => by rw [hs] at h; cases h
  -- the timer's id is the one the item was added with
  have hid : id' = id := hv.owns.ledger.added_unique id' id p (hv.owns.timer_item ud id' p hc).2
    ((hv.owns.ledger.map_iff id p).mp hmap).1
  have hud := hv.owns.val1_timer ud id' p it hc hit hin
  refine ⟨it, hit, by rw [← hud, hc, hid], fun ud' id'' hc' => ?_⟩
  rw [← hud]
  exact hv.owns.timer_unique ud' ud id'' id' p hc' hc

/-- A cancelled item is deleted already, or it is still live and out of the map. -/
theorem Inv.cancelled_live (hv : Inv s) {id p : ℕ} (hc : .cancelled id p ∈ s.log) :
    .deleted p ∈ s.log ∨ ∃ it, s.items p = some it ∧ it.inMap = false := by
  by_cases hdel : .deleted p ∈ s.log
  · exact Or.inl hdel
  · have hadd := hv.owns.ledger.cancelled_added id p hc
    obtain ⟨it, hit⟩ := Option.ne_none_iff_exists'.mp
      ((hv.owns.ledger.live_iff p).mpr ⟨⟨id, hadd⟩, hdel⟩)
    refine Or.inr ⟨it, hit, ?_⟩
    cases hin : it.inMap
    · rfl
    · -- an id that maps to the item is the cancelled one, so it is out of the map
      obtain ⟨id', hid'⟩ := (hv.owns.ledger.in_map p it hit).mp hin
      have heq : id' = id :=
        hv.owns.ledger.added_unique id' id p ((hv.owns.ledger.map_iff id' p).mp hid').1 hadd
      rw [heq] at hid'
      exact absurd hc ((hv.owns.ledger.map_iff id p).mp hid').2

/-- **The periodic-task contract on `UringProactor`**, over every run of the contract. The map
    holds exactly the ids added and not cancelled; an item is deleted once at most, only once
    cancelled, and every cancelled item can still be deleted by the kernel and the main loop;
    no task runs after its cancellation; and when a fiber can call `CancelPeriodic`, each item
    of the map has one timer entry, its `val1`. -/
theorem uring_periodic_kept {k : ℕ} (hk : k ≤ 31)
    (h : Trans.Reachable step (init (2 ^ k)) s) :
    (∀ id p, s.periodicMap id = some p ↔ .added id p ∈ s.log ∧ .cancelled id p ∉ s.log) ∧
    (∀ p, s.log.count (.deleted p) ≤ 1) ∧
    (∀ p, .deleted p ∈ s.log → ∃ id, .cancelled id p ∈ s.log) ∧
    (∀ id p, .cancelled id p ∈ s.log → ∃ s', Trans.Reachable step s s' ∧ .deleted p ∈ s'.log) ∧
    (∀ id p, NotAfter (.cancelled id p) (.ran p) s.log) ∧
    (∀ id p, s.schedulePeriodicList = [] → s.periodicMap id = some p →
      ∃ it, s.items p = some it ∧ s.cbs it.val1 = some (.periodicCb id p) ∧
        ∀ ud id', s.cbs ud = some (.periodicCb id' p) → ud = it.val1) := by
  have hv := Inv.reachable hk h
  have hl := hv.owns.ledger
  refine ⟨hl.map_iff, hl.deleted_once, hl.deleted_cancelled, fun id p hc => ?_,
    hl.no_run_after_cancel, fun id p hs hmap => hv.val1_targets hs hmap⟩
  rcases hv.cancelled_live hc with hdel | ⟨it, hit, hout⟩
  · exact ⟨s, Trans.Reachable.refl s, hdel⟩
  · exact hv.reach_deleted hit hout

end UringProactor

end Periodic

end Helio
