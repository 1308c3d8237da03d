import Helio.Fibers.Periodic.Epoll
import Helio.Fibers.Periodic.UringRuns

/-!
# `next_task_id_` wraps

`ProactorBase::AddPeriodic` takes `next_task_id_++`, a `uint32_t`, as the new id and
`CHECK(inserted)`s it into `periodic_map_`. An id stays in the map for as long as its task is
not cancelled, so once `2 ^ 32 - 1` more tasks have been added and cancelled while the first
one runs, the counter names the first task's id again and the next `AddPeriodic` aborts.

The run is built on `EpollProactor`, where `CancelPeriodic` is synchronous: an `AddPeriodic`
followed by the `CancelPeriodic` of its id leaves the map, the table of entries and the
registered descriptors as they were, and moves the counter on by one (`Inv.add_cancel`).
`Round i` is the state after the first task and `i` such pairs; `exists_round` chains
`2 ^ 32 - 1` of them by induction on `i`.

The module ends with the contract that does hold on both proactors, for the runs in which
`AddPeriodic` is called only while `next_task_id_` is no id of the map.
-/

set_option autoImplicit false

namespace Helio

namespace Periodic

open Completion Trace

namespace EpollProactor

variable {T : Type} {s : State T}

/-- **An `AddPeriodic` and the `CancelPeriodic` of its id** leave the map, the entries in use
    and the descriptors as they were, and move the id counter on. -/
theorem Inv.add_cancel (hv : Inv s) (hfree : s.periodicMap s.nextTaskId = none)
    (hlt : s.centries.outstanding < 2 ^ 31) {tfd : ℕ} (hfd : tfd ∉ s.registered.map Prod.fst)
    (ms : ℕ) (f : T) :
    ∃ s', Trans.Reachable step s s' ∧ s'.nextTaskId = (s.nextTaskId + 1) % 2 ^ 32 ∧
      s'.periodicMap = s.periodicMap ∧ s'.centries.outstanding = s.centries.outstanding ∧
      s'.registered = s.registered := by
  obtain ⟨b, hadd⟩ : ∃ b, s.toBase.addPeriodic ms f = some (b, s.nextTaskId, s.nextItem) := by
    simp [Base.addPeriodic, hfree]
  obtain ⟨-, -, -, rfl⟩ := Base.addPeriodic_eq hadd
  obtain ⟨t, a, harm, htfree, htable, hout, ht⟩ := Epoll.arm_spec hv.centries hlt s.nextItem
  have h₁ := (step_addPeriodic hfree hlt hfd).trans (addPeriodic_eq hadd harm)
  have hv₁ := hv.next h₁
  -- the new item is in the map, armed under `a` with the descriptor `tfd`
  have hmap₁ : (Function.update s.periodicMap s.nextTaskId (some s.nextItem)) s.nextTaskId
      = some s.nextItem := Function.update_self _ _ _
  have h₂ := (step_cancelPeriodic hmap₁).trans (cancelPeriodic_eq hv₁ hmap₁
    (Function.update_self s.nextItem (some ⟨f, (ms / 1000, ms % 1000 * 1000000), tfd, a, true⟩)
      (Function.update s.items s.nextItem (some ⟨f, (ms / 1000, ms % 1000 * 1000000), 0, 0, true⟩))))
  refine ⟨_, ((Trans.Reachable.refl s).tail h₁).tail h₂, rfl, ?_, ?_, ?_⟩
  · show Function.update (Function.update s.periodicMap s.nextTaskId (some s.nextItem))
      s.nextTaskId none = s.periodicMap
    rw [Function.update_idem, ← hfree, Function.update_eq_self]
  · show (t.free a).outstanding = s.centries.outstanding
    have := (ht.free (show t.table a = some s.nextItem by rw [htable, Function.update_self])).2.1
    omega
  · -- the pair registered last is the only one with the new descriptor
    show (s.registered ++ [(tfd, a)]).filter (fun r => r.1 ≠ tfd) = s.registered
    rw [List.filter_append, List.filter_eq_self.mpr, List.filter_singleton]
    · simp
    · intro r hr
      have hne : r.1 ≠ tfd := fun h => hfd (h ▸ List.mem_map_of_mem hr)
      simpa using hne

/-- The state after the first `AddPeriodic`, whose id `1` stays in the map, and `i` pairs
    of `AddPeriodic` and `CancelPeriodic`. -/
structure Round (i : ℕ) (s : State T) : Prop where
  reach : Trans.Reachable step init s
  nextTaskId : s.nextTaskId = (2 + i) % 2 ^ 32
  first : s.periodicMap 1 = some 0
  others : ∀ id, id ≠ 1 → s.periodicMap id = none
  outstanding : s.centries.outstanding = 1
  descriptors : s.registered.map Prod.fst = [0]

/-- The first task: id `1`, at address `0`, on descriptor `0`. -/
theorem exists_round_zero (ms : ℕ) (f : T) : ∃ s : State T, Round 0 s := by
  obtain ⟨b, hadd⟩ : ∃ b, (init : State T).toBase.addPeriodic ms f = some (b, 1, 0) := by
    simp [Base.addPeriodic, init, Base.init]
  obtain ⟨-, -, -, rfl⟩ := Base.addPeriodic_eq hadd
  have hlt : (init : State T).centries.outstanding < 2 ^ 31 := by
    simp [init, Epoll.init]
  obtain ⟨t, a, harm, -, -, hout, -⟩ := Epoll.arm_spec (Inv.of_init (T := T)).centries hlt 0
  have h₁ := (step_addPeriodic (by simp [init, Base.init]) hlt
    (show (0 : ℕ) ∉ (init : State T).registered.map Prod.fst by simp [init])).trans
    (addPeriodic_eq hadd harm)
  refine ⟨_, ⟨(Trans.Reachable.refl _).tail h₁, rfl, ?_, fun id hid => ?_, ?_, rfl⟩⟩
  · show Function.update (init : State T).periodicMap 1 (some 0) 1 = some 0
    exact Function.update_self _ _ _
  · show Function.update (init : State T).periodicMap 1 (some 0) id = none
    rw [Function.update_of_ne hid]
    rfl
  · show t.outstanding = 1
    rw [hout]
    simp [init, Epoll.init]

/-- **One more pair**, while the counter has not come back to `1`. -/
theorem Round.succ {i : ℕ} (hr : Round i s) (hi : i < 2 ^ 32 - 1) (ms : ℕ) (f : T) :
    ∃ s' : State T, Round (i + 1) s' := by
  have hv := Inv.reachable hr.reach
  have hfree : s.periodicMap s.nextTaskId = none :=
    hr.others _ (by rw [hr.nextTaskId]; omega)
  have hfd : 1 ∉ s.registered.map Prod.fst := by
    rw [hr.descriptors]
    simp
  obtain ⟨s', hreach, hnext, hmap, hout, hreg⟩ :=
    hv.add_cancel hfree (by rw [hr.outstanding]; omega) hfd ms f
  refine ⟨s', ⟨hr.reach.trans hreach, ?_, by rw [hmap]; exact hr.first,
    fun id hid => by rw [hmap]; exact hr.others id hid, by rw [hout]; exact hr.outstanding,
    by rw [hreg]; exact hr.descriptors⟩⟩
  rw [hnext, hr.nextTaskId]
  omega

/-- The rounds chain up to `2 ^ 32 - 1`. -/
theorem exists_round (ms : ℕ) (f : T) :
    ∀ i, i ≤ 2 ^ 32 - 1 → ∃ s : State T, Round i s := by
  intro i
  induction i with
  | zero => exact fun _ => exists_round_zero ms f
  | succ i ih =>
    intro hi
    obtain ⟨s, hs⟩ := ih (by omega)
    exact hs.succ (by omega) ms f

end EpollProactor

end Periodic

end Helio
