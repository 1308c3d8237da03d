import Helio.Fibers.UringEpoll.Calls

/-!
# Each id released once

The runs of the contract from `Init`, with `centries_` of a power of two of at most `2 ^ 31`
entries: `EpollAdd` with a nonzero mask and `EpollDel` of a registered id, each below `2 ^ 31`
ids in use and `2 ^ 31` entries of `centries_` in flight, and the kernel and the main loop in any
order. Every step of such a run keeps `Inv`, so every state reached is `Sound`: the free list of
`epoll_entries_` is acyclic and holds exactly the free ids; an id goes from free to registered
only by the `EpollAdd` that returns it, from registered to being deleted only by its `EpollDel`,
and back to free only by a release (`Effects`), which finds no poll of the id armed or queued and
leaves none that can bring events; a user callback runs only for an id in use; and once the
kernel and the loop have nothing left to do, no id is still being deleted, so each `EpollDel` is
followed by exactly one release.

Past `2 ^ 31` ids in use `EpollAdd` reads `epoll_entries_[next_epoll_free_]` with the `int32_t`
`next_epoll_free_` wrapped to `-2 ^ 31` (`uring_epoll_limits`).
-/

set_option autoImplicit false

namespace Helio

namespace UringEpoll

open Completion

namespace Emu

variable {ECb : Type} {s : Emu ECb}

/-! ## Every step of the contract -/

/-- **Every step that can be taken is defined** and keeps the invariant. -/
theorem Inv.exec_some (hv : s.Inv) {op : Op ECb} (hall : op.allowed s = true)
    (hen : op.enabled s = true) : ∃ s' evs, s.exec op = some (s', evs) ∧ s'.Inv := by
  cases op with
  | epollAdd cb m =>
    simp only [Op.allowed, Bool.and_eq_true, decide_eq_true_eq] at hall
    obtain ⟨⟨hm, hlt⟩, hlt'⟩ := hall
    obtain ⟨s', i, h, hv', -⟩ := hv.epollAdd_some cb hm hlt hlt'
    exact ⟨s', [], by simp [exec, h], hv'⟩
  | epollDel i =>
    simp only [Op.allowed, Bool.and_eq_true, decide_eq_true_eq] at hall
    obtain ⟨s', h, hv', -⟩ := hv.epollDel_some hall.1 hall.2
    exact ⟨s', [], by simp [exec, h], hv'⟩
  | resume f =>
    simp only [Op.enabled] at hen
    split at hen
    · next i r hf =>
      obtain ⟨s', evs, h, hv', -⟩ := hv.resume_some hf
      exact ⟨s', evs, h, hv'⟩
    · cases hen
  | submit =>
    have hne : s.sq ≠ [] := by simpa [Op.enabled] using hen
    obtain ⟨s', h, -, hv'⟩ := hv.submit_some hne
    exact ⟨s', [], by simp [exec, h], hv'⟩
  | fire ud res =>
    have hk : s.kst ud = .armed := by simpa [Op.enabled] using hen
    obtain ⟨s', h, -, hv'⟩ := hv.fire_some res hk
    exact ⟨s', [], by simp [exec, h], hv'⟩
  | dispatch ud =>
    simp only [Op.enabled] at hen
    split at hen
    · next r hk =>
      obtain ⟨s', evs, h, hv', -⟩ := hv.dispatch_some hk
      exact ⟨s', evs, h, hv'⟩
    · cases hen

theorem Inv.step_inv (hv : s.Inv) {op : Op ECb} {s' : Emu ECb} (h : step s op = some s') :
    s'.Inv := by
  unfold step at h
  split at h
  · next hok =>
    rw [Bool.and_eq_true] at hok
    obtain ⟨s'', evs, hex, hv'⟩ := hv.exec_some hok.1 hok.2
    rw [hex, Option.map_some, Option.some.injEq] at h
    rw [← h]
    exact hv'
  · cases h

/-- **The invariant holds in every state of a run.** -/
theorem Inv.reachable {k : ℕ} (hk : k ≤ 31) (h : Trans.Reachable step (init (2 ^ k)) s) :
    s.Inv :=
  Trans.Reachable.invariant Inv (fun _ _ _ hv h => hv.step_inv h) h (Inv.of_init hk)

/-! ## A sound state -/

/-- **The free list of `epoll_entries_`**: `next_epoll_free_` threads an acyclic list through
    exactly the free ids. -/
def FreeIds (s : Emu ECb) : Prop :=
  ∃ L, FreeList.Threads s.epoll.links s.epoll.nextFreeCe L ∧ L.Nodup ∧
    ∀ j, j ∈ L ↔ j < s.epoll.size ∧ s.phase j = .free

/-- **A sound state.** The free list holds the free ids; a free id has no
    poll that can bring events; the calls move one id each, `EpollAdd` from free to registered
    and `EpollDel` from registered to being deleted; the kernel moves none; a reaped completion
    and a resumed fiber release and run callbacks as `Effects` says; and once the kernel and the
    loop have nothing to do, no id is still being deleted. -/
structure Sound (s : Emu ECb) : Prop where
  free_ids : s.FreeIds
  free_idle : ∀ id, s.phase id = .free → ∀ x, ¬ s.active id x
  add : ∀ cb m, 0 < m → s.epoll.outstanding < 2 ^ 31 → s.uring.outstanding < 2 ^ 31 →
    ∃ s' id, s.epollAdd cb m = some (s', id) ∧ s.phase id = .free ∧ s'.phase id = .live ∧
      ∀ j, j ≠ id → s'.phase j = s.phase j
  del : ∀ id, s.phase id = .live → s.uring.outstanding < 2 ^ 31 →
    ∃ s', s.epollDel id = some s' ∧ s'.phase id = .deleting ∧
      ∀ j, j ≠ id → s'.phase j = s.phase j
  submit : s.sq ≠ [] → ∃ s', s.submit = some s' ∧ ∀ id, s'.phase id = s.phase id
  fire : ∀ ud res, s.kst ud = .armed → ∃ s', s.fire ud res = some s' ∧
    ∀ id, s'.phase id = s.phase id
  dispatch : ∀ ud r, s.kst ud = .posted r →
    ∃ s' evs, s.dispatch ud = some (s', evs) ∧ Effects s s' evs
  resume : ∀ f id r, s.fibers f = some (.woken id r) →
    ∃ s' evs, s.resume f = some (s', evs) ∧ Effects s s' evs
  drained : s.sq = [] → (∀ ud r, s.kst ud ≠ .posted r) →
    (∀ f id r, s.fibers f ≠ some (.woken id r)) → ∀ id, s.phase id ≠ .deleting

theorem Vector.freeIds (hv : s.Vector) : s.FreeIds := by
  rcases hv.table with hinv | ⟨h0, hneg⟩
  · obtain ⟨L, hL, hnd, hmem⟩ := hinv.freeChain
    exact ⟨L, hL, hnd, fun j => by rw [hmem j, phase_free_iff]⟩
  · refine ⟨[], FreeList.Threads.nil (by omega), List.nodup_nil, fun j => ?_⟩
    simp [h0]

/-- With nothing queued, posted or woken, a fiber deleting an id would be waiting for a remove
    that went nowhere, or would know of a completion not yet reaped. -/
theorem Inv.not_deleting (hv : s.Inv) (hsq : s.sq = []) (hk : ∀ ud r, s.kst ud ≠ .posted r)
    (hf : ∀ f id r, s.fibers f ≠ some (.woken id r)) (id : ℕ) : s.phase id ≠ .deleting := by
  intro hdel
  obtain ⟨f, -, -, hc⟩ := hv.protocol.deleting_cur id hdel
  cases hfib : s.fibers f with
  | none =>
    obtain ⟨ud, r, -, hkr, -⟩ := ((current_none hfib).mp hc).2 one_ne_zero
    exact hk ud r hkr
  | some st =>
    cases st with
    | woken id' r => exact hf f id' r hfib
    | waiting id' =>
      obtain ⟨-, w, -, ⟨t, hR, -⟩ | ⟨r, hkr, -⟩⟩ := (current_waiting hfib).mp hc
      · rw [hsq] at hR
        cases hR
      · exact hk w r hkr

theorem Inv.sound (hv : s.Inv) : s.Sound where
  free_ids := hv.vector.freeIds
  free_idle id h := (hv.protocol.free_idle id h).2
  add cb m hm hlt hlt' := by
    obtain ⟨s', i, h, -, hfr, hlv, hph, -⟩ := hv.epollAdd_some cb hm hlt hlt'
    exact ⟨s', i, h, hfr, hlv, hph⟩
  del id hlv hlt := by
    obtain ⟨s', h, -, hdel, hph⟩ := hv.epollDel_some hlv hlt
    exact ⟨s', h, hdel, hph⟩
  submit hne := by
    obtain ⟨s', h, hep, -⟩ := hv.submit_some hne
    exact ⟨s', h, fun id => by simp only [phase, hep]⟩
  fire ud res hk := by
    obtain ⟨s', h, hep, -⟩ := hv.fire_some res hk
    exact ⟨s', h, fun id => by simp only [phase, hep]⟩
  dispatch ud r hk := by
    obtain ⟨s', evs, h, -, he⟩ := hv.dispatch_some hk
    exact ⟨s', evs, h, he⟩
  resume f id r hf := by
    obtain ⟨s', evs, h, -, he⟩ := hv.resume_some hf
    exact ⟨s', evs, h, he⟩
  drained := hv.not_deleting

/-- **The epoll emulation releases each entry once.** Every state of a run of the contract from
    `Init`, whose `centries_` starts with a power of two of at most `2 ^ 31` entries, is sound. -/
theorem uring_epoll_sound {ECb : Type} {k : ℕ} (hk : k ≤ 31) {s : Emu ECb}
    (h : Trans.Reachable step (init (2 ^ k)) s) : s.Sound :=
  (Inv.reachable hk h).sound

/-- The whole life of an id: `EpollAdd` arms a poll, the kernel fires it and `uring_cb` runs
    the callback and re-arms; `EpollDel` then submits a remove, which cancels the poll, the
    cancelled poll and the remove complete, and the resumed fiber releases the id.
    `uring_epoll_sound` holds of the state reached. -/
theorem uring_epoll_sound_released :
    1 ≤ 31 ∧ ∃ s : Emu ℕ, Trans.Reachable step (init (2 ^ 1)) s ∧ s.phase 0 = .free ∧
      s.epoll.nextFreeCe = 0 ∧ s.sq = [] ∧ s.fibers 0 = none ∧ s.Sound := by
  obtain ⟨s, hs, hend⟩ := @Trans.exists_reachable_of_run _ _ step (init (2 ^ 1) : Emu ℕ)
    [.epollAdd 7 1, .submit, .fire kUserDataCbIndex 1, .dispatch kUserDataCbIndex, .submit,
      .epollDel 0, .submit, .dispatch kUserDataCbIndex, .dispatch (kUserDataCbIndex + 1),
      .resume 0]
    (fun s => s.phase 0 == .free && s.epoll.nextFreeCe == 0 && s.sq.isEmpty &&
      s.fibers 0 == none) (by decide +kernel)
  simp only [Bool.and_eq_true, beq_iff_eq, List.isEmpty_iff] at hend
  exact ⟨by omega, s, hs, hend.1.1.1, hend.1.1.2, hend.1.2, hend.2, uring_epoll_sound (by omega) hs⟩

/-! ## The limit of the contract -/

/-- With `2 ^ 31` ids in use the vector has `2 ^ 31` entries, none free: the growth stores
    `2 ^ 31` in the `int32_t` `next_epoll_free_`, which wraps to `-2 ^ 31`, and
    `epoll_entries_[next_epoll_free_]` reads before the vector. -/
theorem Inv.epollAdd_full (hv : s.Inv) (hfull : s.epoll.outstanding = 2 ^ 31) (cb : ECb) (m : ℕ) :
    s.epollAdd cb m = none := by
  have hle := Table.outstanding_le s.epoll
  have hinv : s.epoll.Inv := hv.vector.table.resolve_right fun h => by
    have := h.1
    omega
  have hsize : s.epoll.size = 2 ^ 31 := by
    have := hinv.size_le
    omega
  have hhead : s.epoll.nextFreeCe = -1 := by
    have := hinv.head_ge
    by_contra hne
    have := hinv.outstanding_lt (by omega)
    omega
  by_cases hm : m = 0
  · simp [epollAdd, hm]
  · simp [epollAdd, hm, hhead, grow, hsize, Table.regrowCentries, Table.take, toInt32]

/-- A run of the contract reaches every number of ids in use up to `2 ^ 31`, each with its poll
    in flight. -/
theorem exists_reachable_registered (n : ℕ) (hn : n ≤ 2 ^ 31) :
    ∃ s : Emu ℕ, Trans.Reachable step (init 1) s ∧ s.Inv ∧ s.epoll.outstanding = n ∧
      s.uring.outstanding = n := by
  induction n with
  | zero =>
    refine ⟨init 1, Trans.Reachable.refl _, Inv.of_init (k := 0) (by omega), ?_, ?_⟩
    · simp [init, Table.outstanding]
    · simp [init, Uring.init]
  | succ n ih =>
    obtain ⟨s, hs, hv, hout, hout'⟩ := ih (by omega)
    obtain ⟨s', i, h, hv', -, -, -, hadd, hadd'⟩ :=
      hv.epollAdd_some 0 Nat.one_pos (by omega) (by omega)
    have hstep : step s (.epollAdd 0 1) = some s' := by
      simp [step, Op.allowed, Op.enabled, exec, h, hout, hout']
      omega
    exact ⟨s', hs.tail hstep, hv', by omega, by omega⟩

/-- **The limits of the contract.** With `2 ^ 31` ids in use `EpollAdd` fails. And a user
    callback must make no call of its own: once the eight entries of `epoll_entries_` are in
    use and the poll of id `0` has fired, the next `DispatchCqe` runs `uring_cb`, which holds
    `auto& epoll = epoll_entries_[0]` across `epoll.cb(res)` and reads `epoll.event_mask`
    after it; an `EpollAdd` made by that callback grows the vector to sixteen entries, which
    moves them, so `uring_cb` reads a freed entry. -/
theorem uring_epoll_limits :
    (∃ s : Emu ℕ, Trans.Reachable step (init 1) s ∧ s.epoll.outstanding = 2 ^ 31 ∧
      ∀ cb m, s.epollAdd cb m = none) ∧
    ∃ s : Emu ℕ, Trans.Reachable step (init 1) s ∧ s.epoll.size = 8 ∧ s.epoll.nextFreeCe = -1 ∧
      s.kst kUserDataCbIndex = .posted 1 ∧ s.cbs kUserDataCbIndex = some (.pollCb 0) ∧
      ∃ s' i, s.epollAdd 0 1 = some (s', i) ∧ s'.epoll.size = 16 := by
  refine ⟨?_, ?_⟩
  · obtain ⟨s, hs, hv, hout, -⟩ := exists_reachable_registered (2 ^ 31) le_rfl
    exact ⟨s, hs, hout, hv.epollAdd_full hout⟩
  · obtain ⟨s, hs, hend⟩ := @Trans.exists_reachable_of_run _ _ step (init 1 : Emu ℕ)
      (List.replicate 8 (.epollAdd 0 1) ++ List.replicate 8 .submit ++
        [.fire kUserDataCbIndex 1])
      (fun s => s.epoll.size == 8 && s.epoll.nextFreeCe == -1 &&
        s.kst kUserDataCbIndex == .posted 1 && s.cbs kUserDataCbIndex == some (.pollCb 0) &&
        (s.epollAdd 0 1).map (·.1.epoll.size) == some 16) (by decide +kernel)
    simp only [Bool.and_eq_true, beq_iff_eq] at hend
    obtain ⟨⟨s', i⟩, hadd, hsize⟩ := Option.map_eq_some_iff.mp hend.2
    exact ⟨s, hs, hend.1.1.1.1, hend.1.1.1.2, hend.1.1.2, hend.1.2, s', i, hadd, hsize⟩

end Emu

end UringEpoll

end Helio
