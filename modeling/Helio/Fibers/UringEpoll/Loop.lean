import Helio.Fibers.UringEpoll.Kernel

/-!
# The main loop's steps

The main loop reaps a posted completion and `DispatchCqe` runs its callback (`dispatch`); a
woken fiber runs the rest of `EpollDel` (`resume`). These are the steps with events. The poll
callback `uring_cb` runs the user callback with the events, then submits the next poll or, once
`EpollDel` cleared the mask, releases the entry; the fiber releases it when its remove returned
`0`. `Effects` is what these steps must do: an entry is released only while its id is
being deleted, when no poll of it is armed or queued, and it leaves the id free with no poll that
can bring events; a user callback runs only for an id in use, with the result of a poll of that
id; and nothing else changes the phase of an id.
-/

set_option autoImplicit false

namespace Helio

namespace UringEpoll

open Completion

namespace Emu

variable {ECb : Type} {s s' : Emu ECb}

/-- **What a step of the loop does to the entries.** -/
structure Effects (s s' : Emu ECb) (evs : List Event) : Prop where
  released : ∀ id, Event.released id ∈ evs → s.phase id = .deleting ∧
    (∀ x, s.cbs x = some (.pollCb id) → s.kst x ≠ .armed ∧ Sqe.pollAdd x ∉ s.sq) ∧
    s'.phase id = .free ∧ ∀ x, ¬ s'.active id x
  called : ∀ id (r : ℕ), Event.called id r ∈ evs → s.phase id ≠ .free ∧
    ∃ x, s.active id x ∧ s.kst x = .posted r
  phase_eq : ∀ id, Event.released id ∉ evs → s'.phase id = s.phase id

theorem Effects.none (h : ∀ id, s'.phase id = s.phase id) : Effects s s' [] :=
  ⟨fun _ h' => by simp at h', fun _ _ h' => by simp at h', fun id _ => h id⟩

/-- A release leaves no poll of the id armed or queued when none can bring events. -/
theorem quiet_of_not_active {id : ℕ} (h : ∀ x, ¬ s.active id x) :
    ∀ x, s.cbs x = some (.pollCb id) → s.kst x ≠ .armed ∧ Sqe.pollAdd x ∉ s.sq :=
  fun x hx => ⟨fun ha => h x ⟨hx, Or.inr (Or.inl ha)⟩, fun hq => h x ⟨hx, Or.inl hq⟩⟩

theorem phase_of_cb {id : ℕ} (h : (s'.epoll.entries id).cb = (s.epoll.entries id).cb) :
    s'.phase id = s.phase id := by
  simp only [phase, h]

theorem Books.not_mem_of_posted (hb : s.Books) {ud : ℕ} {r : ℤ} (hk : s.kst ud = .posted r) :
    Sqe.pollAdd ud ∉ s.sq := by
  intro hq
  have hnk : s.kst ud ≠ .idle := by
    rw [hk]
    simp
  exact hb.not_mem_of_kst hnk (List.mem_map.mpr ⟨_, hq, rfl⟩)

/-! ## What the steps leave -/

theorem dispatch_poll {ud id : ℕ} {r : ℤ} {u : Uring UringCb} (hk : s.kst ud = .posted r)
    (hd : s.uring.dispatchCqe ud = some (u, some (.pollCb id))) :
    s.dispatch ud = uringCb { s with uring := u, kst := Function.update s.kst ud .idle } id r := by
  simp [dispatch, hk, hd]

theorem dispatch_waker {ud f id : ℕ} {r : ℤ} {u : Uring UringCb} (hk : s.kst ud = .posted r)
    (hd : s.uring.dispatchCqe ud = some (u, some (.waker f)))
    (hf : s.fibers f = some (.waiting id)) :
    s.dispatch ud = some ({ s with
      uring := u
      kst := Function.update s.kst ud .idle
      fibers := Function.update s.fibers f (some (.woken id r)) }, []) := by
  simp [dispatch, hk, hd, waker, hf]

theorem uringCb_failed {id : ℕ} {r : ℤ} (hid : id < s.epoll.size) (hr : r < 0) :
    s.uringCb id r = some (s, []) := by
  simp [uringCb, hid, not_le.mpr hr]

theorem uringCb_rearm {id : ℕ} {r : ℤ} (hid : id < s.epoll.size) (hr : 0 ≤ r) {c : ECb} {m : ℕ}
    (hc : (s.epoll.entries id).cb = some (c, m)) (hm : m ≠ 0) :
    s.uringCb id r = (s.epollAddInternal id).map (·, [.called id r.toNat]) := by
  simp [uringCb, hid, hr, hc, hm]

theorem uringCb_release {id : ℕ} {r : ℤ} (hid : id < s.epoll.size) (hr : 0 ≤ r) {c : ECb}
    (hc : (s.epoll.entries id).cb = some (c, 0)) :
    s.uringCb id r = some (s.epollDelInternal id, [.called id r.toNat, .released id]) := by
  simp [uringCb, hid, hr, hc]

theorem resume_release {f id : ℕ} (hf : s.fibers f = some (.woken id 0)) :
    s.resume f = some (epollDelInternal { s with fibers := Function.update s.fibers f none } id,
      [.released id]) := by
  simp [resume, hf]

theorem resume_failed {f id : ℕ} {r : ℤ} (hf : s.fibers f = some (.woken id r)) (hr : r ≠ 0) :
    s.resume f = some ({ s with fibers := Function.update s.fibers f none }, []) := by
  simp [resume, hf, hr]

/-! ## A fiber done with `EpollDel` -/

/-- A woken fiber has no waker in flight, so forgetting it keeps the books. -/
theorem Books.of_fiber_done (hb : s.Books) {f id : ℕ} {r : ℤ}
    (hf : s.fibers f = some (.woken id r)) (hu : s'.uring = s.uring) (hq : s'.sq = s.sq)
    (hk : s'.kst = s.kst) (hnf : s'.nextFiber = s.nextFiber)
    (hfib : s'.fibers = Function.update s.fibers f none) : s'.Books := by
  have hc : s'.cbs = s.cbs := by
    unfold cbs
    rw [hu]
  refine ⟨hu ▸ hb.uring, by rw [hq]; exact hb.sq_nodup, ?_, ?_, ?_, ?_, ?_, ?_⟩
  · rw [hq, hk, hc]
    exact hb.sq_idle
  · rw [hk, hc]
    exact hb.kst_cbs
  · rw [hq, hc]
    exact hb.poll_kind
  · intro x g hx
    rw [hc] at hx
    obtain ⟨hadd, harmed, id', hwait⟩ := hb.waker_kind x g hx
    have hgf : g ≠ f := by
      rintro rfl
      rw [hf] at hwait
      cases hwait
    refine ⟨by rw [hq]; exact hadd, by rw [hk]; exact harmed, id', ?_⟩
    rw [hfib, Function.update_of_ne hgf]
    exact hwait
  · rw [hc]
    exact hb.waker_unique
  · intro g hg
    rw [hfib]
    by_cases hgf : g = f
    · rw [hgf, Function.update_self]
    · rw [Function.update_of_ne hgf]
      exact hb.fresh g (hnf ▸ hg)

/-- A fiber whose remove failed is done: the poll of its id completed with events, which the
    poll callback has still to reap. -/
theorem Inv.of_resume_failed (hv : s.Inv) {f id : ℕ} {r : ℤ}
    (hf : s.fibers f = some (.woken id r)) (hr : r ≠ 0) :
    ({ s with fibers := Function.update s.fibers f none } : Emu ECb).Inv := by
  set s' : Emu ECb := { s with fibers := Function.update s.fibers f none }
  have hp := hv.protocol
  have hview : SameView s s' := ⟨rfl, rfl, rfl⟩
  have hfne : ∀ g, g ≠ f → s'.fibers g = s.fibers g := fun g hg => Function.update_of_ne hg _ _
  refine ⟨hv.books.of_fiber_done hf rfl rfl rfl rfl rfl, hv.vector.of_epoll rfl,
    hp.of_kernel hp.poll_lt (fun _ => rfl) (fun _ => rfl) rfl le_rfl (fun _ _ h => h)
      (fun _ _ _ h => h) ?_ ?_⟩
  · intro g id' _ hc
    by_cases hgf : g = f
    · subst hgf
      obtain ⟨rfl, hfate⟩ := (current_woken hf).mp hc
      refine (current_none (s := s') (Function.update_self _ _ _)).mpr ?_
      exact hview.fate_iff.mpr ⟨fun h => absurd h one_ne_zero, fun _ => hfate.2 hr⟩
    · exact (hview.current_iff (hfne g hgf)).mpr hc
  · intro g st hg hne
    have hgf : g ≠ f := by
      rintro rfl
      simp [s'] at hg
    rw [hfne g hgf] at hg
    exact (hview.stale_iff (hfne g hgf)).mpr (hp.stale g st hg hne)

/-- A fiber whose remove returned `0` cancelled the poll of its id: it is the current fiber of
    the id, which has no poll left that can bring events, and it releases the entry. -/
theorem Inv.of_resume_release (hv : s.Inv) {f id : ℕ} (hf : s.fibers f = some (.woken id 0)) :
    let s' : Emu ECb := { s with
      fibers := Function.update s.fibers f none
      epoll := s.epoll.free id
      cur := Function.update s.cur id none }
    s'.Inv ∧ Effects s s' [.released id] := by
  intro s'
  have hp := hv.protocol
  have hview : SameView s s' := ⟨rfl, rfl, rfl⟩
  -- a stale fiber learns a failure, so this one deletes `id`
  have hcurf : s.cur id = some f := by
    by_contra h
    exact (stale_woken hf).mp (hp.stale f _ hf h) rfl
  have hdel : s.phase id = .deleting := hp.cur_some hcurf
  have hc : s.Current f id := by
    obtain ⟨g, hg, -, hc⟩ := hp.deleting_cur id hdel
    rw [hcurf, Option.some.injEq] at hg
    rw [hg]
    exact hc
  have hnone : ∀ x, ¬ s.active id x := ((current_woken hf).mp hc).2.1 rfl
  obtain ⟨c, hcb⟩ := phase_deleting_iff.mp hdel
  have hfree' : s'.phase id = .free := phase_free_iff.mpr (by simp [s', Table.free])
  have hent : ∀ j, j ≠ id → s'.epoll.entries j = s.epoll.entries j :=
    fun j hj => Function.update_of_ne hj _ _
  have hfne : ∀ g, g ≠ f → s'.fibers g = s.fibers g := fun g hg => Function.update_of_ne hg _ _
  have hcne : ∀ j, j ≠ id → s'.cur j = s.cur j := fun j hj => Function.update_of_ne hj _ _
  refine ⟨⟨hv.books.of_fiber_done hf rfl rfl rfl rfl rfl, hv.vector.free hcb rfl, ?_⟩, ?_⟩
  · refine hp.of_step id hp.poll_lt (fun j hj => phase_of_cb (by rw [hent j hj]))
      (fun j hj _ => by rw [hent j hj]) hcne le_rfl (fun _ _ _ => Iff.rfl) ?_
      (fun x _ hx => absurd hx (hnone x)) (fun _ => ⟨Function.update_self _ _ _, hnone⟩)
      (fun h => by rw [hfree'] at h; cases h) (fun h => by rw [hfree'] at h; cases h) ?_
    · -- the fiber of another id is not `f`, which deletes `id`
      intro g id' hid' _ hc'
      have hgf : g ≠ f := by
        rintro rfl
        exact hid' ((current_woken hf).mp hc').1.symm
      exact (hview.current_iff (hfne g hgf)).mpr hc'
    · intro g st hg hne
      have hgf : g ≠ f := by
        rintro rfl
        simp [s'] at hg
      rw [hfne g hgf] at hg
      refine (hview.stale_iff (hfne g hgf)).mpr (hp.stale g st hg ?_)
      by_cases hsid : st.id = id
      · rw [hsid, hcurf]
        exact fun h => hgf (Option.some.inj h).symm
      · rwa [hcne _ hsid] at hne
  · refine ⟨fun id' h => ?_, fun _ _ h => by simp at h, fun id' h => ?_⟩
    · rw [List.mem_singleton, Event.released.injEq] at h
      subst h
      exact ⟨hdel, quiet_of_not_active hnone, hfree', hnone⟩
    · rw [List.mem_singleton, Event.released.injEq] at h
      exact phase_of_cb (by rw [hent id' h])

/-! ## A completion reaped -/

section Dispatch

variable {ud : ℕ} {r : ℤ} {u : Uring UringCb}

/-- The waker of a fiber's remove: the fiber learns the result and becomes ready. -/
theorem Inv.of_dispatch_waker (hv : s.Inv) {f id : ℕ} (hk : s.kst ud = .posted r)
    (hw : s.cbs ud = some (.waker f)) (hf : s.fibers f = some (.waiting id))
    (hu : callbacks u = Function.update (callbacks s.uring) ud none) (hinv : u.Inv) :
    ({ s with
      uring := u
      kst := Function.update s.kst ud .idle
      fibers := Function.update s.fibers f (some (.woken id r)) } : Emu ECb).Inv := by
  set s' : Emu ECb := { s with
    uring := u
    kst := Function.update s.kst ud .idle
    fibers := Function.update s.fibers f (some (.woken id r)) }
  have hb := hv.books
  have hp := hv.protocol
  have hr : Reaped s s' ud := ⟨⟨r, hk⟩, hu, rfl, rfl⟩
  have hfne : ∀ g, g ≠ f → s'.fibers g = s.fibers g := fun g hg => Function.update_of_ne hg _ _
  have hff : s'.fibers f = some (.woken id r) := Function.update_self _ _ _
  -- the completion reaped was the only waker of `f`
  have hnow : ∀ w, s'.cbs w ≠ some (.waker f) := by
    intro w hw'
    obtain ⟨hwu, hw''⟩ := hr.cbs_some hw'
    exact hwu (hb.waker_unique w ud f hw'' hw)
  have hflt : f < s.nextFiber := by
    by_contra h
    rw [hb.fresh f (by omega)] at hf
    cases hf
  have hwne : ∀ g, g ≠ f → ∀ w, s.cbs w = some (.waker g) → w ≠ ud := by
    rintro g hg w hw' rfl
    rw [hw, Option.some.injEq, UringCb.waker.injEq] at hw'
    exact hg hw'.symm
  -- the waker is no poll
  have hact : ∀ id' x, s'.active id' x ↔ s.active id' x := by
    intro id' x
    rw [hr.active_iff]
    refine ⟨And.left, fun ha => ⟨ha, ?_⟩⟩
    rintro rfl
    exact not_active_of_waker hw ha
  have hne : ∀ id' x r', 0 ≤ r' → s.kst x = .posted r' → s.cbs x = some (.pollCb id') →
      x ≠ ud := by
    rintro id' x r' - - hx rfl
    rw [hw] at hx
    cases hx
  refine ⟨hb.of_reaped hr hinv (fun g w hw' => hfne g fun hg => hnow w (hg ▸ hw')) ?_,
    hv.vector.of_epoll rfl, hp.of_kernel (fun x i hc => hp.poll_lt x i (hr.cbs_some hc).2)
      (fun _ => rfl) (fun _ => rfl) rfl le_rfl (fun id' x => (hact id' x).mp)
      (fun id' x _ => (hact id' x).mpr) ?_ ?_⟩
  · intro g hg
    have hg' : s.nextFiber ≤ g := hg
    rw [hfne g (by omega)]
    exact hb.fresh g hg'
  · intro g id' _ hc
    by_cases hgf : g = f
    · subst hgf
      obtain ⟨hf', hfate⟩ := hb.current_posted hw hk hc
      rw [hf, Option.some.injEq, FiberSt.waiting.injEq] at hf'
      subst hf'
      exact (current_woken hff).mpr ⟨rfl, hr.fate (hne id) hfate⟩
    · exact hr.current (hfne g hgf) (hwne g hgf) (hact id') (hne id') hc
  · intro g st hg hne'
    by_cases hgf : g = f
    · subst hgf
      rw [hff, Option.some.injEq] at hg
      subst hg
      exact (stale_woken hff).mpr (hb.stale_posted hw hk (hp.stale g _ hf hne'))
    · rw [hfne g hgf] at hg
      exact hr.stale (hfne g hgf) (hwne g hgf) (hp.stale g st hg hne')

/-- A poll that failed, cancelled by a remove, only logs. -/
theorem Inv.of_dispatch_failed (hv : s.Inv) {id : ℕ} (hk : s.kst ud = .posted r) (hr0 : r < 0)
    (hc : s.cbs ud = some (.pollCb id))
    (hu : callbacks u = Function.update (callbacks s.uring) ud none) (hinv : u.Inv) :
    ({ s with uring := u, kst := Function.update s.kst ud .idle } : Emu ECb).Inv := by
  set s' : Emu ECb := { s with uring := u, kst := Function.update s.kst ud .idle }
  have hb := hv.books
  have hp := hv.protocol
  have hr : Reaped s s' ud := ⟨⟨r, hk⟩, hu, rfl, rfl⟩
  -- a failed poll brings no events
  have hnot : ∀ id', ¬ s.active id' ud := by
    rintro id' ⟨-, hq | ha | ⟨r', hr', hk'⟩⟩
    · exact hb.not_mem_of_posted hk hq
    · rw [hk] at ha
      cases ha
    · rw [hk, KSt.posted.injEq] at hk'
      omega
  have hact : ∀ id' x, s'.active id' x ↔ s.active id' x := by
    intro id' x
    rw [hr.active_iff]
    refine ⟨And.left, fun ha => ⟨ha, ?_⟩⟩
    rintro rfl
    exact hnot id' ha
  have hne : ∀ id' x r', 0 ≤ r' → s.kst x = .posted r' → s.cbs x = some (.pollCb id') →
      x ≠ ud := by
    rintro id' x r' hr' hx - rfl
    rw [hk, KSt.posted.injEq] at hx
    omega
  have hw : ∀ g w, s.cbs w = some (.waker g) → w ≠ ud := fun _ _ => ne_of_waker_of_poll hc
  exact ⟨hb.of_reaped hr hinv (fun _ _ _ => rfl) hb.fresh, hv.vector.of_epoll rfl,
    hp.of_kernel (fun x i hc' => hp.poll_lt x i (hr.cbs_some hc').2) (fun _ => rfl) (fun _ => rfl)
      rfl le_rfl (fun id' x => (hact id' x).mp) (fun id' x _ => (hact id' x).mpr)
      (fun g id' _ hc' => hr.current rfl (hw g) (hact id') (hne id') hc')
      (fun g st hg hne' => hr.stale rfl (hw g) (hp.stale g st hg hne'))⟩

/-- A poll of a registered id completed with events: `uring_cb` runs the user callback and
    submits the next poll, whose user data becomes the entry's `index`. -/
theorem Inv.of_dispatch_rearm (hv : s.Inv) {id ud₂ : ℕ} {u₂ : Uring UringCb} {c : ECb} {m : ℕ}
    (hk : s.kst ud = .posted r) (hr0 : 0 ≤ r) (hc : s.cbs ud = some (.pollCb id))
    (hcb : (s.epoll.entries id).cb = some (c, m)) (hm : m ≠ 0)
    (hu : callbacks u = Function.update (callbacks s.uring) ud none)
    (hfree : callbacks u ud₂ = none)
    (hu₂ : callbacks u₂ = Function.update (callbacks u) ud₂ (some (.pollCb id)))
    (hinv : u.Inv) (hinv₂ : u₂.Inv) :
    let s' : Emu ECb := { s with
      uring := u₂
      kst := Function.update s.kst ud .idle
      sq := s.sq ++ [.pollAdd ud₂]
      epoll := ⟨s.epoll.size, Function.update s.epoll.entries id ⟨(s.epoll.entries id).cb, ud₂⟩,
        s.epoll.nextFreeCe⟩ }
    s'.Inv ∧ Effects s s' [.called id r.toNat] := by
  intro s'
  set s₁ : Emu ECb := { s with uring := u, kst := Function.update s.kst ud .idle }
  have hb := hv.books
  have hp := hv.protocol
  have hr : Reaped s s₁ ud := ⟨⟨r, hk⟩, hu, rfl, rfl⟩
  have hb₁ : s₁.Books := hb.of_reaped hr hinv (fun _ _ _ => rfl) hb.fresh
  have ha : Appended s₁ s' ud₂ (.pollCb id) (.pollAdd ud₂) := ⟨hfree, hu₂, rfl, rfl, rfl⟩
  have hlv : s.phase id = .live := phase_live_iff.mpr ⟨c, m, hm, hcb⟩
  have hact₀ : s.active id ud := ⟨hc, Or.inr (Or.inr ⟨r, hr0, hk⟩)⟩
  have huniq : ∀ x, s.active id x → x = ud := fun x hx => hp.active_unique id x ud hx hact₀
  have hw : ∀ g w, s.cbs w = some (.waker g) → w ≠ ud := fun _ _ => ne_of_waker_of_poll hc
  -- the poll reaped and the poll submitted are of `id`; the other ids keep theirs
  have hne : ∀ id', id' ≠ id → ∀ x r', 0 ≤ r' → s.kst x = .posted r' →
      s.cbs x = some (.pollCb id') → x ≠ ud := fun _ hid' _ _ _ _ => ne_of_poll_of_ne hc hid'
  have hact₁ : ∀ id', id' ≠ id → ∀ x, s₁.active id' x ↔ s.active id' x :=
    fun _ hid' => hr.active_of_other hc hid'
  have hnew : ∀ id', id' ≠ id → ∀ x, s'.active id' x ↔ s₁.active id' x :=
    fun _ hid' => ha.active_of_ne hb₁ fun h => hid' (UringCb.pollCb.inj h).symm
  have hcbeq : ∀ j, (s'.epoll.entries j).cb = (s.epoll.entries j).cb := by
    intro j
    by_cases hj : j = id
    · subst hj
      simp [s']
    · simp [s', Function.update_of_ne hj]
  refine ⟨⟨hb₁.of_appended_poll ha hinv₂ rfl rfl,
    hv.vector.set_used (by rw [hcb]; simp) _ (by simp [hcb]) rfl, ?_⟩, ?_⟩
  · refine hp.of_step id ?_ (fun j _ => phase_of_cb (hcbeq j))
      (fun j hj _ => by simp [s', Function.update_of_ne hj]) (fun _ _ => rfl) le_rfl
      (fun id' hid' x => (hnew id' hid' x).trans (hact₁ id' hid' x))
      (fun g id' hid' _ hc' => ha.current rfl (hnew id' hid')
        (hr.current rfl (hw g) (hact₁ id' hid') (hne id' hid') hc')) ?_
      (fun h => by rw [phase_of_cb (hcbeq id), hlv] at h; cases h)
      (fun _ => ⟨(hp.live_one id hlv).1, ud₂, by simp [s'],
        (ha.active_iff hb₁).mpr (Or.inr ⟨rfl, rfl, rfl⟩)⟩)
      (fun h => by rw [phase_of_cb (hcbeq id), hlv] at h; cases h)
      (fun g st hg hne' => ha.stale rfl (hr.stale rfl (hw g) (hp.stale g st hg hne')))
    · exact ha.poll_lt rfl (hp.poll_lt ud _ hc) fun x i hx => hp.poll_lt x i (hr.cbs_some hx).2
    · -- the only poll of `id` that can bring events is the new one
      have hkey : ∀ z, s'.active id z → z = ud₂ := by
        intro z hz
        rcases (ha.active_iff hb₁).mp hz with hz | ⟨rfl, -, -⟩
        · obtain ⟨hz, hzu⟩ := hr.active_iff.mp hz
          exact absurd (huniq z hz) hzu
        · rfl
      exact fun x y hx hy => (hkey x hx).trans (hkey y hy).symm
  · refine ⟨fun _ h => by simp at h, fun id' r' h => ?_, fun j _ => phase_of_cb (hcbeq j)⟩
    rw [List.mem_singleton, Event.called.injEq] at h
    obtain ⟨rfl, rfl⟩ := h
    refine ⟨by rw [hlv]; simp, ud, hact₀, ?_⟩
    rw [hk, Int.toNat_of_nonneg hr0]

/-- A poll of an id being deleted completed with events: `uring_cb` runs the user callback and,
    the mask being `0`, releases the entry. -/
theorem Inv.of_dispatch_release (hv : s.Inv) {id : ℕ} {c : ECb} (hk : s.kst ud = .posted r)
    (hr0 : 0 ≤ r) (hc : s.cbs ud = some (.pollCb id)) (hcb : (s.epoll.entries id).cb = some (c, 0))
    (hu : callbacks u = Function.update (callbacks s.uring) ud none) (hinv : u.Inv) :
    let s' : Emu ECb := { s with
      uring := u
      kst := Function.update s.kst ud .idle
      epoll := s.epoll.free id
      cur := Function.update s.cur id none }
    s'.Inv ∧ Effects s s' [.called id r.toNat, .released id] := by
  intro s'
  have hb := hv.books
  have hp := hv.protocol
  have hr : Reaped s s' ud := ⟨⟨r, hk⟩, hu, rfl, rfl⟩
  have hdel : s.phase id = .deleting := phase_deleting_iff.mpr ⟨c, hcb⟩
  have hact₀ : s.active id ud := ⟨hc, Or.inr (Or.inr ⟨r, hr0, hk⟩)⟩
  have huniq : ∀ x, s.active id x → x = ud := fun x hx => hp.active_unique id x ud hx hact₀
  have hnone : ∀ x, ¬ s'.active id x := by
    intro x hx
    obtain ⟨hx, hxu⟩ := hr.active_iff.mp hx
    exact hxu (huniq x hx)
  have hfree' : s'.phase id = .free := phase_free_iff.mpr (by simp [s', Table.free])
  have hent : ∀ j, j ≠ id → s'.epoll.entries j = s.epoll.entries j :=
    fun j hj => Function.update_of_ne hj _ _
  have hcne : ∀ j, j ≠ id → s'.cur j = s.cur j := fun j hj => Function.update_of_ne hj _ _
  have hw : ∀ g w, s.cbs w = some (.waker g) → w ≠ ud := fun _ _ => ne_of_waker_of_poll hc
  have hne : ∀ id', id' ≠ id → ∀ x r', 0 ≤ r' → s.kst x = .posted r' →
      s.cbs x = some (.pollCb id') → x ≠ ud := fun _ hid' _ _ _ _ => ne_of_poll_of_ne hc hid'
  have hother : ∀ id', id' ≠ id → ∀ x, s'.active id' x ↔ s.active id' x :=
    fun _ hid' => hr.active_of_other hc hid'
  refine ⟨⟨hb.of_reaped hr hinv (fun _ _ _ => rfl) hb.fresh, hv.vector.free hcb rfl, ?_⟩, ?_⟩
  · refine hp.of_step id (fun x i hx => hp.poll_lt x i (hr.cbs_some hx).2)
      (fun j hj => phase_of_cb (by rw [hent j hj])) (fun j hj _ => by rw [hent j hj]) hcne le_rfl
      hother (fun g id' hid' _ hc' => hr.current rfl (hw g) (hother id' hid') (hne id' hid') hc')
      (fun x _ hx => absurd hx (hnone x)) (fun _ => ⟨Function.update_self _ _ _, hnone⟩)
      (fun h => by rw [hfree'] at h; cases h) (fun h => by rw [hfree'] at h; cases h) ?_
    -- the fiber deleting `id` finds its remove failing; the others were stale already
    intro g st hg hne'
    by_cases hsid : st.id = id
    · by_cases hcg : s.cur id = some g
      · obtain ⟨g', hg', -, hc'⟩ := hp.deleting_cur id hdel
        rw [hcg, Option.some.injEq] at hg'
        subst hg'
        exact hr.stale_of_current hb rfl hact₀ huniq hc'
      · exact hr.stale rfl (hw g) (hp.stale g st hg (by rw [hsid]; exact hcg))
    · exact hr.stale rfl (hw g) (hp.stale g st hg (by rwa [hcne _ hsid] at hne'))
  · refine ⟨fun id' h => ?_, fun id' r' h => ?_, fun j h => ?_⟩
    · simp only [List.mem_cons, List.not_mem_nil, or_false, reduceCtorEq, false_or,
        Event.released.injEq] at h
      subst h
      refine ⟨hdel, fun x hx => ⟨fun ha' => ?_, fun hq => ?_⟩, hfree', hnone⟩
      · obtain rfl := huniq x ⟨hx, Or.inr (Or.inl ha')⟩
        rw [hk] at ha'
        cases ha'
      · obtain rfl := huniq x ⟨hx, Or.inl hq⟩
        exact hb.not_mem_of_posted hk hq
    · simp only [List.mem_cons, List.not_mem_nil, or_false, reduceCtorEq,
        Event.called.injEq] at h
      obtain ⟨rfl, rfl⟩ := h
      refine ⟨by rw [hdel]; simp, ud, hact₀, ?_⟩
      rw [hk, Int.toNat_of_nonneg hr0]
    · have hj : j ≠ id := by
        rintro rfl
        simp at h
      exact phase_of_cb (by rw [hent j hj])

/-- **The main loop reaps a posted completion** and keeps the invariant. -/
theorem Inv.dispatch_some (hv : s.Inv) (hk : s.kst ud = .posted r) :
    ∃ s' evs, s.dispatch ud = some (s', evs) ∧ s'.Inv ∧ Effects s s' evs := by
  have hb := hv.books
  obtain ⟨c, hc⟩ := Option.ne_none_iff_exists'.mp (hb.kst_cbs ud (by rw [hk]; simp))
  obtain ⟨u, hd, hu, hout, hinv⟩ := callbacks_dispatch hb.uring hc
  cases c with
  | waker f =>
    obtain ⟨-, -, id, hf⟩ := hb.waker_kind ud f hc
    exact ⟨_, _, dispatch_waker hk hd hf, hv.of_dispatch_waker hk hc hf hu hinv,
      Effects.none fun _ => rfl⟩
  | pollCb id =>
    have hid : id < s.epoll.size := hv.protocol.poll_lt ud id hc
    rw [dispatch_poll hk hd]
    by_cases hr0 : r < 0
    · exact ⟨_, _, uringCb_failed hid hr0, hv.of_dispatch_failed hk hr0 hc hu hinv,
        Effects.none fun _ => rfl⟩
    · have hr0' : 0 ≤ r := by omega
      -- the poll brings events, so its id is in use
      have hact : s.active id ud := ⟨hc, Or.inr (Or.inr ⟨r, hr0', hk⟩)⟩
      have hused : (s.epoll.entries id).cb ≠ none := fun h =>
        (hv.protocol.free_idle id (phase_free_iff.mpr h)).2 ud hact
      obtain ⟨⟨c, m⟩, hcb⟩ := Option.ne_none_iff_exists'.mp hused
      by_cases hm : m = 0
      · subst hm
        exact ⟨_, _, uringCb_release hid hr0' hcb, hv.of_dispatch_release hk hr0' hc hcb hu hinv⟩
      · -- the entry it frees makes room for the next poll
        have hlt : u.outstanding < 2 ^ 31 := by
          have := outstanding_le_of_inv hb.uring
          omega
        obtain ⟨u₂, ud₂, hsub, hfree, hu₂, -, hinv₂⟩ := callbacks_submit hinv hlt (.pollCb id)
        refine ⟨_, _, ?_, hv.of_dispatch_rearm hk hr0' hc hcb hm hu hfree hu₂ hinv hinv₂⟩
        rw [uringCb_rearm (s := { s with uring := u, kst := Function.update s.kst ud .idle }) hid
          hr0' hcb hm]
        simp [epollAddInternal, hsub]

end Dispatch

/-- **A woken fiber resumes** and keeps the invariant. -/
theorem Inv.resume_some (hv : s.Inv) {f id : ℕ} {r : ℤ} (hf : s.fibers f = some (.woken id r)) :
    ∃ s' evs, s.resume f = some (s', evs) ∧ s'.Inv ∧ Effects s s' evs := by
  by_cases hr : r = 0
  · subst hr
    exact ⟨_, _, resume_release hf, hv.of_resume_release hf⟩
  · exact ⟨_, _, resume_failed hf hr, hv.of_resume_failed hf hr, Effects.none fun _ => rfl⟩

end Emu

end UringEpoll

end Helio
