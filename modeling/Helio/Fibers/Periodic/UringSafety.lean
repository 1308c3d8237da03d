import Helio.Fibers.Periodic.Uring

/-!
# Periodic tasks on `UringProactor`: every run is safe

The invariant comes in two layers.

* `Books`: where each `centries_` entry in flight is. Its user data is queued once, or the
  kernel holds it (an armed timeout, a posted completion), never both. A timer's completion is
  `-ETIME` or `-ECANCELED`. A waker belongs to a suspended fiber, and a fiber has one. The
  entries in flight and the pairs waiting to be re-armed are at most `2 ^ 31`.
* `Owns`: what each item owns. The `Ledger` of `ProactorBase` holds. A timer belongs to a live
  item, and to the id the item was added under. An item has one timer at most, and a live item
  has one or waits in `schedule_periodic_list_`, never both. The timer of an item in the map is
  `val1`. A timeout-remove whose target is the timer of an item still in the map is queued
  ahead of that timeout. This last clause is what ring order pays for: the remove was
  submitted for an item that has since been deleted, whose entry a new timeout took after it.
  Only timers of cancelled items complete with `-ECANCELED`.

Every step of the contract keeps both (`Inv.step`), and from every reachable state every
enabled step is defined (`Inv.exec_some`): no item is read or deleted after its `delete`, and
no `CHECK` fails.
-/

set_option autoImplicit false

namespace Helio

namespace Periodic

open Completion UringEpoll Trace

namespace UringProactor

variable {T : Type}

/-- **Where each entry in flight is.** -/
structure Books (s : State T) : Prop where
  uring : s.uring.Inv
  sq_nodup : (s.sq.map Sqe.ud).Nodup
  sq_idle : ∀ e ∈ s.sq, s.kst e.ud = .idle ∧ s.cbs e.ud ≠ none
  kst_cbs : ∀ ud, s.kst ud ≠ .idle → s.cbs ud ≠ none
  timer_sqe : ∀ ud id p t, s.cbs ud = some (.periodicCb id p) → Sqe.timeoutRemove ud t ∉ s.sq
  timer_res : ∀ ud id p r, s.cbs ud = some (.periodicCb id p) → s.kst ud = .posted r →
    r = -ETIME ∨ r = -ECANCELED
  timer_pending : ∀ ud id p, s.cbs ud = some (.periodicCb id p) →
    Sqe.timeout ud ∈ s.sq ∨ s.kst ud ≠ .idle
  waker_kind : ∀ ud f, s.cbs ud = some (.waker f) →
    Sqe.timeout ud ∉ s.sq ∧ s.kst ud ≠ .armed ∧ s.suspended f = true
  waker_lt : ∀ ud f, s.cbs ud = some (.waker f) → f < s.nextFiber
  waker_unique : ∀ w w' f, s.cbs w = some (.waker f) → s.cbs w' = some (.waker f) → w = w'
  budget : s.uring.outstanding + s.schedulePeriodicList.length ≤ 2 ^ 31

/-- **What each item owns.** -/
structure Owns (s : State T) : Prop where
  ledger : s.toBase.Ledger
  timer_item : ∀ ud id p, s.cbs ud = some (.periodicCb id p) → s.items p ≠ none ∧ .added id p ∈ s.log
  timer_unique : ∀ ud ud' id id' p, s.cbs ud = some (.periodicCb id p) →
    s.cbs ud' = some (.periodicCb id' p) → ud = ud'
  sched_in_map : ∀ id p, (id, p) ∈ s.schedulePeriodicList → s.periodicMap id = some p
  sched_no_timer : ∀ id p, (id, p) ∈ s.schedulePeriodicList → ∀ ud id', s.cbs ud ≠ some (.periodicCb id' p)
  sched_nodup : (s.schedulePeriodicList.map Prod.snd).Nodup
  owned : ∀ p, s.items p ≠ none →
    (∃ ud id, s.cbs ud = some (.periodicCb id p)) ∨ ∃ id, (id, p) ∈ s.schedulePeriodicList
  val1_timer : ∀ ud id p it, s.cbs ud = some (.periodicCb id p) → s.items p = some it →
    it.inMap = true → ud = it.val1
  remove_live : ∀ w t id p it, Sqe.timeoutRemove w t ∈ s.sq → s.cbs t = some (.periodicCb id p) →
    s.items p = some it → it.inMap = true → [Sqe.timeoutRemove w t, Sqe.timeout t].Sublist s.sq
  cancelled_res : ∀ ud id p it, s.cbs ud = some (.periodicCb id p) →
    s.kst ud = .posted (-ECANCELED) → s.items p = some it → it.inMap = false

/-- The invariant of the proactor's periodic tasks. -/
structure Inv (s : State T) : Prop where
  books : Books s
  owns : Owns s

theorem cbs_init (k : ℕ) (ud : ℕ) : (init (2 ^ k) : State T).cbs ud = none := by
  unfold State.cbs Uring.callback
  split
  · -- every entry of a new table is free
    unfold Table.table
    split <;> rfl
  · rfl

theorem Inv.of_init {k : ℕ} (hk : k ≤ 31) : Inv (init (2 ^ k) : State T) where
  books :=
    { uring := Uring.Inv.of_init hk
      sq_nodup := List.nodup_nil
      sq_idle := by simp [init]
      kst_cbs := by simp [init]
      timer_sqe := by simp [cbs_init]
      timer_res := by simp [cbs_init]
      timer_pending := by simp [cbs_init]
      waker_kind := by simp [cbs_init]
      waker_lt := by simp [cbs_init]
      waker_unique := by simp [cbs_init]
      budget := by simp [init, Uring.init, Table.outstanding, Table.create, Table.inFlight] }
  owns :=
    { ledger := Base.Ledger.of_init
      timer_item := by simp [cbs_init]
      timer_unique := by simp [cbs_init]
      sched_in_map := by simp [init]
      sched_no_timer := by simp [init]
      sched_nodup := List.nodup_nil
      owned := by simp [init, Base.init]
      val1_timer := by simp [cbs_init]
      remove_live := by simp [init]
      cancelled_res := by simp [cbs_init] }

/-! ## Small facts the steps share -/

section Facts

theorem update_ne_none {α : Type} {f : ℕ → Option α} {x ud : ℕ} {c : α} (h : f x ≠ none) :
    Function.update f ud (some c) x ≠ none := by
  by_cases hx : x = ud
  · subst hx
    simp
  · rwa [Function.update_of_ne hx]

/-- A submission queued under a user data that nothing queued carries keeps the queue's user
    data apart. -/
theorem nodup_concat {sq : List Sqe} {e : Sqe} (h : (sq.map Sqe.ud).Nodup)
    (he : ∀ e' ∈ sq, e'.ud ≠ e.ud) : ((sq ++ [e]).map Sqe.ud).Nodup := by
  rw [List.map_append, List.nodup_append]
  refine ⟨h, List.nodup_singleton _, ?_⟩
  intro a ha b hb
  obtain ⟨e', he', rfl⟩ := List.mem_map.mp ha
  rw [List.map_singleton, List.mem_singleton] at hb
  exact hb ▸ he e' he'

theorem mem_of_mem_concat {sq : List Sqe} {e x : Sqe} (h : x ∈ sq ++ [e]) (hne : x ≠ e) : x ∈ sq := by
  rcases List.mem_append.mp h with h | h
  · exact h
  · exact absurd (List.mem_singleton.mp h) hne

end Facts

/-! ## A new entry under a free user data

`SchedulePeriodic` and `CancelPeriodicInternal` both take a free entry of `centries_` and
queue one submission under it. -/

section Enqueue

variable {s s' : State T}

/-- A free user data is neither held by the kernel nor queued. -/
theorem Books.free (hb : Books s) {w : ℕ} (hfree : s.cbs w = none) :
    s.kst w = .idle ∧ ∀ e ∈ s.sq, e.ud ≠ w := by
  refine ⟨?_, fun e he h => (hb.sq_idle e he).2 (h ▸ hfree)⟩
  by_contra h
  exact hb.kst_cbs w h hfree

/-- **A submission queued under a free user data** keeps the queue's user data apart, and
    every queued or held user data registered. -/
theorem Books.enqueue (hb : Books s) {w : ℕ} {c : PCb} {e : Sqe} (hfree : s.cbs w = none)
    (he : e.ud = w) (hcbs : s'.cbs = Function.update s.cbs w (some c))
    (hsq : s'.sq = s.sq ++ [e]) (hkst : s'.kst = s.kst) :
    (s'.sq.map Sqe.ud).Nodup ∧ (∀ e' ∈ s'.sq, s'.kst e'.ud = .idle ∧ s'.cbs e'.ud ≠ none) ∧
      ∀ ud, s'.kst ud ≠ .idle → s'.cbs ud ≠ none := by
  obtain ⟨hidle, hnq⟩ := hb.free hfree
  refine ⟨?_, fun e' he' => ?_, fun x hx => ?_⟩
  · rw [hsq]
    exact nodup_concat hb.sq_nodup (he ▸ hnq)
  · rw [hsq] at he'
    rw [hkst, hcbs]
    rcases List.mem_append.mp he' with he' | he'
    · exact ⟨(hb.sq_idle e' he').1, update_ne_none (hb.sq_idle e' he').2⟩
    · rw [List.mem_singleton.mp he', he]
      exact ⟨hidle, by simp⟩
  · rw [hkst] at hx
    rw [hcbs]
    exact update_ne_none (hb.kst_cbs x hx)

end Enqueue

/-! ## Re-arming -/

section Rearm

variable {s s' : State T}

theorem schedulePeriodic_eq {id p ud : ℕ} {u : Uring PCb} {it : PeriodicItem T}
    (hsub : s.uring.getSubmitEntry (some (.periodicCb id p)) = some (u, ud))
    (hit : s.items p = some it) :
    schedulePeriodic s id p = some { s with
      toBase := { s.toBase with items := Function.update s.items p (some { it with val1 := ud }) }
      uring := u
      sq := s.sq ++ [.timeout ud] } := by
  simp [schedulePeriodic, hsub, Base.setItem, hit]

/-- **`SchedulePeriodic` of the first pair of the list**: a timeout under a free user data,
    which becomes the item's `val1`. -/
theorem Inv.rearm_next (hv : Inv s) {id p ud : ℕ} {rest : List (ℕ × ℕ)} {it : PeriodicItem T}
    (hs : s.schedulePeriodicList = (id, p) :: rest) (hit : s.items p = some it)
    (hfree : s.cbs ud = none) (hcbs : s'.cbs = Function.update s.cbs ud (some (.periodicCb id p)))
    (hu : s'.uring.Inv) (hout : s'.uring.outstanding = s.uring.outstanding + 1)
    (hbase : s'.toBase =
      { s.toBase with items := Function.update s.items p (some { it with val1 := ud }) })
    (hsq : s'.sq = s.sq ++ [.timeout ud]) (hkst : s'.kst = s.kst)
    (hsched : s'.schedulePeriodicList = rest) (hsusp : s'.suspended = s.suspended)
    (hnf : s'.nextFiber = s.nextFiber) : Inv s' := by
  obtain ⟨hb, ho⟩ := hv
  have hitems : s'.items = Function.update s.items p (some { it with val1 := ud }) := by
    rw [hbase]
  have hmap : s'.periodicMap = s.periodicMap := by rw [hbase]
  have hlog : s'.log = s.log := by rw [hbase]
  -- the new user data was free, so neither queued nor held by the kernel
  obtain ⟨hidle, hnq⟩ := hb.free hfree
  have hp : (id, p) ∈ s.schedulePeriodicList := by
    rw [hs]
    exact List.mem_cons_self
  have hno : ∀ ud' id', s.cbs ud' ≠ some (.periodicCb id' p) := ho.sched_no_timer id p hp
  have hrest : ∀ id' q, (id', q) ∈ rest → q ≠ p := by
    intro id' q hq hqp
    have hnd := ho.sched_nodup
    rw [hs, List.map_cons, List.nodup_cons] at hnd
    exact hnd.1 (hqp ▸ List.mem_map.mpr ⟨(id', q), hq, rfl⟩)
  -- a timer other than the new one is an old one
  have hold : ∀ ud' c, ud' ≠ ud → s'.cbs ud' = some c → s.cbs ud' = some c := by
    intro ud' c hne h
    rwa [hcbs, Function.update_of_ne hne] at h
  have hadd : .added id p ∈ s.log := ((ho.ledger.map_iff id p).mp (ho.sched_in_map id p hp)).1
  -- a timer is the new one, of `p`, or an old one of another item
  have hcases : ∀ x id' q, s'.cbs x = some (.periodicCb id' q) →
      (x = ud ∧ id' = id ∧ q = p) ∨ (x ≠ ud ∧ q ≠ p ∧ s.cbs x = some (.periodicCb id' q)) := by
    intro x id' q hx
    by_cases hxu : x = ud
    · subst hxu
      rw [hcbs, Function.update_self, Option.some.injEq, PCb.periodicCb.injEq] at hx
      exact Or.inl ⟨rfl, hx.1.symm, hx.2.symm⟩
    · have h := hold x _ hxu hx
      exact Or.inr ⟨hxu, fun hqp => hno x id' (hqp ▸ h), h⟩
  have hsched_old : ∀ x, x ∈ rest → x ∈ s.schedulePeriodicList := fun x hx => by
    rw [hs]
    exact List.mem_cons_of_mem _ hx
  obtain ⟨hnd, hsq_idle, hkst_cbs⟩ := hb.enqueue hfree rfl hcbs hsq hkst
  constructor
  · constructor
    · exact hu
    · exact hnd
    · exact hsq_idle
    · exact hkst_cbs
    · intro x id' q t hx hrem
      rw [hsq] at hrem
      have hrem' := mem_of_mem_concat hrem (by simp)
      by_cases hxu : x = ud
      · subst hxu
        exact hnq _ hrem' rfl
      · exact hb.timer_sqe x id' q t (hold x _ hxu hx) hrem'
    · intro x id' q r hx hr
      rw [hkst] at hr
      by_cases hxu : x = ud
      · subst hxu
        rw [hidle] at hr
        cases hr
      · exact hb.timer_res x id' q r (hold x _ hxu hx) hr
    · intro x id' q hx
      rw [hsq, hkst]
      by_cases hxu : x = ud
      · subst hxu
        exact Or.inl (List.mem_append_right _ (List.mem_singleton.mpr rfl))
      · rcases hb.timer_pending x id' q (hold x _ hxu hx) with h | h
        · exact Or.inl (List.mem_append_left _ h)
        · exact Or.inr h
    · intro x f hx
      by_cases hxu : x = ud
      · subst hxu
        simp [hcbs] at hx
      · obtain ⟨h1, h2, h3⟩ := hb.waker_kind x f (hold x _ hxu hx)
        refine ⟨fun h => h1 (mem_of_mem_concat (hsq ▸ h) ?_), hkst ▸ h2, hsusp ▸ h3⟩
        simp [hxu]
    · intro x f hx
      by_cases hxu : x = ud
      · subst hxu
        simp [hcbs] at hx
      · exact hnf ▸ hb.waker_lt x f (hold x _ hxu hx)
    · intro w w' f hw hw'
      by_cases hwu : w = ud
      · subst hwu
        simp [hcbs] at hw
      · by_cases hwu' : w' = ud
        · subst hwu'
          simp [hcbs] at hw'
        · exact hb.waker_unique w w' f (hold w _ hwu hw) (hold w' _ hwu' hw')
    · have := hb.budget
      rw [hs, List.length_cons] at this
      rw [hout, hsched]
      omega
  · constructor
    · rw [hbase]
      exact ho.ledger.setItem (p := p) (f := fun it => { it with val1 := ud }) (fun _ => rfl)
        (by simp [Base.setItem, hit])
    · intro x id' q hx
      rw [hitems, hlog]
      by_cases hxu : x = ud
      · subst hxu
        rw [hcbs, Function.update_self, Option.some.injEq, PCb.periodicCb.injEq] at hx
        obtain ⟨rfl, rfl⟩ := hx
        exact ⟨by simp, hadd⟩
      · obtain ⟨h1, h2⟩ := ho.timer_item x id' q (hold x _ hxu hx)
        exact ⟨update_ne_none h1, h2⟩
    · intro x x' id₁ id₂ q hx hx'
      rcases hcases x id₁ q hx with ⟨rfl, -, rfl⟩ | ⟨-, hq, hx⟩ <;>
        rcases hcases x' id₂ q hx' with ⟨rfl, -, hq'⟩ | ⟨-, hq', hx'⟩
      · rfl
      · exact absurd rfl hq'
      · exact absurd hq' hq
      · exact ho.timer_unique x x' id₁ id₂ q hx hx'
    · intro id' q hq
      rw [hsched] at hq
      rw [hmap]
      exact ho.sched_in_map id' q (hsched_old _ hq)
    · intro id' q hq x id'' hx
      rw [hsched] at hq
      rcases hcases x id'' q hx with ⟨-, -, rfl⟩ | ⟨-, -, hx⟩
      · exact hrest id' _ hq rfl
      · exact ho.sched_no_timer id' q (hsched_old _ hq) x id'' hx
    · have hnd := ho.sched_nodup
      rw [hs, List.map_cons, List.nodup_cons] at hnd
      rw [hsched]
      exact hnd.2
    · intro q hq
      by_cases hqp : q = p
      · subst hqp
        exact Or.inl ⟨ud, id, by rw [hcbs, Function.update_self]⟩
      · rw [hitems, Function.update_of_ne hqp] at hq
        rcases ho.owned q hq with ⟨x, id', hx⟩ | ⟨id', hid'⟩
        · have hxu : x ≠ ud := fun h => by rw [h, hfree] at hx; cases hx
          exact Or.inl ⟨x, id', by rw [hcbs, Function.update_of_ne hxu]; exact hx⟩
        · rw [hs] at hid'
          rcases List.mem_cons.mp hid' with h | h
          · exact absurd (Prod.mk.inj h).2 hqp
          · exact Or.inr ⟨id', hsched ▸ h⟩
    · intro x id' q it' hx hit' hin
      rcases hcases x id' q hx with ⟨rfl, -, rfl⟩ | ⟨-, hq, hx⟩
      · rw [hitems, Function.update_self, Option.some.injEq] at hit'
        rw [← hit']
      · rw [hitems, Function.update_of_ne hq] at hit'
        exact ho.val1_timer x id' q it' hx hit' hin
    · intro w t id' q it' hw ht hit' hin
      rw [hsq] at hw ⊢
      have hw' := mem_of_mem_concat hw (by simp)
      rcases hcases t id' q ht with ⟨rfl, -, -⟩ | ⟨-, hq, ht⟩
      · exact (List.singleton_sublist.mpr hw').append (List.Sublist.refl _)
      · rw [hitems, Function.update_of_ne hq] at hit'
        exact (ho.remove_live w t id' q it' hw' ht hit' hin).trans (List.sublist_append_left _ _)
    · intro x id' q it' hx hk hit'
      rw [hkst] at hk
      rcases hcases x id' q hx with ⟨rfl, -, -⟩ | ⟨-, hq, hx⟩
      · rw [hidle] at hk
        cases hk
      · rw [hitems, Function.update_of_ne hq] at hit'
        exact ho.cancelled_res x id' q it' hx hk hit'

end Rearm

/-! ## `AddPeriodic` -/

section Add

variable {s : State T}

/-- With the list empty, `AddPeriodic` is the re-arm of a list holding the new pair only. -/
theorem addPeriodic_eq_rearm (hs : s.schedulePeriodicList = []) {ms : ℕ} {f : T} {b : Base T}
    {id p : ℕ} (h : s.toBase.addPeriodic ms f = some (b, id, p)) :
    addPeriodic s ms f = rearm { s with toBase := b, schedulePeriodicList := [(id, p)] } := by
  simp only [addPeriodic, h, rearm]
  rw [← hs]
  rfl

/-- **`AddPeriodic` up to `SchedulePeriodic`**: the new item waits to be armed as if it were
    on the list. -/
theorem Inv.add_to_list (hv : Inv s) (hs : s.schedulePeriodicList = [])
    (hlt : s.uring.outstanding < 2 ^ 31) {ms : ℕ} {f : T} {b : Base T} {id p : ℕ}
    (h : s.toBase.addPeriodic ms f = some (b, id, p)) :
    Inv { s with toBase := b, schedulePeriodicList := [(id, p)] } := by
  obtain ⟨hb, ho⟩ := hv
  have hl' := ho.ledger.addPeriodic h
  obtain ⟨hfree, rfl, rfl, rfl⟩ := Base.addPeriodic_eq h
  -- the new item is at a fresh address, which no timer names
  have hnone : s.items s.nextItem = none := ho.ledger.items_fresh (Nat.le_refl _)
  have hne : ∀ x id' q, s.cbs x = some (.periodicCb id' q) → q ≠ s.nextItem := by
    intro x id' q hx hq
    exact (ho.timer_item x id' q hx).1 (hq ▸ hnone)
  refine ⟨{ hb with budget := ?_ }, ?_⟩
  · show s.uring.outstanding + 1 ≤ 2 ^ 31
    omega
  constructor <;> try dsimp only
  · exact hl'
  · intro x id' q hx
    obtain ⟨h1, h2⟩ := ho.timer_item x id' q hx
    exact ⟨by rwa [Function.update_of_ne (hne x id' q hx)], List.mem_append_left _ h2⟩
  · exact ho.timer_unique
  · intro id' q hq
    rw [List.mem_singleton, Prod.mk.injEq] at hq
    obtain ⟨rfl, rfl⟩ := hq
    exact Function.update_self ..
  · intro id' q hq x id'' hx
    rw [List.mem_singleton, Prod.mk.injEq] at hq
    obtain ⟨-, rfl⟩ := hq
    exact hne x id'' _ hx rfl
  · exact List.nodup_singleton _
  · intro q hq
    by_cases hqp : q = s.nextItem
    · exact Or.inr ⟨s.nextTaskId, by simp [hqp]⟩
    · rw [Function.update_of_ne hqp] at hq
      rcases ho.owned q hq with h | ⟨id', hid'⟩
      · exact Or.inl h
      · rw [hs] at hid'
        cases hid'
  · intro x id' q it hx hit hin
    rw [Function.update_of_ne (hne x id' q hx)] at hit
    exact ho.val1_timer x id' q it hx hit hin
  · intro w t id' q it hw ht hit hin
    rw [Function.update_of_ne (hne t id' q ht)] at hit
    exact ho.remove_live w t id' q it hw ht hit hin
  · intro x id' q it hx hk hit
    rw [Function.update_of_ne (hne x id' q hx)] at hit
    exact ho.cancelled_res x id' q it hx hk hit

end Add

/-! ## `CancelPeriodic` -/

section Cancel

variable {s s' : State T}

theorem cancelPeriodic_eq {id p v₁ v₂ w : ℕ} {b : Base T} {u : Uring PCb}
    (hc : s.toBase.cancelPeriodic id = some (b, p, v₁, v₂))
    (hsub : s.uring.getSubmitEntry (some (.waker s.nextFiber)) = some (u, w)) :
    cancelPeriodic s id = some { s with
      toBase := b
      uring := u
      sq := s.sq ++ [.timeoutRemove w v₁]
      suspended := Function.update s.suspended s.nextFiber true
      nextFiber := s.nextFiber + 1 } := by
  simp [cancelPeriodic, hc, cancelPeriodicInternal, hsub]

/-- **`CancelPeriodic`** takes the item out of the map and queues a remove of its timer,
    `val1`, whose waker belongs to a new suspended fiber. -/
theorem Inv.cancel_next (hv : Inv s) (hs : s.schedulePeriodicList = [])
    (hlt : s.uring.outstanding < 2 ^ 31) {id p v₁ v₂ w : ℕ}
    (hc : s.toBase.cancelPeriodic id = some (s'.toBase, p, v₁, v₂)) (hfree : s.cbs w = none)
    (hcbs : s'.cbs = Function.update s.cbs w (some (.waker s.nextFiber)))
    (hu : s'.uring.Inv) (hout : s'.uring.outstanding = s.uring.outstanding + 1)
    (hsq : s'.sq = s.sq ++ [.timeoutRemove w v₁]) (hkst : s'.kst = s.kst)
    (hsched : s'.schedulePeriodicList = [])
    (hsusp : s'.suspended = Function.update s.suspended s.nextFiber true)
    (hnf : s'.nextFiber = s.nextFiber + 1) : Inv s' := by
  obtain ⟨hb, ho⟩ := hv
  have hl' := ho.ledger.cancelPeriodic hc
  obtain ⟨it, hmap, hit, rfl, -, hbase⟩ := Base.cancelPeriodic_eq hc
  have hitems : s'.items = Function.update s.items p (some { it with inMap := false }) := by
    rw [hbase]
  have hlog : s'.log = s.log ++ [.cancelled id p] := by rw [hbase]
  have hin : it.inMap = true := (ho.ledger.in_map p it hit).mpr ⟨id, hmap⟩
  -- the item's timer is `val1`
  have htimer : ∃ idt, s.cbs it.val1 = some (.periodicCb idt p) := by
    rcases ho.owned p (by simp [hit]) with ⟨t, idt, ht⟩ | ⟨_, hid⟩
    · exact ⟨idt, ho.val1_timer t idt p it ht hit hin ▸ ht⟩
    · rw [hs] at hid
      cases hid
  obtain ⟨hidle, hnq⟩ := hb.free hfree
  have hold : ∀ x c, x ≠ w → s'.cbs x = some c → s.cbs x = some c := by
    intro x c hne h
    rwa [hcbs, Function.update_of_ne hne] at h
  -- a timer is an old one
  have htm : ∀ x id' q, s'.cbs x = some (.periodicCb id' q) →
      x ≠ w ∧ s.cbs x = some (.periodicCb id' q) := by
    intro x id' q hx
    have hxw : x ≠ w := fun h => by simp [h, hcbs] at hx
    exact ⟨hxw, hold x _ hxw hx⟩
  -- an item still in the map is another one, unchanged
  have hkept : ∀ q it', s'.items q = some it' → it'.inMap = true →
      q ≠ p ∧ s.items q = some it' := by
    intro q it' hit' hin'
    rw [hitems] at hit'
    have hqp : q ≠ p := fun hqp => by
      subst hqp
      rw [Function.update_self, Option.some.injEq] at hit'
      rw [← hit'] at hin'
      cases hin'
    rw [Function.update_of_ne hqp] at hit'
    exact ⟨hqp, hit'⟩
  obtain ⟨hnd, hsq_idle, hkst_cbs⟩ := hb.enqueue hfree rfl hcbs hsq hkst
  constructor
  · constructor
    · exact hu
    · exact hnd
    · exact hsq_idle
    · exact hkst_cbs
    · intro x id' q t hx hrem
      obtain ⟨hxw, hx⟩ := htm x id' q hx
      rw [hsq] at hrem
      exact hb.timer_sqe x id' q t hx (mem_of_mem_concat hrem (by simp [hxw]))
    · intro x id' q r hx hr
      rw [hkst] at hr
      exact hb.timer_res x id' q r (htm x id' q hx).2 hr
    · intro x id' q hx
      rw [hsq, hkst]
      rcases hb.timer_pending x id' q (htm x id' q hx).2 with h | h
      · exact Or.inl (List.mem_append_left _ h)
      · exact Or.inr h
    · intro x f hx
      rw [hsq, hkst, hsusp]
      by_cases hxw : x = w
      · subst hxw
        rw [hcbs, Function.update_self, Option.some.injEq, PCb.waker.injEq] at hx
        subst hx
        refine ⟨fun h => ?_, by rw [hidle]; simp, by simp⟩
        exact hnq _ (mem_of_mem_concat h (by simp)) rfl
      · obtain ⟨h1, h2, h3⟩ := hb.waker_kind x f (hold x _ hxw hx)
        have hf : f ≠ s.nextFiber := Nat.ne_of_lt (hb.waker_lt x f (hold x _ hxw hx))
        exact ⟨fun h => h1 (mem_of_mem_concat h (by simp)), h2, by
          rw [Function.update_of_ne hf]
          exact h3⟩
    · intro x f hx
      rw [hnf]
      by_cases hxw : x = w
      · subst hxw
        rw [hcbs, Function.update_self, Option.some.injEq, PCb.waker.injEq] at hx
        omega
      · have := hb.waker_lt x f (hold x _ hxw hx)
        omega
    · -- the new waker's fiber is new
      intro x x' f hx hx'
      by_cases hxw : x = w <;> by_cases hxw' : x' = w
      · rw [hxw, hxw']
      · rw [hxw, hcbs, Function.update_self, Option.some.injEq, PCb.waker.injEq] at hx
        subst hx
        exact absurd (hb.waker_lt x' _ (hold x' _ hxw' hx')) (Nat.lt_irrefl _)
      · rw [hxw', hcbs, Function.update_self, Option.some.injEq, PCb.waker.injEq] at hx'
        subst hx'
        exact absurd (hb.waker_lt x _ (hold x _ hxw hx)) (Nat.lt_irrefl _)
      · exact hb.waker_unique x x' f (hold x _ hxw hx) (hold x' _ hxw' hx')
    · rw [hout, hsched, List.length_nil]
      omega
  · constructor
    · exact hl'
    · intro x id' q hx
      obtain ⟨h1, h2⟩ := ho.timer_item x id' q (htm x id' q hx).2
      rw [hitems, hlog]
      exact ⟨update_ne_none h1, List.mem_append_left _ h2⟩
    · intro x x' id₁ id₂ q hx hx'
      exact ho.timer_unique x x' id₁ id₂ q (htm x id₁ q hx).2 (htm x' id₂ q hx').2
    · intro id' q hq
      rw [hsched] at hq
      cases hq
    · intro id' q hq
      rw [hsched] at hq
      cases hq
    · rw [hsched]
      exact List.nodup_nil
    · intro q hq
      rw [hitems] at hq
      by_cases hqp : q = p
      · subst hqp
        obtain ⟨idt, ht⟩ := htimer
        have htw : it.val1 ≠ w := fun h => by rw [h, hfree] at ht; cases ht
        exact Or.inl ⟨it.val1, idt, by rw [hcbs, Function.update_of_ne htw]; exact ht⟩
      · rw [Function.update_of_ne hqp] at hq
        rcases ho.owned q hq with ⟨x, id', hx⟩ | ⟨_, hid⟩
        · have hxw : x ≠ w := fun h => by rw [h, hfree] at hx; cases hx
          exact Or.inl ⟨x, id', by rw [hcbs, Function.update_of_ne hxw]; exact hx⟩
        · rw [hs] at hid
          cases hid
    · intro x id' q it' hx hit' hin'
      exact ho.val1_timer x id' q it' (htm x id' q hx).2 (hkept q it' hit' hin').2 hin'
    · intro w' t id' q it' hw' ht hit' hin'
      obtain ⟨hqp, hit'⟩ := hkept q it' hit' hin'
      have ht' := (htm t id' q ht).2
      rw [hsq] at hw' ⊢
      rcases List.mem_append.mp hw' with hw' | hw'
      · exact (ho.remove_live w' t id' q it' hw' ht' hit' hin').trans (List.sublist_append_left _ _)
      · -- the new remove targets the cancelled item's timer
        rw [List.mem_singleton, Sqe.timeoutRemove.injEq] at hw'
        obtain ⟨-, rfl⟩ := hw'
        obtain ⟨idt, hv1⟩ := htimer
        rw [hv1, Option.some.injEq, PCb.periodicCb.injEq] at ht'
        exact absurd ht'.2.symm hqp
    · intro x id' q it' hx hk hit'
      rw [hitems] at hit'
      rw [hkst] at hk
      by_cases hqp : q = p
      · subst hqp
        rw [Function.update_self, Option.some.injEq] at hit'
        rw [← hit']
      · rw [Function.update_of_ne hqp] at hit'
        exact ho.cancelled_res x id' q it' (htm x id' q hx).2 hk hit'

end Cancel

/-! ## The kernel

The kernel changes only the submissions not yet taken and what it holds of each user data. -/

section Kernel

variable {s s' : State T}

/-- `s'` differs from `s` only in the kernel's part. -/
structure KernelFrame (s s' : State T) : Prop where
  uring : s'.uring = s.uring
  base : s'.toBase = s.toBase
  sched : s'.schedulePeriodicList = s.schedulePeriodicList
  suspended : s'.suspended = s.suspended
  nextFiber : s'.nextFiber = s.nextFiber

theorem KernelFrame.cbs (hf : KernelFrame s s') : s'.cbs = s.cbs := by
  funext ud
  simp only [State.cbs, hf.uring]

/-- The kernel keeps what each item owns as long as a remove of a live item's timer is still
    ahead of its timeout, and a cancelled timer still belongs to a cancelled item. -/
theorem Owns.of_kernel (ho : Owns s) (hf : KernelFrame s s')
    (hrem : ∀ w t id p it, Sqe.timeoutRemove w t ∈ s'.sq → s.cbs t = some (.periodicCb id p) →
      s.items p = some it → it.inMap = true → [Sqe.timeoutRemove w t, Sqe.timeout t].Sublist s'.sq)
    (hcan : ∀ ud id p it, s.cbs ud = some (.periodicCb id p) →
      s'.kst ud = .posted (-ECANCELED) → s.items p = some it → it.inMap = false) : Owns s' := by
  have hcbs := hf.cbs
  have hi : s'.items = s.items := by rw [hf.base]
  have hlog : s'.log = s.log := by rw [hf.base]
  have hm : s'.periodicMap = s.periodicMap := by rw [hf.base]
  constructor
  · rw [hf.base]
    exact ho.ledger
  · rw [hcbs, hi, hlog]
    exact ho.timer_item
  · rw [hcbs]
    exact ho.timer_unique
  · rw [hf.sched, hm]
    exact ho.sched_in_map
  · rw [hf.sched, hcbs]
    exact ho.sched_no_timer
  · rw [hf.sched]
    exact ho.sched_nodup
  · rw [hi, hcbs, hf.sched]
    exact ho.owned
  · rw [hcbs, hi]
    exact ho.val1_timer
  · rw [hcbs, hi]
    exact hrem
  · rw [hcbs, hi]
    exact hcan

theorem pair_sublist_of_cons {α : Type} {a b e : α} {l : List α} (h : [a, b].Sublist (e :: l))
    (he : a ≠ e) : [a, b].Sublist l := by
  rcases List.sublist_cons_iff.mp h with h | ⟨r, hr, -⟩
  · exact h
  · exact absurd (List.cons.inj hr).1 he

/-- **The head of the queue**: its user data is idle and has a callback, and the submissions
    behind it carry other user data. -/
theorem Books.head (hb : Books s) {e : Sqe} {rest : List Sqe} (hq : s.sq = e :: rest) :
    s.kst e.ud = .idle ∧ s.cbs e.ud ≠ none ∧ (rest.map Sqe.ud).Nodup ∧
      (∀ e' ∈ rest, e'.ud ≠ e.ud) ∧ ∀ e' ∈ rest, e' ∈ s.sq := by
  have hnd := hb.sq_nodup
  rw [hq, List.map_cons, List.nodup_cons] at hnd
  obtain ⟨hidle, hcb⟩ := hb.sq_idle e (by rw [hq]; exact List.mem_cons_self)
  refine ⟨hidle, hcb, hnd.2, fun e' he' h => hnd.1 ?_, fun e' he' => ?_⟩
  · rw [← h]
    exact List.mem_map_of_mem he'
  · rw [hq]
    exact List.mem_cons_of_mem _ he'

/-- A remove still queued behind the head keeps its timeout behind it once the head is
    taken: the head carries another user data. -/
theorem Inv.remove_live_tail (hv : Inv s) {e : Sqe} {rest : List Sqe} (hq : s.sq = e :: rest)
    {w t id p : ℕ} {it : PeriodicItem T} (hw : Sqe.timeoutRemove w t ∈ rest)
    (ht : s.cbs t = some (.periodicCb id p)) (hit : s.items p = some it) (hin : it.inMap = true) :
    [Sqe.timeoutRemove w t, Sqe.timeout t].Sublist rest := by
  obtain ⟨-, -, -, hne, hmem⟩ := hv.books.head hq
  have hs := hv.owns.remove_live w t id p it (hmem _ hw) ht hit hin
  rw [hq] at hs
  exact pair_sublist_of_cons hs fun he => hne _ hw (congrArg Sqe.ud he)

/-- **The kernel takes the head of the queue** and arms it or posts its result, `k`. This is
    safe when `k` is what the head's user data may hold: the result of a timer when it is one,
    not `-ECANCELED` for a timer, and not armed for a waker. -/
theorem Inv.take_head (hv : Inv s) {e : Sqe} {rest : List Sqe} {k : KSt} (hq : s.sq = e :: rest)
    (hf : KernelFrame s s') (hsq : s'.sq = rest) (hkst : s'.kst = Function.update s.kst e.ud k)
    (hk : k ≠ .idle)
    (hres : ∀ id p r, s.cbs e.ud = some (.periodicCb id p) → k = .posted r →
      r = -ETIME ∨ r = -ECANCELED)
    (hcan : ∀ id p, s.cbs e.ud = some (.periodicCb id p) → k ≠ .posted (-ECANCELED))
    (hwk : ∀ f, s.cbs e.ud = some (.waker f) → k ≠ .armed) : Inv s' := by
  obtain ⟨hb, ho⟩ := hv
  have hcbs := hf.cbs
  obtain ⟨-, hcb, hnd, hne, hmem⟩ := hb.head hq
  have hold : ∀ x, x ≠ e.ud → s'.kst x = s.kst x := fun x hx => by
    rw [hkst, Function.update_of_ne hx]
  constructor
  · constructor
    · rw [hf.uring]
      exact hb.uring
    · rw [hsq]
      exact hnd
    · intro e' he'
      rw [hsq] at he'
      rw [hcbs, hold _ (hne e' he')]
      exact hb.sq_idle e' (hmem e' he')
    · intro x hx
      rw [hcbs]
      by_cases hxe : x = e.ud
      · rw [hxe]
        exact hcb
      · rw [hold x hxe] at hx
        exact hb.kst_cbs x hx
    · intro x id p t hx hrem
      rw [hcbs] at hx
      rw [hsq] at hrem
      exact hb.timer_sqe x id p t hx (hmem _ hrem)
    · intro x id p r hx hr
      rw [hcbs] at hx
      by_cases hxe : x = e.ud
      · subst hxe
        rw [hkst, Function.update_self] at hr
        exact hres id p r hx hr
      · rw [hold x hxe] at hr
        exact hb.timer_res x id p r hx hr
    · intro x id p hx
      rw [hcbs] at hx
      rw [hsq]
      by_cases hxe : x = e.ud
      · rw [hxe, hkst, Function.update_self]
        exact Or.inr hk
      · rw [hold x hxe]
        rcases hb.timer_pending x id p hx with h | h
        · rw [hq] at h
          rcases List.mem_cons.mp h with h | h
          · exact absurd (by rw [← h]; rfl) hxe
          · exact Or.inl h
        · exact Or.inr h
    · intro x f hx
      rw [hcbs] at hx
      rw [hsq, hf.suspended]
      obtain ⟨h1, h2, h3⟩ := hb.waker_kind x f hx
      refine ⟨fun h => h1 (hmem _ h), ?_, h3⟩
      by_cases hxe : x = e.ud
      · subst hxe
        rw [hkst, Function.update_self]
        exact hwk f hx
      · rw [hold x hxe]
        exact h2
    · rw [hcbs, hf.nextFiber]
      exact hb.waker_lt
    · rw [hcbs]
      exact hb.waker_unique
    · rw [hf.uring, hf.sched]
      exact hb.budget
  · refine ho.of_kernel hf (fun w t id p it hw ht hit hin => ?_) (fun x id p it hx hc hit => ?_)
    · rw [hsq] at hw ⊢
      exact Inv.remove_live_tail ⟨hb, ho⟩ hq hw ht hit hin
    · by_cases hxe : x = e.ud
      · subst hxe
        rw [hkst, Function.update_self] at hc
        exact absurd hc (hcan id p hx)
      · rw [hold x hxe] at hc
        exact ho.cancelled_res x id p it hx hc hit

/-- A remove at the head is never a timer's user data. -/
theorem Inv.remove_head_not_timer (hv : Inv s) {ud t : ℕ} {rest : List Sqe}
    (hq : s.sq = .timeoutRemove ud t :: rest) (id p : ℕ) :
    s.cbs ud ≠ some (.periodicCb id p) := fun hx =>
  hv.books.timer_sqe ud id p t hx (by rw [hq]; exact List.mem_cons_self)

/-- **A remove cancels its armed target**: the target completes with `-ECANCELED` and the
    remove with `0`. The target's item is out of the map, since a live item's remove is ahead
    of its timeout in the queue. -/
theorem Inv.submit_cancel (hv : Inv s) {ud t : ℕ} {rest : List Sqe}
    (hq : s.sq = .timeoutRemove ud t :: rest) (harm : s.kst t = .armed) (hf : KernelFrame s s')
    (hsq : s'.sq = rest)
    (hkst : s'.kst = Function.update (Function.update s.kst t (.posted (-ECANCELED))) ud (.posted 0)) :
    Inv s' := by
  have hnot := hv.remove_head_not_timer hq
  obtain ⟨hb, ho⟩ := hv
  have hcbs := hf.cbs
  obtain ⟨hidle, hcb, hnd, hne, hmem⟩ := hb.head hq
  have hut : ud ≠ t := fun h => by
    have h1 : s.kst ud = .idle := hidle
    rw [h, harm] at h1
    cases h1
  have hnt : ∀ e' ∈ rest, e'.ud ≠ t := fun e' he' h => by
    have h1 := (hb.sq_idle e' (hmem e' he')).1
    rw [h, harm] at h1
    cases h1
  have hkud : s'.kst ud = .posted 0 := by rw [hkst, Function.update_self]
  have hkt : s'.kst t = .posted (-ECANCELED) := by
    rw [hkst, Function.update_of_ne (Ne.symm hut), Function.update_self]
  have hold : ∀ x, x ≠ ud → x ≠ t → s'.kst x = s.kst x := fun x hxu hxt => by
    rw [hkst, Function.update_of_ne hxu, Function.update_of_ne hxt]
  constructor
  · constructor
    · rw [hf.uring]
      exact hb.uring
    · rw [hsq]
      exact hnd
    · intro e' he'
      rw [hsq] at he'
      rw [hcbs, hold _ (hne e' he') (hnt e' he')]
      exact hb.sq_idle e' (hmem e' he')
    · intro x hx
      rw [hcbs]
      by_cases hxu : x = ud
      · rw [hxu]
        exact hcb
      by_cases hxt : x = t
      · rw [hxt]
        exact hb.kst_cbs t (by rw [harm]; simp)
      rw [hold x hxu hxt] at hx
      exact hb.kst_cbs x hx
    · intro x id p t' hx hrem
      rw [hcbs] at hx
      rw [hsq] at hrem
      exact hb.timer_sqe x id p t' hx (hmem _ hrem)
    · intro x id p r hx hr
      rw [hcbs] at hx
      by_cases hxu : x = ud
      · exact absurd hx (hxu ▸ hnot id p)
      by_cases hxt : x = t
      · rw [hxt, hkt, KSt.posted.injEq] at hr
        exact Or.inr hr.symm
      rw [hold x hxu hxt] at hr
      exact hb.timer_res x id p r hx hr
    · intro x id p hx
      rw [hcbs] at hx
      rw [hsq]
      by_cases hxu : x = ud
      · exact absurd hx (hxu ▸ hnot id p)
      by_cases hxt : x = t
      · rw [hxt, hkt]
        exact Or.inr (by simp)
      rw [hold x hxu hxt]
      rcases hb.timer_pending x id p hx with h | h
      · rw [hq] at h
        rcases List.mem_cons.mp h with h | h
        · cases h
        · exact Or.inl h
      · exact Or.inr h
    · intro x f hx
      rw [hcbs] at hx
      rw [hsq, hf.suspended]
      obtain ⟨h1, h2, h3⟩ := hb.waker_kind x f hx
      refine ⟨fun h => h1 (hmem _ h), ?_, h3⟩
      by_cases hxu : x = ud
      · rw [hxu, hkud]
        simp
      by_cases hxt : x = t
      · exact absurd harm (hxt ▸ h2)
      rw [hold x hxu hxt]
      exact h2
    · rw [hcbs, hf.nextFiber]
      exact hb.waker_lt
    · rw [hcbs]
      exact hb.waker_unique
    · rw [hf.uring, hf.sched]
      exact hb.budget
  · refine ho.of_kernel hf (fun w t' id p it hw ht hit hin => ?_) (fun x id p it hx hc hit => ?_)
    · rw [hsq] at hw ⊢
      exact Inv.remove_live_tail ⟨hb, ho⟩ hq hw ht hit hin
    · by_cases hxu : x = ud
      · exact absurd hx (hxu ▸ hnot id p)
      by_cases hxt : x = t
      · -- were the item live, its timeout would still be queued, not armed
        subst hxt
        cases hin : it.inMap
        · rfl
        · have hs := ho.remove_live ud x id p it (by rw [hq]; exact List.mem_cons_self) hx hit hin
          have h1 : s.kst x = .idle := (hb.sq_idle (.timeout x) (hs.subset (by simp))).1
          rw [harm] at h1
          cases h1
      rw [hold x hxu hxt] at hc
      exact ho.cancelled_res x id p it hx hc hit

/-- **The kernel takes a submission.** -/
theorem Inv.submit_next (hv : Inv s) (h : submit s = some s') : Inv s' := by
  unfold submit at h
  split at h
  · cases h
  · next ud rest hq =>
    cases h
    refine hv.take_head hq ⟨rfl, rfl, rfl, rfl, rfl⟩ rfl rfl (by simp) ?_ ?_ ?_
    · intro id p r _ hr
      cases hr
    · intro id p _
      simp
    · intro f hx
      exact absurd (by rw [hq]; exact List.mem_cons_self) (hv.books.waker_kind ud f hx).1
  · next ud t rest hq =>
    split at h
    · next harm =>
      cases h
      exact hv.submit_cancel hq harm ⟨rfl, rfl, rfl, rfl, rfl⟩ rfl rfl
    · cases h
      have hnot := hv.remove_head_not_timer hq
      refine hv.take_head hq ⟨rfl, rfl, rfl, rfl, rfl⟩ rfl rfl (by simp) ?_ ?_ ?_
      · intro id p r hx
        exact absurd hx (hnot id p)
      · intro id p hx
        exact absurd hx (hnot id p)
      · intro f _
        simp

/-- **An armed timeout expires.** A waker's user data is never armed. -/
theorem Inv.fire_next (hv : Inv s) {ud : ℕ} (h : fire s ud = some s') : Inv s' := by
  unfold fire at h
  split at h
  · next harm =>
    cases h
    obtain ⟨hb, ho⟩ := hv
    have hold : ∀ x, x ≠ ud → Function.update s.kst ud (.posted (-ETIME)) x = s.kst x :=
      fun x hx => Function.update_of_ne hx _ _
    constructor
    · refine
        { hb with
          sq_idle := ?_
          kst_cbs := ?_
          timer_res := ?_
          timer_pending := ?_
          waker_kind := ?_ } <;> dsimp only
      · intro e he
        have hi := hb.sq_idle e he
        have hxu : e.ud ≠ ud := fun h => by rw [h, harm] at hi; cases hi.1
        rw [hold _ hxu]
        exact hi
      · intro x hx
        by_cases hxu : x = ud
        · rw [hxu]
          exact hb.kst_cbs ud (by rw [harm]; simp)
        · rw [hold x hxu] at hx
          exact hb.kst_cbs x hx
      · intro x id p r hx hr
        by_cases hxu : x = ud
        · rw [hxu, Function.update_self, KSt.posted.injEq] at hr
          exact Or.inl hr.symm
        · rw [hold x hxu] at hr
          exact hb.timer_res x id p r hx hr
      · intro x id p hx
        by_cases hxu : x = ud
        · rw [hxu, Function.update_self]
          exact Or.inr (by simp)
        · rw [hold x hxu]
          exact hb.timer_pending x id p hx
      · intro x f hx
        obtain ⟨h1, h2, h3⟩ := hb.waker_kind x f hx
        have hxu : x ≠ ud := fun h => h2 (h ▸ harm)
        rw [hold x hxu]
        exact ⟨h1, h2, h3⟩
    · refine ho.of_kernel ⟨rfl, rfl, rfl, rfl, rfl⟩ (fun w t id p it hw ht hit hin => ?_)
        (fun x id p it hx hc hit => ?_)
      · exact ho.remove_live w t id p it hw ht hit hin
      · dsimp only at hc
        by_cases hxu : x = ud
        · rw [hxu, Function.update_self] at hc
          simp [ETIME, ECANCELED] at hc
        · rw [hold x hxu] at hc
          exact ho.cancelled_res x id p it hx hc hit
  · cases h

end Kernel

/-! ## Reaping a completion -/

section Dispatch

variable {s s' : State T}

/-- `s'` is `s` with the completion of `ud` reaped: its entry is released and the kernel holds
    nothing of it. -/
structure Reaped (s s' : State T) (ud : ℕ) : Prop where
  uring : s'.uring.Inv
  cbs : s'.cbs = Function.update s.cbs ud none
  kst : s'.kst = Function.update s.kst ud .idle
  sq : s'.sq = s.sq
  outstanding : s'.uring.outstanding + 1 = s.uring.outstanding
  nextFiber : s'.nextFiber = s.nextFiber

theorem Reaped.cbs_some {ud x : ℕ} {c : PCb} (hr : Reaped s s' ud) (h : s'.cbs x = some c) :
    x ≠ ud ∧ s.cbs x = some c := by
  have hxu : x ≠ ud := fun hx => by
    rw [hx, hr.cbs, Function.update_self] at h
    cases h
  rw [hr.cbs, Function.update_of_ne hxu] at h
  exact ⟨hxu, h⟩

theorem Reaped.kst_of_ne {ud x : ℕ} (hr : Reaped s s' ud) (hx : x ≠ ud) : s'.kst x = s.kst x := by
  rw [hr.kst, Function.update_of_ne hx]

/-- **Reaping keeps the books**, as long as the list to re-arm grows by one pair at most, and
    only the fiber of the reaped waker changes its suspension. -/
theorem Books.release (hb : Books s) {ud : ℕ} (hk : s.kst ud ≠ .idle) (hr : Reaped s s' ud)
    (hsched : s'.schedulePeriodicList.length ≤ s.schedulePeriodicList.length + 1)
    (hsusp : ∀ x f, x ≠ ud → s.cbs x = some (.waker f) → s'.suspended f = s.suspended f) :
    Books s' := by
  have hcold : ∀ x, x ≠ ud → s'.cbs x = s.cbs x := fun x hx => by
    rw [hr.cbs, Function.update_of_ne hx]
  constructor
  · exact hr.uring
  · rw [hr.sq]
    exact hb.sq_nodup
  · intro e he
    rw [hr.sq] at he
    have hi := hb.sq_idle e he
    have hxu : e.ud ≠ ud := fun h => hk (h ▸ hi.1)
    rw [hr.kst_of_ne hxu, hcold _ hxu]
    exact hi
  · intro x hx
    have hxu : x ≠ ud := fun h => hx (by rw [h, hr.kst, Function.update_self])
    rw [hr.kst_of_ne hxu] at hx
    rw [hcold x hxu]
    exact hb.kst_cbs x hx
  · intro x id p t hx
    rw [hr.sq]
    exact hb.timer_sqe x id p t (hr.cbs_some hx).2
  · intro x id p r hx hres
    obtain ⟨hxu, hx⟩ := hr.cbs_some hx
    rw [hr.kst_of_ne hxu] at hres
    exact hb.timer_res x id p r hx hres
  · intro x id p hx
    obtain ⟨hxu, hx⟩ := hr.cbs_some hx
    rw [hr.sq, hr.kst_of_ne hxu]
    exact hb.timer_pending x id p hx
  · intro x f hx
    obtain ⟨hxu, hx⟩ := hr.cbs_some hx
    rw [hr.sq, hr.kst_of_ne hxu, hsusp x f hxu hx]
    exact hb.waker_kind x f hx
  · intro x f hx
    rw [hr.nextFiber]
    exact hb.waker_lt x f (hr.cbs_some hx).2
  · intro x x' f hx hx'
    exact hb.waker_unique x x' f (hr.cbs_some hx).2 (hr.cbs_some hx').2
  · have := hb.budget
    have := hr.outstanding
    omega

/-- **Reaping keeps what the surviving timers own**, as long as the item of each surviving
    timer is unchanged. -/
theorem Owns.reaped (ho : Owns s) {ud : ℕ} (hr : Reaped s s' ud)
    (hkeep : ∀ x id q, s.cbs x = some (.periodicCb id q) → x ≠ ud → s'.items q = s.items q) :
    (∀ x x' id id' q, s'.cbs x = some (.periodicCb id q) →
      s'.cbs x' = some (.periodicCb id' q) → x = x') ∧
    (∀ x id q it, s'.cbs x = some (.periodicCb id q) → s'.items q = some it →
      it.inMap = true → x = it.val1) ∧
    (∀ w t id q it, Sqe.timeoutRemove w t ∈ s'.sq → s'.cbs t = some (.periodicCb id q) →
      s'.items q = some it → it.inMap = true → [Sqe.timeoutRemove w t, Sqe.timeout t].Sublist s'.sq) ∧
    ∀ x id q it, s'.cbs x = some (.periodicCb id q) → s'.kst x = .posted (-ECANCELED) →
      s'.items q = some it → it.inMap = false := by
  refine ⟨fun x x' id₁ id₂ q hx hx' => ?_, fun x id' q it hx hit hin => ?_,
    fun w t id' q it hw ht hit hin => ?_, fun x id' q it hx hcan hit => ?_⟩
  · exact ho.timer_unique x x' id₁ id₂ q (hr.cbs_some hx).2 (hr.cbs_some hx').2
  · obtain ⟨hxu, hx⟩ := hr.cbs_some hx
    rw [hkeep x id' q hx hxu] at hit
    exact ho.val1_timer x id' q it hx hit hin
  · obtain ⟨htu, ht⟩ := hr.cbs_some ht
    rw [hkeep t id' q ht htu] at hit
    rw [hr.sq] at hw ⊢
    exact ho.remove_live w t id' q it hw ht hit hin
  · obtain ⟨hxu, hx⟩ := hr.cbs_some hx
    rw [hkeep x id' q hx hxu] at hit
    rw [hr.kst_of_ne hxu] at hcan
    exact ho.cancelled_res x id' q it hx hcan hit

/-- Another timer than the one reaped belongs to another item. -/
theorem Owns.item_ne (ho : Owns s) {ud x id id' p q : ℕ} (hc : s.cbs ud = some (.periodicCb id p))
    (hx : s.cbs x = some (.periodicCb id' q)) (hxu : x ≠ ud) : q ≠ p := fun hq =>
  hxu (ho.timer_unique x ud id' id p (hq ▸ hx) hc)

/-- **`PeriodicCb` deletes an item out of the map**: the timer reaped was its last entry. -/
theorem Inv.dispatch_delete (hv : Inv s) {ud id p : ℕ} {it : PeriodicItem T}
    (hk : s.kst ud ≠ .idle) (hc : s.cbs ud = some (.periodicCb id p)) (hit : s.items p = some it)
    (hout : it.inMap = false) (hr : Reaped s s' ud) (hd : s.toBase.delete p = some s'.toBase)
    (hsched : s'.schedulePeriodicList = s.schedulePeriodicList)
    (hsusp : s'.suspended = s.suspended) : Inv s' := by
  obtain ⟨hb, ho⟩ := hv
  have hl' := ho.ledger.delete hit hout hd
  obtain ⟨-, hbase⟩ := Base.delete_eq hd
  have hitems : s'.items = Function.update s.items p none := by rw [hbase]
  have hlog : s'.log = s.log ++ [.deleted p] := by rw [hbase]
  have hmap : s'.periodicMap = s.periodicMap := by rw [hbase]
  -- an item with a timer other than the reaped one is not `p`
  have hkeep : ∀ x id' q, s.cbs x = some (.periodicCb id' q) → x ≠ ud → s'.items q = s.items q :=
    fun x id' q hx hxu => by rw [hitems, Function.update_of_ne (ho.item_ne hc hx hxu)]
  obtain ⟨hunique, hval1, hremove, hcancelled⟩ := ho.reaped hr hkeep
  refine ⟨hb.release hk hr (by rw [hsched]; omega) (fun _ _ _ _ => by rw [hsusp]), ?_⟩
  constructor
  · exact hl'
  · intro x id' q hx
    obtain ⟨hxu, hx⟩ := hr.cbs_some hx
    obtain ⟨h1, h2⟩ := ho.timer_item x id' q hx
    rw [hkeep x id' q hx hxu, hlog]
    exact ⟨h1, List.mem_append_left _ h2⟩
  · exact hunique
  · rw [hsched, hmap]
    exact ho.sched_in_map
  · intro id' q hq x id'' hx
    rw [hsched] at hq
    exact ho.sched_no_timer id' q hq x id'' (hr.cbs_some hx).2
  · rw [hsched]
    exact ho.sched_nodup
  · intro q hq
    rw [hitems] at hq
    have hqp : q ≠ p := fun h => by simp [h] at hq
    rw [Function.update_of_ne hqp] at hq
    rw [hsched]
    rcases ho.owned q hq with ⟨x, id', hx⟩ | h
    · have hxu : x ≠ ud := fun h => hqp (by
        rw [h, hc, Option.some.injEq, PCb.periodicCb.injEq] at hx
        exact hx.2.symm)
      exact Or.inl ⟨x, id', by rw [hr.cbs, Function.update_of_ne hxu]; exact hx⟩
    · exact Or.inr h
  · exact hval1
  · exact hremove
  · exact hcancelled

/-- **`PeriodicCb` runs the task of an item in the map**, and appends the pair to the list to
    re-arm: the reaped timer was the item's only one. -/
theorem Inv.dispatch_run (hv : Inv s) {ud id p : ℕ} {it : PeriodicItem T}
    (hk : s.kst ud ≠ .idle) (hc : s.cbs ud = some (.periodicCb id p)) (hit : s.items p = some it)
    (hin : it.inMap = true) (hr : Reaped s s' ud) (hd : s.toBase.runTask p = some s'.toBase)
    (hsched : s'.schedulePeriodicList = s.schedulePeriodicList ++ [(id, p)])
    (hsusp : s'.suspended = s.suspended) : Inv s' := by
  obtain ⟨hb, ho⟩ := hv
  have hl' := ho.ledger.runTask hit hin hd
  obtain ⟨-, hbase⟩ := Base.runTask_eq hd
  have hitems : s'.items = s.items := by rw [hbase]
  have hlog : s'.log = s.log ++ [.ran p] := by rw [hbase]
  have hmap : s'.periodicMap = s.periodicMap := by rw [hbase]
  -- the pair appended is the item's, under the id it was added with
  have hmid : s.periodicMap id = some p := by
    obtain ⟨id₀, hid₀⟩ := (ho.ledger.in_map p it hit).mp hin
    have hadd := ((ho.ledger.map_iff id₀ p).mp hid₀).1
    rwa [ho.ledger.added_unique id₀ id p hadd (ho.timer_item ud id p hc).2] at hid₀
  have hnew : ∀ x id', s'.cbs x ≠ some (.periodicCb id' p) := fun x id' hx => by
    obtain ⟨hxu, hx⟩ := hr.cbs_some hx
    exact ho.item_ne hc hx hxu rfl
  obtain ⟨hunique, hval1, hremove, hcancelled⟩ := ho.reaped hr fun _ _ _ _ _ => by rw [hitems]
  refine ⟨hb.release hk hr (by rw [hsched, List.length_append]; simp)
    (fun _ _ _ _ => by rw [hsusp]), ?_⟩
  constructor
  · exact hl'
  · intro x id' q hx
    obtain ⟨h1, h2⟩ := ho.timer_item x id' q (hr.cbs_some hx).2
    rw [hitems, hlog]
    exact ⟨h1, List.mem_append_left _ h2⟩
  · exact hunique
  · intro id' q hq
    rw [hsched, List.mem_append, List.mem_singleton] at hq
    rw [hmap]
    rcases hq with hq | hq
    · exact ho.sched_in_map id' q hq
    · rw [Prod.mk.injEq] at hq
      rw [hq.1, hq.2]
      exact hmid
  · intro id' q hq x id'' hx
    rw [hsched, List.mem_append, List.mem_singleton] at hq
    rcases hq with hq | hq
    · exact ho.sched_no_timer id' q hq x id'' (hr.cbs_some hx).2
    · rw [Prod.mk.injEq] at hq
      rw [hq.2] at hx
      exact hnew x id'' hx
  · -- the item had its timer, so it was not waiting to be re-armed
    rw [hsched, List.map_append, List.map_singleton, List.nodup_append]
    refine ⟨ho.sched_nodup, List.nodup_singleton _, fun a ha b hb hab => ?_⟩
    rw [List.mem_singleton] at hb
    obtain ⟨⟨id', q⟩, hq, rfl⟩ := List.mem_map.mp ha
    have hqp : q = p := hab.trans hb
    exact ho.sched_no_timer id' q hq ud id (by rw [hqp]; exact hc)
  · intro q hq
    rw [hitems] at hq
    rw [hsched]
    rcases ho.owned q hq with ⟨x, id', hx⟩ | ⟨id', hid⟩
    · by_cases hxu : x = ud
      · rw [hxu, hc, Option.some.injEq, PCb.periodicCb.injEq] at hx
        rw [← hx.2]
        exact Or.inr ⟨id, List.mem_append_right _ (List.mem_singleton_self _)⟩
      · exact Or.inl ⟨x, id', by rw [hr.cbs, Function.update_of_ne hxu]; exact hx⟩
    · exact Or.inr ⟨id', List.mem_append_left _ hid⟩
  · exact hval1
  · exact hremove
  · exact hcancelled

/-- **The waker wakes its fiber**, the only one it was registered for. -/
theorem Inv.dispatch_waker (hv : Inv s) {ud f : ℕ} (hk : s.kst ud ≠ .idle)
    (hc : s.cbs ud = some (.waker f)) (hr : Reaped s s' ud) (hbase : s'.toBase = s.toBase)
    (hsched : s'.schedulePeriodicList = s.schedulePeriodicList)
    (hsusp : s'.suspended = Function.update s.suspended f false) : Inv s' := by
  obtain ⟨hb, ho⟩ := hv
  have hitems : s'.items = s.items := by rw [hbase]
  have hlog : s'.log = s.log := by rw [hbase]
  have hmap : s'.periodicMap = s.periodicMap := by rw [hbase]
  have hold : ∀ x, x ≠ ud → s'.cbs x = s.cbs x := fun x hx => by
    rw [hr.cbs, Function.update_of_ne hx]
  refine ⟨hb.release hk hr (by rw [hsched]; omega) fun x f' hxu hx => ?_, ?_⟩
  · -- another waker is another fiber's
    have hf : f' ≠ f := fun h => hxu (hb.waker_unique x ud f (h ▸ hx) hc)
    rw [hsusp, Function.update_of_ne hf]
  obtain ⟨hunique, hval1, hremove, hcancelled⟩ := ho.reaped hr fun _ _ _ _ _ => by rw [hitems]
  constructor
  · rw [hbase]
    exact ho.ledger
  · intro x id' q hx
    rw [hitems, hlog]
    exact ho.timer_item x id' q (hr.cbs_some hx).2
  · exact hunique
  · rw [hsched, hmap]
    exact ho.sched_in_map
  · intro id' q hq x id'' hx
    rw [hsched] at hq
    exact ho.sched_no_timer id' q hq x id'' (hr.cbs_some hx).2
  · rw [hsched]
    exact ho.sched_nodup
  · intro q hq
    rw [hitems] at hq
    rw [hsched]
    rcases ho.owned q hq with ⟨x, id', hx⟩ | h
    · have hxu : x ≠ ud := fun h => by rw [h, hc] at hx; cases hx
      exact Or.inl ⟨x, id', by rw [hold x hxu]; exact hx⟩
    · exact Or.inr h
  · exact hval1
  · exact hremove
  · exact hcancelled

/-- **The main loop reaps a completion** and runs its callback. -/
theorem Inv.dispatch_next (hv : Inv s) {ud : ℕ} (h : dispatch s ud = some s') : Inv s' := by
  unfold dispatch at h
  split at h
  · next res hpost =>
    have hk : s.kst ud ≠ .idle := by
      rw [hpost]
      simp
    obtain ⟨c, hc⟩ := Option.ne_none_iff_exists'.mp (hv.books.kst_cbs ud hk)
    obtain ⟨u, hdis, hcb, hout, hu⟩ := hv.books.uring.callback_dispatch hc
    rw [hdis] at h
    -- the callback of the entry decides what the completion does
    cases c with
    | periodicCb id p =>
      dsimp only at h
      unfold periodicCb at h
      split at h
      · cases h
      · next it hit =>
        split at h
        · next hout' =>
          obtain ⟨b, hd, rfl⟩ := Option.map_eq_some_iff.mp h
          exact hv.dispatch_delete hk hc hit hout' ⟨hu, hcb, rfl, rfl, hout, rfl⟩ hd rfl rfl
        · next hin =>
          split at h
          · cases h
          · obtain ⟨b, hd, rfl⟩ := Option.map_eq_some_iff.mp h
            exact hv.dispatch_run hk hc hit (Bool.not_eq_false _ ▸ hin)
              ⟨hu, hcb, rfl, rfl, hout, rfl⟩ hd rfl rfl
    | waker f =>
      dsimp only at h
      unfold waker at h
      split at h
      · cases h
        exact hv.dispatch_waker hk hc ⟨hu, hcb, rfl, rfl, hout, rfl⟩ rfl rfl rfl
      · cases h
  all_goals cases h

end Dispatch

/-! ## Every step -/

section Step

variable {s s' : State T}

/-- **The main loop re-arms the first pair of the list.** The budget counts the pairs
    waiting, so there is room for the pair's entry. -/
theorem Inv.rearm_step (hv : Inv s) (h : rearm s = some s') : Inv s' := by
  unfold rearm at h
  split at h
  · cases h
  · next id p rest hs =>
    have hlt : s.uring.outstanding < 2 ^ 31 := by
      have := hv.books.budget
      rw [hs, List.length_cons] at this
      omega
    have hmap := hv.owns.sched_in_map id p (by rw [hs]; exact List.mem_cons_self)
    obtain ⟨it, hit⟩ := Option.ne_none_iff_exists'.mp (hv.owns.ledger.items_of_map hmap)
    obtain ⟨u, ud, hsub, hfree, hcb, hout, hu⟩ :=
      hv.books.uring.callback_submit hlt (.periodicCb id p)
    rw [schedulePeriodic_eq (s := { s with schedulePeriodicList := rest }) hsub hit] at h
    cases h
    exact hv.rearm_next hs hit hfree hcb hu hout rfl rfl rfl rfl rfl rfl

/-- **`AddPeriodic`** by a fiber: the new pair is re-armed at once. -/
theorem Inv.add_step (hv : Inv s) (hs : s.schedulePeriodicList = [])
    (hlt : s.uring.outstanding < 2 ^ 31) {ms : ℕ} {f : T} (h : addPeriodic s ms f = some s') :
    Inv s' := by
  cases hadd : s.toBase.addPeriodic ms f with
  | none => simp [addPeriodic, hadd] at h
  | some r =>
    obtain ⟨b, id, p⟩ := r
    rw [addPeriodic_eq_rearm hs hadd] at h
    exact (hv.add_to_list hs hlt hadd).rearm_step h

/-- **`CancelPeriodic`** by a fiber. -/
theorem Inv.cancel_step (hv : Inv s) (hs : s.schedulePeriodicList = [])
    (hlt : s.uring.outstanding < 2 ^ 31) {id : ℕ} (h : cancelPeriodic s id = some s') :
    Inv s' := by
  cases hc : s.toBase.cancelPeriodic id with
  | none => simp [cancelPeriodic, hc] at h
  | some r =>
    obtain ⟨b, p, v₁, v₂⟩ := r
    obtain ⟨u, w, hsub, hfree, hcb, hout, hu⟩ :=
      hv.books.uring.callback_submit hlt (.waker s.nextFiber)
    rw [cancelPeriodic_eq hc hsub] at h
    cases h
    exact hv.cancel_next hs hlt hc hfree hcb hu hout rfl rfl hs rfl rfl

/-- **Every step of the contract keeps the invariant.** -/
theorem Inv.next (hv : Inv s) {op : Op T} (h : step s op = some s') : Inv s' := by
  unfold step at h
  split at h
  · next hok =>
    rw [Bool.and_eq_true] at hok
    obtain ⟨hal, hen⟩ := hok
    cases op with
    | addPeriodic ms f =>
      simp only [Op.allowed, Bool.and_eq_true, decide_eq_true_eq] at hal
      simp only [Op.enabled, List.isEmpty_iff] at hen
      exact hv.add_step hen hal.2 h
    | cancelPeriodic id =>
      simp only [Op.allowed, Bool.and_eq_true, decide_eq_true_eq] at hal
      simp only [Op.enabled, List.isEmpty_iff] at hen
      exact hv.cancel_step hen hal.2 h
    | submit => exact hv.submit_next h
    | fire ud => exact hv.fire_next h
    | dispatch ud => exact hv.dispatch_next h
    | rearm => exact hv.rearm_step h
  · cases h

/-- **The invariant holds of every reachable state.** -/
theorem Inv.reachable {k : ℕ} (hk : k ≤ 31) (h : Trans.Reachable step (init (2 ^ k)) s) : Inv s :=
  Trans.Reachable.invariant Inv (fun _ _ _ hv hs => hv.next hs) h (Inv.of_init hk)

end Step

end UringProactor

end Periodic

end Helio
