import Helio.Fibers.UringEpoll.Invariant

/-!
# How the layers move

Two changes of the kernel's view recur in the steps: a submission queued under a user data
that had no callback (`Appended`: `EpollAddInternal`, the `FiberCall` of `EpollDel`), and a
completion reaped (`Reaped`: `DispatchCqe`). For each, how the polls that can still bring
events change, and that the clauses of a current and of a stale fiber carry over. The steps
that change only the kernel's view of one user data (`submit`, `fire`) and those that change
only the fibers and the epoll entries have their own lemmas in `Helio.Fibers.UringEpoll.Steps`.
-/

set_option autoImplicit false

namespace Helio

namespace UringEpoll

open Completion

namespace Emu

variable {ECb : Type} {s s' : Emu ECb}

/-! ## What a fiber knows depends on the kernel's view and on the fiber -/

/-- `s'` has the kernel's view of `s`: the same callbacks, queue and kernel state. -/
structure SameView (s s' : Emu ECb) : Prop where
  cbs_eq : s'.cbs = s.cbs
  sq_eq : s'.sq = s.sq
  kst_eq : s'.kst = s.kst

section SameView

variable (hv : SameView s s')
include hv

theorem SameView.fate_iff {id : ℕ} {r : ℤ} : s'.Fate id r ↔ s.Fate id r := by
  simp only [Fate, active, hv.cbs_eq, hv.sq_eq, hv.kst_eq]

theorem SameView.current_iff {f id : ℕ} (hf : s'.fibers f = s.fibers f) :
    s'.Current f id ↔ s.Current f id := by
  simp only [Current, Fate, active, hv.cbs_eq, hv.sq_eq, hv.kst_eq, hf]

theorem SameView.stale_iff {f : ℕ} (hf : s'.fibers f = s.fibers f) : s'.Stale f ↔ s.Stale f := by
  simp only [Stale, hv.cbs_eq, hv.sq_eq, hv.kst_eq, hf]

end SameView

/-! ## A submission of a fresh user data -/

/-- `s'` is `s` with one more submission, under a user data that had no callback. -/
structure Appended (s s' : Emu ECb) (ud : ℕ) (c : UringCb) (e : Sqe) : Prop where
  fresh : s.cbs ud = none
  cbs_eq : s'.cbs = Function.update s.cbs ud (some c)
  sq_eq : s'.sq = s.sq ++ [e]
  kst_eq : s'.kst = s.kst
  ud_eq : e.ud = ud

section Appended

variable {ud : ℕ} {c : UringCb} {e : Sqe} (ha : Appended s s' ud c e)
include ha

theorem Appended.cbs_of_ne {x : ℕ} (hx : s.cbs x ≠ none) : s'.cbs x = s.cbs x := by
  rw [ha.cbs_eq, Function.update_of_ne]
  rintro rfl
  exact hx ha.fresh

/-- The new submission is a poll of `id` when it is a poll-add of `uring_cb` of `id`. -/
theorem Appended.active_iff (hb : s.Books) {id x : ℕ} :
    s'.active id x ↔ s.active id x ∨ (x = ud ∧ c = .pollCb id ∧ e = .pollAdd ud) := by
  by_cases hx : x = ud
  · subst hx
    have hnot : Sqe.pollAdd x ∉ s.sq := fun h =>
      hb.not_mem_of_none ha.fresh (List.mem_map.mpr ⟨_, h, rfl⟩)
    have hidle := hb.kst_of_none ha.fresh
    simp only [active, ha.cbs_eq, ha.sq_eq, ha.kst_eq, Function.update_self, ha.fresh,
      Option.some.injEq, hidle, List.mem_append, List.mem_singleton, hnot, false_or,
      reduceCtorEq, and_false, exists_false, or_false, true_and]
    constructor
    · rintro ⟨rfl, rfl⟩
      exact ⟨rfl, rfl⟩
    · rintro ⟨rfl, rfl⟩
      exact ⟨rfl, rfl⟩
  · have hne : e ≠ .pollAdd x := by
      rintro rfl
      exact hx ha.ud_eq
    simp only [active, ha.cbs_eq, ha.sq_eq, ha.kst_eq, Function.update_of_ne hx,
      List.mem_append, List.mem_singleton, hx, false_and, or_false]
    rw [show (Sqe.pollAdd x = e) ↔ False from ⟨fun h => hne h.symm, False.elim⟩, or_false]

/-- A submission that is no poll of `id` leaves what `id` has in flight. -/
theorem Appended.active_of_ne (hb : s.Books) {id : ℕ} (hc : c ≠ .pollCb id) (x : ℕ) :
    s'.active id x ↔ s.active id x := by
  rw [ha.active_iff hb]
  exact ⟨fun h => h.resolve_right fun h' => hc h'.2.1, Or.inl⟩

theorem Appended.ahead_eq {w : ℕ} (hw : w ∈ s.sq.map Sqe.ud) : ahead w s'.sq = ahead w s.sq := by
  rw [ha.sq_eq, ahead_append _ hw]

theorem Appended.fate {id : ℕ} {r : ℤ} (hid : ∀ x, s'.active id x ↔ s.active id x)
    (h : s.Fate id r) : s'.Fate id r := by
  refine ⟨fun h0 x hx => h.1 h0 x ((hid x).mp hx), fun h0 => ?_⟩
  obtain ⟨x, r', hr', hk, hc⟩ := h.2 h0
  refine ⟨x, r', hr', by rw [ha.kst_eq]; exact hk, ?_⟩
  rw [ha.cbs_of_ne (by rw [hc]; simp)]
  exact hc

theorem Appended.current {f id : ℕ} (hf : s'.fibers f = s.fibers f)
    (hid : ∀ x, s'.active id x ↔ s.active id x) (h : s.Current f id) : s'.Current f id := by
  unfold Current at h ⊢
  rw [hf]
  cases hfib : s.fibers f with
  | none =>
    rw [hfib] at h
    exact ha.fate hid h
  | some st =>
    rw [hfib] at h
    cases st with
    | woken id' r => exact ⟨h.1, ha.fate hid h.2⟩
    | waiting id' =>
      obtain ⟨hid', w, hw, hcase⟩ := h
      refine ⟨hid', w, by rw [ha.cbs_of_ne (by rw [hw]; simp)]; exact hw, ?_⟩
      rcases hcase with ⟨t, hR, hact, hahead⟩ | ⟨r, hk, hfate⟩
      · have hwq : w ∈ s.sq.map Sqe.ud := List.mem_map.mpr ⟨_, hR, rfl⟩
        refine Or.inl ⟨t, by rw [ha.sq_eq]; exact List.mem_append_left _ hR, (hid t).mpr hact, ?_⟩
        intro hadd
        rw [ha.ahead_eq hwq]
        rw [ha.sq_eq, List.mem_append, List.mem_singleton] at hadd
        rcases hadd with hadd | hadd
        · exact hahead hadd
        · -- the new submission has no callback yet, the target of the remove has one
          have : t = ud := by rw [← ha.ud_eq, ← hadd]; rfl
          exact absurd (this ▸ ha.fresh) (active_cbs hact)
      · exact Or.inr ⟨r, by rw [ha.kst_eq]; exact hk, ha.fate hid hfate⟩

theorem Appended.stale {f : ℕ} (hf : s'.fibers f = s.fibers f) (h : s.Stale f) : s'.Stale f := by
  unfold Stale at h ⊢
  rw [hf]
  cases hfib : s.fibers f with
  | none => trivial
  | some st =>
    rw [hfib] at h
    cases st with
    | woken id' r => exact h
    | waiting id' =>
      obtain ⟨w, hw, hcase⟩ := h
      refine ⟨w, by rw [ha.cbs_of_ne (by rw [hw]; simp)]; exact hw, ?_⟩
      rcases hcase with ⟨t, hR, hnot, hk⟩ | ⟨r, hk, hr⟩
      · have hwq : w ∈ s.sq.map Sqe.ud := List.mem_map.mpr ⟨_, hR, rfl⟩
        refine Or.inl ⟨t, by rw [ha.sq_eq]; exact List.mem_append_left _ hR, ?_, ?_⟩
        · rw [ha.ahead_eq hwq]
          exact hnot
        · rw [ha.kst_eq]
          exact hk
      · exact Or.inr ⟨r, by rw [ha.kst_eq]; exact hk, hr⟩

theorem Appended.cbs_self : s'.cbs ud = some c := by
  rw [ha.cbs_eq, Function.update_self]

theorem Appended.cbs_old {x : ℕ} (hx : x ≠ ud) : s'.cbs x = s.cbs x := by
  rw [ha.cbs_eq, Function.update_of_ne hx]

/-- Every poll callback names an id below `n` after a submission of a poll of such an id. -/
theorem Appended.poll_lt {n id : ℕ} (hc : c = .pollCb id) (hid : id < n)
    (h : ∀ x i, s.cbs x = some (.pollCb i) → i < n) :
    ∀ x i, s'.cbs x = some (.pollCb i) → i < n := by
  intro x i hx
  by_cases hxu : x = ud
  · subst hxu
    rw [ha.cbs_self, hc, Option.some.injEq, UringCb.pollCb.injEq] at hx
    subst hx
    exact hid
  · rw [ha.cbs_old hxu] at hx
    exact h x i hx

/-- The new user data was not queued: the queue stays free of repeats. -/
theorem Appended.sq_nodup (hb : s.Books) : (s'.sq.map Sqe.ud).Nodup := by
  have hnq : ud ∉ s.sq.map Sqe.ud := hb.not_mem_of_none ha.fresh
  rw [ha.sq_eq, List.map_append, List.nodup_append]
  refine ⟨hb.sq_nodup, List.nodup_singleton _, fun a ha' b hb' hab => ?_⟩
  rw [List.map_cons, List.map_nil, List.mem_singleton, ha.ud_eq] at hb'
  subst hb' hab
  exact hnq ha'

theorem Appended.sq_idle (hb : s.Books) : ∀ e ∈ s'.sq, s'.kst e.ud = .idle ∧ s'.cbs e.ud ≠ none := by
  intro e he
  rw [ha.sq_eq, List.mem_append, List.mem_singleton] at he
  rcases he with he | rfl
  · rw [ha.kst_eq, ha.cbs_of_ne (hb.sq_idle e he).2]
    exact hb.sq_idle e he
  · rw [ha.kst_eq, ha.ud_eq, ha.cbs_self]
    exact ⟨hb.kst_of_none ha.fresh, by simp⟩

theorem Appended.kst_cbs (hb : s.Books) : ∀ x, s'.kst x ≠ .idle → s'.cbs x ≠ none := by
  intro x hx
  rw [ha.kst_eq] at hx
  rw [ha.cbs_of_ne (hb.kst_cbs x hx)]
  exact hb.kst_cbs x hx

end Appended

/-- `EpollAddInternal`: a poll-add under a fresh user data keeps the books. -/
theorem Books.of_appended_poll (hb : s.Books) {ud id : ℕ}
    (ha : Appended s s' ud (.pollCb id) (.pollAdd ud)) (hu : s'.uring.Inv)
    (hfib : s'.fibers = s.fibers) (hnf : s'.nextFiber = s.nextFiber) : s'.Books := by
  -- a waker is an old user data
  have hold : ∀ x f, s'.cbs x = some (.waker f) → x ≠ ud ∧ s.cbs x = some (.waker f) := by
    intro x f hc
    have hxu : x ≠ ud := by
      rintro rfl
      rw [ha.cbs_self] at hc
      cases hc
    rw [ha.cbs_old hxu] at hc
    exact ⟨hxu, hc⟩
  refine ⟨hu, ha.sq_nodup hb, ha.sq_idle hb, ha.kst_cbs hb, ?_, ?_, ?_, ?_⟩
  · intro x t id' hc hR
    rw [ha.sq_eq, List.mem_append, List.mem_singleton] at hR
    rcases hR with hR | hR
    · have hx : s.cbs x ≠ none := (hb.sq_idle _ hR).2
      rw [ha.cbs_of_ne hx] at hc
      exact hb.poll_kind x t id' hc hR
    · cases hR
  · intro x f hc
    obtain ⟨hxu, hc'⟩ := hold x f hc
    obtain ⟨hadd, harmed, hwait⟩ := hb.waker_kind x f hc'
    refine ⟨?_, by rw [ha.kst_eq]; exact harmed, by rw [hfib]; exact hwait⟩
    rw [ha.sq_eq, List.mem_append, List.mem_singleton, not_or]
    refine ⟨hadd, fun h => hxu ?_⟩
    cases h
    rfl
  · intro w w' f hw hw'
    exact hb.waker_unique w w' f (hold w f hw).2 (hold w' f hw').2
  · intro f hf
    rw [hfib]
    exact hb.fresh f (hnf ▸ hf)

/-- The `FiberCall` of `EpollDel`: a poll-remove under a fresh user data, whose waker belongs to
    a new fiber, keeps the books. -/
theorem Books.of_appended_waker (hb : s.Books) {ud t id : ℕ}
    (ha : Appended s s' ud (.waker s.nextFiber) (.pollRemove ud t)) (hu : s'.uring.Inv)
    (hfib : s'.fibers = Function.update s.fibers s.nextFiber (some (.waiting id)))
    (hnf : s'.nextFiber = s.nextFiber + 1) : s'.Books := by
  have hnew : s.fibers s.nextFiber = none := hb.fresh _ le_rfl
  -- an old waker belongs to an old fiber
  have hold : ∀ x f, x ≠ ud → s'.cbs x = some (.waker f) →
      s.cbs x = some (.waker f) ∧ f ≠ s.nextFiber := by
    intro x f hxu hc
    rw [ha.cbs_old hxu] at hc
    refine ⟨hc, ?_⟩
    rintro rfl
    obtain ⟨-, -, id', hwait⟩ := hb.waker_kind x _ hc
    rw [hnew] at hwait
    cases hwait
  refine ⟨hu, ha.sq_nodup hb, ha.sq_idle hb, ha.kst_cbs hb, ?_, ?_, ?_, ?_⟩
  · intro x t' id' hc hR
    have hxu : x ≠ ud := by
      rintro rfl
      rw [ha.cbs_self] at hc
      cases hc
    rw [ha.sq_eq, List.mem_append, List.mem_singleton] at hR
    rcases hR with hR | hR
    · rw [ha.cbs_old hxu] at hc
      exact hb.poll_kind x t' id' hc hR
    · cases hR
      exact hxu rfl
  · intro x f hc
    by_cases hxu : x = ud
    · subst hxu
      rw [ha.cbs_self, Option.some.injEq, UringCb.waker.injEq] at hc
      subst hc
      refine ⟨?_, ?_, id, by rw [hfib, Function.update_self]⟩
      · rw [ha.sq_eq, List.mem_append, List.mem_singleton, not_or]
        exact ⟨fun h => hb.not_mem_of_none ha.fresh (List.mem_map.mpr ⟨_, h, rfl⟩),
          fun h => by cases h⟩
      · rw [ha.kst_eq, hb.kst_of_none ha.fresh]
        simp
    · obtain ⟨hc', hf⟩ := hold x f hxu hc
      obtain ⟨hadd, harmed, hwait⟩ := hb.waker_kind x f hc'
      refine ⟨?_, by rw [ha.kst_eq]; exact harmed, by rw [hfib, Function.update_of_ne hf]; exact hwait⟩
      rw [ha.sq_eq, List.mem_append, List.mem_singleton, not_or]
      exact ⟨hadd, fun h => by cases h⟩
  · -- the new waker is the only one of the new fiber
    intro w w' f hw hw'
    by_cases hwu : w = ud
    · by_cases hwu' : w' = ud
      · rw [hwu, hwu']
      · subst hwu
        rw [ha.cbs_self, Option.some.injEq, UringCb.waker.injEq] at hw
        exact absurd hw.symm (hold w' f hwu' hw').2
    · by_cases hwu' : w' = ud
      · subst hwu'
        rw [ha.cbs_self, Option.some.injEq, UringCb.waker.injEq] at hw'
        exact absurd hw'.symm (hold w f hwu hw).2
      · exact hb.waker_unique w w' f (hold w f hwu hw).1 (hold w' f hwu' hw').1
  · intro f hf
    rw [hfib, Function.update_of_ne (by omega)]
    exact hb.fresh f (by omega)

/-! ## A completion reaped -/

/-- `s'` is `s` after `DispatchCqe` of the posted completion of `ud` released its entry. -/
structure Reaped (s s' : Emu ECb) (ud : ℕ) : Prop where
  posted : ∃ r, s.kst ud = .posted r
  cbs_eq : s'.cbs = Function.update s.cbs ud none
  sq_eq : s'.sq = s.sq
  kst_eq : s'.kst = Function.update s.kst ud .idle

/-- The user data of a poll of `id` is no waker's, and no poll's of another id. -/
theorem ne_of_waker_of_poll {ud id g w : ℕ} (hc : s.cbs ud = some (.pollCb id))
    (hw : s.cbs w = some (.waker g)) : w ≠ ud := by
  rintro rfl
  rw [hc] at hw
  cases hw

theorem ne_of_poll_of_ne {ud id id' x : ℕ} (hc : s.cbs ud = some (.pollCb id)) (hid' : id' ≠ id)
    (hx : s.cbs x = some (.pollCb id')) : x ≠ ud := by
  rintro rfl
  rw [hc, Option.some.injEq, UringCb.pollCb.injEq] at hx
  exact hid' hx.symm

section Reaped

variable {ud : ℕ} (hr : Reaped s s' ud)
include hr

theorem Reaped.active_iff {id x : ℕ} : s'.active id x ↔ s.active id x ∧ x ≠ ud := by
  by_cases hx : x = ud
  · subst hx
    simp [active, hr.cbs_eq]
  · simp only [active, hr.cbs_eq, hr.sq_eq, hr.kst_eq, Function.update_of_ne hx, ne_eq, hx,
      not_false_eq_true, and_true]

theorem Reaped.fate {id : ℕ} {r : ℤ}
    (hne : ∀ x r', 0 ≤ r' → s.kst x = .posted r' → s.cbs x = some (.pollCb id) → x ≠ ud)
    (h : s.Fate id r) : s'.Fate id r := by
  refine ⟨fun h0 x hx => h.1 h0 x ((hr.active_iff).mp hx).1, fun h0 => ?_⟩
  obtain ⟨x, r', hr', hk, hc⟩ := h.2 h0
  have hx := hne x r' hr' hk hc
  refine ⟨x, r', hr', ?_, ?_⟩
  · rw [hr.kst_eq, Function.update_of_ne hx]
    exact hk
  · rw [hr.cbs_eq, Function.update_of_ne hx]
    exact hc

/-- Reaping a poll of `id` leaves what every other id has in flight. -/
theorem Reaped.active_of_other {id id' : ℕ} (hc : s.cbs ud = some (.pollCb id)) (hid' : id' ≠ id)
    (x : ℕ) : s'.active id' x ↔ s.active id' x := by
  rw [hr.active_iff]
  exact ⟨And.left, fun ha => ⟨ha, ne_of_poll_of_ne hc hid' ha.1⟩⟩

theorem Reaped.current {f id : ℕ} (hf : s'.fibers f = s.fibers f)
    (hw : ∀ w, s.cbs w = some (.waker f) → w ≠ ud)
    (hid : ∀ x, s'.active id x ↔ s.active id x)
    (hne : ∀ x r', 0 ≤ r' → s.kst x = .posted r' → s.cbs x = some (.pollCb id) → x ≠ ud)
    (h : s.Current f id) : s'.Current f id := by
  unfold Current at h ⊢
  rw [hf]
  cases hfib : s.fibers f with
  | none =>
    rw [hfib] at h
    exact hr.fate hne h
  | some st =>
    rw [hfib] at h
    cases st with
    | woken id' r => exact ⟨h.1, hr.fate hne h.2⟩
    | waiting id' =>
      obtain ⟨hid', w, hcw, hcase⟩ := h
      have hwne := hw w hcw
      refine ⟨hid', w, by rw [hr.cbs_eq, Function.update_of_ne hwne]; exact hcw, ?_⟩
      rcases hcase with ⟨t, hR, hact, hahead⟩ | ⟨r, hk, hfate⟩
      · refine Or.inl ⟨t, by rw [hr.sq_eq]; exact hR, (hid t).mpr hact, ?_⟩
        rw [hr.sq_eq]
        exact hahead
      · refine Or.inr ⟨r, ?_, hr.fate hne hfate⟩
        rw [hr.kst_eq, Function.update_of_ne hwne]
        exact hk

theorem Reaped.stale {f : ℕ} (hf : s'.fibers f = s.fibers f)
    (hw : ∀ w, s.cbs w = some (.waker f) → w ≠ ud) (h : s.Stale f) : s'.Stale f := by
  unfold Stale at h ⊢
  rw [hf]
  cases hfib : s.fibers f with
  | none => trivial
  | some st =>
    rw [hfib] at h
    cases st with
    | woken id' r => exact h
    | waiting id' =>
      obtain ⟨w, hcw, hcase⟩ := h
      have hwne := hw w hcw
      refine ⟨w, by rw [hr.cbs_eq, Function.update_of_ne hwne]; exact hcw, ?_⟩
      rcases hcase with ⟨t, hR, hnot, hk⟩ | ⟨r, hk, hr0⟩
      · refine Or.inl ⟨t, by rw [hr.sq_eq]; exact hR, by rw [hr.sq_eq]; exact hnot, ?_⟩
        rw [hr.kst_eq]
        by_cases ht : t = ud
        · subst ht
          simp
        · rw [Function.update_of_ne ht]
          exact hk
      · refine Or.inr ⟨r, ?_, hr0⟩
        rw [hr.kst_eq, Function.update_of_ne hwne]
        exact hk

theorem Reaped.cbs_some {x : ℕ} {c : UringCb} (h : s'.cbs x = some c) :
    x ≠ ud ∧ s.cbs x = some c := by
  have hxu : x ≠ ud := by
    rintro rfl
    rw [hr.cbs_eq, Function.update_self] at h
    cases h
  rw [hr.cbs_eq, Function.update_of_ne hxu] at h
  exact ⟨hxu, h⟩

/-- `DispatchCqe` keeps the books when the fiber of a waker still in flight keeps its state and
    no new fiber appears. -/
theorem Books.of_reaped (hb : s.Books) (hu : s'.uring.Inv)
    (hfib : ∀ f w, s'.cbs w = some (.waker f) → s'.fibers f = s.fibers f)
    (hfresh : ∀ f, s'.nextFiber ≤ f → s'.fibers f = none) : s'.Books := by
  obtain ⟨r, hk⟩ := hr.posted
  have hne : ∀ e ∈ s.sq, e.ud ≠ ud := by
    intro e he h
    exact hb.not_mem_of_kst (by rw [hk]; simp) (by rw [← h]; exact List.mem_map_of_mem he)
  refine ⟨hu, by rw [hr.sq_eq]; exact hb.sq_nodup, ?_, ?_, ?_, ?_, ?_, hfresh⟩
  · intro e he
    rw [hr.sq_eq] at he
    rw [hr.kst_eq, hr.cbs_eq, Function.update_of_ne (hne e he), Function.update_of_ne (hne e he)]
    exact hb.sq_idle e he
  · intro x hx
    have hxu : x ≠ ud := by
      rintro rfl
      rw [hr.kst_eq, Function.update_self] at hx
      exact hx rfl
    rw [hr.kst_eq, Function.update_of_ne hxu] at hx
    rw [hr.cbs_eq, Function.update_of_ne hxu]
    exact hb.kst_cbs x hx
  · intro x t id hc hR
    rw [hr.sq_eq] at hR
    exact hb.poll_kind x t id (hr.cbs_some hc).2 hR
  · intro x f hc
    obtain ⟨hxu, hc'⟩ := hr.cbs_some hc
    obtain ⟨hadd, harmed, hwait⟩ := hb.waker_kind x f hc'
    refine ⟨by rw [hr.sq_eq]; exact hadd, by rw [hr.kst_eq, Function.update_of_ne hxu]; exact harmed, ?_⟩
    rw [hfib f x hc]
    exact hwait
  · intro w w' f hw hw'
    exact hb.waker_unique w w' f (hr.cbs_some hw).2 (hr.cbs_some hw').2

/-- The poll callback reaps the only poll of an id that can bring events: the fiber that deletes
    the id then finds its remove failing. -/
theorem Reaped.stale_of_current (hb : s.Books) {f id : ℕ} (hf : s'.fibers f = s.fibers f)
    (hud : s.active id ud) (huniq : ∀ x, s.active id x → x = ud) (hc : s.Current f id) :
    s'.Stale f := by
  obtain ⟨r, hk⟩ := hr.posted
  -- a waker is not the poll
  have hwne : ∀ w, s.cbs w = some (.waker f) → w ≠ ud := by
    rintro w hw rfl
    rw [hud.1] at hw
    cases hw
  -- a fiber that learnt `0` would know the poll gone
  have hfate : ∀ r', s.Fate id r' → r' ≠ 0 := fun r' h h0 => h.1 h0 ud hud
  cases hfib : s.fibers f with
  | none => simp only [Stale, hf, hfib]
  | some st =>
    cases st with
    | woken id' r' =>
      rw [stale_woken (hf.trans hfib)]
      exact hfate r' ((current_woken hfib).mp hc).2
    | waiting id' =>
      obtain ⟨-, w, hw, hcase⟩ := (current_waiting hfib).mp hc
      have hw' : s'.cbs w = some (.waker f) := by
        rw [hr.cbs_eq, Function.update_of_ne (hwne w hw)]
        exact hw
      refine (stale_waiting (hf.trans hfib)).mpr ⟨w, hw', ?_⟩
      rcases hcase with ⟨t, hR, hact, -⟩ | ⟨r', hk', hr'⟩
      · obtain rfl := huniq t hact
        refine Or.inl ⟨t, by rw [hr.sq_eq]; exact hR, fun hm => ?_, by
          rw [hr.kst_eq, Function.update_self]
          simp⟩
        rw [hr.sq_eq] at hm
        have hnk : s.kst t ≠ .idle := by
          rw [hk]
          simp
        exact hb.not_mem_of_kst hnk (List.mem_map.mpr ⟨_, mem_of_mem_ahead hm, rfl⟩)
      · refine Or.inr ⟨r', ?_, hfate r' hr'⟩
        rw [hr.kst_eq, Function.update_of_ne (hwne w hw)]
        exact hk'

end Reaped

/-! ## The kernel takes submissions -/

/-- `s'` is `s` after the kernel took the submissions `pre` off the head of the queue and
    changed only what it holds of user data: no posted completion goes away, and a poll is armed
    only if it was, or if its poll-add was among those taken. -/
structure Taken (s s' : Emu ECb) (pre : List Sqe) : Prop where
  sq_eq : s.sq = pre ++ s'.sq
  cbs_eq : s'.cbs = s.cbs
  fibers_eq : s'.fibers = s.fibers
  posted_eq : ∀ x r, s.kst x = .posted r → s'.kst x = .posted r
  armed_new : ∀ x, s'.kst x = .armed → s.kst x = .armed ∨ Sqe.pollAdd x ∈ pre

/-- A kernel step that changes what it holds only of the user data it took, each idle while
    queued, and of armed polls, loses no posted completion. -/
theorem Taken.of_kst (hb : s.Books) {pre : List Sqe} (hsq : s.sq = pre ++ s'.sq)
    (hcbs : s'.cbs = s.cbs) (hfib : s'.fibers = s.fibers)
    (hk : ∀ x, s'.kst x ≠ s.kst x → x ∈ pre.map Sqe.ud ∨ s.kst x = .armed)
    (harm : ∀ x, s'.kst x = .armed → s.kst x = .armed ∨ Sqe.pollAdd x ∈ pre) :
    Taken s s' pre := by
  refine ⟨hsq, hcbs, hfib, fun x r hx => ?_, harm⟩
  by_contra hne
  rcases hk x (by rw [hx]; exact hne) with hm | ha
  · obtain ⟨e, he, rfl⟩ := List.mem_map.mp hm
    have hidle := (hb.sq_idle e (by rw [hsq]; exact List.mem_append_left _ he)).1
    rw [hidle] at hx
    cases hx
  · rw [ha] at hx
    cases hx

section Taken

variable {pre : List Sqe} (ht : Taken s s' pre)
include ht

theorem Taken.fate {id : ℕ} {r : ℤ} (hid : ∀ x, s'.active id x ↔ s.active id x)
    (h : s.Fate id r) : s'.Fate id r := by
  refine ⟨fun h0 x hx => h.1 h0 x ((hid x).mp hx), fun h0 => ?_⟩
  obtain ⟨x, r', hr', hk, hc⟩ := h.2 h0
  exact ⟨x, r', hr', ht.posted_eq x r' hk, by rw [ht.cbs_eq]; exact hc⟩

/-- A fiber whose remove was not taken keeps its clause; its target stays ahead of it, or
    was taken, since a user data is queued once. -/
theorem Taken.current (hb : s.Books) {f id : ℕ}
    (hw : ∀ w, s.cbs w = some (.waker f) → w ∉ pre.map Sqe.ud)
    (hid : ∀ x, s'.active id x ↔ s.active id x) (h : s.Current f id) : s'.Current f id := by
  unfold Current at h ⊢
  rw [ht.fibers_eq]
  cases hfib : s.fibers f with
  | none =>
    rw [hfib] at h
    exact ht.fate hid h
  | some st =>
    rw [hfib] at h
    cases st with
    | woken id' r => exact ⟨h.1, ht.fate hid h.2⟩
    | waiting id' =>
      obtain ⟨hid', w, hcw, hcase⟩ := h
      have hwp := hw w hcw
      refine ⟨hid', w, by rw [ht.cbs_eq]; exact hcw, ?_⟩
      rcases hcase with ⟨t, hR, hact, hahead⟩ | ⟨r, hk, hfate⟩
      · rw [ht.sq_eq, List.mem_append] at hR
        rcases hR with hR | hR
        · exact absurd (List.mem_map.mpr ⟨_, hR, rfl⟩) hwp
        · refine Or.inl ⟨t, hR, (hid t).mpr hact, fun hadd => ?_⟩
          have hin := hahead (by rw [ht.sq_eq]; exact List.mem_append_right _ hadd)
          rw [ht.sq_eq, ahead_append_of_not_mem _ hwp, List.mem_append] at hin
          rcases hin with hpre | hok
          · have hnd := hb.sq_nodup
            rw [ht.sq_eq, List.map_append] at hnd
            exact (List.disjoint_of_nodup_append hnd (List.mem_map.mpr ⟨_, hpre, rfl⟩)
              (List.mem_map.mpr ⟨_, hadd, rfl⟩)).elim
          · exact hok
      · exact Or.inr ⟨r, ht.posted_eq w r hk, ht.fate hid hfate⟩

theorem Taken.stale {f : ℕ} (hw : ∀ w, s.cbs w = some (.waker f) → w ∉ pre.map Sqe.ud)
    (h : s.Stale f) : s'.Stale f := by
  unfold Stale at h ⊢
  rw [ht.fibers_eq]
  cases hfib : s.fibers f with
  | none => trivial
  | some st =>
    rw [hfib] at h
    cases st with
    | woken id' r => exact h
    | waiting id' =>
      obtain ⟨w, hcw, hcase⟩ := h
      have hwp := hw w hcw
      refine ⟨w, by rw [ht.cbs_eq]; exact hcw, ?_⟩
      rcases hcase with ⟨t, hR, hnot, hk⟩ | ⟨r, hk, hr0⟩
      · rw [ht.sq_eq, List.mem_append] at hR
        rcases hR with hR | hR
        · exact absurd (List.mem_map.mpr ⟨_, hR, rfl⟩) hwp
        · rw [ht.sq_eq, ahead_append_of_not_mem _ hwp, List.mem_append, not_or] at hnot
          refine Or.inl ⟨t, hR, hnot.2, fun ha => ?_⟩
          rcases ht.armed_new t ha with h' | h'
          · exact hk h'
          · exact hnot.1 h'
      · exact Or.inr ⟨r, ht.posted_eq w r hk, hr0⟩

end Taken

end Emu

end UringEpoll

end Helio
