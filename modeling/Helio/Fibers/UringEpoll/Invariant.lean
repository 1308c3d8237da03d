import Helio.Fibers.UringEpoll.Model

/-!
# What each user data and each id holds

The invariant of the emulation comes in three layers, each kept by every step given the
layers below it.

* `Books`: where each `centries_` entry in flight is. Its user data is in the submission
  queue once, or the kernel holds it (an armed poll, a posted completion), never both; a
  waker belongs to a fiber inside `EpollDel`, and a fiber has one.
* `Vector`: `epoll_entries_` is a sound free list (`Completion.Table.Inv`), or still empty.
* `Protocol`: what each id owns. A free id has no poll that can still bring events
  (`active`); a registered one has exactly one, whose user data is the entry's `index`; an id
  being deleted has at most one, and the fiber of its `EpollDel` (`cur`) knows what happened
  to it: its remove is still queued behind that poll, or its result says whether it cancelled
  the poll (`0`) or found it completed with events (`Fate`). Every other fiber in `EpollDel`
  belongs to a deletion that the poll callback already finished, and its remove fails
  (`Stale`): nothing armed or queued before it carries its target.

The last clause is the one the kernel's ring order pays for. After the poll callback
releases an entry, `centries_` may hand the poll's user data to a new poll, of this id or
another one; the stale remove still names it. Its poll-add is queued behind the remove, so
the remove, taken first, finds nothing armed (`ahead`).
-/

set_option autoImplicit false

namespace Helio

namespace UringEpoll

open Completion

/-! ## `centries_` as a table of callbacks by user data -/

section Callbacks

variable {u : Uring UringCb}

theorem callbacks_submit (hv : u.Inv) (hlt : u.outstanding < 2 ^ 31) (c : UringCb) :
    ∃ u' ud, u.getSubmitEntry (some c) = some (u', ud) ∧ callbacks u ud = none ∧
      callbacks u' = Function.update (callbacks u) ud (some c) ∧
      u'.outstanding = u.outstanding + 1 ∧ u'.Inv := by
  obtain ⟨u', i, hsub, hfree, htable, hout, hv'⟩ := hv.getSubmitEntry hlt c
  refine ⟨u', i + kUserDataCbIndex, hsub, by simp [callbacks, hfree], ?_, hout, hv'⟩
  funext ud
  by_cases hud : ud = i + kUserDataCbIndex
  · subst hud
    simp [callbacks, htable]
  · rw [Function.update_of_ne hud]
    unfold callbacks
    split
    · rw [htable, Function.update_of_ne (by omega)]
    · rfl

theorem callbacks_dispatch (hv : u.Inv) {ud : ℕ} {c : UringCb} (h : callbacks u ud = some c) :
    ∃ u', u.dispatchCqe ud = some (u', some c) ∧
      callbacks u' = Function.update (callbacks u) ud none ∧
      u'.outstanding + 1 = u.outstanding ∧ u'.Inv := by
  have hge : kUserDataCbIndex ≤ ud := by
    by_contra hlt
    simp [callbacks, hlt] at h
  have hi : u.table (ud - kUserDataCbIndex) = some c := by simpa [callbacks, hge] using h
  obtain ⟨u', hdis, htable, hout, hv'⟩ := hv.dispatchCqe hi
  rw [Nat.sub_add_cancel hge] at hdis
  refine ⟨u', hdis, ?_, hout, hv'⟩
  funext x
  by_cases hx : x = ud
  · subst hx
    simp [callbacks, hge, htable]
  · rw [Function.update_of_ne hx]
    unfold callbacks
    split
    · rw [htable, Function.update_of_ne (by omega)]
    · rfl

/-- A user data in flight fits in 32 bits: `centries_` has at most `2 ^ 31` entries. -/
theorem callbacks_lt (hv : u.Inv) {ud : ℕ} (h : callbacks u ud ≠ none) : ud < 2 ^ 32 := by
  have hge : kUserDataCbIndex ≤ ud := by
    by_contra hlt
    simp [callbacks, hlt] at h
  have hlt : ud - kUserDataCbIndex < u.size := by
    by_contra hge'
    simp [callbacks, hge, Table.table, hge'] at h
  have := hv.centries.size_le
  simp only [kUserDataCbIndex] at hge hlt
  omega

theorem outstanding_le_of_inv (hv : u.Inv) : u.outstanding ≤ 2 ^ 31 :=
  le_trans (Table.outstanding_le u.toTable) hv.centries.size_le

end Callbacks

/-! ## The submissions queued before a remove -/

/-- The submissions ahead of the one with user data `w`. -/
def ahead (w : ℕ) : List Sqe → List Sqe
  | [] => []
  | e :: sq => if e.ud = w then [] else e :: ahead w sq

theorem mem_of_mem_ahead {w : ℕ} {e : Sqe} : ∀ {sq : List Sqe}, e ∈ ahead w sq → e ∈ sq
  | [], h => by simp [ahead] at h
  | e' :: sq, h => by
    unfold ahead at h
    split at h
    · simp at h
    · rcases List.mem_cons.mp h with rfl | h
      · exact List.mem_cons_self
      · exact List.mem_cons_of_mem _ (mem_of_mem_ahead h)

/-- Submissions queued later do not come ahead. -/
theorem ahead_append {w : ℕ} (l : List Sqe) :
    ∀ {sq : List Sqe}, w ∈ sq.map Sqe.ud → ahead w (sq ++ l) = ahead w sq
  | [], hw => by simp at hw
  | e :: sq, hw => by
    by_cases he : e.ud = w
    · simp [ahead, he]
    · have hw' : w ∈ sq.map Sqe.ud := by
        simp only [List.map_cons, List.mem_cons] at hw
        exact hw.resolve_left (Ne.symm he)
      simp [ahead, he, ahead_append l hw']

/-- Submissions queued before it are all ahead of a submission. -/
theorem ahead_append_of_not_mem {w : ℕ} (l : List Sqe) :
    ∀ {pre : List Sqe}, w ∉ pre.map Sqe.ud → ahead w (pre ++ l) = pre ++ ahead w l
  | [], _ => rfl
  | e :: pre, hw => by
    simp only [List.map_cons, List.mem_cons, not_or] at hw
    simp [ahead, Ne.symm hw.1, ahead_append_of_not_mem l hw.2]

/-- Behind everything queued, a submission has all of it ahead. -/
theorem ahead_append_self {w : ℕ} {e : Sqe} (he : e.ud = w) {sq : List Sqe}
    (hw : w ∉ sq.map Sqe.ud) : ahead w (sq ++ [e]) = sq := by
  rw [ahead_append_of_not_mem _ hw]
  simp [ahead, he]

/-! ## The three layers -/

namespace Emu

variable {ECb : Type}

/-- A poll of `id` that can still bring events: submitted, armed, or completed with events and
    not yet reaped. -/
def active (s : Emu ECb) (id ud : ℕ) : Prop :=
  s.cbs ud = some (.pollCb id) ∧
    (Sqe.pollAdd ud ∈ s.sq ∨ s.kst ud = .armed ∨ ∃ r, 0 ≤ r ∧ s.kst ud = .posted r)

/-- What the result `res` of a remove says of the poll of `id`: `0` that the remove cancelled
    it, anything else that it completed with events, not yet reaped. -/
def Fate (s : Emu ECb) (id : ℕ) (res : ℤ) : Prop :=
  (res = 0 → ∀ ud, ¬ s.active id ud) ∧
    (res ≠ 0 → ∃ ud r, 0 ≤ r ∧ s.kst ud = .posted r ∧ s.cbs ud = some (.pollCb id))

/-- The fiber `f` runs the `EpollDel` that deletes `id`. While its remove is queued, the poll
    of `id` is its target and is queued ahead of it or already taken; after, the result is the
    poll's `Fate`; once the fiber is done without releasing, the poll completed with events. -/
def Current (s : Emu ECb) (f id : ℕ) : Prop :=
  match s.fibers f with
  | some (.waiting id') => id' = id ∧ ∃ w, s.cbs w = some (.waker f) ∧
      ((∃ t, Sqe.pollRemove w t ∈ s.sq ∧ s.active id t ∧
        (Sqe.pollAdd t ∈ s.sq → Sqe.pollAdd t ∈ ahead w s.sq)) ∨
       ∃ r, s.kst w = .posted r ∧ s.Fate id r)
  | some (.woken id' r) => id' = id ∧ s.Fate id r
  | none => s.Fate id 1

/-- A fiber whose deletion the poll callback already finished: its remove fails. -/
def Stale (s : Emu ECb) (f : ℕ) : Prop :=
  match s.fibers f with
  | some (.waiting _) => ∃ w, s.cbs w = some (.waker f) ∧
      ((∃ t, Sqe.pollRemove w t ∈ s.sq ∧ Sqe.pollAdd t ∉ ahead w s.sq ∧ s.kst t ≠ .armed) ∨
       ∃ r, s.kst w = .posted r ∧ r ≠ 0)
  | some (.woken _ r) => r ≠ 0
  | none => True

/-- **Where each entry in flight is.** -/
structure Books (s : Emu ECb) : Prop where
  uring : s.uring.Inv
  sq_nodup : (s.sq.map Sqe.ud).Nodup
  sq_idle : ∀ e ∈ s.sq, s.kst e.ud = .idle ∧ s.cbs e.ud ≠ none
  kst_cbs : ∀ ud, s.kst ud ≠ .idle → s.cbs ud ≠ none
  poll_kind : ∀ ud t id, s.cbs ud = some (.pollCb id) → Sqe.pollRemove ud t ∉ s.sq
  waker_kind : ∀ ud f, s.cbs ud = some (.waker f) →
    Sqe.pollAdd ud ∉ s.sq ∧ s.kst ud ≠ .armed ∧ ∃ id, s.fibers f = some (.waiting id)
  waker_unique : ∀ w w' f, s.cbs w = some (.waker f) → s.cbs w' = some (.waker f) → w = w'
  fresh : ∀ f, s.nextFiber ≤ f → s.fibers f = none

/-- **The free list of `epoll_entries_`.** -/
structure Vector (s : Emu ECb) : Prop where
  table : s.epoll.Inv ∨ (s.epoll.size = 0 ∧ s.epoll.nextFreeCe = -1)
  beyond : ∀ j, s.epoll.size ≤ j → (s.epoll.entries j).cb = none

/-- **What each id owns.** -/
structure Protocol (s : Emu ECb) : Prop where
  poll_lt : ∀ ud id, s.cbs ud = some (.pollCb id) → id < s.epoll.size
  active_unique : ∀ id ud ud', s.active id ud → s.active id ud' → ud = ud'
  free_idle : ∀ id, s.phase id = .free → s.cur id = none ∧ ∀ ud, ¬ s.active id ud
  live_one : ∀ id, s.phase id = .live → s.cur id = none ∧
    ∃ ud : ℕ, (s.epoll.entries id).index = ud ∧ s.active id ud
  deleting_cur : ∀ id, s.phase id = .deleting →
    ∃ f, s.cur id = some f ∧ f < s.nextFiber ∧ s.Current f id
  stale : ∀ f st, s.fibers f = some st → s.cur st.id ≠ some f → s.Stale f

/-- The invariant. -/
structure Inv (s : Emu ECb) : Prop where
  books : s.Books
  vector : s.Vector
  protocol : s.Protocol

/-! ## Reading the layers -/

section Reading

variable {s : Emu ECb}

theorem phase_free_iff {id : ℕ} : s.phase id = .free ↔ (s.epoll.entries id).cb = none := by
  unfold phase
  split
  · simp_all
  · next h =>
    simp only [h, reduceCtorEq, iff_false]
    split <;> simp

theorem phase_deleting_iff {id : ℕ} :
    s.phase id = .deleting ↔ ∃ c, (s.epoll.entries id).cb = some (c, 0) := by
  unfold phase
  split
  · simp_all
  · next c m h =>
    simp only [h, Option.some.injEq, Prod.mk.injEq]
    split <;> simp_all

theorem phase_live_iff {id : ℕ} :
    s.phase id = .live ↔ ∃ c m, m ≠ 0 ∧ (s.epoll.entries id).cb = some (c, m) := by
  unfold phase
  split
  · simp_all
  · next c m h =>
    simp only [h, Option.some.injEq, Prod.mk.injEq]
    split <;> simp_all

/-- A fiber that deletes its id is current, any other is stale. -/
theorem Protocol.cur_some (hp : s.Protocol) {id f : ℕ} (h : s.cur id = some f) :
    s.phase id = .deleting := by
  cases hph : s.phase id with
  | free => simp [(hp.free_idle id hph).1] at h
  | live => simp [(hp.live_one id hph).1] at h
  | deleting => rfl

theorem Books.not_mem_of_none (hb : s.Books) {ud : ℕ} (h : s.cbs ud = none) :
    ud ∉ s.sq.map Sqe.ud := by
  intro hud
  obtain ⟨e, he, rfl⟩ := List.mem_map.mp hud
  exact (hb.sq_idle e he).2 h

theorem Books.kst_of_none (hb : s.Books) {ud : ℕ} (h : s.cbs ud = none) : s.kst ud = .idle := by
  by_contra hk
  exact hb.kst_cbs ud hk h

theorem Books.not_mem_of_kst (hb : s.Books) {ud : ℕ} (h : s.kst ud ≠ .idle) :
    ud ∉ s.sq.map Sqe.ud := by
  intro hud
  obtain ⟨e, he, rfl⟩ := List.mem_map.mp hud
  exact h (hb.sq_idle e he).1

theorem active_cbs {id ud : ℕ} (h : s.active id ud) : s.cbs ud ≠ none := by
  rw [h.1]
  simp

/-- A poll brings events for one id only. -/
theorem active_id_eq {id id' ud : ℕ} (h : s.active id ud) (h' : s.active id' ud) : id = id' := by
  have hc := h.1
  rw [h'.1, Option.some.injEq, UringCb.pollCb.injEq] at hc
  exact hc.symm

section Fibers

variable {f id id' : ℕ}

theorem current_waiting (hf : s.fibers f = some (.waiting id')) :
    s.Current f id ↔ id' = id ∧ ∃ w, s.cbs w = some (.waker f) ∧
      ((∃ t, Sqe.pollRemove w t ∈ s.sq ∧ s.active id t ∧
        (Sqe.pollAdd t ∈ s.sq → Sqe.pollAdd t ∈ ahead w s.sq)) ∨
       ∃ r, s.kst w = .posted r ∧ s.Fate id r) := by
  simp only [Current, hf]

theorem current_woken {r : ℤ} (hf : s.fibers f = some (.woken id' r)) :
    s.Current f id ↔ id' = id ∧ s.Fate id r := by
  simp only [Current, hf]

theorem current_none (hf : s.fibers f = none) : s.Current f id ↔ s.Fate id 1 := by
  simp only [Current, hf]

theorem stale_waiting (hf : s.fibers f = some (.waiting id')) :
    s.Stale f ↔ ∃ w, s.cbs w = some (.waker f) ∧
      ((∃ t, Sqe.pollRemove w t ∈ s.sq ∧ Sqe.pollAdd t ∉ ahead w s.sq ∧ s.kst t ≠ .armed) ∨
       ∃ r, s.kst w = .posted r ∧ r ≠ 0) := by
  simp only [Stale, hf]

theorem stale_woken {r : ℤ} (hf : s.fibers f = some (.woken id' r)) : s.Stale f ↔ r ≠ 0 := by
  simp only [Stale, hf]

end Fibers

/-- A user data is queued once. -/
theorem Books.sqe_unique (hb : s.Books) {e e' : Sqe} (he : e ∈ s.sq) (he' : e' ∈ s.sq)
    (h : e.ud = e'.ud) : e = e' :=
  List.inj_on_of_nodup_map hb.sq_nodup he he' h

/-- A queued remove is the waker of a fiber in `EpollDel`. -/
theorem Books.remove_waker (hb : s.Books) {ud t : ℕ} (h : Sqe.pollRemove ud t ∈ s.sq) :
    ∃ f id, s.cbs ud = some (.waker f) ∧ s.fibers f = some (.waiting id) := by
  have hc := (hb.sq_idle _ h).2
  cases hcb : s.cbs ud with
  | none => exact absurd hcb hc
  | some c =>
    cases c with
    | pollCb id => exact absurd h (hb.poll_kind ud t id hcb)
    | waker f =>
      obtain ⟨-, -, id, hid⟩ := hb.waker_kind ud f hcb
      exact ⟨f, id, rfl, hid⟩

/-- While the remove of a current fiber is queued, its target is the poll of the id and is
    queued ahead of it, if at all. -/
theorem Books.current_queued (hb : s.Books) {w t f id : ℕ} (hw : s.cbs w = some (.waker f))
    (hq : Sqe.pollRemove w t ∈ s.sq) (hc : s.Current f id) :
    s.active id t ∧ (Sqe.pollAdd t ∈ s.sq → Sqe.pollAdd t ∈ ahead w s.sq) := by
  obtain ⟨-, -, id', hf⟩ := hb.waker_kind w f hw
  obtain ⟨-, w', hw', ⟨t', hq', hact, hahead⟩ | ⟨r, hk, -⟩⟩ := (current_waiting hf).mp hc
  · obtain rfl := hb.waker_unique w' w f hw' hw
    obtain rfl : t' = t := by
      have := hb.sqe_unique hq' hq rfl
      simpa using this
    exact ⟨hact, hahead⟩
  · obtain rfl := hb.waker_unique w' w f hw' hw
    exact absurd (hb.sq_idle _ hq).1 (by simp [Sqe.ud, hk])

/-- While the remove of a stale fiber is queued, its target is not armed, nor queued ahead. -/
theorem Books.stale_queued (hb : s.Books) {w t f : ℕ} (hw : s.cbs w = some (.waker f))
    (hq : Sqe.pollRemove w t ∈ s.sq) (hs : s.Stale f) :
    Sqe.pollAdd t ∉ ahead w s.sq ∧ s.kst t ≠ .armed := by
  obtain ⟨-, -, id', hf⟩ := hb.waker_kind w f hw
  obtain ⟨w', hw', ⟨t', hq', hnot, hk⟩ | ⟨r, hk, -⟩⟩ := (stale_waiting hf).mp hs
  · obtain rfl := hb.waker_unique w' w f hw' hw
    obtain rfl : t' = t := by
      have := hb.sqe_unique hq' hq rfl
      simpa using this
    exact ⟨hnot, hk⟩
  · obtain rfl := hb.waker_unique w' w f hw' hw
    exact absurd (hb.sq_idle _ hq).1 (by simp [Sqe.ud, hk])

/-- Once the remove of a current fiber completed, its result is what the fiber learns. -/
theorem Books.current_posted (hb : s.Books) {w f id : ℕ} {r : ℤ} (hw : s.cbs w = some (.waker f))
    (hk : s.kst w = .posted r) (hc : s.Current f id) :
    s.fibers f = some (.waiting id) ∧ s.Fate id r := by
  obtain ⟨-, -, id', hf⟩ := hb.waker_kind w f hw
  obtain ⟨rfl, w', hw', ⟨t, hq, -, -⟩ | ⟨r', hk', hfate⟩⟩ := (current_waiting hf).mp hc
  · obtain rfl := hb.waker_unique w' w f hw' hw
    exact absurd (hb.sq_idle _ hq).1 (by simp [Sqe.ud, hk])
  · obtain rfl := hb.waker_unique w' w f hw' hw
    rw [hk, KSt.posted.injEq] at hk'
    subst hk'
    exact ⟨hf, hfate⟩

/-- Once the remove of a stale fiber completed, it failed. -/
theorem Books.stale_posted (hb : s.Books) {w f : ℕ} {r : ℤ} (hw : s.cbs w = some (.waker f))
    (hk : s.kst w = .posted r) (hs : s.Stale f) : r ≠ 0 := by
  obtain ⟨-, -, id', hf⟩ := hb.waker_kind w f hw
  obtain ⟨w', hw', ⟨t, hq, -, -⟩ | ⟨r', hk', hr⟩⟩ := (stale_waiting hf).mp hs
  · obtain rfl := hb.waker_unique w' w f hw' hw
    exact absurd (hb.sq_idle _ hq).1 (by simp [Sqe.ud, hk])
  · obtain rfl := hb.waker_unique w' w f hw' hw
    rw [hk, KSt.posted.injEq] at hk'
    subst hk'
    exact hr

end Reading

end Emu

end UringEpoll

end Helio
