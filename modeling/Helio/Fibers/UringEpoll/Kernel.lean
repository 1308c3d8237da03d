import Helio.Fibers.UringEpoll.Frames

/-!
# The kernel's steps

The kernel takes the next submission (`submit`) or completes an armed poll (`fire`). Neither
touches `centries_`, the epoll entries or the fibers, so `Vector` stays as it is, and `Books`
and `Protocol` carry over through `Taken`. What changes is which polls can still bring events
and what a fiber in `EpollDel` has learnt. A poll-add arms its poll. A poll-remove that finds
its target armed cancels it: the remove is then the one of the current fiber of the target's
id, which learns `0` and that nothing is left. One that finds nothing armed completes with
`-ENOENT`: its fiber is stale, or the poll already completed with events.
-/

set_option autoImplicit false

namespace Helio

namespace UringEpoll

open Completion

namespace Emu

variable {ECb : Type} {s s' : Emu ECb}

/-! ## What the steps leave -/

theorem submit_pollAdd {ud : ℕ} {sq : List Sqe} (h : s.sq = .pollAdd ud :: sq) :
    s.submit = some { s with sq := sq, kst := Function.update s.kst ud .armed } := by
  rw [submit, h]

theorem submit_cancel {ud t : ℕ} {sq : List Sqe} (h : s.sq = .pollRemove ud t :: sq)
    (ht : s.kst t = .armed) :
    s.submit = some { s with sq := sq, kst := Function.update (Function.update s.kst t
      (.posted (-ECANCELED))) ud (.posted 0) } := by
  rw [submit, h]
  simp only [ht, if_true]

theorem submit_enoent {ud t : ℕ} {sq : List Sqe} (h : s.sq = .pollRemove ud t :: sq)
    (ht : s.kst t ≠ .armed) :
    s.submit = some { s with sq := sq, kst := Function.update s.kst ud (.posted (-ENOENT)) } := by
  rw [submit, h]
  simp only [ht, if_false]

theorem fire_eq {ud res : ℕ} (h : s.kst ud = .armed) :
    s.fire ud res = some { s with kst := Function.update s.kst ud (.posted res) } := by
  simp [fire, h]

/-! ## The layers under a step of the kernel -/

theorem Vector.of_epoll (hv : s.Vector) (h : s'.epoll = s.epoll) : s'.Vector := by
  obtain ⟨htable, hbeyond⟩ := hv
  exact ⟨by rw [h]; exact htable, by rw [h]; exact hbeyond⟩

/-- An id with a callback lies in the vector, which is then sound. -/
theorem Vector.inv_of_used (hv : s.Vector) {id : ℕ} (hid : (s.epoll.entries id).cb ≠ none) :
    id < s.epoll.size ∧ s.epoll.Inv := by
  have hlt : id < s.epoll.size := by
    by_contra h
    exact hid (hv.beyond id (by omega))
  refine ⟨hlt, hv.table.resolve_right fun h0 => ?_⟩
  have := h0.1
  omega

/-- `EpollDelInternal` puts an entry with a callback back on the free list. -/
theorem Vector.free (hv : s.Vector) {id : ℕ} {c : ECb × ℕ} (hid : (s.epoll.entries id).cb = some c)
    (h : s'.epoll = s.epoll.free id) : s'.Vector := by
  obtain ⟨hlt, hinv⟩ := hv.inv_of_used (by rw [hid]; simp)
  have htab : s.epoll.table id = some c := by simp [Table.table, hlt, hid]
  refine ⟨Or.inl (by rw [h]; exact (hinv.free htab).2.2), fun j hj => ?_⟩
  rw [h] at hj ⊢
  have hj' : j ≠ id := by
    simp only [Table.free] at hj
    omega
  simp only [Table.free, Function.update_of_ne hj']
  exact hv.beyond j (by simpa [Table.free] using hj)

/-- Rewriting an entry with a callback by another one keeps the free list. -/
theorem Vector.set_used (hv : s.Vector) {id : ℕ} (hid : (s.epoll.entries id).cb ≠ none)
    (e : Entry (ECb × ℕ)) (he : e.cb ≠ none)
    (h : s'.epoll = ⟨s.epoll.size, Function.update s.epoll.entries id e, s.epoll.nextFreeCe⟩) :
    s'.Vector := by
  obtain ⟨hlt, hinv⟩ := hv.inv_of_used hid
  refine ⟨Or.inl (by rw [h]; exact hinv.set_used hid e he), fun j hj => ?_⟩
  rw [h] at hj ⊢
  have hj' : j ≠ id := by
    simp only at hj
    omega
  simp only [Function.update_of_ne hj']
  exact hv.beyond j hj

/-- The kernel leaves `centries_` and the fibers, takes `pre` off the queue, and changes what it
    holds only of a user data it took and of an armed poll. -/
theorem Books.of_kernel (hb : s.Books) {pre : List Sqe} (ht : Taken s s' pre)
    (hu : s'.uring = s.uring) (hnf : s'.nextFiber = s.nextFiber)
    (hk : ∀ x, s'.kst x ≠ s.kst x → x ∈ pre.map Sqe.ud ∨ s.kst x = .armed) : s'.Books := by
  have hnd := hb.sq_nodup
  rw [ht.sq_eq, List.map_append] at hnd
  have hmem : ∀ e ∈ s'.sq, e ∈ s.sq := fun e he => by
    rw [ht.sq_eq]
    exact List.mem_append_right _ he
  have hpre : ∀ e ∈ pre, e ∈ s.sq := fun e he => by
    rw [ht.sq_eq]
    exact List.mem_append_left _ he
  -- what the kernel holds of a user data still queued did not change
  have hkeep : ∀ e ∈ s'.sq, s'.kst e.ud = s.kst e.ud := by
    intro e he
    by_contra hne
    rcases hk e.ud hne with hx | hx
    · exact List.disjoint_of_nodup_append hnd hx (List.mem_map_of_mem he)
    · exact absurd hx (by rw [(hb.sq_idle e (hmem e he)).1]; simp)
  refine ⟨hu ▸ hb.uring, hnd.of_append_right, ?_, ?_, ?_, ?_, ?_, ?_⟩
  · intro e he
    rw [hkeep e he, ht.cbs_eq]
    exact hb.sq_idle e (hmem e he)
  · intro x hx
    rw [ht.cbs_eq]
    by_cases hsame : s'.kst x = s.kst x
    · exact hb.kst_cbs x (by rwa [hsame] at hx)
    · rcases hk x hsame with hx' | hx'
      · obtain ⟨e, he, rfl⟩ := List.mem_map.mp hx'
        exact (hb.sq_idle e (hpre e he)).2
      · exact hb.kst_cbs x (by rw [hx']; simp)
  · intro x t id hc hR
    rw [ht.cbs_eq] at hc
    exact hb.poll_kind x t id hc (hmem _ hR)
  · intro x f hc
    rw [ht.cbs_eq] at hc
    obtain ⟨hadd, harmed, hwait⟩ := hb.waker_kind x f hc
    refine ⟨fun h => hadd (hmem _ h), fun h => ?_, by rw [ht.fibers_eq]; exact hwait⟩
    rcases ht.armed_new x h with h' | h'
    · exact harmed h'
    · exact hadd (hpre _ h')
  · intro w w' f hw hw'
    rw [ht.cbs_eq] at hw hw'
    exact hb.waker_unique w w' f hw hw'
  · intro f hf
    rw [ht.fibers_eq]
    exact hb.fresh f (hnf ▸ hf)

/-- A step that leaves what each id owns keeps `Protocol` when it starts no poll, keeps the poll
    of every registered id, and carries the clause of every current and of every stale fiber. -/
theorem Protocol.of_kernel (hp : s.Protocol)
    (hlt : ∀ ud id, s'.cbs ud = some (.pollCb id) → id < s'.epoll.size)
    (hph : ∀ id, s'.phase id = s.phase id)
    (hidx : ∀ id, (s'.epoll.entries id).index = (s.epoll.entries id).index)
    (hcur : s'.cur = s.cur) (hnf : s.nextFiber ≤ s'.nextFiber)
    (hsub : ∀ id x, s'.active id x → s.active id x)
    (hlive : ∀ id x, s.phase id = .live → s.active id x → s'.active id x)
    (hcurrent : ∀ f id, s.cur id = some f → s.Current f id → s'.Current f id)
    (hstale : ∀ f st, s'.fibers f = some st → s.cur st.id ≠ some f → s'.Stale f) :
    s'.Protocol := by
  refine ⟨hlt, ?_, ?_, ?_, ?_, ?_⟩
  · intro id ud ud' h h'
    exact hp.active_unique id ud ud' (hsub id ud h) (hsub id ud' h')
  · intro id hfree
    rw [hph] at hfree
    obtain ⟨hnone, hno⟩ := hp.free_idle id hfree
    exact ⟨by rw [hcur]; exact hnone, fun ud h => hno ud (hsub id ud h)⟩
  · intro id hlv
    rw [hph] at hlv
    obtain ⟨hnone, ud, hidx', hact⟩ := hp.live_one id hlv
    exact ⟨by rw [hcur]; exact hnone, ud, by rw [hidx]; exact hidx', hlive id ud hlv hact⟩
  · intro id hdel
    rw [hph] at hdel
    obtain ⟨f, hf, hlt', hc⟩ := hp.deleting_cur id hdel
    exact ⟨f, by rw [hcur]; exact hf, by omega, hcurrent f id hf hc⟩
  · intro f st hf hne
    rw [hcur] at hne
    exact hstale f st hf hne

/-- A step that changes what one id `id₀` owns keeps `Protocol` when the clauses of `id₀` hold
    after it and everything the other ids own carries over. -/
theorem Protocol.of_step (hp : s.Protocol) (id₀ : ℕ)
    (hlt : ∀ ud id, s'.cbs ud = some (.pollCb id) → id < s'.epoll.size)
    (hph : ∀ id, id ≠ id₀ → s'.phase id = s.phase id)
    (hidx : ∀ id, id ≠ id₀ → s.phase id = .live →
      (s'.epoll.entries id).index = (s.epoll.entries id).index)
    (hcur : ∀ id, id ≠ id₀ → s'.cur id = s.cur id) (hnf : s.nextFiber ≤ s'.nextFiber)
    (hact : ∀ id, id ≠ id₀ → ∀ x, s'.active id x ↔ s.active id x)
    (hcurrent : ∀ f id, id ≠ id₀ → s.cur id = some f → s.Current f id → s'.Current f id)
    (hunique : ∀ ud ud', s'.active id₀ ud → s'.active id₀ ud' → ud = ud')
    (hfree : s'.phase id₀ = .free → s'.cur id₀ = none ∧ ∀ ud, ¬ s'.active id₀ ud)
    (hlive : s'.phase id₀ = .live → s'.cur id₀ = none ∧
      ∃ ud : ℕ, (s'.epoll.entries id₀).index = ud ∧ s'.active id₀ ud)
    (hdel : s'.phase id₀ = .deleting →
      ∃ f, s'.cur id₀ = some f ∧ f < s'.nextFiber ∧ s'.Current f id₀)
    (hstale : ∀ f st, s'.fibers f = some st → s'.cur st.id ≠ some f → s'.Stale f) :
    s'.Protocol := by
  refine ⟨hlt, ?_, ?_, ?_, ?_, hstale⟩
  · intro id ud ud' h h'
    by_cases hid : id = id₀
    · subst hid
      exact hunique ud ud' h h'
    · exact hp.active_unique id ud ud' ((hact id hid ud).mp h) ((hact id hid ud').mp h')
  · intro id hfr
    by_cases hid : id = id₀
    · subst hid
      exact hfree hfr
    · rw [hph id hid] at hfr
      obtain ⟨hnone, hno⟩ := hp.free_idle id hfr
      exact ⟨by rw [hcur id hid]; exact hnone, fun ud h => hno ud ((hact id hid ud).mp h)⟩
  · intro id hlv
    by_cases hid : id = id₀
    · subst hid
      exact hlive hlv
    · rw [hph id hid] at hlv
      obtain ⟨hnone, ud, hidx', ha⟩ := hp.live_one id hlv
      exact ⟨by rw [hcur id hid]; exact hnone, ud, by rw [hidx id hid hlv]; exact hidx',
        (hact id hid ud).mpr ha⟩
  · intro id hdl
    by_cases hid : id = id₀
    · subst hid
      exact hdel hdl
    · rw [hph id hid] at hdl
      obtain ⟨f, hf, hlt', hc⟩ := hp.deleting_cur id hdl
      exact ⟨f, by rw [hcur id hid]; exact hf, by omega, hcurrent f id hid hf hc⟩

/-- Whether a user data is a poll that can still bring events depends on its callback, its
    submission and what the kernel holds of it. -/
theorem active_congr {id x : ℕ} (hq : Sqe.pollAdd x ∈ s'.sq ↔ Sqe.pollAdd x ∈ s.sq)
    (hk : s'.kst x = s.kst x) (hc : s'.cbs x = s.cbs x) :
    s'.active id x ↔ s.active id x := by
  unfold active
  rw [hc, hq, hk]

theorem not_active_of_waker {id ud f : ℕ} (h : s.cbs ud = some (.waker f)) : ¬ s.active id ud := by
  intro ha
  have hc := ha.1
  rw [h] at hc
  cases hc

/-- The user data of a remove is the waker of its own fiber only. -/
theorem waker_not_mem_remove {ud t f₀ f w : ℕ} (hw₀ : s.cbs ud = some (.waker f₀)) (hf : f ≠ f₀)
    (hcw : s.cbs w = some (.waker f)) : w ∉ [Sqe.pollRemove ud t].map Sqe.ud := by
  intro hmem
  simp only [List.map_cons, List.map_nil, List.mem_singleton, Sqe.ud] at hmem
  subst hmem
  rw [hw₀, Option.some.injEq, UringCb.waker.injEq] at hcw
  exact hf hcw.symm

/-! ## A poll-add taken -/

theorem Inv.of_pollAdd (hv : s.Inv) {ud : ℕ} {sq : List Sqe} (h : s.sq = .pollAdd ud :: sq) :
    ({ s with sq := sq, kst := Function.update s.kst ud .armed } : Emu ECb).Inv := by
  have hb := hv.books
  have hq : Sqe.pollAdd ud ∈ s.sq := by
    rw [h]
    exact List.mem_cons_self
  -- the kernel changes only what it holds of the poll-add it took, which it arms
  have hk : ∀ x, Function.update s.kst ud .armed x ≠ s.kst x →
      x ∈ [Sqe.pollAdd ud].map Sqe.ud ∨ s.kst x = .armed := by
    intro x hx
    by_cases hxu : x = ud
    · subst hxu
      exact Or.inl (by simp [Sqe.ud])
    · exact absurd (Function.update_of_ne hxu _ _) hx
  have ht : Taken s { s with sq := sq, kst := Function.update s.kst ud .armed } [.pollAdd ud] :=
    Taken.of_kst hb h rfl rfl hk fun x hx => by
      by_cases hxu : x = ud
      · subst hxu
        exact Or.inr List.mem_cons_self
      · left
        simpa [Function.update_of_ne hxu] using hx
  -- the poll-add still brings events: queued before, armed after
  have hact : ∀ id x, ({ s with sq := sq, kst := Function.update s.kst ud .armed } :
      Emu ECb).active id x ↔ s.active id x := by
    intro id x
    by_cases hxu : x = ud
    · subst hxu
      simp [active, hq, cbs]
    · have hmem : Sqe.pollAdd x ∈ sq ↔ Sqe.pollAdd x ∈ s.sq := by
        rw [h]
        simp [hxu]
      exact active_congr hmem (Function.update_of_ne hxu _ _) rfl
  -- no waker's user data is a poll-add
  have hw : ∀ f w, s.cbs w = some (.waker f) → w ∉ [Sqe.pollAdd ud].map Sqe.ud := by
    intro f w hcw hmem
    simp only [List.map_cons, List.map_nil, List.mem_singleton, Sqe.ud] at hmem
    subst hmem
    exact (hb.waker_kind w f hcw).1 hq
  exact ⟨hb.of_kernel ht rfl rfl hk, hv.vector.of_epoll rfl,
    hv.protocol.of_kernel hv.protocol.poll_lt (fun _ => rfl) (fun _ => rfl) rfl le_rfl
      (fun id x => (hact id x).mp) (fun id x _ => (hact id x).mpr)
      (fun f id _ hc => ht.current hb (hw f) (hact id) hc)
      (fun f st hf hne => ht.stale (hw f) (hv.protocol.stale f st hf hne))⟩

/-! ## A poll-remove taken -/

/-- **A remove that finds its target armed is the current fiber's.** The remove of a stale fiber
    finds nothing armed, so the fiber waiting on this one deletes the target's id. -/
theorem Inv.armed_remove (hv : s.Inv) {ud t : ℕ} (hq : Sqe.pollRemove ud t ∈ s.sq)
    (ht : s.kst t = .armed) :
    ∃ f id, s.cbs ud = some (.waker f) ∧ s.fibers f = some (.waiting id) ∧
      s.cur id = some f ∧ s.Current f id ∧ s.active id t := by
  have hb := hv.books
  have hp := hv.protocol
  obtain ⟨f, id, hw, hf⟩ := hb.remove_waker hq
  have hcur : s.cur id = some f := by
    by_contra hne
    exact (hb.stale_queued hw hq (hp.stale f _ hf hne)).2 ht
  have hc : s.Current f id := by
    obtain ⟨g, hg, -, hc⟩ := hp.deleting_cur id (hp.cur_some hcur)
    rw [hcur, Option.some.injEq] at hg
    rw [hg]
    exact hc
  exact ⟨f, id, hw, hf, hcur, hc, (hb.current_queued hw hq hc).1⟩

/-- A remove that finds its target armed cancels it. It is the remove of the current fiber of
    the target's id, since a stale one finds nothing armed; that fiber learns `0`, and the id
    has no poll left that can bring events. -/
theorem Inv.of_cancel (hv : s.Inv) {ud t : ℕ} {sq : List Sqe}
    (h : s.sq = .pollRemove ud t :: sq) (ht : s.kst t = .armed) :
    ({ s with sq := sq, kst := Function.update (Function.update s.kst t
      (.posted (-ECANCELED))) ud (.posted 0) } : Emu ECb).Inv := by
  set s' : Emu ECb := { s with
    sq := sq
    kst := Function.update (Function.update s.kst t (.posted (-ECANCELED))) ud (.posted 0) }
  have hb := hv.books
  have hp := hv.protocol
  have hq : Sqe.pollRemove ud t ∈ s.sq := by
    rw [h]
    exact List.mem_cons_self
  have hmemq : ∀ x, Sqe.pollAdd x ∈ s'.sq ↔ Sqe.pollAdd x ∈ s.sq := by
    intro x
    rw [h]
    simp [s']
  have hidle : s.kst ud = .idle := (hb.sq_idle _ hq).1
  have htu : t ≠ ud := by
    rintro rfl
    rw [hidle] at ht
    cases ht
  have hkt : s'.kst t = .posted (-ECANCELED) := by simp [s', Function.update_of_ne htu]
  have hku : s'.kst ud = .posted 0 := by simp [s']
  have hkx : ∀ x, x ≠ t → x ≠ ud → s'.kst x = s.kst x := by
    intro x hxt hxu
    simp [s', Function.update_of_ne hxt, Function.update_of_ne hxu]
  -- the kernel changes only what it holds of the remove and of its armed target, and arms none
  have hk : ∀ x, s'.kst x ≠ s.kst x → x ∈ [Sqe.pollRemove ud t].map Sqe.ud ∨ s.kst x = .armed := by
    intro x hx
    by_cases hxt : x = t
    · subst hxt
      exact Or.inr ht
    · by_cases hxu : x = ud
      · subst hxu
        exact Or.inl (by simp [Sqe.ud])
      · exact absurd (hkx x hxt hxu) hx
  have htk : Taken s s' [.pollRemove ud t] := Taken.of_kst hb h rfl rfl hk fun x hx => by
    have hxt : x ≠ t := by
      rintro rfl
      rw [hkt] at hx
      cases hx
    have hxu : x ≠ ud := by
      rintro rfl
      rw [hku] at hx
      cases hx
    left
    rw [← hkx x hxt hxu]
    exact hx
  obtain ⟨f₀, id₁, hw₀, hf₀, hcur₀, -, hact₁⟩ := hv.armed_remove hq ht
  have hown : ∀ id, s.active id t → id = id₁ := fun _ ha => active_id_eq ha hact₁
  -- the cancelled poll brings no more events; nothing else changes
  have hact : ∀ id x, s'.active id x ↔ s.active id x ∧ x ≠ t := by
    intro id x
    by_cases hxt : x = t
    · subst hxt
      refine ⟨fun ha => ?_, fun ha => absurd rfl ha.2⟩
      rcases ha.2 with hm | hk | ⟨r, hr, hk⟩
      · have hnk : s.kst x ≠ .idle := by
          rw [ht]
          simp
        exact (hb.not_mem_of_kst hnk (List.mem_map.mpr ⟨_, (hmemq x).mp hm, rfl⟩)).elim
      · rw [hkt] at hk
        cases hk
      · rw [hkt, KSt.posted.injEq] at hk
        unfold ECANCELED at hk
        omega
    · by_cases hxu : x = ud
      · subst hxu
        exact ⟨fun ha => absurd ha (not_active_of_waker (s := s') hw₀),
          fun ha => absurd ha.1 (not_active_of_waker hw₀)⟩
      · rw [active_congr (hmemq x) (hkx x hxt hxu) rfl]
        exact ⟨fun ha => ⟨ha, hxt⟩, And.left⟩
  have hw : ∀ f, f ≠ f₀ → ∀ w, s.cbs w = some (.waker f) →
      w ∉ [Sqe.pollRemove ud t].map Sqe.ud := fun _ hf _ => waker_not_mem_remove hw₀ hf
  refine ⟨hb.of_kernel htk rfl rfl hk, hv.vector.of_epoll rfl,
    hp.of_kernel hp.poll_lt (fun _ => rfl) (fun _ => rfl) rfl le_rfl
      (fun id x ha => ((hact id x).mp ha).1) ?_ ?_ ?_⟩
  · -- the target belongs to `id₁`, which is being deleted
    intro id x hlv ha
    refine (hact id x).mpr ⟨ha, ?_⟩
    rintro rfl
    obtain rfl := hown id ha
    rw [hp.cur_some hcur₀] at hlv
    cases hlv
  · intro f id hf hc
    by_cases hff : f = f₀
    · subst hff
      obtain ⟨hid, -⟩ := (current_waiting hf₀).mp hc
      subst hid
      refine (current_waiting (s := s') hf₀).mpr
        ⟨rfl, ud, hw₀, Or.inr ⟨0, hku, fun _ x ha => ?_, fun h0 => absurd rfl h0⟩⟩
      obtain ⟨ha', hxt⟩ := (hact _ x).mp ha
      exact hxt (hp.active_unique _ x t ha' hact₁)
    · refine htk.current hb (hw f hff) (fun x => ?_) hc
      rw [hact]
      refine ⟨And.left, fun ha => ⟨ha, ?_⟩⟩
      rintro rfl
      obtain rfl := hown id ha
      exact hff (Option.some.inj (hf.symm.trans hcur₀))
  · intro f st hf hne
    have hff : f ≠ f₀ := by
      rintro rfl
      rw [show s'.fibers f = s.fibers f from rfl, hf₀, Option.some.injEq] at hf
      subst hf
      exact hne hcur₀
    exact htk.stale (hw f hff) (hp.stale f st hf hne)

/-- A remove that finds nothing armed completes with `-ENOENT`. A stale fiber learns that its
    remove failed; the current fiber of an id finds the poll completed with events, since the
    poll-add of its target was taken before the remove. -/
theorem Inv.of_enoent (hv : s.Inv) {ud t : ℕ} {sq : List Sqe}
    (h : s.sq = .pollRemove ud t :: sq) (ht : s.kst t ≠ .armed) :
    ({ s with sq := sq, kst := Function.update s.kst ud (.posted (-ENOENT)) } : Emu ECb).Inv := by
  set s' : Emu ECb := { s with sq := sq, kst := Function.update s.kst ud (.posted (-ENOENT)) }
  have hb := hv.books
  have hq : Sqe.pollRemove ud t ∈ s.sq := by
    rw [h]
    exact List.mem_cons_self
  have hmemq : ∀ x, Sqe.pollAdd x ∈ s'.sq ↔ Sqe.pollAdd x ∈ s.sq := by
    intro x
    rw [h]
    simp [s']
  have hidle : s.kst ud = .idle := (hb.sq_idle _ hq).1
  have hku : s'.kst ud = .posted (-ENOENT) := by simp [s']
  have hkx : ∀ x, x ≠ ud → s'.kst x = s.kst x := by
    intro x hxu
    simp [s', Function.update_of_ne hxu]
  -- the kernel changes only what it holds of the remove
  have hk : ∀ x, s'.kst x ≠ s.kst x → x ∈ [Sqe.pollRemove ud t].map Sqe.ud ∨ s.kst x = .armed := by
    intro x hx
    by_cases hxu : x = ud
    · subst hxu
      exact Or.inl (by simp [Sqe.ud])
    · exact absurd (hkx x hxu) hx
  have htk : Taken s s' [.pollRemove ud t] := Taken.of_kst hb h rfl rfl hk fun x hx => by
    have hxu : x ≠ ud := by
      rintro rfl
      rw [hku] at hx
      cases hx
    left
    rw [← hkx x hxu]
    exact hx
  obtain ⟨f₀, id₁, hw₀, hf₀⟩ := hb.remove_waker hq
  have hact : ∀ id x, s'.active id x ↔ s.active id x := by
    intro id x
    by_cases hxu : x = ud
    · subst hxu
      exact ⟨fun ha => absurd ha (not_active_of_waker (s := s') hw₀),
        fun ha => absurd ha (not_active_of_waker hw₀)⟩
    · exact active_congr (hmemq x) (hkx x hxu) rfl
  have hw : ∀ f, f ≠ f₀ → ∀ w, s.cbs w = some (.waker f) →
      w ∉ [Sqe.pollRemove ud t].map Sqe.ud := fun _ hf _ => waker_not_mem_remove hw₀ hf
  refine ⟨hb.of_kernel htk rfl rfl hk, hv.vector.of_epoll rfl,
    hv.protocol.of_kernel hv.protocol.poll_lt (fun _ => rfl) (fun _ => rfl) rfl le_rfl
      (fun id x => (hact id x).mp) (fun id x _ => (hact id x).mpr) ?_ ?_⟩
  · intro f id hf hc
    by_cases hff : f = f₀
    · subst hff
      obtain ⟨hid, -⟩ := (current_waiting hf₀).mp hc
      subst hid
      obtain ⟨hact₁, hahead⟩ := hb.current_queued hw₀ hq hc
      -- the target's poll-add was taken before the remove, and the poll is not armed
      have hnq : Sqe.pollAdd t ∉ s.sq := fun hm => by
        have hm' := hahead hm
        rw [h] at hm'
        simp [ahead, Sqe.ud] at hm'
      obtain ⟨r, hr, hkr⟩ : ∃ r, 0 ≤ r ∧ s.kst t = .posted r := by
        rcases hact₁.2 with hm | hk | hk
        · exact absurd hm hnq
        · exact absurd hk ht
        · exact hk
      have htu : t ≠ ud := by
        rintro rfl
        rw [hidle] at hkr
        cases hkr
      refine (current_waiting (s := s') hf₀).mpr ⟨rfl, ud, hw₀, Or.inr ⟨-ENOENT, hku,
        fun h0 => absurd h0 (by decide), fun _ => ⟨t, r, hr, ?_, hact₁.1⟩⟩⟩
      rw [hkx t htu]
      exact hkr
    · exact htk.current hb (hw f hff) (hact id) hc
  · intro f st hf hne
    by_cases hff : f = f₀
    · subst hff
      exact (stale_waiting (s := s') hf₀).mpr ⟨ud, hw₀, Or.inr ⟨-ENOENT, hku, by decide⟩⟩
    · exact htk.stale (hw f hff) (hv.protocol.stale f st hf hne)

/-! ## A poll completed with events -/

theorem Inv.of_fire (hv : s.Inv) {ud res : ℕ} (h : s.kst ud = .armed) :
    ({ s with kst := Function.update s.kst ud (.posted res) } : Emu ECb).Inv := by
  set s' : Emu ECb := { s with kst := Function.update s.kst ud (.posted res) }
  have hb := hv.books
  have hku : s'.kst ud = .posted res := by simp [s']
  have hkx : ∀ x, x ≠ ud → s'.kst x = s.kst x := by
    intro x hxu
    simp [s', Function.update_of_ne hxu]
  -- the kernel changes only what it holds of the armed poll, which it completes
  have hk : ∀ x, s'.kst x ≠ s.kst x → x ∈ ([] : List Sqe).map Sqe.ud ∨ s.kst x = .armed := by
    intro x hx
    by_cases hxu : x = ud
    · subst hxu
      exact Or.inr h
    · exact absurd (hkx x hxu) hx
  have htk : Taken s s' [] := Taken.of_kst hb rfl rfl rfl hk fun x hx => by
    have hxu : x ≠ ud := by
      rintro rfl
      rw [hku] at hx
      cases hx
    left
    rw [← hkx x hxu]
    exact hx
  -- the poll brings events: armed before, completed with `res` after
  have hact : ∀ id x, s'.active id x ↔ s.active id x := by
    intro id x
    by_cases hxu : x = ud
    · subst hxu
      exact ⟨fun ha => ⟨ha.1, Or.inr (Or.inl h)⟩,
        fun ha => ⟨ha.1, Or.inr (Or.inr ⟨res, by omega, hku⟩)⟩⟩
    · exact active_congr Iff.rfl (hkx x hxu) rfl
  have hw : ∀ f w, s.cbs w = some (.waker f) → w ∉ ([] : List Sqe).map Sqe.ud :=
    fun _ _ _ hm => by simp at hm
  exact ⟨hb.of_kernel htk rfl rfl hk, hv.vector.of_epoll rfl,
    hv.protocol.of_kernel hv.protocol.poll_lt (fun _ => rfl) (fun _ => rfl) rfl le_rfl
      (fun id x => (hact id x).mp) (fun id x _ => (hact id x).mpr)
      (fun f id _ hc => htk.current hb (hw f) (hact id) hc)
      (fun f st hf hne => htk.stale (hw f) (hv.protocol.stale f st hf hne))⟩

/-! ## The kernel's steps -/

/-- **The kernel takes a submission** and keeps the invariant; the epoll entries stay. -/
theorem Inv.submit_some (hv : s.Inv) (hne : s.sq ≠ []) :
    ∃ s', s.submit = some s' ∧ s'.epoll = s.epoll ∧ s'.Inv := by
  cases hsq : s.sq with
  | nil => exact absurd hsq hne
  | cons e sq =>
    cases e with
    | pollAdd ud => exact ⟨_, submit_pollAdd hsq, rfl, hv.of_pollAdd hsq⟩
    | pollRemove ud t =>
      by_cases ht : s.kst t = .armed
      · exact ⟨_, submit_cancel hsq ht, rfl, hv.of_cancel hsq ht⟩
      · exact ⟨_, submit_enoent hsq ht, rfl, hv.of_enoent hsq ht⟩

/-- **The kernel completes an armed poll** and keeps the invariant; the epoll entries stay. -/
theorem Inv.fire_some (hv : s.Inv) {ud : ℕ} (res : ℕ) (h : s.kst ud = .armed) :
    ∃ s', s.fire ud res = some s' ∧ s'.epoll = s.epoll ∧ s'.Inv :=
  ⟨_, fire_eq h, rfl, hv.of_fire h⟩

end Emu

end UringEpoll

end Helio
