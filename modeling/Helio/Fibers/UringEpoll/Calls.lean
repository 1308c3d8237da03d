import Helio.Fibers.UringEpoll.Loop

/-!
# The calls

`Init` leaves every layer trivially true. `EpollDel(id)` of a registered id clears the mask and
queues the remove of the id's poll, whose user data it reads in the entry's `index`; its fiber
becomes the current one of the id, with the poll ahead of its remove. `EpollAdd` takes the head
of the free list, after growing the vector when the list is empty, and `EpollAddInternal`
submits the first poll of the id: the id goes from free to registered. Both calls leave every
other id as it was. Below `2 ^ 31` ids in use and `2 ^ 31` entries of `centries_` in flight,
both are defined.
-/

set_option autoImplicit false

namespace Helio

namespace UringEpoll

open Completion

namespace Emu

variable {ECb : Type} {s : Emu ECb}

/-! ## The state after `Init` -/

theorem Inv.of_init {k : ℕ} (hk : k ≤ 31) : (init (2 ^ k) : Emu ECb).Inv := by
  -- nothing is in flight, and no id is in use
  have hcbs : ∀ ud, (init (2 ^ k) : Emu ECb).cbs ud = none := by
    intro ud
    -- every entry of Table.create has no callback, whatever the two range tests give
    unfold cbs callbacks Table.table
    split_ifs <;> rfl
  have hact : ∀ i x, ¬ (init (2 ^ k) : Emu ECb).active i x := by
    intro i x h
    have hc := h.1
    rw [hcbs] at hc
    cases hc
  have hnocb : ∀ ud c, (init (2 ^ k) : Emu ECb).cbs ud ≠ some c := by
    intro ud c h
    rw [hcbs] at h
    cases h
  refine ⟨⟨Uring.Inv.of_init hk, List.nodup_nil, ?_, fun _ h => absurd rfl h, ?_, ?_, ?_,
    fun _ _ => rfl⟩, ⟨Or.inr ⟨rfl, rfl⟩, fun _ _ => rfl⟩, ⟨?_, ?_, fun i _ => ⟨rfl, hact i⟩, ?_, ?_, ?_⟩⟩
  · intro e he
    simp [init] at he
  · exact fun ud _ i h => absurd h (hnocb ud _)
  · exact fun ud f h => absurd h (hnocb ud _)
  · exact fun w _ f h => absurd h (hnocb w _)
  · exact fun ud i h => absurd h (hnocb ud _)
  · exact fun i x _ h => absurd h (hact i x)
  · intro i h
    simp [phase, init] at h
  · intro i h
    simp [phase, init] at h
  · intro f st h
    simp [init] at h

/-! ## `EpollDel` -/

theorem epollDel_eq {i w : ℕ} {u : Uring UringCb} (hi : i < s.epoll.size)
    (h : s.uring.getSubmitEntry (some (.waker s.nextFiber)) = some (u, w)) :
    s.epollDel i = some { s with
      uring := u
      sq := s.sq ++ [.pollRemove w ((s.epoll.entries i).index % 2 ^ 32).toNat]
      epoll := ⟨s.epoll.size, Function.update s.epoll.entries i
        ⟨(s.epoll.entries i).cb.map fun c => (c.1, 0), (s.epoll.entries i).index⟩,
        s.epoll.nextFreeCe⟩
      fibers := Function.update s.fibers s.nextFiber (some (.waiting i))
      nextFiber := s.nextFiber + 1
      cur := Function.update s.cur i (some s.nextFiber) } := by
  simp [epollDel, hi, h]

/-- `EpollDel` of a registered id: the remove names the id's poll, and the new fiber is the
    current one of the id, with the poll queued ahead of the remove or already taken. -/
theorem Inv.of_epollDel (hv : s.Inv) {i w : ℕ} {u : Uring UringCb} (hlv : s.phase i = .live)
    (hfree : callbacks s.uring w = none)
    (hu : callbacks u = Function.update (callbacks s.uring) w (some (.waker s.nextFiber)))
    (hinv : u.Inv) :
    let s' : Emu ECb := { s with
      uring := u
      sq := s.sq ++ [.pollRemove w ((s.epoll.entries i).index % 2 ^ 32).toNat]
      epoll := ⟨s.epoll.size, Function.update s.epoll.entries i
        ⟨(s.epoll.entries i).cb.map fun c => (c.1, 0), (s.epoll.entries i).index⟩,
        s.epoll.nextFreeCe⟩
      fibers := Function.update s.fibers s.nextFiber (some (.waiting i))
      nextFiber := s.nextFiber + 1
      cur := Function.update s.cur i (some s.nextFiber) }
    s'.Inv ∧ s'.phase i = .deleting ∧ ∀ j, j ≠ i → s'.phase j = s.phase j := by
  intro s'
  have hb := hv.books
  have hp := hv.protocol
  obtain ⟨c, m, -, hcb⟩ := phase_live_iff.mp hlv
  obtain ⟨hcur₀, ud, hidx, hact⟩ := hp.live_one i hlv
  -- the remove names the poll: its user data fits in the `unsigned`
  have htgt : ((s.epoll.entries i).index % 2 ^ 32).toNat = ud := by
    have := callbacks_lt hb.uring (active_cbs hact)
    rw [hidx]
    omega
  have ha : Appended s s' w (.waker s.nextFiber) (.pollRemove w ud) := by
    refine ⟨hfree, hu, ?_, rfl, rfl⟩
    show s.sq ++ [Sqe.pollRemove w ((s.epoll.entries i).index % 2 ^ 32).toNat] = _
    rw [htgt]
  have hfnf : s'.fibers s.nextFiber = some (.waiting i) := Function.update_self _ _ _
  have hfne : ∀ g, g ≠ s.nextFiber → s'.fibers g = s.fibers g :=
    fun g hg => Function.update_of_ne hg _ _
  have hcne : ∀ j, j ≠ i → s'.cur j = s.cur j := fun j hj => Function.update_of_ne hj _ _
  have hent : ∀ j, j ≠ i → s'.epoll.entries j = s.epoll.entries j :=
    fun j hj => Function.update_of_ne hj _ _
  have hdel : s'.phase i = .deleting := phase_deleting_iff.mpr ⟨c, by simp [s', hcb]⟩
  have hph : ∀ j, j ≠ i → s'.phase j = s.phase j := fun j hj => phase_of_cb (by rw [hent j hj])
  -- a remove is no poll
  have hactall : ∀ i' x, s'.active i' x ↔ s.active i' x :=
    fun _ => ha.active_of_ne hb fun h => by cases h
  refine ⟨⟨hb.of_appended_waker ha hinv rfl rfl,
    hv.vector.set_used (by rw [hcb]; simp) _ (by simp [hcb]) rfl, ?_⟩, hdel, hph⟩
  refine hp.of_step i ?_ hph (fun j hj _ => by rw [hent j hj]) hcne (Nat.le_succ _)
    (fun i' _ => hactall i') ?_
    (fun x y hx hy => hp.active_unique i x y ((hactall i x).mp hx) ((hactall i y).mp hy))
    (fun h => by rw [hdel] at h; cases h) (fun h => by rw [hdel] at h; cases h) ?_ ?_
  · intro x i' hx
    have hxw : x ≠ w := by
      rintro rfl
      rw [ha.cbs_self] at hx
      cases hx
    rw [ha.cbs_old hxw] at hx
    exact hp.poll_lt x i' hx
  · -- the fiber of another id is older than the new one
    intro g i' _ hcur' hc'
    have hg : g ≠ s.nextFiber := by
      obtain ⟨g', hg', hlt, -⟩ := hp.deleting_cur i' (hp.cur_some hcur')
      rw [hcur', Option.some.injEq] at hg'
      subst hg'
      omega
    exact ha.current (hfne g hg) (hactall i') hc'
  · refine fun _ => ⟨s.nextFiber, Function.update_self _ _ _, Nat.lt_succ_self _, ?_⟩
    refine (current_waiting hfnf).mpr ⟨rfl, w, ha.cbs_self, Or.inl ⟨ud, ?_, (hactall i ud).mpr hact,
      fun hadd => ?_⟩⟩
    · rw [ha.sq_eq]
      simp
    · -- everything queued before the remove is ahead of it
      have hnw : w ∉ s.sq.map Sqe.ud := hb.not_mem_of_none hfree
      have hah : ahead w s'.sq = s.sq := by
        rw [ha.sq_eq]
        exact ahead_append_self (e := Sqe.pollRemove w ud) rfl hnw
      rw [hah]
      rw [ha.sq_eq, List.mem_append, List.mem_singleton] at hadd
      rcases hadd with hadd | hadd
      · exact hadd
      · cases hadd
  · intro g st hg hne
    by_cases hg₀ : g = s.nextFiber
    · subst hg₀
      rw [hfnf, Option.some.injEq] at hg
      subst hg
      exact absurd (Function.update_self _ _ _) hne
    · rw [hfne g hg₀] at hg
      refine ha.stale (hfne g hg₀) (hp.stale g st hg ?_)
      by_cases hsid : st.id = i
      · rw [hsid, hcur₀]
        simp
      · rwa [hcne _ hsid] at hne

/-- **`EpollDel` of a registered id** is defined below `2 ^ 31` entries in flight, keeps the
    invariant, and starts the deletion of the id. -/
theorem Inv.epollDel_some (hv : s.Inv) {i : ℕ} (hlv : s.phase i = .live)
    (hlt : s.uring.outstanding < 2 ^ 31) :
    ∃ s', s.epollDel i = some s' ∧ s'.Inv ∧ s'.phase i = .deleting ∧
      ∀ j, j ≠ i → s'.phase j = s.phase j := by
  obtain ⟨c, m, -, hcb⟩ := phase_live_iff.mp hlv
  have hi : i < s.epoll.size := (hv.vector.inv_of_used (by rw [hcb]; simp)).1
  obtain ⟨u, w, hsub, hfree, hu, -, hinv⟩ :=
    callbacks_submit hv.books.uring hlt (.waker s.nextFiber)
  exact ⟨_, epollDel_eq hi hsub, hv.of_epollDel hlv hfree hu hinv⟩

/-! ## `EpollAdd` -/

/-- What the free list offers `EpollAdd` once the growth, if any, is done. -/
structure Ready (s : Emu ECb) (t : Table (ECb × ℕ)) : Prop where
  inv : t.Inv
  head : 0 ≤ t.nextFreeCe
  outstanding_eq : t.outstanding = s.epoll.outstanding
  size_le : s.epoll.size ≤ t.size
  cb_eq : ∀ j, (t.entries j).cb = (s.epoll.entries j).cb
  used_eq : ∀ j, (s.epoll.entries j).cb ≠ none → t.entries j = s.epoll.entries j

/-- Below `2 ^ 31` ids in use, the growth of `EpollAdd` leaves a sound vector with a free entry,
    and every registration where it was. -/
theorem Vector.ready (hv : s.Vector) (hlt : s.epoll.outstanding < 2 ^ 31) :
    ∃ t, (if s.epoll.nextFreeCe = -1 then grow s.epoll else some s.epoll) = some t ∧
      Ready s t := by
  by_cases hneg : s.epoll.nextFreeCe = -1
  · rw [if_pos hneg]
    by_cases h0 : s.epoll.size = 0
    · -- the first growth: eight entries
      have hnone : ∀ j, (s.epoll.entries j).cb = none := fun j => hv.beyond j (by omega)
      refine ⟨Table.create 8 id, by simp [grow, h0],
        ⟨Table.Inv.of_create (k := 3) (by omega) id fun _ _ _ => rfl, by simp [Table.create], ?_,
          by omega, fun j => by simp [Table.create, hnone], fun j hj => absurd (hnone j) hj⟩⟩
      rw [Table.outstanding_create]
      simp [Table.outstanding, h0]
    · -- an empty list means every entry is in use, so the vector can double
      have hinv : s.epoll.Inv := hv.table.resolve_right fun h => h0 h.1
      have hsize : s.epoll.size < 2 ^ 31 := hinv.outstanding_eq_size (by omega) ▸ hlt
      obtain ⟨t, hgrow, -, hout, hpos, hinv'⟩ := hinv.regrow (by omega) hsize id fun _ _ _ => rfl
      obtain ⟨hsz, hold, hnew⟩ := Table.regrowCentries_eq hgrow
      refine ⟨t, by simp [grow, h0, hgrow], ⟨hinv', hpos.le, hout, by omega, fun j => ?_,
        fun j hj => ?_⟩⟩
      · by_cases hj : j < s.epoll.size
        · rw [hold j hj]
        · rw [hnew j (by omega), hv.beyond j (by omega)]
      · have hj' : j < s.epoll.size := by
          by_contra h
          exact hj (hv.beyond j (by omega))
        exact hold j hj'
  · rw [if_neg hneg]
    have hinv : s.epoll.Inv := hv.table.resolve_right fun h => hneg h.2
    have := hinv.head_ge
    exact ⟨s.epoll, rfl, hinv, by omega, rfl, le_rfl, fun _ => rfl, fun _ _ => rfl⟩

theorem epollAdd_eq {cb : ECb} {m : ℕ} (hm : m ≠ 0) {t t' : Table (ECb × ℕ)} {i ud : ℕ}
    {u : Uring UringCb}
    (hready : (if s.epoll.nextFreeCe = -1 then grow s.epoll else some s.epoll) = some t)
    (htake : t.take (cb, m) id = some (t', i))
    (hsub : s.uring.getSubmitEntry (some (.pollCb i)) = some (u, ud)) :
    s.epollAdd cb m = some ({ s with
      uring := u
      sq := s.sq ++ [.pollAdd ud]
      epoll := ⟨t'.size, Function.update t'.entries i ⟨(t'.entries i).cb, ud⟩, t'.nextFreeCe⟩ },
      i) := by
  rw [epollAdd, if_neg hm, hready]
  simp [htake, epollAddInternal, hsub]

/-- `EpollAdd` hands out a free id, registers the callback and the mask under it, and submits
    its first poll, whose user data becomes the entry's `index`. -/
theorem Inv.of_epollAdd (hv : s.Inv) {cb : ECb} {m : ℕ} (hm : m ≠ 0) {t t' : Table (ECb × ℕ)}
    {i ud : ℕ} {u : Uring UringCb} (hrd : Ready s t) (htake : t.take (cb, m) id = some (t', i))
    (hfree : callbacks s.uring ud = none)
    (hu : callbacks u = Function.update (callbacks s.uring) ud (some (.pollCb i))) (hinv : u.Inv) :
    let s' : Emu ECb := { s with
      uring := u
      sq := s.sq ++ [.pollAdd ud]
      epoll := ⟨t'.size, Function.update t'.entries i ⟨(t'.entries i).cb, ud⟩, t'.nextFreeCe⟩ }
    s'.Inv ∧ s.phase i = .free ∧ s'.phase i = .live ∧ (∀ j, j ≠ i → s'.phase j = s.phase j) ∧
      s'.epoll.outstanding = s.epoll.outstanding + 1 := by
  intro s'
  have hb := hv.books
  have hp := hv.protocol
  obtain ⟨hsz, hent', -, hhead⟩ := Table.take_eq htake
  obtain ⟨t'', i', htake', -, -, hout', -, hinv'⟩ := hrd.inv.take hrd.head (cb, m) id
  rw [htake, Option.some.injEq, Prod.mk.injEq] at htake'
  obtain ⟨rfl, rfl⟩ := htake'
  have hi : i < t.size ∧ (t.entries i).cb = none := by
    have := hrd.inv.head hrd.head
    rw [hhead, Int.toNat_natCast] at this
    exact this
  have hfree₀ : s.phase i = .free := phase_free_iff.mpr (by rw [← hrd.cb_eq]; exact hi.2)
  have hent : ∀ j, j ≠ i → s'.epoll.entries j = t.entries j := by
    intro j hj
    show Function.update t'.entries i _ j = _
    rw [Function.update_of_ne hj, hent', Function.update_of_ne hj]
  have hcbi : (s'.epoll.entries i).cb = some (cb, m) := by simp [s', hent']
  have hlive : s'.phase i = .live := phase_live_iff.mpr ⟨cb, m, hm, hcbi⟩
  have hph : ∀ j, j ≠ i → s'.phase j = s.phase j :=
    fun j hj => phase_of_cb (by rw [hent j hj, hrd.cb_eq])
  have ha : Appended s s' ud (.pollCb i) (.pollAdd ud) := ⟨hfree, hu, rfl, rfl, rfl⟩
  have hnone : ∀ x, ¬ s.active i x := (hp.free_idle i hfree₀).2
  -- the new poll is of `i`; the other ids keep theirs
  have hact : ∀ j, j ≠ i → ∀ x, s'.active j x ↔ s.active j x :=
    fun _ hj => ha.active_of_ne hb fun h => hj (UringCb.pollCb.inj h).symm
  -- the vector after the take, before `EpollAddInternal` writes the index
  have hv₁ : ({ s with epoll := t' } : Emu ECb).Vector := by
    refine ⟨Or.inl hinv', fun j hj => ?_⟩
    have hj' : t'.size ≤ j := hj
    have hle := hrd.size_le
    show (t'.entries j).cb = none
    rw [hent', Function.update_of_ne (by omega), hrd.cb_eq]
    exact hv.vector.beyond j (by omega)
  refine ⟨⟨hb.of_appended_poll ha hinv rfl rfl,
    hv₁.set_used (by simp [hent']) _ (by simp [hent']) rfl, ?_⟩, hfree₀, hlive, hph, ?_⟩
  · refine hp.of_step i ?_ hph ?_ (fun _ _ => rfl) le_rfl hact
      (fun g j hj _ hc' => ha.current rfl (hact j hj) hc') ?_
      (fun h => by rw [hlive] at h; cases h)
      (fun _ => ⟨(hp.free_idle i hfree₀).1, ud, by simp [s'],
        (ha.active_iff hb).mpr (Or.inr ⟨rfl, rfl, rfl⟩)⟩)
      (fun h => by rw [hlive] at h; cases h)
      (fun g st hg hne => ha.stale rfl (hp.stale g st hg hne))
    · -- the growth keeps every id below the size, and the new one is below it too
      intro x i' hx
      have hlt : i' < t.size := ha.poll_lt rfl hi.1
        (fun x i' hx => lt_of_lt_of_le (hp.poll_lt x i' hx) hrd.size_le) x i' hx
      show i' < t'.size
      omega
    · -- a registered id keeps its entry through the growth and the take
      intro j hj hlv
      obtain ⟨c, m', -, hc⟩ := phase_live_iff.mp hlv
      rw [hent j hj, hrd.used_eq j (by rw [hc]; simp)]
    · -- the only poll of `i` is the new one
      have hkey : ∀ z, s'.active i z → z = ud := by
        intro z hz
        rcases (ha.active_iff hb).mp hz with hz | ⟨rfl, -, -⟩
        · exact absurd hz (hnone z)
        · rfl
      exact fun x y hx hy => (hkey x hx).trans (hkey y hy).symm
  · have hlt : i < t'.size := by omega
    have := Table.set_outstanding t' ⟨(t'.entries i).cb, ud⟩ t'.nextFreeCe hlt
    have hsame : Table.inFlight (⟨(t'.entries i).cb, ud⟩ : Entry (ECb × ℕ)) =
        Table.inFlight (t'.entries i) := rfl
    have := hrd.outstanding_eq
    show (⟨t'.size, _, _⟩ : Table (ECb × ℕ)).outstanding = _
    omega

/-- **`EpollAdd` with a nonzero mask** is defined below `2 ^ 31` ids in use and `2 ^ 31` entries
    in flight, keeps the invariant, and registers a free id. -/
theorem Inv.epollAdd_some (hv : s.Inv) (cb : ECb) {m : ℕ} (hm : 0 < m)
    (hlt : s.epoll.outstanding < 2 ^ 31) (hlt' : s.uring.outstanding < 2 ^ 31) :
    ∃ s' i, s.epollAdd cb m = some (s', i) ∧ s'.Inv ∧ s.phase i = .free ∧ s'.phase i = .live ∧
      (∀ j, j ≠ i → s'.phase j = s.phase j) ∧ s'.epoll.outstanding = s.epoll.outstanding + 1 ∧
      s'.uring.outstanding = s.uring.outstanding + 1 := by
  obtain ⟨t, hready, hrd⟩ := hv.vector.ready hlt
  obtain ⟨t', i, htake, -, -, -, -, -⟩ := hrd.inv.take hrd.head (cb, m) id
  obtain ⟨u, ud, hsub, hfree, hu, hout, hinv⟩ := callbacks_submit hv.books.uring hlt' (.pollCb i)
  obtain ⟨hv', hfr, hlv, hph, hout'⟩ := hv.of_epollAdd (by omega) hrd htake hfree hu hinv
  exact ⟨_, i, epollAdd_eq (by omega) hready htake hsub, hv', hfr, hlv, hph, hout', hout⟩

end Emu

end UringEpoll

end Helio
