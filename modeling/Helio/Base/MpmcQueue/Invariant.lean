import Helio.Base.MpmcQueue.Model

/-!
# The bounded MPMC queue: what holds over every interleaving

`Inv` is the invariant of `Helio.Base.MpmcQueue.Model`'s system, over every interleaving of
any number of threads. Its fields say where each position of the counters stands:

* the positions from `dequeue_pos_` to `enqueue_pos_` are claimed by enqueues; a cell whose
  enqueue has published holds `sequence = pos + 1` and the item of `pos` (`queued`);
* the positions from `enqueue_pos_` to a lap past `dequeue_pos_` are free, `sequence = pos`
  and no item (`free`), except the one a dequeue a lap back has not yet freed;
* a thread inside its call is at a phase that says what it has seen (`PhaseOk`): a claimed
  enqueue has the empty cell of its position, a claimed dequeue the full one;
* at most one thread holds each position as its enqueue, and one as its dequeue;
* the ghost `moved` lists each position whose item a dequeue has taken, once, with the item
  the enqueue of that position put there.

Every step keeps `Inv` (`Inv.step`), so every reachable state satisfies it
(`Inv.reachable`). What the code relies on, and what its callers are told, is read off it in
`Helio.Base.MpmcQueue.Safety`.

The argument rests on one fact of the ring (`cellAt_setCell_of_ne`): two positions less than a
lap apart live in different cells, so a store into the cell of one position leaves the cell of
every other position of the window unchanged.
-/

set_option autoImplicit false

namespace Helio

namespace MpmcBoundedQueue

variable {T : Type}

/-! ## The ring -/

/-- Positions `p ≤ p' < p + n` with one residue modulo `n` are equal. -/
theorem eq_of_mod_eq {n p p' : ℕ} (h : p % n = p' % n) (hle : p ≤ p') (hlt : p' < p + n) :
    p = p' := by
  have hd : n ∣ p' - p := (Nat.modEq_iff_dvd' hle).mp h
  have h0 : p' - p = 0 := Nat.eq_zero_of_dvd_of_lt hd (by omega)
  omega

section Ring

variable {q : MpmcBoundedQueue T}

theorem cellIndex_eq_mod (hq : q.capacity.isPowerOfTwo) (pos : ℕ) :
    pos &&& q.bufferMask = pos % q.capacity := by
  obtain ⟨k, hk⟩ := hq
  have hm : q.bufferMask = 2 ^ k - 1 := by unfold capacity at hk; omega
  rw [hk, hm, Nat.and_two_pow_sub_one_eq_mod]

theorem cellAt_eq_of_mod (hq : q.capacity.isPowerOfTwo) {p p' : ℕ}
    (h : p % q.capacity = p' % q.capacity) : q.cellAt p = q.cellAt p' := by
  unfold cellAt
  rw [cellIndex_eq_mod hq, cellIndex_eq_mod hq, h]

theorem cellAt_add_capacity (hq : q.capacity.isPowerOfTwo) (p : ℕ) :
    q.cellAt (p + q.capacity) = q.cellAt p :=
  cellAt_eq_of_mod hq (Nat.add_mod_right _ _)

@[simp] theorem capacity_setCell (pos : ℕ) (c : Cell T) : (q.setCell pos c).capacity = q.capacity :=
  rfl

@[simp] theorem enqueuePos_setCell (pos : ℕ) (c : Cell T) :
    (q.setCell pos c).enqueuePos = q.enqueuePos := rfl

@[simp] theorem dequeuePos_setCell (pos : ℕ) (c : Cell T) :
    (q.setCell pos c).dequeuePos = q.dequeuePos := rfl

theorem cellAt_setCell (pos : ℕ) (c : Cell T) (p : ℕ) :
    (q.setCell pos c).cellAt p =
      if p &&& q.bufferMask = pos &&& q.bufferMask then c else q.cellAt p :=
  Function.update_apply _ _ _ _

@[simp] theorem cellAt_setCell_self (pos : ℕ) (c : Cell T) : (q.setCell pos c).cellAt pos = c := by
  rw [cellAt_setCell, if_pos rfl]

/-- **Cells of a window.** Two positions less than a lap apart live in different cells. -/
theorem cellIndex_ne (hq : q.capacity.isPowerOfTwo) {p p' : ℕ} (hne : p ≠ p')
    (h₁ : p < p' + q.capacity) (h₂ : p' < p + q.capacity) :
    p &&& q.bufferMask ≠ p' &&& q.bufferMask := by
  rw [cellIndex_eq_mod hq, cellIndex_eq_mod hq]
  intro hmod
  rcases le_total p p' with h | h
  · exact hne (eq_of_mod_eq hmod h h₂)
  · exact hne (eq_of_mod_eq hmod.symm h h₁).symm

/-- A store into the cell of `pos` leaves the cell of every other position less than a lap
    from it unchanged. -/
theorem cellAt_setCell_of_ne (hq : q.capacity.isPowerOfTwo) {pos p : ℕ} (c : Cell T)
    (hne : p ≠ pos) (h₁ : p < pos + q.capacity) (h₂ : pos < p + q.capacity) :
    (q.setCell pos c).cellAt p = q.cellAt p := by
  rw [cellAt_setCell, if_neg (cellIndex_ne hq hne h₁ h₂)]

/-- The cell a lap past `pos` is the cell of `pos`. -/
theorem cellAt_setCell_add_capacity (hq : q.capacity.isPowerOfTwo) (pos : ℕ) (c : Cell T) :
    (q.setCell pos c).cellAt (pos + q.capacity) = c := by
  have h := cellAt_add_capacity (q := q.setCell pos c) hq pos
  rw [capacity_setCell] at h
  rw [h, cellAt_setCell_self]

/-- The same for a position within two laps above `pos` that is not a lap above it. -/
theorem cellAt_setCell_of_ne_of_ne (hq : q.capacity.isPowerOfTwo) {pos p : ℕ} (c : Cell T)
    (hne : p ≠ pos) (hlap : p ≠ pos + q.capacity) (h₁ : pos < p + q.capacity)
    (h₂ : p < pos + 2 * q.capacity) : (q.setCell pos c).cellAt p = q.cellAt p := by
  by_cases hp : p < pos + q.capacity
  · exact cellAt_setCell_of_ne hq c hne hp h₁
  · -- the cell of `p` is the cell of `p` less a lap, which is less than a lap above `pos`
    have hp' : p = p - q.capacity + q.capacity := by omega
    have hq' : (q.setCell pos c).capacity.isPowerOfTwo := hq
    have hlap' := cellAt_add_capacity hq' (p - q.capacity)
    rw [capacity_setCell] at hlap'
    rw [hp', hlap', cellAt_add_capacity hq]
    exact cellAt_setCell_of_ne hq c (by omega) (by omega) (by omega)

/-- A store into a cell's storage leaves every `sequence` as it was. -/
@[simp] theorem sequence_setCell_storage (pos p : ℕ) (x : Option T) :
    ((q.setCell pos { q.cellAt pos with storage := x }).cellAt p).sequence =
      (q.cellAt p).sequence := by
  rw [cellAt_setCell]
  split
  · rename_i h
    unfold cellAt
    rw [h]
  · rfl

end Ring

/-! ## Threads that hold a cell -/

namespace Pc

/-- The position a call holds as its enqueue: claimed, and not yet published. -/
def producer : Pc T → Option ℕ
  | .enqWrite _ pos | .enqPublish pos => some pos
  | _ => none

/-- The position a call holds as its dequeue: claimed, and not yet freed. -/
def consumer : Pc T → Option ℕ
  | .deqRead pos | .deqFree pos _ => some pos
  | _ => none

/-- A phase that holds no cell: before a claim, or outside a call. -/
def Quiet (p : Pc T) : Prop := p.producer = none ∧ p.consumer = none

theorem Quiet.ne_deqRead {p : Pc T} (hp : p.Quiet) (pos : ℕ) : p ≠ .deqRead pos := by
  rintro rfl
  exact Option.some_ne_none pos hp.2

end Pc

/-- What a thread's phase has seen of the queue, and still holds. -/
def PhaseOk (q : MpmcBoundedQueue T) (enqueued : List T) : Pc T → Prop
  | .idle | .enqLoad _ | .deqLoad => True
  | .enqSeq _ pos => pos ≤ q.enqueuePos
  -- the compare-exchange that will succeed finds the cell free for its position
  | .enqCas _ pos => pos ≤ q.enqueuePos ∧ (q.enqueuePos = pos → (q.cellAt pos).sequence = pos)
  | .enqWrite data pos =>
    q.dequeuePos ≤ pos ∧ pos < q.enqueuePos ∧ q.cellAt pos = ⟨pos, none⟩ ∧
      enqueued[pos]? = some data
  | .enqPublish pos =>
    q.dequeuePos ≤ pos ∧ pos < q.enqueuePos ∧ q.cellAt pos = ⟨pos, enqueued[pos]?⟩
  | .deqSeq pos => pos ≤ q.dequeuePos
  | .deqCas pos =>
    pos ≤ q.dequeuePos ∧ (q.dequeuePos = pos → (q.cellAt pos).sequence = pos + 1)
  | .deqRead pos =>
    pos < q.dequeuePos ∧ q.enqueuePos ≤ pos + q.capacity ∧
      q.cellAt pos = ⟨pos + 1, enqueued[pos]?⟩
  | .deqFree pos data =>
    pos < q.dequeuePos ∧ q.enqueuePos ≤ pos + q.capacity ∧ q.cellAt pos = ⟨pos + 1, none⟩ ∧
      enqueued[pos]? = some data

variable {Th : Type}

/-- The invariant of the queue and its threads. -/
structure Inv (s : State Th T) : Prop where
  pow : s.queue.capacity.isPowerOfTwo
  two : 2 ≤ s.queue.capacity
  length : s.enqueued.length = s.queue.enqueuePos
  le : s.queue.dequeuePos ≤ s.queue.enqueuePos
  le_cap : s.queue.enqueuePos ≤ s.queue.dequeuePos + s.queue.capacity
  phase : ∀ t, PhaseOk s.queue s.enqueued (s.pc t)
  queued : ∀ p, s.queue.dequeuePos ≤ p → p < s.queue.enqueuePos →
    (∀ t, (s.pc t).producer ≠ some p) → s.queue.cellAt p = ⟨p + 1, s.enqueued[p]?⟩
  free : ∀ p, s.queue.enqueuePos ≤ p → p < s.queue.dequeuePos + s.queue.capacity →
    (∀ t c, (s.pc t).consumer = some c → c + s.queue.capacity ≠ p) →
      s.queue.cellAt p = ⟨p, none⟩
  producer : ∀ t t' p, (s.pc t).producer = some p → (s.pc t').producer = some p → t = t'
  consumer : ∀ t t' p, (s.pc t).consumer = some p → (s.pc t').consumer = some p → t = t'
  moved : ∀ p data, (p, data) ∈ s.moved → s.enqueued[p]? = some data
  movedPos : ∀ p, p ∈ s.moved.map Prod.fst ↔
    p < s.queue.dequeuePos ∧ ∀ t, s.pc t ≠ .deqRead p
  movedNodup : (s.moved.map Prod.fst).Nodup

/-! ## The start state -/

/-- What the constructor leaves: a power-of-two ring of `buffer_size` cells, each free for
    the position of its index, and both counters at `0`. -/
theorem create_spec {n : ℕ} {q : MpmcBoundedQueue T} (h : create n = some q) :
    q.capacity = n ∧ q.capacity.isPowerOfTwo ∧ 2 ≤ q.capacity ∧ q.enqueuePos = 0 ∧
      q.dequeuePos = 0 ∧ ∀ p, q.cellAt p = ⟨p &&& q.bufferMask, none⟩ := by
  unfold create at h
  split at h
  · cases h
  · rename_i hn
    cases h
    have hcap : n - 1 + 1 = n := Nat.sub_add_cancel (by omega)
    refine ⟨hcap, ?_, ?_, rfl, rfl, fun _ => rfl⟩ <;> unfold capacity <;> rw [hcap]
    · exact (Nat.and_sub_one_eq_zero_iff_isPowerOfTwo (by omega)).mp (by omega)
    · omega

theorem Inv.init {n : ℕ} {q : MpmcBoundedQueue T} (h : create n = some q) :
    Inv (start q : State Th T) := by
  obtain ⟨-, hpow, htwo, hE, hD, hcell⟩ := create_spec h
  refine ⟨hpow, htwo, hE.symm, hD ▸ Nat.zero_le _, ?_, fun _ => trivial, ?_, ?_,
    fun _ _ _ h => absurd h.symm (Option.some_ne_none _),
    fun _ _ _ h => absurd h.symm (Option.some_ne_none _),
    fun _ _ h => absurd h List.not_mem_nil, ?_, List.nodup_nil⟩
  · show q.enqueuePos ≤ q.dequeuePos + q.capacity
    omega
  · intro p _ hp
    exact absurd hp (by show ¬ p < q.enqueuePos; omega)
  · intro p _ hp _
    show q.cellAt p = ⟨p, none⟩
    rw [hcell, cellIndex_eq_mod hpow, Nat.mod_eq_of_lt (by simpa [hD] using hp)]
  · intro p
    simp [hD]

/-! ## What the invariant says of the cells -/

section Cells

variable {s : State Th T}

/-- A thread holding a position as its enqueue has claimed it, and the cell is still free for
    it. -/
theorem Inv.producer_spec (h : Inv s) {t : Th} {p : ℕ} (hp : (s.pc t).producer = some p) :
    s.queue.dequeuePos ≤ p ∧ p < s.queue.enqueuePos ∧ (s.queue.cellAt p).sequence = p := by
  have hok := h.phase t
  cases hpc : s.pc t <;> rw [hpc] at hp hok <;>
    simp only [Pc.producer, Option.some.injEq, reduceCtorEq] at hp
  case enqWrite data pos =>
    subst hp
    exact ⟨hok.1, hok.2.1, by rw [hok.2.2.1]⟩
  case enqPublish pos =>
    subst hp
    exact ⟨hok.1, hok.2.1, by rw [hok.2.2]⟩

/-- A thread holding a position as its dequeue has claimed it, less than a lap behind
    `enqueue_pos_`, and the cell still says so. -/
theorem Inv.consumer_spec (h : Inv s) {t : Th} {p : ℕ} (hp : (s.pc t).consumer = some p) :
    p < s.queue.dequeuePos ∧ s.queue.enqueuePos ≤ p + s.queue.capacity ∧
      (s.queue.cellAt p).sequence = p + 1 := by
  have hok := h.phase t
  cases hpc : s.pc t <;> rw [hpc] at hp hok <;>
    simp only [Pc.consumer, Option.some.injEq, reduceCtorEq] at hp
  case deqRead pos =>
    subst hp
    exact ⟨hok.1, hok.2.1, by rw [hok.2.2]⟩
  case deqFree pos data =>
    subst hp
    exact ⟨hok.1, hok.2.1, by rw [hok.2.2.1]⟩

/-- A claimed position's cell is free for it or holds its item. -/
theorem Inv.sequence_claimed (h : Inv s) {p : ℕ} (hD : s.queue.dequeuePos ≤ p)
    (hE : p < s.queue.enqueuePos) :
    (s.queue.cellAt p).sequence = p ∨ (s.queue.cellAt p).sequence = p + 1 := by
  by_cases hp : ∃ t, (s.pc t).producer = some p
  · obtain ⟨t, ht⟩ := hp
    exact .inl (h.producer_spec ht).2.2
  · simp only [not_exists] at hp
    rw [h.queued p hD hE hp]
    exact .inr rfl

/-- A free position's cell is free for it, or still holds the dequeue a lap back. -/
theorem Inv.sequence_free (h : Inv s) {p : ℕ} (hE : s.queue.enqueuePos ≤ p)
    (hD : p < s.queue.dequeuePos + s.queue.capacity) :
    (s.queue.cellAt p).sequence = p ∨ ∃ t c, (s.pc t).consumer = some c ∧
      c + s.queue.capacity = p ∧ (s.queue.cellAt p).sequence = c + 1 := by
  by_cases hp : ∃ t c, (s.pc t).consumer = some c ∧ c + s.queue.capacity = p
  · obtain ⟨t, c, ht, hc⟩ := hp
    refine .inr ⟨t, c, ht, hc, ?_⟩
    rw [← hc, cellAt_add_capacity h.pow]
    exact (h.consumer_spec ht).2.2
  · simp only [not_exists, not_and] at hp
    rw [h.free p hE hD hp]
    exact .inl rfl

/-- **Every position already dequeued is behind its cell**: the cell has moved on to the item
    of that position or a later one. By induction on the laps to `dequeue_pos_`: the cell of
    `p` is the cell of `p` plus a lap. -/
theorem Inv.succ_le_sequence (h : Inv s) (p : ℕ) (hp : p < s.queue.dequeuePos) :
    p + 1 ≤ (s.queue.cellAt p).sequence := by
  have htwo := h.two
  rw [← cellAt_add_capacity h.pow p]
  by_cases hlap : p + s.queue.capacity < s.queue.dequeuePos
  · have := h.succ_le_sequence (p + s.queue.capacity) hlap
    omega
  · by_cases hE : p + s.queue.capacity < s.queue.enqueuePos
    · rcases h.sequence_claimed (p := p + s.queue.capacity) (by omega) hE with hs | hs <;> omega
    · rcases h.sequence_free (p := p + s.queue.capacity) (by omega) (by omega) with
        hs | ⟨t, c, -, hc, hs⟩ <;> omega
termination_by s.queue.dequeuePos - p
decreasing_by omega

/-- Every position below `enqueue_pos_` is at most its cell's `sequence`. -/
theorem Inv.le_sequence (h : Inv s) {p : ℕ} (hp : p < s.queue.enqueuePos) :
    p ≤ (s.queue.cellAt p).sequence := by
  by_cases hD : p < s.queue.dequeuePos
  · have := h.succ_le_sequence p hD
    omega
  · rcases h.sequence_claimed (by omega) hp with hs | hs <;> omega

/-- A cell that the enqueue of `enqueue_pos_` finds free is free: the ring is not full, and
    no dequeue a lap back still holds it. -/
theorem Inv.free_of_sequence (h : Inv s)
    (hseq : (s.queue.cellAt s.queue.enqueuePos).sequence = s.queue.enqueuePos) :
    s.queue.enqueuePos < s.queue.dequeuePos + s.queue.capacity ∧
      s.queue.cellAt s.queue.enqueuePos = ⟨s.queue.enqueuePos, none⟩ := by
  have htwo := h.two
  have hlt : s.queue.enqueuePos < s.queue.dequeuePos + s.queue.capacity := by
    by_contra hge
    have hfull : s.queue.enqueuePos = s.queue.dequeuePos + s.queue.capacity := by
      have := h.le_cap
      omega
    rw [hfull, cellAt_add_capacity h.pow] at hseq
    rcases h.sequence_claimed le_rfl (by omega) with hs | hs <;> omega
  refine ⟨hlt, h.free _ le_rfl hlt ?_⟩
  intro t c hc hce
  rw [← hce, cellAt_add_capacity h.pow, (h.consumer_spec hc).2.2] at hseq
  omega

/-- A cell that the dequeue of `dequeue_pos_` finds full holds the item of that position,
    published, and the ring is not empty. -/
theorem Inv.queued_of_sequence (h : Inv s)
    (hseq : (s.queue.cellAt s.queue.dequeuePos).sequence = s.queue.dequeuePos + 1) :
    s.queue.dequeuePos < s.queue.enqueuePos ∧
      (∀ t, (s.pc t).producer ≠ some s.queue.dequeuePos) ∧
      s.queue.cellAt s.queue.dequeuePos =
        ⟨s.queue.dequeuePos + 1, s.enqueued[s.queue.dequeuePos]?⟩ := by
  have htwo := h.two
  have hlt : s.queue.dequeuePos < s.queue.enqueuePos := by
    by_contra hge
    have hempty : s.queue.dequeuePos = s.queue.enqueuePos := by
      have := h.le
      omega
    rcases h.sequence_free (p := s.queue.dequeuePos) (by omega) (by omega) with
      hs | ⟨t, c, ht, hc, hs⟩
    · omega
    · have := (h.consumer_spec ht).1
      omega
  have hno : ∀ t, (s.pc t).producer ≠ some s.queue.dequeuePos := by
    intro t ht
    have := (h.producer_spec ht).2.2
    omega
  exact ⟨hlt, hno, h.queued _ le_rfl hlt hno⟩

end Cells

/-! ## One step -/

section Steps

variable [DecidableEq Th] {s : State Th T} {t : Th}

/-- A property of every thread's phase is the same before and after a change of one thread's
    phase that has it on both sides. -/
theorem forall_update_iff_of {β : Type} {f : Th → β} {b : β} {P : β → Prop} (hb : P b)
    (ht : P (f t)) : (∀ x, P (Function.update f t b x)) ↔ ∀ x, P (f x) := by
  constructor
  · intro h x
    by_cases hx : x = t
    · rw [hx]
      exact ht
    · have := h x
      rwa [Function.update_of_ne hx] at this
  · intro h x
    by_cases hx : x = t
    · rw [hx, Function.update_self]
      exact hb
    · rw [Function.update_of_ne hx]
      exact h x

/-- A thread whose new phase holds nothing is not among those that hold something. -/
theorem of_update_eq_some {β γ : Type} {f : Th → β} {b : β} {g : β → Option γ} {c : γ}
    (hb : g b = none) {x : Th} (h : g (Function.update f t b x) = some c) : g (f x) = some c := by
  by_cases hx : x = t
  · rw [hx, Function.update_self, hb] at h
    cases h
  · rwa [Function.update_of_ne hx] at h

/-- **The quiet steps.** A thread that moves between two phases that hold no cell keeps every
    field but its own phase's. -/
theorem Inv.setPc (h : Inv s) {p : Pc T} (hq : (s.pc t).Quiet) (hq' : p.Quiet)
    (hp : PhaseOk s.queue s.enqueued p) : Inv (s.setPc t p) := by
  refine
    { h with
      phase := ?_
      queued := ?_
      free := ?_
      producer := ?_
      consumer := ?_
      movedPos := ?_ }
  · intro x
    by_cases hx : x = t
    · rw [hx, State.setPc_pc, Function.update_self]
      exact hp
    · rw [State.setPc_pc, Function.update_of_ne hx]
      exact h.phase x
  · intro x hD hE hno
    refine h.queued x hD hE ((forall_update_iff_of (P := fun y : Pc T => y.producer ≠ some x) ?_ ?_).mp hno)
    · rw [hq'.1]
      exact (Option.some_ne_none x).symm
    · rw [hq.1]
      exact (Option.some_ne_none x).symm
  · intro x hE hD hno
    refine h.free x hE hD ((forall_update_iff_of
      (P := fun y : Pc T => ∀ c, y.consumer = some c → c + s.queue.capacity ≠ x) ?_ ?_).mp hno)
    · intro c hc
      rw [hq'.2] at hc
      cases hc
    · intro c hc
      rw [hq.2] at hc
      cases hc
  · intro t₁ t₂ x h₁ h₂
    exact h.producer t₁ t₂ x (of_update_eq_some hq'.1 h₁) (of_update_eq_some hq'.1 h₂)
  · intro t₁ t₂ x h₁ h₂
    exact h.consumer t₁ t₂ x (of_update_eq_some hq'.2 h₁) (of_update_eq_some hq'.2 h₂)
  · intro x
    rw [State.setPc_moved, State.setPc_queue, State.setPc_pc, h.movedPos x,
      forall_update_iff_of (P := fun y : Pc T => y ≠ .deqRead x) (hq'.ne_deqRead x)
        (hq.ne_deqRead x)]

/-- A call that returns from a quiet phase keeps the invariant: the returns are a history the
    invariant does not read. -/
theorem Inv.finish (h : Inv s) (hq : (s.pc t).Quiet) (r : Ret T) : Inv (s.finish t r) :=
  have h' := h.setPc hq (p := .idle) ⟨rfl, rfl⟩ trivial
  { h' with }

/-- A thread that takes a position no other thread holds keeps the holders unique. -/
theorem unique_update {β γ : Type} {f : Th → β} {b : β} {g : β → Option γ}
    (hu : ∀ t₁ t₂ x, g (f t₁) = some x → g (f t₂) = some x → t₁ = t₂)
    (hfresh : ∀ x, g b = some x → ∀ t', t' ≠ t → g (f t') ≠ some x) :
    ∀ t₁ t₂ x, g (Function.update f t b t₁) = some x → g (Function.update f t b t₂) = some x →
      t₁ = t₂ := by
  intro t₁ t₂ x h₁ h₂
  by_cases ht₁ : t₁ = t <;> by_cases ht₂ : t₂ = t
  · exact ht₁.trans ht₂.symm
  · rw [ht₁, Function.update_self] at h₁
    rw [Function.update_of_ne ht₂] at h₂
    exact absurd h₂ (hfresh x h₁ t₂ ht₂)
  · rw [ht₂, Function.update_self] at h₂
    rw [Function.update_of_ne ht₁] at h₁
    exact absurd h₁ (hfresh x h₂ t₁ ht₁)
  · rw [Function.update_of_ne ht₁] at h₁
    rw [Function.update_of_ne ht₂] at h₂
    exact hu t₁ t₂ x h₁ h₂

/-- What the other threads have seen survives the claim of `enqueue_pos_`, whose cell is
    free for it: a dequeue a lap back would have left the cell at its own `sequence`. -/
theorem PhaseOk.claimEnqueue {q : MpmcBoundedQueue T} {l : List T} {p : Pc T} (d : T)
    (hp : PhaseOk q l p) (hpow : q.capacity.isPowerOfTwo) (htwo : 2 ≤ q.capacity)
    (hle : q.dequeuePos ≤ q.enqueuePos) (hl : l.length = q.enqueuePos)
    (hseq : (q.cellAt q.enqueuePos).sequence = q.enqueuePos) :
    PhaseOk { q with enqueuePos := q.enqueuePos + 1 } (l ++ [d]) p := by
  -- a claimed dequeue's cell is a lap behind only if it is not the one just claimed
  have hlap : ∀ pos, (q.cellAt pos).sequence = pos + 1 → q.enqueuePos ≠ pos + q.capacity := by
    intro pos hpos he
    rw [he, cellAt_add_capacity hpow, hpos] at hseq
    omega
  cases p with
  | idle | enqLoad _ | deqLoad => trivial
  | enqSeq _ pos => exact Nat.le_succ_of_le hp
  | enqCas _ pos =>
    have hpos := hp.1
    refine ⟨Nat.le_succ_of_le hpos, fun he => absurd he ?_⟩
    show q.enqueuePos + 1 ≠ pos
    omega
  | enqWrite data pos =>
    obtain ⟨h₁, h₂, h₃, h₄⟩ := hp
    refine ⟨h₁, Nat.lt_succ_of_lt h₂, h₃, ?_⟩
    rw [List.getElem?_append_left (by omega)]
    exact h₄
  | enqPublish pos =>
    obtain ⟨h₁, h₂, h₃⟩ := hp
    refine ⟨h₁, Nat.lt_succ_of_lt h₂, ?_⟩
    rw [List.getElem?_append_left (by omega)]
    exact h₃
  | deqSeq pos => exact hp
  | deqCas pos => exact hp
  | deqRead pos =>
    obtain ⟨h₁, h₂, h₃⟩ := hp
    have := hlap pos (by rw [h₃])
    refine ⟨h₁, by show q.enqueuePos + 1 ≤ pos + q.capacity; omega, ?_⟩
    rw [List.getElem?_append_left (by omega)]
    exact h₃
  | deqFree pos data =>
    obtain ⟨h₁, h₂, h₃, h₄⟩ := hp
    have := hlap pos (by rw [h₃])
    refine ⟨h₁, by show q.enqueuePos + 1 ≤ pos + q.capacity; omega, h₃, ?_⟩
    rw [List.getElem?_append_left (by omega)]
    exact h₄

/-- **The claim of an enqueue position.** The compare-exchange that finds `enqueue_pos_` at
    `pos` takes a cell that is free for it: the ring had room, and no dequeue a lap back still
    holds the cell. -/
theorem Inv.claimEnqueue (h : Inv s) {data : T} {pos : ℕ} (hpc : s.pc t = .enqCas data pos)
    (hE : s.queue.enqueuePos = pos) :
    Inv { s.setPc t (.enqWrite data pos) with
      queue := { s.queue with enqueuePos := pos + 1 }
      enqueued := s.enqueued ++ [data] } := by
  subst hE
  have hseq : (s.queue.cellAt s.queue.enqueuePos).sequence = s.queue.enqueuePos := by
    have hok := h.phase t
    rw [hpc] at hok
    exact hok.2 rfl
  obtain ⟨hlt, hcell⟩ := h.free_of_sequence hseq
  have hget : ∀ p, p < s.queue.enqueuePos → (s.enqueued ++ [data])[p]? = s.enqueued[p]? :=
    fun p hp => List.getElem?_append_left (by rw [h.length]; exact hp)
  have hold : (s.pc t).Quiet := by
    rw [hpc]
    exact ⟨rfl, rfl⟩
  refine
    { pow := h.pow
      two := h.two
      length := by simp [h.length]
      le := Nat.le_succ_of_le h.le
      le_cap := hlt
      phase := ?_
      queued := ?_
      free := ?_
      producer := ?_
      consumer := ?_
      moved := ?_
      movedPos := ?_
      movedNodup := h.movedNodup } <;> dsimp only [State.setPc_pc, State.setPc_moved]
  · intro x
    by_cases hx : x = t
    · rw [hx, Function.update_self]
      refine ⟨h.le, Nat.lt_succ_self _, hcell, ?_⟩
      rw [← h.length]
      exact List.getElem?_concat_length
    · rw [Function.update_of_ne hx]
      exact (h.phase x).claimEnqueue data h.pow h.two h.le h.length hseq
  · intro x hD hx hno
    by_cases hxE : x = s.queue.enqueuePos
    · have := hno t
      rw [Function.update_self, hxE] at this
      exact absurd rfl this
    · have hno' := (forall_update_iff_of (P := fun y : Pc T => y.producer ≠ some x)
        (by simpa [Pc.producer] using Ne.symm hxE)
        (by rw [hold.1]; exact (Option.some_ne_none x).symm)).mp hno
      rw [hget x (by omega)]
      exact h.queued x hD (by omega) hno'
  · intro x hx hD hno
    exact h.free x (by omega) hD ((forall_update_iff_of
      (P := fun y : Pc T => ∀ c, y.consumer = some c → c + s.queue.capacity ≠ x)
      (fun c hc => by cases hc) (fun c hc => by rw [hold.2] at hc; cases hc)).mp hno)
  · refine unique_update h.producer ?_
    intro x hx t' _ ht'
    cases hx
    exact absurd (h.producer_spec ht').2.1 (Nat.lt_irrefl _)
  · intro t₁ t₂ x h₁ h₂
    exact h.consumer t₁ t₂ x (of_update_eq_some rfl h₁) (of_update_eq_some rfl h₂)
  · intro x d hx
    have hlt' := h.moved x d hx
    rw [hget x (by rw [← h.length]; exact (List.getElem?_eq_some_iff.mp hlt').1)]
    exact hlt'
  · intro x
    rw [h.movedPos x,
      forall_update_iff_of (P := fun y : Pc T => y ≠ .deqRead x)
        (b := .enqWrite data s.queue.enqueuePos) nofun (hold.ne_deqRead x)]

/-- What the other threads have seen survives a store into the storage of a cell that none of
    them holds, less than a lap from every position they hold. -/
theorem PhaseOk.setCell_storage {q : MpmcBoundedQueue T} {l : List T} {p : Pc T} {pos : ℕ}
    (x : Option T) (hp : PhaseOk q l p) (hpow : q.capacity.isPowerOfTwo)
    (hwin : ∀ p', p.producer = some p' ∨ p.consumer = some p' →
      p' ≠ pos ∧ p' < pos + q.capacity ∧ pos < p' + q.capacity) :
    PhaseOk (q.setCell pos { q.cellAt pos with storage := x }) l p := by
  have hcell : ∀ p', p.producer = some p' ∨ p.consumer = some p' →
      (q.setCell pos { q.cellAt pos with storage := x }).cellAt p' = q.cellAt p' := by
    intro p' hp'
    obtain ⟨h₁, h₂, h₃⟩ := hwin p' hp'
    exact cellAt_setCell_of_ne hpow _ h₁ h₂ h₃
  cases p with
  | idle | enqLoad _ | deqLoad | enqSeq _ _ | deqSeq _ => exact hp
  | enqCas _ pos' => exact ⟨hp.1, fun he => (sequence_setCell_storage pos pos' x).trans (hp.2 he)⟩
  | deqCas pos' => exact ⟨hp.1, fun he => (sequence_setCell_storage pos pos' x).trans (hp.2 he)⟩
  | enqWrite data pos' =>
    obtain ⟨h₁, h₂, h₃, h₄⟩ := hp
    exact ⟨h₁, h₂, (hcell pos' (.inl rfl)).trans h₃, h₄⟩
  | enqPublish pos' =>
    obtain ⟨h₁, h₂, h₃⟩ := hp
    exact ⟨h₁, h₂, (hcell pos' (.inl rfl)).trans h₃⟩
  | deqRead pos' =>
    obtain ⟨h₁, h₂, h₃⟩ := hp
    exact ⟨h₁, h₂, (hcell pos' (.inr rfl)).trans h₃⟩
  | deqFree pos' data =>
    obtain ⟨h₁, h₂, h₃, h₄⟩ := hp
    exact ⟨h₁, h₂, (hcell pos' (.inr rfl)).trans h₃, h₄⟩

/-- **The write of the item.** The enqueue that holds `pos` fills its cell's storage; the cell
    of every other position any thread holds is less than a lap away, so another cell. -/
theorem Inv.write (h : Inv s) {data : T} {pos : ℕ} (hpc : s.pc t = .enqWrite data pos) :
    Inv { s.setPc t (.enqPublish pos) with
      queue := s.queue.setCell pos { s.queue.cellAt pos with storage := some data } } := by
  have hok := h.phase t
  rw [hpc] at hok
  obtain ⟨hD, hE, hcell, hitem⟩ := hok
  have hcap := h.le_cap
  have hmine : (s.pc t).producer = some pos := by rw [hpc]; rfl
  -- no other thread holds `pos` as its enqueue
  have hother : ∀ t', t' ≠ t → (s.pc t').producer ≠ some pos :=
    fun t' ht' hp => ht' (h.producer t' t pos hp hmine)
  -- every other position of the window is in another cell
  have hwin : ∀ x, x ≠ pos → s.queue.dequeuePos ≤ x →
      x < s.queue.dequeuePos + s.queue.capacity →
      (s.queue.setCell pos { s.queue.cellAt pos with storage := some data }).cellAt x =
        s.queue.cellAt x :=
    fun x hx h₁ h₂ => cellAt_setCell_of_ne h.pow _ hx (by omega) (by omega)
  refine
    { pow := h.pow
      two := h.two
      length := h.length
      le := h.le
      le_cap := h.le_cap
      phase := ?_
      queued := ?_
      free := ?_
      producer := ?_
      consumer := ?_
      moved := h.moved
      movedPos := ?_
      movedNodup := h.movedNodup } <;>
    dsimp only [State.setPc_pc, State.setPc_moved, State.setPc_enqueued, enqueuePos_setCell,
      dequeuePos_setCell, capacity_setCell]
  · intro x
    by_cases hx : x = t
    · rw [hx, Function.update_self]
      refine ⟨hD, hE, ?_⟩
      rw [cellAt_setCell_self, hcell, hitem]
    · rw [Function.update_of_ne hx]
      refine (h.phase x).setCell_storage _ h.pow ?_
      intro p' hp'
      rcases hp' with hp' | hp'
      · have := h.producer_spec hp'
        have hne : p' ≠ pos := fun he => hother x hx (he ▸ hp')
        exact ⟨hne, by omega, by omega⟩
      · have := h.consumer_spec hp'
        exact ⟨by omega, by omega, by omega⟩
  · intro x hxD hxE hno
    have hxp : x ≠ pos := fun he => hno t (by rw [Function.update_self, he]; rfl)
    rw [hwin x hxp hxD (by omega)]
    refine h.queued x hxD hxE ((forall_update_iff_of (P := fun y : Pc T => y.producer ≠ some x)
      (b := .enqPublish pos) ?_ ?_).mp hno)
    · exact fun he => hxp (Option.some.inj he).symm
    · rw [hmine]
      exact fun he => hxp (Option.some.inj he).symm
  · intro x hxE hxD hno
    rw [hwin x (by omega) (by omega) hxD]
    exact h.free x hxE hxD ((forall_update_iff_of
      (P := fun y : Pc T => ∀ c, y.consumer = some c → c + s.queue.capacity ≠ x)
      (b := .enqPublish pos) (fun c hc => by cases hc)
      (fun c hc => by rw [hpc] at hc; cases hc)).mp hno)
  · refine unique_update h.producer ?_
    intro x hx t' ht' hp'
    cases hx
    exact hother t' ht' hp'
  · intro t₁ t₂ x h₁ h₂
    exact h.consumer t₁ t₂ x (of_update_eq_some rfl h₁) (of_update_eq_some rfl h₂)
  · intro x
    rw [h.movedPos x, forall_update_iff_of (P := fun y : Pc T => y ≠ .deqRead x)
      (b := .enqPublish pos) nofun (by rw [hpc]; exact nofun)]

/-- What the other threads have seen survives the publication of `pos`: only its enqueue
    holds the cell, and a compare-exchange that expects the cell full is the dequeue of `pos`. -/
theorem PhaseOk.publish {q : MpmcBoundedQueue T} {l : List T} {p : Pc T} {pos : ℕ}
    (hp : PhaseOk q l p) (hpow : q.capacity.isPowerOfTwo) (htwo : 2 ≤ q.capacity)
    (hD : q.dequeuePos ≤ pos) (hE : pos < q.enqueuePos)
    (hcap : q.enqueuePos ≤ q.dequeuePos + q.capacity) (hseq : (q.cellAt pos).sequence = pos)
    (hne : p.producer ≠ some pos) :
    PhaseOk (q.setCell pos { q.cellAt pos with sequence := pos + 1 }) l p := by
  cases p with
  | idle | enqLoad _ | deqLoad | enqSeq _ _ | deqSeq _ => exact hp
  | enqCas _ pos' =>
    refine ⟨hp.1, fun he => ?_⟩
    have he' : q.enqueuePos = pos' := he
    -- the cell a lap on is the one being published, which the enqueue would not find free
    have hlap : pos' ≠ pos + q.capacity := by
      intro hl
      have := hp.2 he
      rw [hl, cellAt_add_capacity hpow, hseq] at this
      omega
    rw [cellAt_setCell_of_ne hpow _ (by omega) (by omega) (by omega)]
    exact hp.2 he
  | enqWrite data pos' =>
    obtain ⟨h₁, h₂, h₃, h₄⟩ := hp
    have hne' : pos' ≠ pos := fun he => hne (by rw [he]; rfl)
    exact ⟨h₁, h₂, (cellAt_setCell_of_ne hpow _ hne' (by omega) (by omega)).trans h₃, h₄⟩
  | enqPublish pos' =>
    obtain ⟨h₁, h₂, h₃⟩ := hp
    have hne' : pos' ≠ pos := fun he => hne (by rw [he]; rfl)
    exact ⟨h₁, h₂, (cellAt_setCell_of_ne hpow _ hne' (by omega) (by omega)).trans h₃⟩
  | deqCas pos' =>
    refine ⟨hp.1, fun he => ?_⟩
    have he' : q.dequeuePos = pos' := he
    by_cases hpp : pos' = pos
    · rw [hpp, cellAt_setCell_self]
    · rw [cellAt_setCell_of_ne hpow _ hpp (by omega) (by omega)]
      exact hp.2 he
  | deqRead pos' =>
    obtain ⟨h₁, h₂, h₃⟩ := hp
    exact ⟨h₁, h₂, (cellAt_setCell_of_ne hpow _ (by omega) (by omega) (by omega)).trans h₃⟩
  | deqFree pos' data =>
    obtain ⟨h₁, h₂, h₃, h₄⟩ := hp
    exact ⟨h₁, h₂, (cellAt_setCell_of_ne hpow _ (by omega) (by omega) (by omega)).trans h₃, h₄⟩

/-- **The publication of an item.** The enqueue that holds `pos` stores `pos + 1`; the
    position is no longer held, and its cell holds the item. -/
theorem Inv.publish (h : Inv s) {pos : ℕ} (hpc : s.pc t = .enqPublish pos) :
    Inv { s.finish t (.enqueued true) with
      queue := s.queue.setCell pos { s.queue.cellAt pos with sequence := pos + 1 } } := by
  have hok := h.phase t
  rw [hpc] at hok
  obtain ⟨hD, hE, hcell⟩ := hok
  have hcap := h.le_cap
  have hmine : (s.pc t).producer = some pos := by rw [hpc]; rfl
  have hother : ∀ t', t' ≠ t → (s.pc t').producer ≠ some pos :=
    fun t' ht' hp => ht' (h.producer t' t pos hp hmine)
  have hwin : ∀ x, x ≠ pos → s.queue.dequeuePos ≤ x →
      x < s.queue.dequeuePos + s.queue.capacity →
      (s.queue.setCell pos { s.queue.cellAt pos with sequence := pos + 1 }).cellAt x =
        s.queue.cellAt x :=
    fun x hx h₁ h₂ => cellAt_setCell_of_ne h.pow _ hx (by omega) (by omega)
  refine
    { pow := h.pow
      two := h.two
      length := h.length
      le := h.le
      le_cap := h.le_cap
      phase := ?_
      queued := ?_
      free := ?_
      producer := ?_
      consumer := ?_
      moved := h.moved
      movedPos := ?_
      movedNodup := h.movedNodup } <;>
    dsimp only [State.finish_pc, State.finish_moved, State.finish_enqueued, enqueuePos_setCell,
      dequeuePos_setCell, capacity_setCell]
  · intro x
    by_cases hx : x = t
    · rw [hx, Function.update_self]
      trivial
    · rw [Function.update_of_ne hx]
      exact (h.phase x).publish h.pow h.two hD hE hcap (by rw [hcell]) (hother x hx)
  · intro x hxD hxE hno
    by_cases hxp : x = pos
    · rw [hxp, cellAt_setCell_self, hcell]
    · rw [hwin x hxp hxD (by omega)]
      refine h.queued x hxD hxE ((forall_update_iff_of (P := fun y : Pc T => y.producer ≠ some x)
        (b := .idle) ?_ ?_).mp hno)
      · exact (Option.some_ne_none x).symm
      · rw [hmine]
        exact fun he => hxp (Option.some.inj he).symm
  · intro x hxE hxD hno
    rw [hwin x (by omega) (by omega) hxD]
    exact h.free x hxE hxD ((forall_update_iff_of
      (P := fun y : Pc T => ∀ c, y.consumer = some c → c + s.queue.capacity ≠ x)
      (b := .idle) (fun c hc => by cases hc) (fun c hc => by rw [hpc] at hc; cases hc)).mp hno)
  · intro t₁ t₂ x h₁ h₂
    exact h.producer t₁ t₂ x (of_update_eq_some rfl h₁) (of_update_eq_some rfl h₂)
  · intro t₁ t₂ x h₁ h₂
    exact h.consumer t₁ t₂ x (of_update_eq_some rfl h₁) (of_update_eq_some rfl h₂)
  · intro x
    rw [h.movedPos x, forall_update_iff_of (P := fun y : Pc T => y ≠ .deqRead x)
      (b := .idle) nofun (by rw [hpc]; exact nofun)]

/-- What the other threads have seen survives the claim of `dequeue_pos_`: no enqueue holds
    the position claimed. -/
theorem PhaseOk.claimDequeue {q : MpmcBoundedQueue T} {l : List T} {p : Pc T}
    (hp : PhaseOk q l p) (hno : p.producer ≠ some q.dequeuePos) :
    PhaseOk { q with dequeuePos := q.dequeuePos + 1 } l p := by
  cases p with
  | idle | enqLoad _ | deqLoad | enqSeq _ _ | enqCas _ _ => exact hp
  | enqWrite data pos =>
    obtain ⟨h₁, h₂, h₃, h₄⟩ := hp
    have hne : pos ≠ q.dequeuePos := fun he => hno (by rw [he]; rfl)
    exact ⟨by show q.dequeuePos + 1 ≤ pos; omega, h₂, h₃, h₄⟩
  | enqPublish pos =>
    obtain ⟨h₁, h₂, h₃⟩ := hp
    have hne : pos ≠ q.dequeuePos := fun he => hno (by rw [he]; rfl)
    exact ⟨by show q.dequeuePos + 1 ≤ pos; omega, h₂, h₃⟩
  | deqSeq pos => exact Nat.le_succ_of_le hp
  | deqCas pos =>
    have hpos := hp.1
    refine ⟨Nat.le_succ_of_le hpos, fun he => absurd he ?_⟩
    show q.dequeuePos + 1 ≠ pos
    omega
  | deqRead pos =>
    obtain ⟨h₁, h₂, h₃⟩ := hp
    exact ⟨Nat.lt_succ_of_lt h₁, h₂, h₃⟩
  | deqFree pos data =>
    obtain ⟨h₁, h₂, h₃, h₄⟩ := hp
    exact ⟨Nat.lt_succ_of_lt h₁, h₂, h₃, h₄⟩

/-- **The claim of a dequeue position.** The compare-exchange that finds `dequeue_pos_` at
    `pos` takes a cell that holds the published item of `pos`. -/
theorem Inv.claimDequeue (h : Inv s) {pos : ℕ} (hpc : s.pc t = .deqCas pos)
    (hD : s.queue.dequeuePos = pos) :
    Inv { s.setPc t (.deqRead pos) with queue := { s.queue with dequeuePos := pos + 1 } } := by
  subst hD
  have hseq : (s.queue.cellAt s.queue.dequeuePos).sequence = s.queue.dequeuePos + 1 := by
    have hok := h.phase t
    rw [hpc] at hok
    exact hok.2 rfl
  obtain ⟨hlt, hno, hcell⟩ := h.queued_of_sequence hseq
  have hold : (s.pc t).Quiet := by
    rw [hpc]
    exact ⟨rfl, rfl⟩
  have hcap := h.le_cap
  refine
    { pow := h.pow
      two := h.two
      length := h.length
      le := hlt
      le_cap := ?_
      phase := ?_
      queued := ?_
      free := ?_
      producer := ?_
      consumer := ?_
      moved := h.moved
      movedPos := ?_
      movedNodup := h.movedNodup } <;>
    dsimp only [State.setPc_pc, State.setPc_moved, State.setPc_enqueued]
  · show s.queue.enqueuePos ≤ s.queue.dequeuePos + 1 + s.queue.capacity
    omega
  · intro x
    by_cases hx : x = t
    · rw [hx, Function.update_self]
      exact ⟨Nat.lt_succ_self _, hcap, hcell⟩
    · rw [Function.update_of_ne hx]
      exact (h.phase x).claimDequeue (hno x)
  · intro x hxD hxE hno'
    exact h.queued x (by omega) hxE ((forall_update_iff_of
      (P := fun y : Pc T => y.producer ≠ some x) (b := .deqRead s.queue.dequeuePos)
      (fun he => by cases he) (by rw [hold.1]; exact (Option.some_ne_none x).symm)).mp hno')
  · intro x hxE hxD hno'
    have hxD' : x < s.queue.dequeuePos + 1 + s.queue.capacity := hxD
    -- the position a lap past the one claimed is held back by the claiming dequeue
    have hx : x ≠ s.queue.dequeuePos + s.queue.capacity := fun he =>
      hno' t s.queue.dequeuePos (by rw [Function.update_self]; rfl) he.symm
    exact h.free x hxE (by omega) ((forall_update_iff_of
      (P := fun y : Pc T => ∀ c, y.consumer = some c → c + s.queue.capacity ≠ x)
      (b := .deqRead s.queue.dequeuePos) (fun c hc => by cases hc; omega)
      (fun c hc => by rw [hold.2] at hc; cases hc)).mp hno')
  · intro t₁ t₂ x h₁ h₂
    exact h.producer t₁ t₂ x (of_update_eq_some rfl h₁) (of_update_eq_some rfl h₂)
  · refine unique_update h.consumer ?_
    intro x hx t' _ ht'
    cases hx
    exact absurd (h.consumer_spec ht').1 (Nat.lt_irrefl _)
  · intro x
    rw [h.movedPos x]
    by_cases hx : x = s.queue.dequeuePos
    · rw [hx]
      constructor
      · rintro ⟨h₁, -⟩
        exact absurd h₁ (Nat.lt_irrefl _)
      · rintro ⟨-, h₂⟩
        exact absurd (Function.update_self _ _ _) (h₂ t)
    · rw [forall_update_iff_of (P := fun y : Pc T => y ≠ .deqRead x)
        (b := .deqRead s.queue.dequeuePos) (fun he => hx (Pc.deqRead.inj he).symm)
        (hold.ne_deqRead x)]
      constructor
      · rintro ⟨h₁, h₂⟩
        exact ⟨Nat.lt_succ_of_lt h₁, h₂⟩
      · rintro ⟨h₁, h₂⟩
        exact ⟨by omega, h₂⟩

/-- **The read of the item.** The dequeue that holds `pos` moves the item out of its cell's
    storage: the item the enqueue of `pos` put there. -/
theorem Inv.read (h : Inv s) {pos : ℕ} {data : T} (hpc : s.pc t = .deqRead pos)
    (hdata : (s.queue.cellAt pos).storage = some data) :
    Inv { s.setPc t (.deqFree pos data) with
      queue := s.queue.setCell pos { s.queue.cellAt pos with storage := none }
      moved := s.moved ++ [(pos, data)] } := by
  have hok := h.phase t
  rw [hpc] at hok
  obtain ⟨hpos, hEp, hcell⟩ := hok
  have hitem : s.enqueued[pos]? = some data := by
    rw [hcell] at hdata
    exact hdata
  have hle := h.le
  have htwo := h.two
  have hmine : (s.pc t).consumer = some pos := by rw [hpc]; rfl
  have hother : ∀ t', t' ≠ t → (s.pc t').consumer ≠ some pos :=
    fun t' ht' hc => ht' (h.consumer t' t pos hc hmine)
  have hwin : ∀ x, x ≠ pos → x ≠ pos + s.queue.capacity → pos < x + s.queue.capacity →
      x < pos + 2 * s.queue.capacity →
      (s.queue.setCell pos { s.queue.cellAt pos with storage := none }).cellAt x =
        s.queue.cellAt x :=
    fun x h₁ h₂ h₃ h₄ => cellAt_setCell_of_ne_of_ne h.pow _ h₁ h₂ h₃ h₄
  refine
    { pow := h.pow
      two := h.two
      length := h.length
      le := h.le
      le_cap := h.le_cap
      phase := ?_
      queued := ?_
      free := ?_
      producer := ?_
      consumer := ?_
      moved := ?_
      movedPos := ?_
      movedNodup := ?_ } <;>
    dsimp only [State.setPc_pc, State.setPc_moved, State.setPc_enqueued, enqueuePos_setCell,
      dequeuePos_setCell, capacity_setCell]
  · intro x
    by_cases hx : x = t
    · rw [hx, Function.update_self]
      exact ⟨hpos, hEp, by rw [cellAt_setCell_self, hcell], hitem⟩
    · rw [Function.update_of_ne hx]
      refine (h.phase x).setCell_storage none h.pow ?_
      intro p' hp'
      rcases hp' with hp' | hp'
      · have := h.producer_spec hp'
        exact ⟨by omega, by omega, by omega⟩
      · have := h.consumer_spec hp'
        have hne : p' ≠ pos := fun he => hother x hx (he ▸ hp')
        exact ⟨hne, by omega, by omega⟩
  · intro x hxD hxE hno
    rw [hwin x (by omega) (by omega) (by omega) (by omega)]
    exact h.queued x hxD hxE ((forall_update_iff_of (P := fun y : Pc T => y.producer ≠ some x)
      (b := .deqFree pos data) (by exact (Option.some_ne_none x).symm)
      (by rw [hpc]; exact (Option.some_ne_none x).symm)).mp hno)
  · intro x hxE hxD hno
    have hlap : pos + s.queue.capacity ≠ x :=
      hno t pos (by rw [Function.update_self]; rfl)
    rw [hwin x (by omega) (Ne.symm hlap) (by omega) (by omega)]
    exact h.free x hxE hxD ((forall_update_iff_of
      (P := fun y : Pc T => ∀ c, y.consumer = some c → c + s.queue.capacity ≠ x)
      (b := .deqFree pos data) (fun c hc => by cases hc; exact hlap)
      (fun c hc => by rw [hmine] at hc; cases hc; exact hlap)).mp hno)
  · intro t₁ t₂ x h₁ h₂
    exact h.producer t₁ t₂ x (of_update_eq_some rfl h₁) (of_update_eq_some rfl h₂)
  · refine unique_update h.consumer ?_
    intro x hx t' ht' hc
    cases hx
    exact hother t' ht' hc
  · intro x d hx
    rcases List.mem_append.mp hx with hx | hx
    · exact h.moved x d hx
    · obtain ⟨rfl, rfl⟩ := Prod.mk.inj (List.mem_singleton.mp hx)
      exact hitem
  · intro x
    rw [List.map_append, List.mem_append, h.movedPos x]
    simp only [List.map_cons, List.map_nil, List.mem_singleton]
    by_cases hx : x = pos
    · subst hx
      refine ⟨fun _ => ⟨hpos, fun t' => ?_⟩, fun _ => .inr rfl⟩
      by_cases ht' : t' = t
      · rw [ht', Function.update_self]
        exact nofun
      · rw [Function.update_of_ne ht']
        exact fun he => hother t' ht' (by rw [he]; rfl)
    · rw [forall_update_iff_of (P := fun y : Pc T => y ≠ .deqRead x) (b := .deqFree pos data)
        nofun (by rw [hpc]; exact fun he => hx (Pc.deqRead.inj he).symm)]
      simp only [hx, or_false]
  · rw [List.map_append]
    simp only [List.map_cons, List.map_nil]
    rw [← List.concat_eq_append]
    exact h.movedNodup.concat (fun hm => ((h.movedPos pos).mp hm).2 t hpc)

/-- What the other threads have seen survives the free of `pos`'s cell for the position a
    lap on: a compare-exchange that expects that cell free is the enqueue of that position. -/
theorem PhaseOk.release {q : MpmcBoundedQueue T} {l : List T} {p : Pc T} {pos : ℕ}
    (hp : PhaseOk q l p) (hpow : q.capacity.isPowerOfTwo) (htwo : 2 ≤ q.capacity)
    (hpos : pos < q.dequeuePos) (hle : q.dequeuePos ≤ q.enqueuePos)
    (hEp : q.enqueuePos ≤ pos + q.capacity) (hseq : (q.cellAt pos).sequence = pos + 1)
    (hne : p.consumer ≠ some pos) :
    PhaseOk (q.setCell pos ⟨pos + q.capacity, none⟩) l p := by
  cases p with
  | idle | enqLoad _ | deqLoad | enqSeq _ _ | deqSeq _ => exact hp
  | enqCas _ pos' =>
    refine ⟨hp.1, fun he => ?_⟩
    have he' : q.enqueuePos = pos' := he
    by_cases hlap : pos' = pos + q.capacity
    · rw [hlap, cellAt_setCell_add_capacity hpow]
    · rw [cellAt_setCell_of_ne hpow _ (by omega) (by omega) (by omega)]
      exact hp.2 he
  | enqWrite data pos' =>
    obtain ⟨h₁, h₂, h₃, h₄⟩ := hp
    exact ⟨h₁, h₂, (cellAt_setCell_of_ne hpow _ (by omega) (by omega) (by omega)).trans h₃, h₄⟩
  | enqPublish pos' =>
    obtain ⟨h₁, h₂, h₃⟩ := hp
    exact ⟨h₁, h₂, (cellAt_setCell_of_ne hpow _ (by omega) (by omega) (by omega)).trans h₃⟩
  | deqCas pos' =>
    refine ⟨hp.1, fun he => ?_⟩
    have he' : q.dequeuePos = pos' := he
    -- the cell a lap on is the one being freed, which the dequeue would not find full
    have hlap : pos' ≠ pos + q.capacity := by
      intro hl
      have := hp.2 he
      rw [hl, cellAt_add_capacity hpow, hseq] at this
      omega
    rw [cellAt_setCell_of_ne hpow _ (by omega) (by omega) (by omega)]
    exact hp.2 he
  | deqRead pos' =>
    obtain ⟨h₁, h₂, h₃⟩ := hp
    have hne' : pos' ≠ pos := fun he => hne (by rw [he]; rfl)
    exact ⟨h₁, h₂, (cellAt_setCell_of_ne hpow _ hne' (by omega) (by omega)).trans h₃⟩
  | deqFree pos' data =>
    obtain ⟨h₁, h₂, h₃, h₄⟩ := hp
    have hne' : pos' ≠ pos := fun he => hne (by rw [he]; rfl)
    exact ⟨h₁, h₂, (cellAt_setCell_of_ne hpow _ hne' (by omega) (by omega)).trans h₃, h₄⟩

/-- **The free of a cell.** The dequeue that holds `pos` stores `pos + buffer_mask_ + 1`:
    the cell is free for the position a lap on. -/
theorem Inv.release (h : Inv s) {pos : ℕ} {data : T} (hpc : s.pc t = .deqFree pos data) :
    Inv { s.finish t (.dequeued (some data)) with
      queue := s.queue.setCell pos
        { s.queue.cellAt pos with sequence := pos + s.queue.bufferMask + 1 } } := by
  have hok := h.phase t
  rw [hpc] at hok
  obtain ⟨hpos, hEp, hcell, -⟩ := hok
  have hle := h.le
  have htwo := h.two
  have hnew : { s.queue.cellAt pos with sequence := pos + s.queue.bufferMask + 1 } =
      (⟨pos + s.queue.capacity, none⟩ : Cell T) := by
    rw [hcell]
    rfl
  rw [hnew]
  have hmine : (s.pc t).consumer = some pos := by rw [hpc]; rfl
  have hother : ∀ t', t' ≠ t → (s.pc t').consumer ≠ some pos :=
    fun t' ht' hc => ht' (h.consumer t' t pos hc hmine)
  have hwin : ∀ x, x ≠ pos → x ≠ pos + s.queue.capacity → pos < x + s.queue.capacity →
      x < pos + 2 * s.queue.capacity →
      (s.queue.setCell pos ⟨pos + s.queue.capacity, none⟩).cellAt x = s.queue.cellAt x :=
    fun x h₁ h₂ h₃ h₄ => cellAt_setCell_of_ne_of_ne h.pow _ h₁ h₂ h₃ h₄
  refine
    { pow := h.pow
      two := h.two
      length := h.length
      le := h.le
      le_cap := h.le_cap
      phase := ?_
      queued := ?_
      free := ?_
      producer := ?_
      consumer := ?_
      moved := h.moved
      movedPos := ?_
      movedNodup := h.movedNodup } <;>
    dsimp only [State.finish_pc, State.finish_moved, State.finish_enqueued, enqueuePos_setCell,
      dequeuePos_setCell, capacity_setCell]
  · intro x
    by_cases hx : x = t
    · rw [hx, Function.update_self]
      trivial
    · rw [Function.update_of_ne hx]
      exact (h.phase x).release h.pow h.two hpos hle hEp (by rw [hcell]) (hother x hx)
  · intro x hxD hxE hno
    rw [hwin x (by omega) (by omega) (by omega) (by omega)]
    exact h.queued x hxD hxE ((forall_update_iff_of (P := fun y : Pc T => y.producer ≠ some x)
      (b := .idle) (by exact (Option.some_ne_none x).symm)
      (by rw [hpc]; exact (Option.some_ne_none x).symm)).mp hno)
  · intro x hxE hxD hno
    by_cases hlap : x = pos + s.queue.capacity
    · rw [hlap, cellAt_setCell_add_capacity h.pow]
    · rw [hwin x (by omega) hlap (by omega) (by omega)]
      exact h.free x hxE hxD ((forall_update_iff_of
        (P := fun y : Pc T => ∀ c, y.consumer = some c → c + s.queue.capacity ≠ x)
        (b := .idle) (fun c hc => by cases hc)
        (fun c hc => by rw [hmine] at hc; cases hc; exact fun he => hlap he.symm)).mp hno)
  · intro t₁ t₂ x h₁ h₂
    exact h.producer t₁ t₂ x (of_update_eq_some rfl h₁) (of_update_eq_some rfl h₂)
  · intro t₁ t₂ x h₁ h₂
    exact h.consumer t₁ t₂ x (of_update_eq_some rfl h₁) (of_update_eq_some rfl h₂)
  · intro x
    rw [h.movedPos x, forall_update_iff_of (P := fun y : Pc T => y ≠ .deqRead x)
      (b := .idle) nofun (by rw [hpc]; exact nofun)]

/-- **Every access keeps the invariant.** One case per phase of `State.next`: the loads, the
    `sequence` checks and the failed compare-exchanges are quiet steps, and the six accesses
    that claim, fill, publish, empty or free a cell have their lemmas above. -/
theorem Inv.next (h : Inv s) {s' : State Th T} (hs : s.next t = some s') : Inv s' := by
  have hok := h.phase t
  have quiet : ∀ {p : Pc T}, s.pc t = p → p.producer = none → p.consumer = none →
      (s.pc t).Quiet := fun hp h₁ h₂ => by rw [hp]; exact ⟨h₁, h₂⟩
  cases hpc : s.pc t with
  | idle => rw [State.next_idle s hpc] at hs; cases hs
  | enqLoad data =>
    rw [State.next_enqLoad s hpc] at hs
    cases hs
    exact h.setPc (quiet hpc rfl rfl) ⟨rfl, rfl⟩ (le_refl s.queue.enqueuePos)
  | enqSeq data pos =>
    rw [hpc] at hok
    -- the three ways the `sequence` compares with the position loaded
    rcases lt_trichotomy (s.queue.cellAt pos).sequence pos with hlt | heq | hgt
    · rw [State.next_enqSeq_lt s hpc hlt] at hs
      cases hs
      exact h.finish (quiet hpc rfl rfl) _
    · rw [State.next_enqSeq_eq s hpc heq] at hs
      cases hs
      exact h.setPc (quiet hpc rfl rfl) ⟨rfl, rfl⟩ ⟨hok, fun _ => heq⟩
    · rw [State.next_enqSeq_gt s hpc hgt] at hs
      cases hs
      exact h.setPc (quiet hpc rfl rfl) ⟨rfl, rfl⟩ trivial
  | enqCas data pos =>
    by_cases hE : s.queue.enqueuePos = pos
    · rw [State.next_enqCas_eq s hpc hE] at hs
      cases hs
      exact h.claimEnqueue hpc hE
    · rw [State.next_enqCas_ne s hpc hE] at hs
      cases hs
      exact h.setPc (quiet hpc rfl rfl) ⟨rfl, rfl⟩ trivial
  | enqWrite data pos =>
    rw [State.next_enqWrite s hpc] at hs
    cases hs
    exact h.write hpc
  | enqPublish pos =>
    rw [State.next_enqPublish s hpc] at hs
    cases hs
    exact h.publish hpc
  | deqLoad =>
    rw [State.next_deqLoad s hpc] at hs
    cases hs
    exact h.setPc (quiet hpc rfl rfl) ⟨rfl, rfl⟩ (le_refl s.queue.dequeuePos)
  | deqSeq pos =>
    rw [hpc] at hok
    rcases lt_trichotomy (s.queue.cellAt pos).sequence (pos + 1) with hlt | heq | hgt
    · rw [State.next_deqSeq_lt s hpc hlt] at hs
      cases hs
      exact h.finish (quiet hpc rfl rfl) _
    · rw [State.next_deqSeq_eq s hpc heq] at hs
      cases hs
      exact h.setPc (quiet hpc rfl rfl) ⟨rfl, rfl⟩ ⟨hok, fun _ => heq⟩
    · rw [State.next_deqSeq_gt s hpc hgt] at hs
      cases hs
      exact h.setPc (quiet hpc rfl rfl) ⟨rfl, rfl⟩ trivial
  | deqCas pos =>
    by_cases hD : s.queue.dequeuePos = pos
    · rw [State.next_deqCas_eq s hpc hD] at hs
      cases hs
      exact h.claimDequeue hpc hD
    · rw [State.next_deqCas_ne s hpc hD] at hs
      cases hs
      exact h.setPc (quiet hpc rfl rfl) ⟨rfl, rfl⟩ trivial
  | deqRead pos =>
    cases hd : (s.queue.cellAt pos).storage with
    | none => rw [State.next_deqRead_none s hpc hd] at hs; cases hs
    | some data =>
      rw [State.next_deqRead_some s hpc hd] at hs
      cases hs
      exact h.read hpc hd
  | deqFree pos data =>
    rw [State.next_deqFree s hpc] at hs
    cases hs
    exact h.release hpc

/-- **Every step keeps the invariant**: a call that begins, an access, or a spurious failure of
    a compare-exchange. -/
theorem Inv.step (h : Inv s) {l : Label Th T} {s' : State Th T} (hs : s.step l = some s') :
    Inv s' := by
  cases l with
  | tryEnqueue t data =>
    simp only [State.step] at hs
    split at hs
    · rename_i hidle
      simp only [Option.some.injEq] at hs
      subst hs
      exact h.setPc (by rw [hidle]; exact ⟨rfl, rfl⟩) ⟨rfl, rfl⟩ trivial
    · cases hs
  | tryDequeue t =>
    simp only [State.step] at hs
    split at hs
    · rename_i hidle
      simp only [Option.some.injEq] at hs
      subst hs
      exact h.setPc (by rw [hidle]; exact ⟨rfl, rfl⟩) ⟨rfl, rfl⟩ trivial
    · cases hs
  | step t => exact h.next hs
  | casFail t =>
    simp only [State.step] at hs
    split at hs
    · rename_i hcas
      cases hs
      exact h.setPc (by rw [hcas]; exact ⟨rfl, rfl⟩) ⟨rfl, rfl⟩ trivial
    · rename_i hcas
      cases hs
      exact h.setPc (by rw [hcas]; exact ⟨rfl, rfl⟩) ⟨rfl, rfl⟩ trivial
    · cases hs

end Steps

/-- **The invariant holds of every reachable state**, from the constructor on. -/
theorem Inv.reachable [DecidableEq Th] {n : ℕ} {q : MpmcBoundedQueue T} {s : State Th T}
    (hq : create n = some q) (h : Trans.Reachable State.step (start q) s) : Inv s :=
  Trans.Reachable.invariant Inv (fun _ _ _ hi hs => hi.step hs) h (Inv.init hq)

end MpmcBoundedQueue

end Helio
