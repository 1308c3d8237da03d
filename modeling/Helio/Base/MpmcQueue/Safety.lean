import Helio.Base.MpmcQueue.Invariant

/-!
# The bounded MPMC queue: what its callers are told

What `Inv` gives, over every interleaving of any number of threads:

* **each cell has one owner.** Between its claim and its `sequence` store a call writes or
  moves the cell's storage with no synchronisation; no other call holds the same cell then
  (`reachable_cell_exclusive`);
* **no item is lost or taken twice.** The item a dequeue moves out is the one the enqueue of
  its position put in; no position is moved out twice; every position below `dequeue_pos_` has
  been moved out or is being (`reachable_moved`);
* **when a call returns `false`.** `try_enqueue` returns `false` exactly when the position it
  loaded is still `enqueue_pos_` and `is_full()` holds: the ring holds `buffer_size` claimed
  positions, or the dequeue a lap back has claimed its cell and not yet freed it
  (`reachable_enqueue_false`). `try_dequeue` returns `false` exactly when its position is still
  `dequeue_pos_` and `empty()` holds: nothing is claimed, or the enqueue of that position has
  claimed its cell and not yet published (`reachable_dequeue_false`). The comments of the two
  `return false`s say "the queue is full" and "the queue is empty"; with calls in flight, a
  call can fail on a queue with room or with items;
* **the destructor.** With no call in flight, `~mpmc_bounded_queue()` destroys exactly the
  items still queued, in order, and returns within `buffer_size + 1` turns of its loop
  (`reachable_destroy`).

* **the positions fit.** With fewer than `2 ^ 63 - capacity()` items enqueued, every
  `sequence`, position and stored value is below `2 ^ 63`, where `size_t` and `intptr_t` hold
  them exactly (`reachable_positions_exact`).

`Helio.Base.MpmcQueue.Sequential` shows that calls that do not overlap behave as the bounded
FIFO of `Helio.Lib.Fifo`.
-/

set_option autoImplicit false

namespace Helio

namespace MpmcBoundedQueue

variable {T Th : Type}

/-- Phase `p` holds the cell of position `pos`: it has claimed the position and not yet
    stored the cell's `sequence`. -/
def Pc.Holds (p : Pc T) (pos : ℕ) : Prop := p.producer = some pos ∨ p.consumer = some pos

/-- The position a phase has loaded from a counter, if any. -/
def Pc.position : Pc T → Option ℕ
  | .enqSeq _ pos | .enqCas _ pos | .enqWrite _ pos | .enqPublish pos => some pos
  | .deqSeq pos | .deqCas pos | .deqRead pos | .deqFree pos _ => some pos
  | .idle | .enqLoad _ | .deqLoad => none

/-- The items enqueued and not yet claimed by a dequeue, front first. -/
def State.contents (s : State Th T) : List T := s.enqueued.drop s.queue.dequeuePos

/-- No call is in flight. -/
def State.Quiescent (s : State Th T) : Prop := ∀ t, s.pc t = .idle

section Inv

variable {s : State Th T}

/-- Two threads hold positions less than a lap apart, and different ones. -/
theorem Inv.holds_window (h : Inv s) {t t' : Th} {p p' : ℕ} (ht : t ≠ t')
    (hp : (s.pc t).Holds p) (hp' : (s.pc t').Holds p') :
    p ≠ p' ∧ p < p' + s.queue.capacity ∧ p' < p + s.queue.capacity := by
  have hle := h.le
  have hcap := h.le_cap
  rcases hp with hp | hp <;> rcases hp' with hp' | hp'
  · have h₁ := h.producer_spec hp
    have h₂ := h.producer_spec hp'
    exact ⟨fun he => ht (h.producer t t' p hp (he ▸ hp')), by omega, by omega⟩
  · have h₁ := h.producer_spec hp
    have h₂ := h.consumer_spec hp'
    exact ⟨by omega, by omega, by omega⟩
  · have h₁ := h.consumer_spec hp
    have h₂ := h.producer_spec hp'
    exact ⟨by omega, by omega, by omega⟩
  · have h₁ := h.consumer_spec hp
    have h₂ := h.consumer_spec hp'
    exact ⟨fun he => ht (h.consumer t t' p hp (he ▸ hp')), by omega, by omega⟩

/-- `is_full()` holds exactly when the ring holds `buffer_size` claimed positions, or the
    dequeue a lap behind `enqueue_pos_` has not freed its cell. -/
theorem Inv.isFull_iff (h : Inv s) :
    s.queue.isFull = true ↔
      s.queue.enqueuePos = s.queue.dequeuePos + s.queue.capacity ∨
        ∃ t c, (s.pc t).consumer = some c ∧ c + s.queue.capacity = s.queue.enqueuePos := by
  have htwo := h.two
  have hcap := h.le_cap
  unfold isFull dif
  rw [decide_eq_true_iff]
  constructor
  · intro hlt
    by_cases hfull : s.queue.enqueuePos = s.queue.dequeuePos + s.queue.capacity
    · exact .inl hfull
    · rcases h.sequence_free le_rfl (by omega) with hs | ⟨t, c, ht, hc, -⟩
      · omega
      · exact .inr ⟨t, c, ht, hc⟩
  · rintro (hfull | ⟨t, c, ht, hc⟩)
    · rw [hfull, cellAt_add_capacity h.pow]
      rcases h.sequence_claimed le_rfl (by omega) with hs | hs <;> omega
    · rw [← hc, cellAt_add_capacity h.pow, (h.consumer_spec ht).2.2]
      omega

/-- `empty()` holds exactly when no position is claimed, or the enqueue of `dequeue_pos_` has
    not published its item. -/
theorem Inv.empty_iff (h : Inv s) :
    s.queue.empty = true ↔
      s.queue.dequeuePos = s.queue.enqueuePos ∨
        ∃ t, (s.pc t).producer = some s.queue.dequeuePos := by
  have htwo := h.two
  have hle := h.le
  unfold empty dif
  rw [decide_eq_true_iff]
  constructor
  · intro hlt
    by_cases hemp : s.queue.dequeuePos = s.queue.enqueuePos
    · exact .inl hemp
    · refine .inr ?_
      by_contra hno
      simp only [not_exists] at hno
      rw [h.queued _ le_rfl (by omega) hno] at hlt
      dsimp only at hlt
      omega
  · rintro (hemp | ⟨t, ht⟩)
    · rcases h.sequence_free (p := s.queue.dequeuePos) (by omega) (by omega) with
        hs | ⟨t, c, ht, hc, hs⟩
      · omega
      · have := (h.consumer_spec ht).1
        omega
    · rw [(h.producer_spec ht).2.2]
      omega

/-- The `sequence` check of `try_enqueue` fails exactly when its position is still
    `enqueue_pos_` and `is_full()` holds: a position loaded earlier is at most its cell's
    `sequence`. -/
theorem Inv.enqueue_false_iff (h : Inv s) {t : Th} {data : T} {pos : ℕ}
    (hpc : s.pc t = .enqSeq data pos) :
    dif (s.queue.cellAt pos).sequence pos < 0 ↔
      pos = s.queue.enqueuePos ∧ s.queue.isFull = true := by
  have hpos : pos ≤ s.queue.enqueuePos := by
    have hok := h.phase t
    rw [hpc] at hok
    exact hok
  constructor
  · intro hlt
    have hE : pos = s.queue.enqueuePos := by
      by_contra hne
      have := h.le_sequence (p := pos) (by omega)
      unfold dif at hlt
      omega
    refine ⟨hE, ?_⟩
    unfold isFull
    rw [← hE]
    exact decide_eq_true hlt
  · rintro ⟨hE, hfull⟩
    unfold isFull at hfull
    rw [← hE] at hfull
    exact of_decide_eq_true hfull

/-- The `sequence` check of `try_dequeue` fails exactly when its position is still
    `dequeue_pos_` and `empty()` holds: a position loaded earlier is behind its cell. -/
theorem Inv.dequeue_false_iff (h : Inv s) {t : Th} {pos : ℕ} (hpc : s.pc t = .deqSeq pos) :
    dif (s.queue.cellAt pos).sequence (pos + 1) < 0 ↔
      pos = s.queue.dequeuePos ∧ s.queue.empty = true := by
  have hpos : pos ≤ s.queue.dequeuePos := by
    have hok := h.phase t
    rw [hpc] at hok
    exact hok
  constructor
  · intro hlt
    have hD : pos = s.queue.dequeuePos := by
      by_contra hne
      have := h.succ_le_sequence pos (by omega)
      unfold dif at hlt
      omega
    refine ⟨hD, ?_⟩
    unfold empty
    rw [← hD]
    exact decide_eq_true hlt
  · rintro ⟨hD, hemp⟩
    unfold empty at hemp
    rw [← hD] at hemp
    exact of_decide_eq_true hemp

theorem Inv.length_contents (h : Inv s) :
    s.contents.length = s.queue.enqueuePos - s.queue.dequeuePos := by
  rw [State.contents, List.length_drop, h.length]

/-- With no call in flight, every claimed position's cell holds its item. -/
theorem Inv.quiescent_queued (h : Inv s) (hq : s.Quiescent) {p : ℕ}
    (hD : s.queue.dequeuePos ≤ p) (hE : p < s.queue.enqueuePos) :
    s.queue.cellAt p = ⟨p + 1, s.enqueued[p]?⟩ :=
  h.queued p hD hE fun t ht => by rw [hq t] at ht; cases ht

/-- With no call in flight, every free position's cell is free for it. -/
theorem Inv.quiescent_free (h : Inv s) (hq : s.Quiescent) {p : ℕ}
    (hE : s.queue.enqueuePos ≤ p) (hD : p < s.queue.dequeuePos + s.queue.capacity) :
    s.queue.cellAt p = ⟨p, none⟩ :=
  h.free p hE hD fun t c ht => by rw [hq t] at ht; cases ht

/-- The destructor's loop from a claimed position destroys the items from there on, and
    returns at `enqueue_pos_`. By induction on the positions left to `enqueue_pos_`. -/
theorem Inv.destroyLoop_eq (h : Inv s) (hq : s.Quiescent) :
    ∀ k pos fuel, pos + k = s.queue.enqueuePos → s.queue.dequeuePos ≤ pos → k < fuel →
      s.queue.destroyLoop fuel pos = some (s.enqueued.drop pos) := by
  have htwo := h.two
  have hcap := h.le_cap
  intro k
  induction k with
  | zero =>
    intro pos fuel hk hD hf
    obtain ⟨fuel, rfl⟩ : ∃ f, fuel = f + 1 := ⟨fuel - 1, by omega⟩
    -- at `enqueue_pos_` the cell is free, or a lap on from the one of `dequeue_pos_`
    have hstop : dif (s.queue.cellAt pos).sequence (pos + 1) < 0 := by
      unfold dif
      by_cases hfull : pos < s.queue.dequeuePos + s.queue.capacity
      · rw [h.quiescent_free hq (by omega) hfull]
        dsimp only
        omega
      · have hp : pos = s.queue.dequeuePos + s.queue.capacity := by omega
        rw [hp, cellAt_add_capacity h.pow, h.quiescent_queued hq le_rfl (by omega)]
        dsimp only
        omega
    rw [destroyLoop, if_pos hstop, List.drop_eq_nil_of_le (by rw [h.length]; omega)]
  | succ k ih =>
    intro pos fuel hk hD hf
    obtain ⟨fuel, rfl⟩ : ∃ f, fuel = f + 1 := ⟨fuel - 1, by omega⟩
    have hlt : pos < s.enqueued.length := by rw [h.length]; omega
    have hcell := h.quiescent_queued hq hD (p := pos) (by omega)
    have hgo : ¬ dif (s.queue.cellAt pos).sequence (pos + 1) < 0 := by
      rw [hcell]
      unfold dif
      dsimp only
      omega
    rw [destroyLoop, if_neg hgo, hcell, List.getElem?_eq_getElem hlt]
    dsimp only
    rw [ih (pos + 1) fuel (by omega) (by omega) (by omega), Option.map_some,
      List.drop_eq_getElem_cons hlt]

/-! ### How large the positions get -/

/-- A loaded position is at most `enqueue_pos_`: an enqueue loaded it from there, a dequeue
    from `dequeue_pos_`, which stays behind. -/
theorem Inv.position_le (h : Inv s) {t : Th} {pos : ℕ} (hp : (s.pc t).position = some pos) :
    pos ≤ s.queue.enqueuePos := by
  have hok := h.phase t
  have hle := h.le
  cases hpc : s.pc t <;> rw [hpc] at hp hok <;>
    simp only [Pc.position, Option.some.injEq, reduceCtorEq] at hp <;> subst hp <;>
    simp only [PhaseOk] at hok <;> omega

/-- **No cell's `sequence` passes a lap beyond `dequeue_pos_`.** By induction on the laps to
    the window `[dequeue_pos_, dequeue_pos_ + buffer_size)`: a position outside it shares its
    cell with one a lap nearer. -/
theorem Inv.sequence_le (h : Inv s) (p : ℕ) :
    (s.queue.cellAt p).sequence ≤ s.queue.dequeuePos + s.queue.capacity := by
  have htwo := h.two
  have hle := h.le
  have hcap := h.le_cap
  by_cases hlow : p < s.queue.dequeuePos
  · rw [← cellAt_add_capacity h.pow p]
    exact h.sequence_le (p + s.queue.capacity)
  · by_cases hhigh : s.queue.dequeuePos + s.queue.capacity ≤ p
    · obtain ⟨p', rfl⟩ : ∃ p', p = p' + s.queue.capacity := ⟨p - s.queue.capacity, by omega⟩
      rw [cellAt_add_capacity h.pow p']
      exact h.sequence_le p'
    · -- inside the window the cell is free for its position or holds its item
      by_cases hE : p < s.queue.enqueuePos
      · rcases h.sequence_claimed (by omega) hE with hs | hs <;> omega
      · rcases h.sequence_free (p := p) (by omega) (by omega) with hs | ⟨t, c, hc, -, hs⟩
        · omega
        · have := (h.consumer_spec hc).1
          omega
termination_by (s.queue.dequeuePos - p) + (p + 1 - (s.queue.dequeuePos + s.queue.capacity))
decreasing_by all_goals omega

end Inv

section Runs

variable [DecidableEq Th] {n : ℕ} {q : MpmcBoundedQueue T} {s : State Th T}

/-- **No two threads hold one cell**, over every interleaving: the storage a call writes or
    moves without synchronisation is its own. -/
theorem reachable_cell_exclusive (hq : create n = some q)
    (hr : Trans.Reachable State.step (start q) s) {t t' : Th} {p p' : ℕ} (ht : t ≠ t')
    (hp : (s.pc t).Holds p) (hp' : (s.pc t').Holds p') :
    p &&& s.queue.bufferMask ≠ p' &&& s.queue.bufferMask := by
  have h := Inv.reachable hq hr
  obtain ⟨hne, h₁, h₂⟩ := h.holds_window ht hp hp'
  exact cellIndex_ne h.pow hne h₁ h₂

/-- Two enqueues in flight on a ring of two cells hold one cell each. -/
theorem reachable_cell_exclusive_two_enqueues :
    ∃ q : MpmcBoundedQueue ℕ, create 2 = some q ∧ ∃ s : State (Fin 2) ℕ,
      Trans.Reachable State.step (start q) s ∧ (s.pc 0).Holds 0 ∧ (s.pc 1).Holds 1 ∧
        0 &&& s.queue.bufferMask ≠ 1 &&& s.queue.bufferMask := by
  refine ⟨⟨fun i => ⟨i, none⟩, 1, 0, 0⟩, rfl, ?_⟩
  obtain ⟨s, hr, hp⟩ : ∃ s, Trans.Reachable State.step (start ⟨fun i => ⟨i, none⟩, 1, 0, 0⟩) s ∧
      (s.pc 0 == .enqWrite 7 0 && s.pc 1 == .enqWrite 8 1) = true :=
    Trans.exists_reachable_of_run
      [.tryEnqueue 0 7, .step 0, .step 0, .step 0, .tryEnqueue 1 8, .step 1, .step 1, .step 1]
      (fun s : State (Fin 2) ℕ => s.pc 0 == .enqWrite 7 0 && s.pc 1 == .enqWrite 8 1) (by decide)
  simp only [Bool.and_eq_true, beq_iff_eq] at hp
  have h0 : (s.pc 0).Holds 0 := .inl (by rw [hp.1]; rfl)
  have h1 : (s.pc 1).Holds 1 := .inl (by rw [hp.2]; rfl)
  exact ⟨s, hr, h0, h1, reachable_cell_exclusive (n := 2) rfl hr (by decide) h0 h1⟩

/-- **No item is lost or taken twice**, over every interleaving. Each item a dequeue has
    moved out of a cell is the item the enqueue of its position put there; no position has
    been moved out twice; and every position below `dequeue_pos_` has been moved out, or is
    being moved out by the dequeue that claimed it. -/
theorem reachable_moved (hq : create n = some q) (hr : Trans.Reachable State.step (start q) s) :
    (∀ p data, (p, data) ∈ s.moved → s.enqueued[p]? = some data) ∧
      (s.moved.map Prod.fst).Nodup ∧
      ∀ p < s.queue.dequeuePos, p ∈ s.moved.map Prod.fst ∨ ∃ t, s.pc t = .deqRead p := by
  have h := Inv.reachable hq hr
  refine ⟨h.moved, h.movedNodup, fun p hp => ?_⟩
  by_cases hr : ∃ t, s.pc t = .deqRead p
  · exact .inr hr
  · simp only [not_exists] at hr
    exact .inl ((h.movedPos p).mpr ⟨hp, hr⟩)

/-- After an enqueue of `7` and a dequeue, the item moved out is `7`, from position `0`. -/
theorem reachable_moved_one :
    ∃ q : MpmcBoundedQueue ℕ, create 2 = some q ∧ ∃ s : State (Fin 2) ℕ,
      Trans.Reachable State.step (start q) s ∧ s.moved = [(0, 7)] ∧
        (∀ p data, (p, data) ∈ s.moved → s.enqueued[p]? = some data) ∧
        (s.moved.map Prod.fst).Nodup ∧
        ∀ p < s.queue.dequeuePos, p ∈ s.moved.map Prod.fst ∨ ∃ t, s.pc t = .deqRead p := by
  refine ⟨⟨fun i => ⟨i, none⟩, 1, 0, 0⟩, rfl, ?_⟩
  obtain ⟨s, hr, hp⟩ : ∃ s, Trans.Reachable State.step (start ⟨fun i => ⟨i, none⟩, 1, 0, 0⟩) s ∧
      (s.moved == [(0, 7)]) = true :=
    Trans.exists_reachable_of_run
      [.tryEnqueue 0 7, .step 0, .step 0, .step 0, .step 0, .step 0,
        .tryDequeue 1, .step 1, .step 1, .step 1, .step 1, .step 1]
      (fun s : State (Fin 2) ℕ => s.moved == [(0, 7)]) (by decide)
  exact ⟨s, hr, beq_iff_eq.mp hp, reachable_moved (n := 2) rfl hr⟩

/-- **When `try_enqueue` returns `false`**, over every interleaving: its `sequence` check
    fails exactly when the position it loaded is still `enqueue_pos_` and either the ring
    holds `buffer_size` claimed positions or the dequeue a lap back still holds the cell. -/
theorem reachable_enqueue_false (hq : create n = some q)
    (hr : Trans.Reachable State.step (start q) s) {t : Th} {data : T} {pos : ℕ}
    (hpc : s.pc t = .enqSeq data pos) :
    dif (s.queue.cellAt pos).sequence pos < 0 ↔
      pos = s.queue.enqueuePos ∧
        (s.queue.enqueuePos = s.queue.dequeuePos + s.queue.capacity ∨
          ∃ t' c, (s.pc t').consumer = some c ∧ c + s.queue.capacity = s.queue.enqueuePos) := by
  have h := Inv.reachable hq hr
  rw [h.enqueue_false_iff hpc, h.isFull_iff]

/-- **A `false` with room in the ring.** Two items fill a ring of two cells; a dequeue claims the
    first and has not freed its cell; an enqueue then finds the cell of `enqueue_pos_` a lap
    behind and returns `false`, though a position is free. -/
theorem reachable_enqueue_false_with_room :
    ∃ q : MpmcBoundedQueue ℕ, create 2 = some q ∧ ∃ s : State (Fin 3) ℕ,
      Trans.Reachable State.step (start q) s ∧ s.pc 2 = .enqSeq 9 2 ∧
        dif (s.queue.cellAt 2).sequence 2 < 0 ∧
        s.queue.enqueuePos < s.queue.dequeuePos + s.queue.capacity ∧
        2 = s.queue.enqueuePos ∧
        (s.queue.enqueuePos = s.queue.dequeuePos + s.queue.capacity ∨
          ∃ t' c, (s.pc t').consumer = some c ∧ c + s.queue.capacity = s.queue.enqueuePos) := by
  refine ⟨⟨fun i => ⟨i, none⟩, 1, 0, 0⟩, rfl, ?_⟩
  obtain ⟨s, hr, hp⟩ : ∃ s, Trans.Reachable State.step (start ⟨fun i => ⟨i, none⟩, 1, 0, 0⟩) s ∧
      (s.pc 2 == .enqSeq 9 2 && decide (dif (s.queue.cellAt 2).sequence 2 < 0) &&
        decide (s.queue.enqueuePos < s.queue.dequeuePos + s.queue.capacity)) = true :=
    Trans.exists_reachable_of_run
      [.tryEnqueue 0 7, .step 0, .step 0, .step 0, .step 0, .step 0,
        .tryEnqueue 0 8, .step 0, .step 0, .step 0, .step 0, .step 0,
        .tryDequeue 1, .step 1, .step 1, .step 1,
        .tryEnqueue 2 9, .step 2]
      (fun s : State (Fin 3) ℕ => s.pc 2 == .enqSeq 9 2 &&
        decide (dif (s.queue.cellAt 2).sequence 2 < 0) &&
        decide (s.queue.enqueuePos < s.queue.dequeuePos + s.queue.capacity)) (by decide)
  simp only [Bool.and_eq_true, beq_iff_eq, decide_eq_true_eq] at hp
  obtain ⟨⟨hpc, hlt⟩, hroom⟩ := hp
  exact ⟨s, hr, hpc, hlt, hroom, (reachable_enqueue_false (n := 2) rfl hr hpc).mp hlt⟩

/-- **When `try_dequeue` returns `false`**, over every interleaving: its `sequence` check
    fails exactly when the position it loaded is still `dequeue_pos_` and either no position
    is claimed or the enqueue of that position has not published. -/
theorem reachable_dequeue_false (hq : create n = some q)
    (hr : Trans.Reachable State.step (start q) s) {t : Th} {pos : ℕ}
    (hpc : s.pc t = .deqSeq pos) :
    dif (s.queue.cellAt pos).sequence (pos + 1) < 0 ↔
      pos = s.queue.dequeuePos ∧
        (s.queue.dequeuePos = s.queue.enqueuePos ∨
          ∃ t', (s.pc t').producer = some s.queue.dequeuePos) := by
  have h := Inv.reachable hq hr
  rw [h.dequeue_false_iff hpc, h.empty_iff]

/-- **A `false` with an item claimed.** An enqueue has claimed position `0` and not yet
    published; a dequeue then finds the cell free and returns `false`, though
    `enqueue_pos_` is ahead of `dequeue_pos_`. -/
theorem reachable_dequeue_false_with_claim :
    ∃ q : MpmcBoundedQueue ℕ, create 2 = some q ∧ ∃ s : State (Fin 2) ℕ,
      Trans.Reachable State.step (start q) s ∧ s.pc 1 = .deqSeq 0 ∧
        dif (s.queue.cellAt 0).sequence (0 + 1) < 0 ∧
        s.queue.dequeuePos < s.queue.enqueuePos ∧
        0 = s.queue.dequeuePos ∧
        (s.queue.dequeuePos = s.queue.enqueuePos ∨
          ∃ t', (s.pc t').producer = some s.queue.dequeuePos) := by
  refine ⟨⟨fun i => ⟨i, none⟩, 1, 0, 0⟩, rfl, ?_⟩
  obtain ⟨s, hr, hp⟩ : ∃ s, Trans.Reachable State.step (start ⟨fun i => ⟨i, none⟩, 1, 0, 0⟩) s ∧
      (s.pc 1 == .deqSeq 0 && decide (dif (s.queue.cellAt 0).sequence (0 + 1) < 0) &&
        decide (s.queue.dequeuePos < s.queue.enqueuePos)) = true :=
    Trans.exists_reachable_of_run
      [.tryEnqueue 0 7, .step 0, .step 0, .step 0, .tryDequeue 1, .step 1]
      (fun s : State (Fin 2) ℕ => s.pc 1 == .deqSeq 0 &&
        decide (dif (s.queue.cellAt 0).sequence (0 + 1) < 0) &&
        decide (s.queue.dequeuePos < s.queue.enqueuePos)) (by decide)
  simp only [Bool.and_eq_true, beq_iff_eq, decide_eq_true_eq] at hp
  obtain ⟨⟨hpc, hlt⟩, hclaim⟩ := hp
  exact ⟨s, hr, hpc, hlt, hclaim, (reachable_dequeue_false (n := 2) rfl hr hpc).mp hlt⟩

/-- **The destructor**, with no call in flight: `~mpmc_bounded_queue()` destroys exactly the
    items still queued, in order, and its loop returns within `buffer_size + 1` turns. -/
theorem reachable_destroy (hq : create n = some q) (hr : Trans.Reachable State.step (start q) s)
    (hquiet : s.Quiescent) (fuel : ℕ) (hfuel : s.queue.capacity < fuel) :
    s.queue.destroy fuel = some s.contents := by
  have h := Inv.reachable hq hr
  have hcap := h.le_cap
  have hle := h.le
  exact h.destroyLoop_eq hquiet (s.queue.enqueuePos - s.queue.dequeuePos) s.queue.dequeuePos fuel
    (by omega) le_rfl (by omega)

/-- After two enqueues that ran alone, the destructor destroys the two items. -/
theorem reachable_destroy_two :
    ∃ q : MpmcBoundedQueue ℕ, create 2 = some q ∧ ∃ s : State (Fin 2) ℕ,
      Trans.Reachable State.step (start q) s ∧ s.Quiescent ∧ s.contents = [7, 8] ∧
        s.queue.destroy 3 = some s.contents := by
  refine ⟨⟨fun i => ⟨i, none⟩, 1, 0, 0⟩, rfl, ?_⟩
  obtain ⟨s, hr, hp⟩ : ∃ s, Trans.Reachable State.step (start ⟨fun i => ⟨i, none⟩, 1, 0, 0⟩) s ∧
      (decide (∀ t : Fin 2, s.pc t = .idle) && s.contents == [7, 8] &&
        decide (s.queue.capacity < 3)) = true :=
    Trans.exists_reachable_of_run
      [.tryEnqueue 0 7, .step 0, .step 0, .step 0, .step 0, .step 0,
        .tryEnqueue 1 8, .step 1, .step 1, .step 1, .step 1, .step 1]
      (fun s : State (Fin 2) ℕ => decide (∀ t : Fin 2, s.pc t = .idle) &&
        s.contents == [7, 8] && decide (s.queue.capacity < 3))
      (by decide)
  simp only [Bool.and_eq_true, beq_iff_eq, decide_eq_true_eq] at hp
  obtain ⟨⟨hquiet, hl⟩, hcap⟩ := hp
  exact ⟨s, hr, hquiet, hl, reachable_destroy (n := 2) rfl hr hquiet 3 hcap⟩

/-- **Below `2 ^ 63` the model computes what the code computes.** In every reachable state
    with fewer than `2 ^ 63 - capacity()` items enqueued, every cell's `sequence` and every
    value a thread stores into one (`pos + 1`, `pos + buffer_mask_ + 1`) fits below `2 ^ 63`;
    so `size_t` holds them exactly, and each difference that a thread or `is_full()` and
    `empty()` take in `intptr_t` is `dif`. -/
theorem reachable_positions_exact (hq : create n = some q)
    (hr : Trans.Reachable State.step (start q) s)
    (hn : s.enqueued.length + s.queue.capacity < 2 ^ 63) :
    (∀ p, (s.queue.cellAt p).sequence < 2 ^ 63) ∧
    (∀ t pos p, (s.pc t).position = some pos → pos + s.queue.bufferMask + 1 < 2 ^ 63 ∧
      intptr (s.queue.cellAt p).sequence - intptr pos = dif (s.queue.cellAt p).sequence pos ∧
      intptr (s.queue.cellAt p).sequence - intptr (pos + 1) =
        dif (s.queue.cellAt p).sequence (pos + 1)) ∧
    intptr (s.queue.cellAt s.queue.enqueuePos).sequence - intptr s.queue.enqueuePos =
      dif (s.queue.cellAt s.queue.enqueuePos).sequence s.queue.enqueuePos ∧
    intptr (s.queue.cellAt s.queue.dequeuePos).sequence - intptr (s.queue.dequeuePos + 1) =
      dif (s.queue.cellAt s.queue.dequeuePos).sequence (s.queue.dequeuePos + 1) := by
  have h := Inv.reachable hq hr
  -- `enqueue_pos_` counts the items enqueued
  have hE : s.queue.enqueuePos + s.queue.capacity < 2 ^ 63 := by rw [← h.length]; exact hn
  have hle := h.le
  have htwo := h.two
  have hseq : ∀ p, (s.queue.cellAt p).sequence < 2 ^ 63 := fun p => by
    have := h.sequence_le p
    omega
  refine ⟨hseq, fun t pos p hp => ?_, intptr_sub_intptr (hseq _) (by omega),
    intptr_sub_intptr (hseq _) (by omega)⟩
  have hpos := h.position_le hp
  have hmask : s.queue.bufferMask + 1 = s.queue.capacity := rfl
  exact ⟨by omega, intptr_sub_intptr (hseq p) (by omega), intptr_sub_intptr (hseq p) (by omega)⟩

/-- Two items enqueued in a ring of two cells, and a dequeue about to free the cell of
    position `0` by storing `0 + buffer_mask_ + 1`: every value is the code's. -/
theorem reachable_positions_exact_freeing :
    ∃ q : MpmcBoundedQueue ℕ, create 2 = some q ∧ ∃ s : State (Fin 2) ℕ,
      Trans.Reachable State.step (start q) s ∧ s.pc 1 = .deqFree 0 7 ∧ s.enqueued = [7, 8] ∧
      (∀ p, (s.queue.cellAt p).sequence < 2 ^ 63) ∧
      (∀ t pos p, (s.pc t).position = some pos → pos + s.queue.bufferMask + 1 < 2 ^ 63 ∧
        intptr (s.queue.cellAt p).sequence - intptr pos = dif (s.queue.cellAt p).sequence pos ∧
        intptr (s.queue.cellAt p).sequence - intptr (pos + 1) =
          dif (s.queue.cellAt p).sequence (pos + 1)) ∧
      intptr (s.queue.cellAt s.queue.enqueuePos).sequence - intptr s.queue.enqueuePos =
        dif (s.queue.cellAt s.queue.enqueuePos).sequence s.queue.enqueuePos ∧
      intptr (s.queue.cellAt s.queue.dequeuePos).sequence - intptr (s.queue.dequeuePos + 1) =
        dif (s.queue.cellAt s.queue.dequeuePos).sequence (s.queue.dequeuePos + 1) := by
  refine ⟨⟨fun i => ⟨i, none⟩, 1, 0, 0⟩, rfl, ?_⟩
  obtain ⟨s, hr, hp⟩ : ∃ s, Trans.Reachable State.step (start ⟨fun i => ⟨i, none⟩, 1, 0, 0⟩) s ∧
      (s.pc 1 == .deqFree 0 7 && s.enqueued == [7, 8] && s.queue.capacity == 2) = true :=
    Trans.exists_reachable_of_run
      [.tryEnqueue 0 7, .step 0, .step 0, .step 0, .step 0, .step 0,
        .tryEnqueue 0 8, .step 0, .step 0, .step 0, .step 0, .step 0,
        .tryDequeue 1, .step 1, .step 1, .step 1, .step 1]
      (fun s : State (Fin 2) ℕ => s.pc 1 == .deqFree 0 7 && s.enqueued == [7, 8] &&
        s.queue.capacity == 2) (by decide)
  simp only [Bool.and_eq_true, beq_iff_eq] at hp
  obtain ⟨⟨hpc, hl⟩, hcap⟩ := hp
  exact ⟨s, hr, hpc, hl,
    reachable_positions_exact (n := 2) rfl hr (by rw [hl, hcap]; decide)⟩

end Runs

end MpmcBoundedQueue

end Helio
