import Helio.Lib.Trans

/-!
# `Barrier`: generations and cancellation

`fb2::Barrier` (`util/fibers/synchronization.cc`) and `fibers_ext::Barrier`
(`util/fibers/fibers_ext.cc`) are one piece of code over two mutex and condition-variable
types. A barrier for `n` fibers counts `current_` down under its mutex. The Wait that
takes it to zero starts the next generation (`++cycle_`, `current_ = initial_`), notifies
everyone and returns true. Every other Wait blocks in `cond_.wait` until the generation
it read has passed (`cycle != cycle_`) or the barrier is cancelled (`cycle_ == max`), and
then returns false. `Cancel()` stores that sentinel in `cycle_`.

Each locked block is one step: the body of `Wait` up to `cond_.wait` (which tests its
predicate once before it blocks), the return from `cond_.wait` once the predicate holds,
and `Cancel`. `notify_all` only makes blocked fibers runnable, so the model lets a blocked
fiber return whenever its predicate holds. Ghost fields count the completed generations
(`gen`) and, per generation, the Waits that entered it and those of them that returned
true.

* `generations_invariant`: without Cancel, and before `2 ^ 64 - 1` generations have
  completed, a Wait returns only in a generation that `n` Waits have entered, and exactly
  one Wait of each completed generation has returned true.
* `cancel_undone_by_generation`: the sentinel is an ordinary `size_t` value. A generation
  that completes after Cancel increments it from `max` to `0`, and the cancellation is
  gone, for the Waits blocked before the Cancel and for those that come after.
-/

set_option autoImplicit false

namespace Helio
namespace Barrier

/-- `std::numeric_limits<std::size_t>::max()`, the value `Cancel` stores in `cycle_`. -/
def kMax : ℕ := 2 ^ 64 - 1

/-- How the locked block of `Wait` ends: `Wait` returns `r`, or it blocks in
    `cond_.wait` on the cycle it read. -/
inductive Outcome where
  | ret (r : Bool)
  | block (cycle : ℕ)
  deriving DecidableEq, Repr

/-- The barrier's `size_t` fields. `current_` stays in `[1, initial_]`: the decrement that
    would leave it at `0` resets it in the same locked block. -/
structure Counters where
  initial : ℕ
  current : ℕ
  cycle : ℕ
  current_pos : 0 < current
  current_le : current ≤ initial
  cycle_lt : cycle < 2 ^ 64

namespace Counters

/-- `Barrier(initial)`: `DCHECK_NE(0u, initial)`, `current_{initial_}`, `cycle_{0}`. -/
def create (n : ℕ) (hn : 0 < n) : Counters := ⟨n, n, 0, hn, le_refl n, Nat.two_pow_pos 64⟩

/-- The predicate of `cond_.wait` for a fiber that read `cycle`. -/
def ready (b : Counters) (cycle : ℕ) : Bool :=
  cycle != b.cycle || b.cycle == kMax

/-- The locked block of `Barrier::Wait`. `0 == --current_` starts the next generation
    and returns true; otherwise `cond_.wait` tests its predicate before blocking. -/
def wait (b : Counters) : Counters × Outcome :=
  if h : b.current - 1 = 0 then
    (⟨b.initial, b.initial, (b.cycle + 1) % 2 ^ 64, Nat.lt_of_lt_of_le b.current_pos b.current_le,
      le_refl _, Nat.mod_lt _ (Nat.two_pow_pos 64)⟩, .ret true)
  else
    let b' : Counters := ⟨b.initial, b.current - 1, b.cycle, by omega,
      by have := b.current_le; omega, b.cycle_lt⟩
    (b', if b'.ready b.cycle then .ret false else .block b.cycle)

/-- `Barrier::Cancel`: `cycle_ = numeric_limits<size_t>::max()`. -/
def cancel (b : Counters) : Counters :=
  ⟨b.initial, b.current, kMax, b.current_pos, b.current_le, by unfold kMax; omega⟩

@[simp] theorem wait_initial (b : Counters) : b.wait.1.initial = b.initial := by
  unfold wait; split <;> rfl

/-- The last Wait of a generation. -/
theorem wait_of_last {b : Counters} (h : b.current = 1) :
    b.wait.1.current = b.initial ∧ b.wait.1.cycle = (b.cycle + 1) % 2 ^ 64 ∧
      b.wait.2 = .ret true := by
  unfold wait
  rw [dif_pos (by omega)]
  exact ⟨rfl, rfl, rfl⟩

/-- Any other Wait: it returns at once only if the barrier is cancelled. -/
theorem wait_of_not_last {b : Counters} (h : b.current ≠ 1) :
    b.wait.1.current = b.current - 1 ∧ b.wait.1.cycle = b.cycle ∧
      b.wait.2 = if b.cycle = kMax then .ret false else .block b.cycle := by
  have hpos := b.current_pos
  unfold wait
  rw [dif_neg (by omega)]
  refine ⟨rfl, rfl, ?_⟩
  by_cases hk : b.cycle = kMax <;> simp [ready, hk]

end Counters

/-- Where a fiber is. -/
inductive Pc where
  /-- outside `Wait` -/
  | idle
  /-- in `cond_.wait`, having read `cycle` -/
  | blocked (cycle : ℕ)
  /-- `Wait` returned `r`, having read `cycle` -/
  | done (r : Bool) (cycle : ℕ)
  deriving DecidableEq, Repr

/-- The fiber after the locked block of `Wait`, which read `cycle`. -/
def Outcome.toPc (cycle : ℕ) : Outcome → Pc
  | .ret r => .done r cycle
  | .block c => .blocked c

/-- The barrier and every fiber. Ghost fields: `gen` generations have completed,
    `entered g` Waits entered generation `g` and `winners g` of them returned true, and
    `cancelled` records that `Cancel` has run. -/
structure State (ι : Type) where
  counters : Counters
  pc : ι → Pc
  gen : ℕ
  entered : ℕ → ℕ
  winners : ℕ → ℕ
  cancelled : Bool

/-- Who moves: a fiber runs the locked block of `Wait`, a blocked fiber returns from
    `cond_.wait`, or some fiber calls `Cancel`. -/
inductive Label (ι : Type) where
  | wait (i : ι)
  | wake (i : ι)
  | cancel
  deriving DecidableEq, Repr

variable {ι : Type} [DecidableEq ι]

namespace State

/-- Fiber `i` runs the locked block of `Wait`. -/
@[simps] def enter (s : State ι) (i : ι) : State ι where
  counters := s.counters.wait.1
  pc := Function.update s.pc i (s.counters.wait.2.toPc s.counters.cycle)
  gen := if s.counters.wait.2 = .ret true then s.gen + 1 else s.gen
  entered := Function.update s.entered s.gen (s.entered s.gen + 1)
  winners := if s.counters.wait.2 = .ret true then
    Function.update s.winners s.gen (s.winners s.gen + 1) else s.winners
  cancelled := s.cancelled

/-- `cond_.wait` returns in fiber `i`, which had read `c`: `Wait` returns false. -/
@[simps] def wake (s : State ι) (i : ι) (c : ℕ) : State ι :=
  { s with pc := Function.update s.pc i (.done false c) }

/-- `Cancel()`. -/
@[simps] def cancel (s : State ι) : State ι :=
  { s with counters := s.counters.cancel, cancelled := true }

end State

/-- One locked block. -/
def step (s : State ι) : Label ι → Option (State ι)
  | .wait i =>
    match s.pc i with
    | .blocked _ => none
    | _ => some (s.enter i)
  | .wake i =>
    match s.pc i with
    | .blocked c => if s.counters.ready c then some (s.wake i c) else none
    | _ => none
  | .cancel => some s.cancel

/-- `Barrier(n)` with every fiber outside `Wait`. -/
def init (n : ℕ) (hn : 0 < n) : State ι :=
  ⟨Counters.create n hn, fun _ => .idle, 0, fun _ => 0, fun _ => 0, false⟩

/-- **What a step can do.** -/
theorem step_cases {s s' : State ι} {l : Label ι} (h : step s l = some s') :
    (∃ i, (∀ c, s.pc i ≠ .blocked c) ∧ s' = s.enter i) ∨
    (∃ i c, s.pc i = .blocked c ∧ s.counters.ready c = true ∧ s' = s.wake i c) ∨
    s' = s.cancel := by
  cases l with
  | wait i =>
    left
    refine ⟨i, fun c hc => ?_, ?_⟩
    · simp [step, hc] at h
    · simp only [step] at h
      split at h
      · cases h
      · exact (Option.some.inj h).symm
  | wake i =>
    right; left
    simp only [step] at h
    split at h
    · rename_i c hc
      split at h
      · exact ⟨i, c, hc, ‹_›, (Option.some.inj h).symm⟩
      · cases h
    · cases h
  | cancel =>
    right; right
    exact (Option.some.inj h).symm

/-! ## Generations without Cancel -/

/-- The state of the generations while no Cancel has run: `cycle_` is the number of
    completed generations, each of them was entered `initial_` times and won once, the
    current one has been entered `initial_ - current_` times and not won, later ones are
    untouched, and a fiber that returned from `Wait` did so in a completed generation. -/
structure Gen (s : State ι) : Prop where
  cycle_eq : s.counters.cycle = s.gen
  finished : ∀ g, g < s.gen → s.entered g = s.counters.initial ∧ s.winners g = 1
  current : s.entered s.gen + s.counters.current = s.counters.initial
  unwon : s.winners s.gen = 0
  fresh : ∀ g, s.gen < g → s.entered g = 0 ∧ s.winners g = 0
  blocked_le : ∀ i c, s.pc i = .blocked c → c ≤ s.gen
  done_lt : ∀ i r c, s.pc i = .done r c → c < s.gen

omit [DecidableEq ι] in
theorem Gen.of_init (n : ℕ) (hn : 0 < n) : Gen (init (ι := ι) n hn) where
  cycle_eq := rfl
  finished := fun g hg => absurd hg (Nat.not_lt_zero g)
  current := by simp [init, Counters.create]
  unwon := rfl
  fresh := fun _ _ => ⟨rfl, rfl⟩
  blocked_le := fun i c h => by simp [init] at h
  done_lt := fun i r c h => by simp [init] at h

/-- The last Wait of a generation wins it and opens the next one, which nobody has
    entered. -/
theorem Gen.enter_last {s : State ι} {i : ι} (hg : Gen s) (h1 : s.counters.current = 1)
    (hlt : s.gen + 1 < kMax) : Gen (s.enter i) := by
  obtain ⟨hcur, hcyc, hout⟩ := Counters.wait_of_last h1
  have hmod : (s.gen + 1) % 2 ^ 64 = s.gen + 1 := Nat.mod_eq_of_lt (by unfold kMax at hlt; omega)
  have hcur' := hg.current
  rw [h1] at hcur'
  constructor
  · simp only [State.enter_counters, State.enter_gen, hcyc, hout, if_true, hg.cycle_eq, hmod]
  · intro g hgl
    simp only [State.enter_gen, hout, if_true] at hgl
    simp only [State.enter_entered, State.enter_winners, State.enter_counters, hout, if_true,
      Counters.wait_initial, Function.update_apply]
    by_cases hge : g = s.gen
    · subst hge
      simp [hg.unwon]
      omega
    · simpa [hge] using hg.finished g (by omega)
  · have := (hg.fresh (s.gen + 1) (by omega)).1
    simp [hout, hcur, this]
  · simp [hout, (hg.fresh (s.gen + 1) (by omega)).2]
  · intro g hgl
    simp only [State.enter_gen, hout, if_true] at hgl
    have := hg.fresh g (by omega)
    simp [hout, show g ≠ s.gen by omega, this]
  · intro j c hj
    by_cases hji : j = i
    · subst hji; simp [hout, Outcome.toPc] at hj
    · simp only [State.enter_pc, Function.update_of_ne hji] at hj
      have := hg.blocked_le j c hj
      simp [hout]; omega
  · intro j r c hj
    by_cases hji : j = i
    · subst hji
      simp only [State.enter_pc, Function.update_self, hout, Outcome.toPc, Pc.done.injEq] at hj
      simp [hout, ← hj.2, hg.cycle_eq]
    · simp only [State.enter_pc, Function.update_of_ne hji] at hj
      have := hg.done_lt j r c hj
      simp [hout]; omega

/-- Any other Wait of an uncancelled barrier enters the current generation and blocks
    on it. -/
theorem Gen.enter_not_last {s : State ι} {i : ι} (hg : Gen s) (h1 : s.counters.current ≠ 1)
    (hlt : s.gen < kMax) : Gen (s.enter i) := by
  obtain ⟨hcur, hcyc, hout⟩ := Counters.wait_of_not_last h1
  have hne : s.counters.cycle ≠ kMax := by rw [hg.cycle_eq]; omega
  rw [if_neg hne] at hout
  have hgen : (s.enter i).gen = s.gen := by simp [hout]
  have hpos := s.counters.current_pos
  constructor
  · simp [hcyc, hg.cycle_eq, hout]
  · intro g hgl
    rw [hgen] at hgl
    simpa [hout, Function.update_apply, show g ≠ s.gen by omega] using hg.finished g hgl
  · have := hg.current
    simp [hout, hcur]
    omega
  · simpa [hout] using hg.unwon
  · intro g hgl
    rw [hgen] at hgl
    simpa [hout, Function.update_apply, show g ≠ s.gen by omega] using hg.fresh g hgl
  · intro j c hj
    by_cases hji : j = i
    · subst hji
      simp only [State.enter_pc, Function.update_self, hout, Outcome.toPc, Pc.blocked.injEq] at hj
      simp [hout, ← hj, hg.cycle_eq]
    · simp only [State.enter_pc, Function.update_of_ne hji] at hj
      simpa [hout] using hg.blocked_le j c hj
  · intro j r c hj
    by_cases hji : j = i
    · subst hji; simp [hout, Outcome.toPc] at hj
    · simp only [State.enter_pc, Function.update_of_ne hji] at hj
      simpa [hout] using hg.done_lt j r c hj

/-- A blocked fiber of an uncancelled barrier returns only once the generation it
    read has completed. -/
theorem Gen.wake {s : State ι} {i : ι} {c : ℕ} (hg : Gen s) (hb : s.pc i = .blocked c)
    (hr : s.counters.ready c = true) (hlt : s.gen < kMax) : Gen (s.wake i c) := by
  have hc : c < s.gen := by
    have hle := hg.blocked_le i c hb
    have : c ≠ s.counters.cycle := by
      simpa [Counters.ready, hg.cycle_eq, show s.gen ≠ kMax by omega] using hr
    rw [hg.cycle_eq] at this
    omega
  refine ⟨hg.cycle_eq, hg.finished, hg.current, hg.unwon, hg.fresh, ?_, ?_⟩
  · intro j c' hj
    by_cases hji : j = i
    · subst hji; simp at hj
    · simpa [Function.update_of_ne hji] using hg.blocked_le j c' (by simpa [Function.update_of_ne hji] using hj)
  · intro j r c' hj
    by_cases hji : j = i
    · subst hji
      simp only [State.wake_pc, Function.update_self, Pc.done.injEq] at hj
      simpa [← hj.2] using hc
    · exact hg.done_lt j r c' (by simpa [Function.update_of_ne hji] using hj)

/-- The invariant the steps keep: `Gen`, as long as no Cancel has run and fewer than
    `2 ^ 64 - 1` generations have completed. Both conditions only ever stop holding, so
    they hold all along a run that ends where they hold. -/
def Inv (s : State ι) : Prop := s.cancelled = false → s.gen < kMax → Gen s

theorem inv_step {s s' : State ι} {l : Label ι} (hi : Inv s) (h : step s l = some s') :
    Inv s' := by
  intro hc hlt
  rcases step_cases h with ⟨i, -, rfl⟩ | ⟨i, c, hb, hr, rfl⟩ | rfl
  · have hg := hi hc (by simp only [State.enter_gen] at hlt; split at hlt <;> omega)
    by_cases h1 : s.counters.current = 1
    · have hout := (Counters.wait_of_last h1).2.2
      simp only [State.enter_gen, hout, if_true] at hlt
      exact hg.enter_last h1 hlt
    · exact hg.enter_not_last h1 (by simp only [State.enter_gen] at hlt; split at hlt <;> omega)
  · exact (hi hc hlt).wake hb hr hlt
  · simp at hc

/-- **Barrier generations without Cancel.** In every state reachable from `Barrier(n)`
    in which no Cancel has run and fewer than `2 ^ 64 - 1` generations have completed, a
    fiber's `Wait` has returned only in a generation that `n` Waits entered, and exactly
    one Wait of that generation returned true. -/
theorem generations_invariant (n : ℕ) (hn : 0 < n) {s : State ι}
    (hs : Trans.Reachable step (init n hn) s) (hc : s.cancelled = false) (hlt : s.gen < kMax) :
    ∀ i r c, s.pc i = .done r c → s.entered c = n ∧ s.winners c = 1 := by
  have hg : Gen s :=
    Trans.Reachable.invariant Inv (fun _ _ _ hi h => inv_step hi h) hs
      (fun _ _ => Gen.of_init n hn) hc hlt
  intro i r c hd
  have hfin := hg.finished c (hg.done_lt i r c hd)
  have hinit : s.counters.initial = n :=
    Trans.Reachable.invariant (fun s : State ι => s.counters.initial = n)
      (fun s l s' hi h => by
        rcases step_cases h with ⟨i, -, rfl⟩ | ⟨i, c, -, -, rfl⟩ | rfl
        · simpa using hi
        · exact hi
        · exact hi) hs rfl
  rw [← hinit]
  exact hfin

/-- `Barrier(2)` and three fibers over two generations: fiber 1 completes the first, fiber 0
    (woken from it) completes the second, and fiber 2, blocked in the second, is woken. Each
    `Wait` that returned saw a generation entered twice with one winner. -/
theorem generations_invariant_two_rounds :
    ∃ s : State (Fin 3), Trans.Reachable step (init 2 (by decide)) s ∧ s.gen = 2 ∧
      s.pc 0 = .done true 1 ∧ s.pc 1 = .done true 0 ∧ s.pc 2 = .done false 1 ∧
      ∀ i r c, s.pc i = .done r c → s.entered c = 2 ∧ s.winners c = 1 := by
  obtain ⟨s, hs, hend⟩ := @Trans.exists_reachable_of_run _ _ step (init (ι := Fin 3) 2 (by decide))
    [.wait 0, .wait 1, .wake 0, .wait 2, .wait 0, .wake 2]
    (fun s => !s.cancelled && s.gen == 2 && s.pc 0 == .done true 1 && s.pc 1 == .done true 0 &&
      s.pc 2 == .done false 1) (by decide)
  simp only [Bool.and_eq_true, beq_iff_eq, Bool.not_eq_eq_eq_not, Bool.not_true] at hend
  obtain ⟨⟨⟨⟨hc, hg⟩, h0⟩, h1⟩, h2⟩ := hend
  exact ⟨s, hs, hg, h0, h1, h2,
    generations_invariant 2 (by decide) hs hc (by rw [hg]; decide)⟩

/-! ## Cancel is undone by the next completed generation -/

/-- **The failing input.** `Barrier(2)` and three fibers: fiber 0 enters and blocks,
    fiber 1 calls `Cancel` and then `Wait`, which takes `current_` to zero and moves
    `cycle_` from `max` to `0`, and fiber 2 enters afterwards. Both fiber 0, blocked
    when `Cancel` ran, and fiber 2, which came after it, are blocked on a predicate that is
    false: neither returns. -/
theorem cancel_undone_by_generation :
    ∃ s, Trans.Reachable step (init (ι := Fin 3) 2 (by decide)) s ∧ s.cancelled = true ∧
      s.pc 0 = .blocked 0 ∧ s.pc 2 = .blocked 0 ∧
      s.counters.ready 0 = false := by
  have hp := @Trans.exists_reachable_of_run _ _ step (init (ι := Fin 3) 2 (by decide))
    [.wait 0, .cancel, .wait 1, .wait 2]
    (fun s => s.cancelled && s.pc 0 == .blocked 0 && s.pc 2 == .blocked 0 &&
      !s.counters.ready 0) (by decide)
  obtain ⟨s, hr, hp⟩ := hp
  simp only [Bool.and_eq_true, beq_iff_eq, Bool.not_eq_eq_eq_not, Bool.not_true] at hp
  exact ⟨s, hr, hp.1.1.1, hp.1.1.2, hp.1.2, hp.2⟩

end Barrier
end Helio
