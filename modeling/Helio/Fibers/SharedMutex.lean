import Helio.Lib.Trans
import Helio.Lib.Bytes

/-!
# `fb2::SharedMutex`: readers and a writer on one word

`SharedMutex` (`util/fibers/synchronization.h`) is a readers-writer lock on one
`std::atomic_uint32_t state_`, with `WRITER = 1` and `READER = 4`:

* `try_lock()` is one `compare_exchange_strong` from `0` to `WRITER`;
* `try_lock_shared()` adds `READER`, and when the value it saw had `WRITER` set adds
  `-READER` back and fails;
* `unlock()` clears `WRITER` with `fetch_and`, `unlock_shared()` adds `-READER`;
* `lock()` and `lock_shared()` are `ec_.await` of the two tries: a fiber in them tries
  again until a try succeeds, suspended on `ec_` in between.

Each fiber has a program counter (`Pc`) and each atomic operation on `state_` is one step
of one fiber (`move`). The `EventCount` only decides when a fiber in `lock()` or
`lock_shared()` tries next; here it may try at any step, so every interleaving of the code
is a run of the model.

The word counts the fibers: a writer adds `1`, a reader or a fiber between its `fetch_add`
and its undo adds `4` (`Pc.load`), and

* `word_invariant`: in every reachable state, whatever the number of fibers, `state_` is
  that count modulo `2 ^ 32`, and at most one fiber holds the write lock;
* `shared_mutex_exclusive`: with fewer than `2 ^ 30` fibers the count stays below `2 ^ 32`,
  so `state_` is the count itself, and no fiber holds a read lock while one writes;
* `reader_count_wraps`: `2 ^ 30` readers add `2 ^ 32` to `state_`, which wraps to `0`, and
  one more fiber's `try_lock()` then takes the write lock while they all hold theirs.
-/

set_option autoImplicit false

namespace Helio

namespace SharedMutex

/-- `READER`. -/
def READER : UInt32 := 4

/-- `WRITER`. -/
def WRITER : UInt32 := 1

/-- Where a fiber is. -/
inductive Pc where
  /-- outside the mutex's calls -/
  | idle
  /-- in `lock()`, between tries of `try_lock()` -/
  | lock
  /-- in `lock_shared()`, between tries of `try_lock_shared()` -/
  | lockShared
  /-- in `try_lock_shared()` after a `fetch_add` that saw `WRITER`, before the undo;
      `inLock` for a try of `lock_shared()` -/
  | undo (inLock : Bool)
  /-- holds a read lock -/
  | reader
  /-- holds the write lock -/
  | writer
  deriving DecidableEq, Repr

/-- A fiber's next operation: a call, or an atomic operation on `state_`. -/
inductive Act where
  /-- call `lock()` -/
  | lock
  /-- call `lock_shared()` -/
  | lockShared
  /-- the `compare_exchange_strong` of `try_lock()`, a call or the next try of `lock()` -/
  | tryLock
  /-- the `fetch_add(READER)` of `try_lock_shared()`, a call or the next try of
      `lock_shared()` -/
  | tryLockShared
  /-- the `fetch_add(-READER)` that undoes a failed `try_lock_shared()` -/
  | undo
  | unlock
  | unlockShared
  deriving DecidableEq, Repr

/-- One operation of a fiber at `pc` on the word `w`: where the fiber goes and the word
    after; `none` where the fiber is not at that operation. -/
def move : Act → Pc → UInt32 → Option (Pc × UInt32)
  | .lock, .idle, w => some (.lock, w)
  | .lockShared, .idle, w => some (.lockShared, w)
  -- a failed `try_lock()` returns to its caller; `lock()` tries again later
  | .tryLock, .idle, w => some (if w = 0 then (.writer, WRITER) else (.idle, w))
  | .tryLock, .lock, w => some (if w = 0 then (.writer, WRITER) else (.lock, w))
  | .tryLockShared, .idle, w =>
    some (if w &&& WRITER != 0 then .undo false else .reader, w + READER)
  | .tryLockShared, .lockShared, w =>
    some (if w &&& WRITER != 0 then .undo true else .reader, w + READER)
  -- `fetch_add(-READER)`: `-READER` converted to `uint32_t` subtracts `READER`
  | .undo, .undo inLock, w => some (if inLock then .lockShared else .idle, w - READER)
  | .unlock, .writer, w => some (.idle, w &&& ~~~WRITER)
  | .unlockShared, .reader, w => some (.idle, w - READER)
  | _, _, _ => none

/-- `state_` and where every fiber is. -/
structure State (ι : Type) where
  state : UInt32
  pc : ι → Pc

variable {ι : Type} [DecidableEq ι]

/-- Fiber `i` makes its next operation. -/
def step (s : State ι) : ι × Act → Option (State ι)
  | (i, a) => (move a (s.pc i) s.state).map fun r => ⟨r.2, Function.update s.pc i r.1⟩

/-- `state_{0}`, every fiber outside the mutex. -/
def init : State ι := ⟨0, fun _ => .idle⟩

/-! ## What a step does -/

/-- What a fiber at `pc` has added to `state_`. -/
def Pc.load : Pc → ℕ
  | .writer => 1
  | .reader | .undo _ => 4
  | _ => 0

/-- Whether a fiber is before the undo of a failed `try_lock_shared()`. -/
def Pc.isUndo : Pc → Bool
  | .undo _ => true
  | _ => false

/-- **What a move can do.** It keeps the word between fibers that add nothing, takes the
    write lock from `0`, adds a reader (who holds the lock only if `WRITER` was clear),
    takes a reader back out, or clears `WRITER` as the writer leaves. -/
theorem move_cases {a : Act} {pc pc' : Pc} {w w' : UInt32} (h : move a pc w = some (pc', w')) :
    (pc.load = 0 ∧ pc'.load = 0 ∧ w' = w) ∨
    (pc.load = 0 ∧ w = 0 ∧ pc' = .writer ∧ w' = WRITER) ∨
    (pc.load = 0 ∧ (pc' = .reader ∧ w &&& WRITER = 0 ∨ pc'.isUndo = true) ∧ w' = w + READER) ∨
    (pc.load = 4 ∧ pc'.load = 0 ∧ w' = w - READER) ∨
    (pc = .writer ∧ pc' = .idle ∧ w' = w &&& ~~~WRITER) := by
  unfold move at h
  split at h
  case h_1 | h_2 =>
    cases h
    exact .inl ⟨rfl, rfl, rfl⟩
  case h_3 | h_4 =>
    -- the compare-exchange succeeds exactly from `0`
    split at h
    case isTrue hw =>
      cases h
      exact .inr (.inl ⟨rfl, hw, rfl, rfl⟩)
    case isFalse =>
      cases h
      exact .inl ⟨rfl, rfl, rfl⟩
  case h_5 | h_6 =>
    cases h
    refine .inr (.inr (.inl ⟨rfl, ?_, rfl⟩))
    split
    case isTrue => exact .inr rfl
    case isFalse hw => exact .inl ⟨rfl, by simpa using hw⟩
  case h_7 inLock =>
    cases h
    exact .inr (.inr (.inr (.inl ⟨rfl, by cases inLock <;> rfl, rfl⟩)))
  case h_8 =>
    cases h
    exact .inr (.inr (.inr (.inr ⟨rfl, rfl, rfl⟩)))
  case h_9 =>
    cases h
    exact .inr (.inr (.inr (.inl ⟨rfl, rfl, rfl⟩)))
  case h_10 => cases h

/-! ## The word as a number -/

@[simp] theorem toNat_add_reader (w : UInt32) : (w + READER).toNat = (w.toNat + 4) % 2 ^ 32 :=
  UInt32.toNat_add w READER

@[simp] theorem toNat_sub_reader (w : UInt32) :
    (w - READER).toNat = (2 ^ 32 - 4 + w.toNat) % 2 ^ 32 :=
  UInt32.toNat_sub w READER

@[simp] theorem toNat_and_writer (w : UInt32) : (w &&& WRITER).toNat = w.toNat % 2 := by
  rw [UInt32.toNat_and]
  exact Nat.and_one_is_mod w.toNat

@[simp] theorem toNat_clear_writer (w : UInt32) :
    (w &&& ~~~WRITER).toNat = w.toNat - w.toNat % 2 := by
  rw [UInt32.toNat_and, show (~~~WRITER).toNat = 2 ^ 32 - 2 by decide]
  exact Bytes.and_two_pow_sub_two (by norm_num) w.toNat_lt

@[simp] theorem toNat_writer : WRITER.toNat = 1 := rfl

@[simp] theorem toNat_reader : READER.toNat = 4 := rfl

/-! ## Counting the fibers -/

section Counts

variable [Fintype ι]

/-- What the fibers have added to `state_`, together. -/
def total (pc : ι → Pc) : ℕ := ∑ i, (pc i).load

/-- The fibers that hold the write lock. -/
def writers (pc : ι → Pc) : ℕ := Trans.count (· = Pc.writer) pc

/-- The fibers that hold a read lock. -/
def readHolders (pc : ι → Pc) : ℕ := Trans.count (· = Pc.reader) pc

/-- The fibers between the `fetch_add` of a failed `try_lock_shared()` and its undo. -/
def pendingUndos (pc : ι → Pc) : ℕ := Trans.count (fun p => p.isUndo = true) pc

theorem load_eq (p : Pc) :
    p.load = (if p = .writer then 1 else 0) +
      4 * ((if p = .reader then 1 else 0) + (if p.isUndo = true then 1 else 0)) := by
  cases p <;> rfl

omit [DecidableEq ι] in
/-- The total the word should hold: `WRITER` per writer, `READER` per reader or undo. -/
theorem total_eq (pc : ι → Pc) :
    total pc = writers pc + 4 * (readHolders pc + pendingUndos pc) := by
  unfold total writers readHolders pendingUndos Trans.count
  simp only [Finset.card_filter, Finset.mul_sum, ← Finset.sum_add_distrib]
  exact Finset.sum_congr rfl fun i _ => load_eq (pc i)

omit [DecidableEq ι] in
theorem total_le (pc : ι → Pc) : total pc ≤ 4 * Fintype.card ι := by
  have hle : ∀ i ∈ Finset.univ, (pc i).load ≤ 4 := fun i _ => by cases pc i <;> simp [Pc.load]
  simpa [total, Nat.mul_comm] using Finset.sum_le_card_nsmul _ _ 4 hle

theorem total_update (pc : ι → Pc) (i : ι) (p : Pc) :
    total (Function.update pc i p) + (pc i).load = total pc + p.load :=
  Trans.sum_update Pc.load pc i p

theorem writers_update (pc : ι → Pc) (i : ι) (p : Pc) :
    writers (Function.update pc i p) + (if pc i = .writer then 1 else 0) =
      writers pc + (if p = .writer then 1 else 0) :=
  Trans.count_update _ pc i p

theorem readHolders_update (pc : ι → Pc) (i : ι) (p : Pc) :
    readHolders (Function.update pc i p) + (if pc i = .reader then 1 else 0) =
      readHolders pc + (if p = .reader then 1 else 0) :=
  Trans.count_update _ pc i p

end Counts

/-! ## The word counts the fibers -/

section Word

variable [Fintype ι]

/-- The invariant for any number of fibers: `state_` is the total modulo `2 ^ 32`, and at
    most one fiber writes. -/
structure Word (s : State ι) : Prop where
  word : s.state.toNat = total s.pc % 2 ^ 32
  writers_le : writers s.pc ≤ 1

omit [DecidableEq ι] in
theorem Word.of_init : Word (init : State ι) where
  word := by simp [init, total, Pc.load]
  writers_le := by simp [init, writers, Trans.count]

/-- The loads of a fiber that adds nothing. -/
theorem load_eq_zero {p : Pc} (h : p.load = 0) : p ≠ .writer ∧ p ≠ .reader := by
  constructor <;> rintro rfl <;> simp [Pc.load] at h

theorem load_eq_four {p : Pc} (h : p.load = 4) : p ≠ .writer := by
  rintro rfl
  simp [Pc.load] at h

theorem load_of_isUndo {p : Pc} (h : p.isUndo = true) : p.load = 4 ∧ p ≠ .writer ∧ p ≠ .reader := by
  cases p <;> simp_all [Pc.isUndo, Pc.load]

/-- **Every step keeps `Word`.** The word moves by what the moving fiber's load moves by;
    the write lock is only taken from a zero word, where no fiber writes. -/
theorem Word.step {s s' : State ι} {l : ι × Act} (hw : Word s) (h : step s l = some s') :
    Word s' := by
  obtain ⟨i, a⟩ := l
  obtain ⟨⟨p, w'⟩, hmove, rfl⟩ := Option.map_eq_some_iff.mp h
  have htot := total_update s.pc i p
  have hwr := writers_update s.pc i p
  have hsum := total_eq s.pc
  have hword := hw.word
  have hle := hw.writers_le
  have hlt := w'.toNat_lt
  rcases move_cases hmove with ⟨h0, h0', rfl⟩ | ⟨h0, hz, rfl, rfl⟩ | ⟨h0, hp, rfl⟩ |
      ⟨h4, h0', rfl⟩ | ⟨hi, rfl, rfl⟩
  case inl =>
    rw [h0, h0'] at htot
    simp only [(load_eq_zero h0).1, (load_eq_zero h0').1, if_false] at hwr
    exact ⟨by dsimp only; omega, by dsimp only; omega⟩
  case inr.inl =>
    -- a zero word: the total is a multiple of `2 ^ 32`, so no writer yet
    rw [hz, UInt32.toNat_zero] at hword
    rw [h0, show Pc.writer.load = 1 from rfl] at htot
    simp only [(load_eq_zero h0).1, if_false, if_true] at hwr
    exact ⟨by simp only [toNat_writer]; omega, by dsimp only; omega⟩
  case inr.inr.inl =>
    have hp' : p.load = 4 ∧ p ≠ .writer := by
      rcases hp with ⟨rfl, -⟩ | hu
      · exact ⟨rfl, by decide⟩
      · exact ⟨(load_of_isUndo hu).1, (load_of_isUndo hu).2.1⟩
    rw [h0, hp'.1] at htot
    simp only [(load_eq_zero h0).1, hp'.2, if_false] at hwr
    refine ⟨?_, by dsimp only; omega⟩
    simp only [toNat_add_reader]
    omega
  case inr.inr.inr.inl =>
    rw [h4, h0'] at htot
    simp only [load_eq_four h4, (load_eq_zero h0').1, if_false] at hwr
    refine ⟨?_, by dsimp only; omega⟩
    simp only [toNat_sub_reader]
    omega
  case inr.inr.inr.inr =>
    -- the writer is the only one, so the word is odd and clearing `WRITER` subtracts `1`
    have hpos : 0 < writers s.pc := Trans.count_pos _ hi
    rw [hi, show Pc.writer.load = 1 from rfl, show Pc.idle.load = 0 from rfl] at htot
    simp only [hi, if_true, reduceCtorEq, if_false] at hwr
    refine ⟨?_, by dsimp only; omega⟩
    simp only [toNat_clear_writer]
    omega

/-- **The word counts the fibers, modulo `2 ^ 32`, with any number of fibers.** -/
theorem word_invariant {s : State ι} (hs : Trans.Reachable step init s) : Word s :=
  Trans.Reachable.invariant Word (fun _ _ _ hw h => hw.step h) hs Word.of_init

/-- Fiber `0` writes and fiber `1` is to undo the `READER` its `lock_shared` added: the word
    is `5`, and it counts both. -/
theorem word_invariant_contended :
    ∃ s : State (Fin 3), Trans.Reachable step init s ∧ s.pc 0 = .writer ∧
      s.pc 1 = .undo true ∧ s.state = 5 ∧ Word s := by
  obtain ⟨s, hs, hend⟩ := @Trans.exists_reachable_of_run _ _ step (init : State (Fin 3))
    [(0, .tryLock), (1, .lockShared), (1, .tryLockShared)]
    (fun s => s.pc 0 == .writer && s.pc 1 == .undo true && s.state == 5) (by decide)
  simp only [Bool.and_eq_true, beq_iff_eq] at hend
  exact ⟨s, hs, hend.1.1, hend.1.2, hend.2, word_invariant hs⟩

end Word

/-! ## Fewer than `2 ^ 30` fibers -/

section Exclusive

variable [Fintype ι]

/-- The invariant below `2 ^ 30` fibers: `Word`, and no reader while a fiber writes. -/
structure Inv (s : State ι) : Prop extends Word s where
  exclusive : writers s.pc = 1 → readHolders s.pc = 0

omit [DecidableEq ι] in
theorem Inv.of_init : Inv (init : State ι) where
  toWord := Word.of_init
  exclusive := by simp [init, writers, Trans.count]

/-- **Every step keeps `Inv`** while the total cannot reach `2 ^ 32`: the write lock is only
    taken from a zero word, which is then a zero total, with no reader; a reader only
    enters while `WRITER` is clear, so while no fiber writes. -/
theorem Inv.step (hι : Fintype.card ι < 2 ^ 30) {s s' : State ι} {l : ι × Act} (hv : Inv s)
    (h : step s l = some s') : Inv s' := by
  refine ⟨hv.toWord.step h, ?_⟩
  obtain ⟨i, a⟩ := l
  obtain ⟨⟨p, w'⟩, hmove, rfl⟩ := Option.map_eq_some_iff.mp h
  have hwr := writers_update s.pc i p
  have hrd := readHolders_update s.pc i p
  have hsum := total_eq s.pc
  have hbound := total_le s.pc
  have hword := hv.word
  have hle := hv.writers_le
  have hex := hv.exclusive
  dsimp only
  rcases move_cases hmove with ⟨h0, h0', -⟩ | ⟨h0, hz, rfl, -⟩ | ⟨h0, hp, -⟩ |
      ⟨h4, h0', -⟩ | ⟨hi, rfl, -⟩
  case inl =>
    simp only [(load_eq_zero h0).1, (load_eq_zero h0').1, (load_eq_zero h0).2,
      (load_eq_zero h0').2, if_false] at hwr hrd
    omega
  case inr.inl =>
    -- below `2 ^ 30` fibers the total is below `2 ^ 32`: a zero word is no fiber at all
    rw [hz, UInt32.toNat_zero] at hword
    simp only [(load_eq_zero h0).1, (load_eq_zero h0).2, if_false, if_true,
      reduceCtorEq] at hwr hrd
    intro _
    omega
  case inr.inr.inl =>
    rcases hp with ⟨rfl, hclear⟩ | hu
    · -- `WRITER` was clear, so no fiber writes, before or after
      have hbit := congrArg UInt32.toNat hclear
      rw [toNat_and_writer, UInt32.toNat_zero] at hbit
      simp only [(load_eq_zero h0).1, (load_eq_zero h0).2, if_false, reduceCtorEq] at hwr hrd
      intro _
      omega
    · simp only [(load_eq_zero h0).1, (load_eq_zero h0).2, (load_of_isUndo hu).2.1,
        (load_of_isUndo hu).2.2, if_false] at hwr hrd
      omega
  case inr.inr.inr.inl =>
    simp only [load_eq_four h4, (load_eq_zero h0').1, (load_eq_zero h0').2, if_false] at hwr hrd
    split at hrd <;> omega
  case inr.inr.inr.inr =>
    simp only [hi, if_true, reduceCtorEq, if_false] at hwr hrd
    omega

/-- **`SharedMutex` is a readers-writer lock below `2 ^ 30` fibers.** In every reachable
    state at most one fiber holds the write lock, none holds a read lock while one does,
    and `state_` is `WRITER` per writer plus `READER` per reader and per pending undo. -/
theorem shared_mutex_exclusive (hι : Fintype.card ι < 2 ^ 30) {s : State ι}
    (hs : Trans.Reachable step init s) :
    (∀ i j, s.pc i = .writer → s.pc j = .writer → i = j) ∧
    (∀ i j, s.pc i = .writer → s.pc j ≠ .reader) ∧
    s.state.toNat =
      WRITER.toNat * writers s.pc + READER.toNat * (readHolders s.pc + pendingUndos s.pc) := by
  have hv : Inv s :=
    Trans.Reachable.invariant Inv (fun _ _ _ hv h => hv.step hι h) hs Inv.of_init
  have hsum := total_eq s.pc
  have hbound := total_le s.pc
  refine ⟨fun i j hi hj => Trans.eq_of_count_le_one _ hv.writers_le hi hj, ?_, ?_⟩
  · intro i j hi hj
    -- the writer makes `writers = 1`, the reader `readHolders > 0`
    have hw : writers s.pc = 1 := le_antisymm hv.writers_le (Trans.count_pos _ hi)
    have hr : 0 < readHolders s.pc := Trans.count_pos _ hj
    have := hv.exclusive hw
    omega
  · rw [hv.word, toNat_writer, toNat_reader]
    omega

/-- Fiber `0` takes the write lock with `try_lock`; fiber `1` calls `lock_shared`, whose
    `fetch_add` sees `WRITER`, so it is to undo its `READER`; fiber `2` waits in `lock`. The
    word is `WRITER + READER`, and `shared_mutex_exclusive` holds of the state reached. -/
theorem shared_mutex_exclusive_contended :
    Fintype.card (Fin 3) < 2 ^ 30 ∧
    ∃ s : State (Fin 3), Trans.Reachable step init s ∧ s.pc 0 = .writer ∧
      s.pc 1 = .undo true ∧ s.pc 2 = .lock ∧ s.state = 5 ∧
    (∀ i j, s.pc i = .writer → s.pc j = .writer → i = j) ∧
    (∀ i j, s.pc i = .writer → s.pc j ≠ .reader) ∧
    s.state.toNat =
      WRITER.toNat * writers s.pc + READER.toNat * (readHolders s.pc + pendingUndos s.pc) := by
  have hcard : Fintype.card (Fin 3) < 2 ^ 30 := by simp
  obtain ⟨s, hs, hend⟩ := @Trans.exists_reachable_of_run _ _ step (init : State (Fin 3))
    [(0, .tryLock), (1, .lockShared), (1, .tryLockShared), (2, .lock)]
    (fun s => s.pc 0 == .writer && s.pc 1 == .undo true && s.pc 2 == .lock && s.state == 5)
    (by decide)
  simp only [Bool.and_eq_true, beq_iff_eq] at hend
  exact ⟨hcard, s, hs, hend.1.1.1, hend.1.1.2, hend.1.2, hend.2, shared_mutex_exclusive hcard hs⟩

end Exclusive

/-! ## `2 ^ 30` readers -/

/-- Of `2 ^ 30 + 1` fibers, the first `k` hold a read lock, and the word is `4 * k`. -/
def readersIn (k : ℕ) : State (Fin (2 ^ 30 + 1)) :=
  ⟨UInt32.ofNat (4 * k), fun i => if i.val < k then .reader else .idle⟩

/-- Fiber `k` takes a read lock: `WRITER` is clear in `4 * k`. -/
theorem readersIn_step {k : ℕ} (hk : k < 2 ^ 30) :
    step (readersIn k) (⟨k, by omega⟩, .tryLockShared) = some (readersIn (k + 1)) := by
  have hclear : UInt32.ofNat (4 * k) &&& WRITER = 0 := by
    apply UInt32.toNat.inj
    rw [toNat_and_writer, UInt32.toNat_ofNat', UInt32.toNat_zero]
    omega
  have hword : UInt32.ofNat (4 * k) + READER = UInt32.ofNat (4 * (k + 1)) := by
    apply UInt32.toNat.inj
    rw [toNat_add_reader, UInt32.toNat_ofNat', UInt32.toNat_ofNat']
    omega
  simp only [step, readersIn, lt_self_iff_false, if_false, move, hclear, bne_self_eq_false,
    hword, Option.map_some, Option.some.injEq, State.mk.injEq, true_and]
  funext j
  by_cases hj : j = ⟨k, by omega⟩
  · subst hj
    simp
  · have hne : j.val ≠ k := fun h => hj (Fin.ext h)
    simp only [Function.update_of_ne hj]
    congr 1
    exact propext ⟨fun h => by omega, fun h => by omega⟩

/-- **The failing run.** `2 ^ 30 + 1` fibers: all but the last take a read lock in turn,
    which adds `2 ^ 32` to `state_` and leaves it `0`; the last one's `try_lock()` then
    succeeds. One fiber writes while `2 ^ 30` read, and `state_` is `WRITER`. -/
theorem reader_count_wraps :
    ∃ s, Trans.Reachable step (init : State (Fin (2 ^ 30 + 1))) s ∧
      s.pc (Fin.last _) = .writer ∧ (∀ i, i ≠ Fin.last _ → s.pc i = .reader) ∧
      s.state = WRITER := by
  have h0 : readersIn 0 = init := by
    simp only [readersIn, init, Nat.not_lt_zero, if_false]
    rfl
  have hreach : Trans.Reachable step (init : State (Fin (2 ^ 30 + 1))) (readersIn (2 ^ 30)) := by
    rw [← h0]
    exact Trans.Reachable.of_chain readersIn fun k hk =>
      (Trans.Reachable.refl _).tail (readersIn_step hk)
  refine ⟨⟨WRITER, Function.update (readersIn (2 ^ 30)).pc (Fin.last _) .writer⟩,
    hreach.tail (a := (Fin.last _, .tryLock)) ?_, by simp, fun i hi => ?_, rfl⟩
  · simp [step, readersIn, move]
  · have hlt : i.val < 2 ^ 30 := by
      have := Fin.val_lt_last hi
      simpa using this
    show Function.update (readersIn (2 ^ 30)).pc (Fin.last _) .writer i = .reader
    rw [Function.update_of_ne hi]
    simp only [readersIn, hlt, if_true]

end SharedMutex

end Helio
