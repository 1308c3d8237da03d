import Helio.Lib.Residue
import Mathlib.Algebra.Order.Group.Int

/-!
# `SlidingCounter<NUM>`: a moving window of per-second counts

`SlidingCounter<NUM, int32_t>` (`util/sliding_counter.h`) keeps `NUM` `int32_t` bins in a ring,
bin `t % NUM` for second `t`, and `last_ts_`, the second of the last call (`0` before the
first). Every call starts with `MoveTsIfNeeded`, which reads the clock as a `uint32_t` and
clears the bins of the seconds since `last_ts_`: all of them once `last_ts_ + NUM <= current_sec`
(a `uint32_t` sum), else those of `last_ts_ + 1 .. current_sec`. `IncBy(d)` adds `d` to the bin
of the current second, `Sum()` adds up every bin and `SumTail()` every bin but that one.

The model takes each call's clock reading as an argument. `int32_t` arithmetic outside its range
is undefined (`none`), and so is a bin that `int32_t bin` turns negative.

Under a contract, a run returns what a window over the increments returns: the clock does not go
back, `last_ts_ + NUM` does not wrap, `NUM ≤ 2 ^ 31`, and the increments of every window of
`NUM` seconds are below `2 ^ 31` in absolute value in all. The invariant is that bin `j` holds
the increments of the seconds `≡ j (mod NUM)` in the window ending at `last_ts_`.
-/

set_option autoImplicit false

namespace Helio

open Finset

/-- An `int32_t` result: undefined outside `[-2 ^ 31, 2 ^ 31)`. -/
def int32 (x : ℤ) : Option ℤ := if -2 ^ 31 ≤ x ∧ x < 2 ^ 31 then some x else none

theorem int32_of_abs_lt {x : ℤ} (h : |x| < 2 ^ 31) : int32 x = some x := by
  obtain ⟨h₁, h₂⟩ := abs_lt.mp h
  exact if_pos ⟨h₁.le, h₂⟩

/-- `SlidingCounter<NUM, int32_t>`: `count_` (bins from `NUM` on are not used) and `last_ts_`. -/
structure SlidingCounter (NUM : ℕ) where
  count : ℕ → ℤ
  lastTs : ℕ

namespace SlidingCounter

variable {NUM : ℕ}

/-- `SlidingCounter()`: `Reset()` clears every bin, and `last_ts_` starts at `0`. -/
def init : SlidingCounter NUM := ⟨fun _ => 0, 0⟩

/-- The loop `for (uint32_t i = first; i <= current_sec; ++i) count_[i % NUM] = 0`. -/
def clearBins (NUM : ℕ) (count : ℕ → ℤ) (first currentSec : ℕ) : ℕ → ℤ :=
  (List.range' first (currentSec + 1 - first)).foldl (fun c i => Function.update c (i % NUM) 0)
    count

/-- `MoveTsIfNeeded()` at the clock reading `currentSec`: the counter after it, and the bin it
    returns. -/
def moveTsIfNeeded (s : SlidingCounter NUM) (currentSec : ℕ) : SlidingCounter NUM × ℕ :=
  let count :=
    if (s.lastTs + NUM) % 2 ^ 32 ≤ currentSec then fun _ => 0
    -- here `current_sec` is below a `uint32_t`, so below `2 ^ 32 - 1`: `++i` does not wrap
    -- before the loop ends
    else clearBins NUM s.count ((s.lastTs + 1) % 2 ^ 32) currentSec
  (⟨count, currentSec⟩, currentSec % NUM)

/-- `IncBy(delta)`: `int32_t bin = MoveTsIfNeeded(); count_[bin] += delta`. -/
def incBy (s : SlidingCounter NUM) (currentSec : ℕ) (delta : ℤ) : Option (SlidingCounter NUM) :=
  let (s, bin) := s.moveTsIfNeeded currentSec
  -- from `2 ^ 31` on, `int32_t bin` is negative: an index outside `count_`
  if bin < 2 ^ 31 then do
    let v ← int32 (s.count bin + delta)
    pure { s with count := Function.update s.count bin v }
  else none

/-- `int32_t` values added up from `acc`, as `std::accumulate` does into its `int` and the loop
    of `SumTail` into its `T`. -/
def accumulate : List ℤ → ℤ → Option ℤ
  | [], acc => some acc
  | x :: xs, acc => do
    let acc ← int32 (acc + x)
    accumulate xs acc

/-- `Sum()`: `std::accumulate(count_.begin(), count_.end(), 0)`. -/
def sum (s : SlidingCounter NUM) (currentSec : ℕ) : Option (SlidingCounter NUM × ℤ) :=
  let (s, _) := s.moveTsIfNeeded currentSec
  (accumulate ((List.range NUM).map s.count) 0).map (s, ·)

/-- `SumTail()`: the `NUM - 1` bins from `start = MoveTsIfNeeded() + 1` on, `start + i` taken as
    a `uint32_t` sum. -/
def sumTail (s : SlidingCounter NUM) (currentSec : ℕ) : Option (SlidingCounter NUM × ℤ) :=
  let (s, bin) := s.moveTsIfNeeded currentSec
  let start := (bin + 1) % 2 ^ 32
  (accumulate ((List.range (NUM - 1)).map fun i => s.count ((start + i) % 2 ^ 32 % NUM)) 0).map
    (s, ·)

/-- A call on the counter. -/
inductive Call where
  | incBy (delta : ℤ)
  | sum
  | sumTail

/-- One call at the clock reading `t`, with what it returns. -/
def exec (s : SlidingCounter NUM) (t : ℕ) : Call → Option (SlidingCounter NUM × List ℤ)
  | .incBy d => (s.incBy t d).map (·, [])
  | .sum => (s.sum t).map fun r => (r.1, [r.2])
  | .sumTail => (s.sumTail t).map fun r => (r.1, [r.2])

/-- Calls one after another, each with its clock reading, and all they return. -/
def run (s : SlidingCounter NUM) : List (ℕ × Call) → Option (SlidingCounter NUM × List ℤ)
  | [] => some (s, [])
  | (t, c) :: cs => do
    let (s, out) ← s.exec t c
    let (s, out') ← s.run cs
    pure (s, out ++ out')

/-! ## The window -/

/-- What `Sum()` at second `t` is meant to return: the increments at the seconds of
    `(t - NUM, t]`. -/
def windowSum (NUM : ℕ) (incs : List (ℕ × ℤ)) (t : ℕ) : ℤ :=
  ((incs.filter fun x => t < x.1 + NUM ∧ x.1 ≤ t).map Prod.snd).sum

/-- What `SumTail()` at second `t` is meant to return: those of `(t - NUM, t)`. -/
def tailSum (NUM : ℕ) (incs : List (ℕ × ℤ)) (t : ℕ) : ℤ :=
  ((incs.filter fun x => t < x.1 + NUM ∧ x.1 < t).map Prod.snd).sum

/-- The increments of `(t - NUM, t]` in absolute value. -/
def windowAbs (NUM : ℕ) (incs : List (ℕ × ℤ)) (t : ℕ) : ℤ :=
  ((incs.filter fun x => t < x.1 + NUM ∧ x.1 ≤ t).map fun x => |x.2|).sum

/-- A call at second `t` after the increments `incs`: the increments after it, and what it is
    meant to return. -/
def Call.spec (NUM : ℕ) (incs : List (ℕ × ℤ)) (t : ℕ) : Call → List (ℕ × ℤ) × List ℤ
  | .incBy d => (incs ++ [(t, d)], [])
  | .sum => (incs, [windowSum NUM incs t])
  | .sumTail => (incs, [tailSum NUM incs t])

/-- What a run of calls is meant to return. -/
def specRun (NUM : ℕ) : List (ℕ × ℤ) → List (ℕ × Call) → List ℤ
  | _, [] => []
  | incs, (t, c) :: cs => (c.spec NUM incs t).2 ++ specRun NUM (c.spec NUM incs t).1 cs

/-- The contract of a run from a last call at second `last`: the clock never goes back, the
    `uint32_t` sum `last_ts_ + NUM` does not wrap, and after each call the increments of the
    window ending at its second are below `2 ^ 31` in absolute value. -/
def Allowed (NUM : ℕ) : ℕ → List (ℕ × ℤ) → List (ℕ × Call) → Prop
  | _, _, [] => True
  | last, incs, (t, c) :: cs =>
    last ≤ t ∧ last + NUM < 2 ^ 32 ∧ windowAbs NUM (c.spec NUM incs t).1 t < 2 ^ 31 ∧
      Allowed NUM t (c.spec NUM incs t).1 cs

instance decAllowed : ∀ last incs calls, Decidable (Allowed NUM last incs calls)
  | _, _, [] => isTrue trivial
  | _, incs, (t, c) :: cs =>
    have := decAllowed t (c.spec NUM incs t).1 cs
    inferInstanceAs (Decidable (_ ∧ _ ∧ _ ∧ _))

/-! ## Bins and residues -/

/-- The increments at the seconds `≡ j (mod NUM)` of the window ending at second `T`. -/
def slot (NUM : ℕ) (incs : List (ℕ × ℤ)) (T j : ℕ) : ℤ :=
  ((incs.filter fun x => x.1 % NUM = j ∧ T < x.1 + NUM).map Prod.snd).sum

/-- Every bin holds its residue's increments of the window ending at `last_ts_`. -/
structure Inv (s : SlidingCounter NUM) (incs : List (ℕ × ℤ)) : Prop where
  le_lastTs : ∀ x ∈ incs, x.1 ≤ s.lastTs
  count_eq : ∀ j < NUM, s.count j = slot NUM incs s.lastTs j

variable {s : SlidingCounter NUM} {incs : List (ℕ × ℤ)}

theorem inv_init : Inv (init : SlidingCounter NUM) [] :=
  ⟨fun _ h => (by cases h), fun _ _ => rfl⟩

@[simp] theorem moveTsIfNeeded_lastTs (t : ℕ) : (s.moveTsIfNeeded t).1.lastTs = t := rfl

@[simp] theorem moveTsIfNeeded_bin (t : ℕ) : (s.moveTsIfNeeded t).2 = t % NUM := rfl

theorem slot_eq_zero {T j : ℕ} (h : ∀ x ∈ incs, x.1 + NUM ≤ T) : slot NUM incs T j = 0 := by
  rw [slot, List.filter_eq_nil_iff.mpr fun x hx => by have := h x hx; simp; omega]
  rfl

/-- Slots the loop clears hold nothing of the new window. -/
theorem slot_eq_zero_of_cleared {last t i : ℕ} (h : ∀ x ∈ incs, x.1 ≤ last)
    (hi : last < i) (hit : i ≤ t) : slot NUM incs t (i % NUM) = 0 := by
  rw [slot, List.filter_eq_nil_iff.mpr]
  · rfl
  intro x hx
  have := h x hx
  -- `x.1 < i < x.1 + NUM`, so their residues differ
  simp only [decide_eq_true_eq, not_and, not_lt]
  intro hmod
  by_contra hlt
  exact Residue.mod_ne_of_lt_of_lt (N := NUM) (by omega) (by omega) hmod.symm

/-- A slot the loop does not clear holds the same increments in the old and the new window. -/
theorem slot_eq_of_not_cleared {last t j : ℕ} (ht : last ≤ t)
    (hno : ∀ i, last < i → i ≤ t → i % NUM ≠ j) : slot NUM incs t j = slot NUM incs last j := by
  unfold slot
  congr 2
  apply List.filter_congr
  intro x hx
  simp only [decide_eq_decide, and_congr_right_iff]
  intro hmod
  constructor
  · intro h'
    omega
  · intro h'
    -- else `x.1 + NUM` would be a cleared second of residue `j`
    by_contra hle
    exact hno (x.1 + NUM) h' (by omega) (by rw [Nat.add_mod_right, hmod])

/-- `MoveTsIfNeeded` at a later second, while `last_ts_ + NUM` does not wrap. -/
theorem Inv.moveTs (h : Inv s incs) {t : ℕ} (ht : s.lastTs ≤ t)
    (hw : s.lastTs + NUM < 2 ^ 32) : Inv (s.moveTsIfNeeded t).1 incs := by
  refine ⟨fun x hx => (h.le_lastTs x hx).trans ht, fun j hj => ?_⟩
  simp only [moveTsIfNeeded, Nat.mod_eq_of_lt hw]
  split_ifs with hgap
  · -- a gap of `NUM` seconds or more: the window holds none of the increments
    exact (slot_eq_zero fun x hx => by have := h.le_lastTs x hx; omega).symm
  · rw [clearBins, Nat.mod_eq_of_lt (by omega)]
    by_cases hit : ∃ i, s.lastTs < i ∧ i ≤ t ∧ i % NUM = j
    · obtain ⟨i, hi, hit, rfl⟩ := hit
      rw [Residue.foldl_update_of_mem _ _ (List.mem_range'_1.mpr ⟨by omega, by omega⟩),
        slot_eq_zero_of_cleared h.le_lastTs hi hit]
    · have hno : ∀ i, s.lastTs < i → i ≤ t → i % NUM ≠ j := fun i h₁ h₂ h₃ => hit ⟨i, h₁, h₂, h₃⟩
      rw [Residue.foldl_update_of_forall_ne _ _ fun k hk => by
          obtain ⟨h₁, h₂⟩ := List.mem_range'_1.mp hk
          exact hno k (by omega) (by omega),
        h.count_eq j hj, slot_eq_of_not_cleared ht hno]

theorem slot_append (T j t : ℕ) (d : ℤ) :
    slot NUM (incs ++ [(t, d)]) T j =
      slot NUM incs T j + if t % NUM = j ∧ T < t + NUM then d else 0 := by
  unfold slot
  rw [List.filter_append, List.map_append, List.sum_append]
  congr 1
  by_cases hc : t % NUM = j ∧ T < t + NUM <;> simp [hc]

/-- On increments no later than `T`, the window `(T - NUM, T]` is cut by its lower end alone. -/
theorem sum_window {β : Type} [AddCommMonoid β] (g : ℕ × ℤ → β) {T : ℕ}
    (hle : ∀ x ∈ incs, x.1 ≤ T) :
    ((incs.filter fun x => T < x.1 + NUM ∧ x.1 ≤ T).map g).sum =
      ((incs.filter fun x => T < x.1 + NUM).map g).sum := by
  congr 2
  apply List.filter_congr
  intro x hx
  simp [hle x hx]

/-- The slots of a window split its increments by residue. -/
theorem sum_slot (hN : 0 < NUM) {T : ℕ} (hle : ∀ x ∈ incs, x.1 ≤ T) :
    ∑ j ∈ range NUM, slot NUM incs T j = windowSum NUM incs T := by
  rw [windowSum, sum_window _ hle]
  exact Residue.sum_filter_mod hN Prod.fst (fun x => T < x.1 + NUM) Prod.snd incs

/-- The slots of a window are bounded by the window's increments in absolute value. -/
theorem sum_abs_slot_le (hN : 0 < NUM) {T : ℕ} (hle : ∀ x ∈ incs, x.1 ≤ T) :
    ∑ j ∈ range NUM, |slot NUM incs T j| ≤ windowAbs NUM incs T := by
  calc ∑ j ∈ range NUM, |slot NUM incs T j|
      ≤ ∑ j ∈ range NUM,
          ((incs.filter fun x => x.1 % NUM = j ∧ T < x.1 + NUM).map fun x => |x.2|).sum :=
        sum_le_sum fun j _ => Residue.abs_sum_map_le _
    _ = windowAbs NUM incs T := by
        rw [windowAbs, sum_window _ hle]
        exact Residue.sum_filter_mod hN Prod.fst (fun x => T < x.1 + NUM) _ incs

theorem abs_slot_le (hN : 0 < NUM) {T j : ℕ} (hle : ∀ x ∈ incs, x.1 ≤ T) (hj : j < NUM) :
    |slot NUM incs T j| ≤ windowAbs NUM incs T :=
  (single_le_sum (fun i _ => abs_nonneg (slot NUM incs T i)) (mem_range.mpr hj)).trans
    (sum_abs_slot_le hN hle)

/-- All slots but that of `T` itself: the window without its last second. -/
theorem sum_slot_sub (hN : 0 < NUM) {T : ℕ} (hle : ∀ x ∈ incs, x.1 ≤ T) :
    ∑ j ∈ range NUM, slot NUM incs T j - slot NUM incs T (T % NUM) = tailSum NUM incs T := by
  -- slot `j` of the tail, and the slot of `T` itself on top of it
  have hsplit : ∀ j, ((incs.filter fun x => x.1 % NUM = j ∧ T < x.1 + NUM ∧ x.1 < T).map
      Prod.snd).sum + (if j = T % NUM then slot NUM incs T j else 0) = slot NUM incs T j := by
    intro j
    split_ifs with hj
    · -- the window's only second of `T`'s residue is `T`
      subst hj
      rw [List.filter_eq_nil_iff.mpr, List.map_nil, List.sum_nil, zero_add]
      intro x _
      simp only [decide_eq_true_eq, not_and, not_lt]
      intro hmod hT
      by_contra hlt
      exact Residue.mod_ne_of_lt_of_lt (N := NUM) (by omega) hT hmod.symm
    · rw [add_zero, slot]
      congr 2
      apply List.filter_congr
      intro x hx
      have := hle x hx
      simp only [decide_eq_decide, and_congr_right_iff]
      intro hmod
      have hne : x.1 ≠ T := fun h => hj (by rw [← hmod, h])
      omega
  have htail := Residue.sum_filter_mod hN Prod.fst (fun x => T < x.1 + NUM ∧ x.1 < T) Prod.snd
    incs
  rw [tailSum, ← htail, ← sum_congr rfl fun j _ => hsplit j, sum_add_distrib, sum_ite_eq',
    if_pos (mem_range.mpr (Nat.mod_lt _ hN)), add_sub_cancel_right]

/-! ## Calls -/

theorem incBy_eq (t : ℕ) (d : ℤ) :
    s.incBy t d =
      if t % NUM < 2 ^ 31 then
        (int32 ((s.moveTsIfNeeded t).1.count (t % NUM) + d)).bind fun v =>
          some { (s.moveTsIfNeeded t).1 with
            count := Function.update (s.moveTsIfNeeded t).1.count (t % NUM) v }
      else none :=
  rfl

theorem sum_eq (t : ℕ) :
    s.sum t = (accumulate ((List.range NUM).map (s.moveTsIfNeeded t).1.count) 0).map
      ((s.moveTsIfNeeded t).1, ·) :=
  rfl

theorem sumTail_eq (t : ℕ) :
    s.sumTail t = (accumulate ((List.range (NUM - 1)).map fun i =>
        (s.moveTsIfNeeded t).1.count (((t % NUM + 1) % 2 ^ 32 + i) % 2 ^ 32 % NUM)) 0).map
      ((s.moveTsIfNeeded t).1, ·) :=
  rfl

/-- While no partial sum leaves the `int32_t` range, `accumulate` is the sum. -/
theorem accumulate_eq {xs : List ℤ} {acc : ℤ} (h : ∀ k, |acc + (xs.take k).sum| < 2 ^ 31) :
    accumulate xs acc = some (acc + xs.sum) := by
  induction xs generalizing acc with
  | nil => simp [accumulate]
  | cons x xs ih =>
    have h₁ : |acc + x| < 2 ^ 31 := by simpa using h 1
    have h' : ∀ k, |acc + x + (xs.take k).sum| < 2 ^ 31 := by
      intro k
      have := h (k + 1)
      rwa [List.take_succ_cons, List.sum_cons, ← add_assoc] at this
    rw [accumulate, int32_of_abs_lt h₁, Option.bind_eq_bind, Option.bind_some, ih h',
      List.sum_cons, add_assoc]

section Calls

variable (hN : 0 < NUM) (hN' : NUM ≤ 2 ^ 31)
include hN

theorem Inv.sum_abs_le (h : Inv s incs) :
    ∑ j ∈ range NUM, |s.count j| ≤ windowAbs NUM incs s.lastTs :=
  (sum_congr rfl fun j hj => by rw [h.count_eq j (mem_range.mp hj)]).le.trans
    (sum_abs_slot_le hN h.le_lastTs)

/-- A sum over distinct bins, in any order, is bounded by the window in absolute value. -/
theorem Inv.abs_sum_le {k : ℕ} (h : Inv s incs) (f : ℕ → ℕ) (hf : ∀ i ∈ range k, f i < NUM)
    (hinj : Set.InjOn f (range k)) :
    |∑ i ∈ range k, s.count (f i)| ≤ windowAbs NUM incs s.lastTs := by
  calc |∑ i ∈ range k, s.count (f i)|
      ≤ ∑ i ∈ range k, |s.count (f i)| := abs_sum_le_sum_abs _ _
    _ = ∑ j ∈ (range k).image f, |s.count j| :=
        (sum_image (f := fun j => |s.count j|) fun _ hx _ hy heq => hinj hx hy heq).symm
    _ ≤ ∑ j ∈ range NUM, |s.count j| := by
        apply sum_le_sum_of_subset_of_nonneg
        · intro j hj
          obtain ⟨i, hi, rfl⟩ := mem_image.mp hj
          exact mem_range.mpr (hf i hi)
        · intro _ _ _
          exact abs_nonneg _
    _ ≤ windowAbs NUM incs s.lastTs := h.sum_abs_le hN

include hN' in
theorem Inv.incBy (h : Inv s incs) {t : ℕ} {d : ℤ} (ht : s.lastTs ≤ t)
    (hw : s.lastTs + NUM < 2 ^ 32) (hb : windowAbs NUM (incs ++ [(t, d)]) t < 2 ^ 31) :
    ∃ s', s.incBy t d = some s' ∧ Inv s' (incs ++ [(t, d)]) ∧ s'.lastTs = t := by
  have h₁ := h.moveTs ht hw
  have hcount : ∀ j < NUM, (s.moveTsIfNeeded t).1.count j = slot NUM incs t j := h₁.count_eq
  have hbin : t % NUM < NUM := Nat.mod_lt _ hN
  have hle : ∀ x ∈ incs ++ [(t, d)], x.1 ≤ t := by
    intro x hx
    rcases List.mem_append.mp hx with hx | hx
    · exact h₁.le_lastTs x hx
    · rw [List.mem_singleton.mp hx]
  -- the bin of `t` takes the new increment into its slot
  have hv : (s.moveTsIfNeeded t).1.count (t % NUM) + d =
      slot NUM (incs ++ [(t, d)]) t (t % NUM) := by
    rw [hcount _ hbin, slot_append, if_pos ⟨rfl, by omega⟩]
  have habs := (abs_slot_le hN hle hbin).trans_lt hb
  refine ⟨_, by rw [incBy_eq, if_pos (by omega), hv, int32_of_abs_lt habs, Option.bind_some],
    ⟨hle, fun j hj => ?_⟩, rfl⟩
  show Function.update (s.moveTsIfNeeded t).1.count (t % NUM)
    (slot NUM (incs ++ [(t, d)]) t (t % NUM)) j = slot NUM (incs ++ [(t, d)]) t j
  by_cases hj' : j = t % NUM
  · subst hj'
    exact Function.update_self _ _ _
  · rw [Function.update_of_ne hj', hcount j hj, slot_append, if_neg fun hc => hj' hc.1.symm,
      add_zero]

theorem Inv.sum (h : Inv s incs) {t : ℕ} (ht : s.lastTs ≤ t) (hw : s.lastTs + NUM < 2 ^ 32)
    (hb : windowAbs NUM incs t < 2 ^ 31) :
    s.sum t = some ((s.moveTsIfNeeded t).1, windowSum NUM incs t) := by
  have h₁ := h.moveTs ht hw
  have hcount : ∀ j < NUM, (s.moveTsIfNeeded t).1.count j = slot NUM incs t j := h₁.count_eq
  rw [sum_eq, accumulate_eq, zero_add, Residue.sum_map_range,
    sum_congr rfl fun j hj => hcount j (mem_range.mp hj), sum_slot (T := t) hN h₁.le_lastTs]
  · rfl
  -- every partial sum is one over the first bins
  intro k
  rw [zero_add, ← List.map_take, List.take_range, Residue.sum_map_range]
  refine (h₁.abs_sum_le hN id (fun i hi => ?_) (Set.injOn_id _)).trans_lt hb
  exact (mem_range.mp hi).trans_le (min_le_right _ _)

include hN' in
theorem Inv.sumTail (h : Inv s incs) {t : ℕ} (ht : s.lastTs ≤ t) (hw : s.lastTs + NUM < 2 ^ 32)
    (hb : windowAbs NUM incs t < 2 ^ 31) :
    s.sumTail t = some ((s.moveTsIfNeeded t).1, tailSum NUM incs t) := by
  have h₁ := h.moveTs ht hw
  have hcount : ∀ j < NUM, (s.moveTsIfNeeded t).1.count j = slot NUM incs t j := h₁.count_eq
  have hbin : t % NUM < NUM := Nat.mod_lt _ hN
  -- `start + i` stays below `2 ^ 32`: the bins after the current one, around the ring
  have hidx : ∀ i ∈ List.range (NUM - 1),
      ((t % NUM + 1) % 2 ^ 32 + i) % 2 ^ 32 % NUM = (t % NUM + 1 + i) % NUM := by
    intro i hi
    have := List.mem_range.mp hi
    have h₁ : t % NUM + 1 < 2 ^ 32 := by omega
    have h₂ : t % NUM + 1 + i < 2 ^ 32 := by omega
    rw [Nat.mod_eq_of_lt h₁, Nat.mod_eq_of_lt h₂]
  rw [sumTail_eq, List.map_congr_left fun i hi => congrArg _ (hidx i hi), accumulate_eq, zero_add,
    Residue.sum_map_range, Residue.sum_range_rotate_pred hN hbin,
    sum_congr rfl fun j hj => hcount j (mem_range.mp hj), hcount _ hbin,
    sum_slot_sub (T := t) hN h₁.le_lastTs]
  · rfl
  intro k
  rw [zero_add, ← List.map_take, List.take_range, Residue.sum_map_range]
  have hsub : range (min k (NUM - 1)) ⊆ range NUM :=
    range_subset_range.mpr ((min_le_right _ _).trans (Nat.sub_le _ 1))
  refine (h₁.abs_sum_le hN _ (fun i _ => Nat.mod_lt _ hN)
    ((Residue.injOn_add_mod _).mono (coe_subset.mpr hsub))).trans_lt hb

include hN' in
/-- One call within the contract returns what the window says. -/
theorem Inv.exec (h : Inv s incs) {t : ℕ} {c : Call} (ht : s.lastTs ≤ t)
    (hw : s.lastTs + NUM < 2 ^ 32) (hb : windowAbs NUM (c.spec NUM incs t).1 t < 2 ^ 31) :
    ∃ s', s.exec t c = some (s', (c.spec NUM incs t).2) ∧ Inv s' (c.spec NUM incs t).1 ∧
      s'.lastTs = t := by
  cases c with
  | incBy d =>
    obtain ⟨s', hx, h', hl⟩ := h.incBy hN hN' ht hw hb
    exact ⟨s', by rw [SlidingCounter.exec, hx]; rfl, h', hl⟩
  | sum => exact ⟨_, by rw [SlidingCounter.exec, h.sum hN ht hw hb]; rfl, h.moveTs ht hw, rfl⟩
  | sumTail =>
    exact ⟨_, by rw [SlidingCounter.exec, h.sumTail hN hN' ht hw hb]; rfl, h.moveTs ht hw, rfl⟩

include hN' in
/-- A run within the contract returns what the window says, by induction on the calls. -/
theorem Inv.run (h : Inv s incs) {calls : List (ℕ × Call)}
    (hok : Allowed NUM s.lastTs incs calls) :
    ∃ s', s.run calls = some (s', specRun NUM incs calls) := by
  induction calls generalizing s incs with
  | nil => exact ⟨s, rfl⟩
  | cons tc cs ih =>
    obtain ⟨t, c⟩ := tc
    obtain ⟨ht, hw, hb, hcs⟩ := hok
    obtain ⟨s₁, hx, h₁, hl⟩ := h.exec hN hN' ht hw hb
    obtain ⟨s₂, hr⟩ := ih h₁ (hl ▸ hcs)
    refine ⟨s₂, ?_⟩
    rw [SlidingCounter.run, hx, Option.bind_eq_bind, Option.bind_some]
    dsimp only
    rw [hr]
    rfl

end Calls

/-- Within the contract, every `Sum()` and `SumTail()` of a run from a new counter returns the
    increments of its window, and no call is undefined. -/
theorem run_returns_windows (hN : 1 < NUM) (hN' : NUM ≤ 2 ^ 31) (calls : List (ℕ × Call))
    (hok : Allowed NUM 0 [] calls) :
    ∃ s, (init : SlidingCounter NUM).run calls = some (s, specRun NUM [] calls) :=
  inv_init.run (by omega) hN' hok

theorem run_returns_windows_two :
    1 < 2 ∧ 2 ≤ 2 ^ 31 ∧
      Allowed 2 0 [] [(5, .incBy 3), (6, .incBy (-1)), (6, .sum), (7, .sumTail), (9, .sum)] ∧
      ∃ s, (init : SlidingCounter 2).run
          [(5, .incBy 3), (6, .incBy (-1)), (6, .sum), (7, .sumTail), (9, .sum)] =
        some (s, specRun 2 []
          [(5, .incBy 3), (6, .incBy (-1)), (6, .sum), (7, .sumTail), (9, .sum)]) :=
  ⟨by decide, by decide, by decide, run_returns_windows (by decide) (by decide) _ (by decide)⟩

/-- Three runs outside the contract. At the second `2 ^ 32 - 1` the `uint32_t` sum
    `last_ts_ + NUM` wraps to `1`, so `MoveTsIfNeeded` clears the bin `IncBy(1)` has just
    filled and `Sum()` returns `0`, not `1`. Increments of one second adding up to `2 ^ 31`
    overflow their `int32_t` bin. With `NUM = 2 ^ 31 + 1`, the bin of second `2 ^ 31` is
    negative as an `int32_t`, so every `IncBy` then is undefined. -/
theorem run_leaves_windows :
    ((init : SlidingCounter 2).run [(2 ^ 32 - 1, .incBy 1), (2 ^ 32 - 1, .sum)]).map Prod.snd =
        some [0] ∧
      specRun 2 [] [(2 ^ 32 - 1, .incBy 1), (2 ^ 32 - 1, .sum)] = [1] ∧
    ((init : SlidingCounter 2).run [(5, .incBy (2 ^ 31 - 1)), (5, .incBy 1), (5, .sum)]).map
        Prod.snd = none ∧
      specRun 2 [] [(5, .incBy (2 ^ 31 - 1)), (5, .incBy 1), (5, .sum)] = [2 ^ 31] ∧
    ∀ (s : SlidingCounter (2 ^ 31 + 1)) (d : ℤ), s.incBy (2 ^ 31) d = none :=
  ⟨by decide, by decide, by decide, by decide, fun _ _ => by
    rw [incBy_eq, if_neg (by decide)]⟩

end SlidingCounter

end Helio
