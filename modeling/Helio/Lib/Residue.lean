import Mathlib.Algebra.BigOperators.Fin
import Mathlib.Algebra.Group.Fin.Basic
import Mathlib.Algebra.Order.BigOperators.Group.Finset

/-!
# Slots indexed by residues

`N` slots, slot `j` standing for the keys `≡ j (mod N)`: the layout of a ring of counters indexed
by `t % N`. Summing every slot's share of a list gives the sum over the list; a sum over the
slots taken from any slot on, around the ring, is the sum over all of them; and a loop that
clears slot `i % N` for every `i` of a list clears exactly the residues it meets.
-/

set_option autoImplicit false

namespace Residue

open Finset

variable {α M : Type} {N : ℕ}

/-- A sum over `List.range n` is the `Finset` sum over `range n`. -/
theorem sum_map_range [AddCommMonoid M] (f : ℕ → M) (n : ℕ) :
    ((List.range n).map f).sum = ∑ i ∈ range n, f i := by
  induction n with
  | zero => rfl
  | succ n ih => rw [List.range_succ, List.map_append, List.sum_append, ih, sum_range_succ]; simp

/-- Two keys less than `N` apart have different residues. -/
theorem mod_ne_of_lt_of_lt {a b : ℕ} (h₁ : a < b) (h₂ : b < a + N) : b % N ≠ a % N := by
  intro h
  have hz := Nat.sub_mod_eq_zero_of_mod_eq h
  rw [Nat.mod_eq_of_lt (by omega)] at hz
  omega

theorem sum_map_filter_cons [AddCommMonoid M] (g : α → M) (p : α → Bool) (x : α) (l : List α) :
    (((x :: l).filter p).map g).sum = (if p x then g x else 0) + ((l.filter p).map g).sum := by
  rw [List.filter_cons]
  split <;> simp

theorem abs_sum_map_le {g : α → ℤ} (l : List α) :
    |(l.map g).sum| ≤ (l.map fun x => |g x|).sum := by
  induction l with
  | nil => simp
  | cons x l ih =>
    rw [List.map_cons, List.sum_cons, List.map_cons, List.sum_cons]
    exact (abs_add_le _ _).trans (add_le_add_right ih _)

/-- Each element falls in exactly one slot: the slots' shares add up to the whole. -/
theorem sum_filter_mod [AddCommMonoid M] (hN : 0 < N) (key : α → ℕ) (p : α → Prop)
    [DecidablePred p] (g : α → M) (l : List α) :
    ∑ j ∈ range N, ((l.filter fun x => key x % N = j ∧ p x).map g).sum =
      ((l.filter fun x => p x).map g).sum := by
  induction l with
  | nil => simp
  | cons x l ih =>
    simp only [sum_map_filter_cons, sum_add_distrib, ih]
    congr 1
    -- the head lands in slot `key x % N` alone
    have hmem : key x % N ∈ range N := mem_range.mpr (Nat.mod_lt _ hN)
    by_cases hp : p x
    · simp only [hp, and_true, decide_true, if_true, decide_eq_true_eq]
      rw [sum_ite_eq, if_pos hmem]
    · simp [hp]

/-- Fewer than `N` steps from one key never come back to its slot. -/
theorem injOn_add_mod (c : ℕ) : Set.InjOn (fun i => (c + i) % N) (range N) := by
  intro i hi i' hi' heq
  have hi := mem_range.mp hi
  have hi' := mem_range.mp hi'
  by_contra hne
  rcases Nat.lt_or_gt_of_ne hne with hlt | hlt
  · exact mod_ne_of_lt_of_lt (N := N) (a := c + i) (by omega) (by omega) heq.symm
  · exact mod_ne_of_lt_of_lt (N := N) (a := c + i') (by omega) (by omega) heq

/-- Around the ring from any slot on, every slot once. -/
theorem sum_range_rotate [AddCommMonoid M] (hN : 0 < N) (c : ℕ) (f : ℕ → M) :
    ∑ i ∈ range N, f ((c + i) % N) = ∑ j ∈ range N, f j := by
  obtain ⟨n, rfl⟩ : ∃ n, N = n + 1 := ⟨N - 1, by omega⟩
  rw [sum_range (fun i => f ((c + i) % (n + 1))), sum_range f,
    ← Equiv.sum_comp (Equiv.addLeft (⟨c % (n + 1), Nat.mod_lt _ hN⟩ : Fin (n + 1)))
      (fun j : Fin (n + 1) => f j)]
  congr 1
  funext i
  rw [Equiv.coe_addLeft, Fin.val_add, Fin.val_mk, Nat.mod_add_mod]

/-- The `N - 1` slots after slot `b`, around the ring: every slot but `b`. -/
theorem sum_range_rotate_pred [AddCommGroup M] (hN : 0 < N) {b : ℕ} (hb : b < N) (f : ℕ → M) :
    ∑ i ∈ range (N - 1), f ((b + 1 + i) % N) = ∑ j ∈ range N, f j - f b := by
  obtain ⟨n, rfl⟩ : ∃ n, N = n + 1 := ⟨N - 1, by omega⟩
  have hall := sum_range_rotate hN (b + 1) f
  -- the last step of the way round is slot `b` itself
  rw [sum_range_succ, show b + 1 + n = b + (n + 1) by omega, Nat.add_mod_right,
    Nat.mod_eq_of_lt hb] at hall
  rw [Nat.add_sub_cancel, ← hall, add_sub_cancel_right]

/-! ## Clearing slots -/

/-- A slot that a loop over `l` never meets keeps its value. -/
theorem foldl_update_of_forall_ne {β : Type} (f : ℕ → β) (v : β) {l : List ℕ} {j : ℕ}
    (h : ∀ k ∈ l, k % N ≠ j) :
    (l.foldl (fun c k => Function.update c (k % N) v) f) j = f j := by
  induction l generalizing f with
  | nil => rfl
  | cons k l ih =>
    rw [List.foldl_cons, ih _ fun k' hk' => h k' (List.mem_cons_of_mem k hk'),
      Function.update_of_ne (Ne.symm (h k List.mem_cons_self))]

/-- The loop over `l` writes `v` at slot `i % N` of every `i` of `l`. -/
theorem foldl_update_of_mem {β : Type} (f : ℕ → β) (v : β) {l : List ℕ} {i : ℕ} (hi : i ∈ l) :
    (l.foldl (fun c k => Function.update c (k % N) v) f) (i % N) = v := by
  induction l generalizing f i with
  | nil => cases hi
  | cons k l ih =>
    rw [List.foldl_cons]
    by_cases hk : ∃ k' ∈ l, k' % N = i % N
    · obtain ⟨k', hk', hmod⟩ := hk
      rw [← hmod]
      exact ih _ hk'
    · rcases List.mem_cons.mp hi with rfl | hi
      · -- no later write reaches the slot the head wrote
        rw [foldl_update_of_forall_ne _ v fun k' hk' h => hk ⟨k', hk', h⟩, Function.update_self]
      · exact absurd ⟨i, hi, rfl⟩ hk

end Residue
