import Mathlib.Data.List.Nodup
import Mathlib.Data.List.Range
import Mathlib.Data.List.Infix

/-!
# Free lists threaded through an array

An allocator that keeps its free slots in a singly linked list stores in each free slot the
index of the next free one, and keeps the index of the first; a negative index ends the
list. `Threads next h L` says that following `next` from `h` visits the slots of `L`, in
order, and then reaches a negative link.

Such a walk ends, so it visits no slot twice: `Threads.nodup` is the list's acyclicity, and
`Threads.unique` says the links and the head determine the list. The other lemmas are the
ones an allocator proof needs, one per way the list changes:

* a list threaded from a slot starts with it, and the rest is threaded from its link
  (`Threads.of_nonneg`): how taking the head off leaves it;
* pushing a slot that is not on the list (`Threads.push`) threads it in front;
* a write to the link of a slot that is not on the list leaves the list alone
  (`Threads.frame`);
* a block `lo, lo + 1, …, lo + n - 1` whose links count up and end in a negative one is
  threaded from `lo` (`threads_range'`): how a grown array links its new slots;
* a slot linked to itself starts no walk that ends (`Threads.not_of_self`): what pushing a
  slot that is already on the list makes of it.
-/

set_option autoImplicit false

namespace FreeList

/-- Following `next` from `h` visits the slots `L` in order, then a negative link. -/
inductive Threads (next : ℕ → ℤ) : ℤ → List ℕ → Prop
  | nil {h : ℤ} (hneg : h < 0) : Threads next h []
  | cons {i : ℕ} {L : List ℕ} (hrest : Threads next (next i) L) : Threads next i (i :: L)

variable {next next' : ℕ → ℤ} {h : ℤ} {L : List ℕ}

/-- The list is empty exactly when the head is negative. -/
theorem Threads.eq_nil_iff (H : Threads next h L) : L = [] ↔ h < 0 := by
  cases H with
  | nil hneg => exact ⟨fun _ => hneg, fun _ => rfl⟩
  | cons _ =>
    constructor
    · intro hL
      cases hL
    · intro hneg
      omega

/-- A list threaded from a slot starts with it. -/
theorem Threads.of_nonneg (H : Threads next h L) (hh : 0 ≤ h) :
    ∃ (i : ℕ) (L' : List ℕ), h = i ∧ L = i :: L' ∧ Threads next (next i) L' := by
  cases H with
  | nil hneg => omega
  | cons hrest => exact ⟨_, _, rfl, rfl, hrest⟩

/-- Links of slots off the list do not matter. -/
theorem Threads.frame (H : Threads next h L) (hsame : ∀ j ∈ L, next' j = next j) :
    Threads next' h L := by
  induction H with
  | nil hneg => exact .nil hneg
  | @cons i L _ ih =>
    refine .cons ?_
    rw [hsame i List.mem_cons_self]
    exact ih fun j hj => hsame j (List.mem_cons_of_mem i hj)

/-- Pushing a slot that is not on the list: its link becomes the old head. -/
theorem Threads.push (H : Threads next h L) {i : ℕ} (hi : i ∉ L) :
    Threads (Function.update next i h) i (i :: L) := by
  refine .cons ?_
  rw [Function.update_self]
  exact H.frame fun j hj => Function.update_of_ne (by rintro rfl; exact hi hj) _ _

/-- **A block whose links count up.** Slots `lo .. lo + n - 1`, each linked to the next and
    the last to a negative index, are threaded from `lo`. -/
theorem threads_range' {lo n : ℕ} (hn : 0 < n)
    (hlink : ∀ j, lo ≤ j → j + 1 < lo + n → next j = j + 1) (hend : next (lo + n - 1) < 0) :
    Threads next lo (List.range' lo n) := by
  induction n generalizing lo with
  | zero => omega
  | succ n ih =>
    rw [List.range'_succ]
    show Threads next lo (lo :: List.range' (lo + 1) n)
    refine .cons ?_
    rcases Nat.eq_zero_or_pos n with rfl | hpos
    · -- the block is the single slot `lo`, whose link ends the list
      exact .nil (by simpa using hend)
    · rw [hlink lo le_rfl (by omega), show (lo : ℤ) + 1 = ((lo + 1 : ℕ) : ℤ) by push_cast; rfl]
      exact @ih (lo + 1) hpos (fun j hj hjn => hlink j (by omega) (by omega))
        (by rw [show lo + 1 + n - 1 = lo + (n + 1) - 1 by omega]; exact hend)

/-- The links and the head determine the list. -/
theorem Threads.unique {L' : List ℕ} (H : Threads next h L) (H' : Threads next h L') : L = L' := by
  induction H generalizing L' with
  | nil hneg => exact ((H'.eq_nil_iff).mpr hneg).symm
  | @cons i L _ ih =>
    obtain ⟨j, L'', hij, rfl, hrest⟩ := H'.of_nonneg (Int.natCast_nonneg i)
    obtain rfl : i = j := Int.ofNat.inj hij
    rw [ih hrest]

/-- From a slot on the list, the walk goes on along a suffix of the list. -/
theorem Threads.of_mem (H : Threads next h L) {i : ℕ} (hi : i ∈ L) :
    ∃ B, Threads next i (i :: B) ∧ i :: B <:+ L := by
  induction H with
  | nil _ => simp at hi
  | @cons j L hrest ih =>
    rcases List.mem_cons.mp hi with rfl | hi
    · exact ⟨L, .cons hrest, List.suffix_refl _⟩
    · obtain ⟨B, hB, hsuf⟩ := ih hi
      exact ⟨B, hB, hsuf.trans (List.suffix_cons j L)⟩

/-- **A threaded list is acyclic**: a slot met twice would make the walk from it come back to
    it, and never reach a negative link. -/
theorem Threads.nodup (H : Threads next h L) : L.Nodup := by
  induction H with
  | nil _ => exact List.nodup_nil
  | @cons i L hrest ih =>
    refine List.nodup_cons.mpr ⟨fun hi => ?_, ih⟩
    -- the walk from `i` is `i :: L`, and also the shorter `i :: B` inside `L`
    obtain ⟨B, hB, hsuf⟩ := hrest.of_mem hi
    have hsame := (Threads.cons hrest).unique hB
    have hlen := hsuf.length_le
    rw [← hsame, List.length_cons] at hlen
    omega

/-- A slot linked to itself starts no walk that ends: the walk from it never leaves it. -/
theorem Threads.not_of_self {i : ℕ} (hself : next i = i) : ¬ Threads next i L := by
  intro H
  obtain ⟨j, L', hij, rfl, hrest⟩ := H.of_nonneg (Int.natCast_nonneg i)
  obtain rfl : i = j := Int.ofNat.inj hij
  rw [hself] at hrest
  exact List.cons_ne_self i L' (H.unique hrest)

end FreeList
