import Mathlib

/-!
# Slices laid out one after another

A buffer cut into consecutive slices `[offset, offset + len)`, one per length, starting at a
given offset: the layout a writer produces when it hands out a slice and advances the offset by
its length. Every slice lies inside `[offset, offset + sum)`, and a slice ends where the next one
may start, so two slices never overlap.
-/

set_option autoImplicit false

namespace Slices

/-- The slices of the lengths `lens`, laid out from `off`: each as its start and length. -/
def pack : ℕ → List ℕ → List (ℕ × ℕ)
  | _, [] => []
  | off, len :: lens => (off, len) :: pack (off + len) lens

@[simp] theorem pack_nil (off : ℕ) : pack off [] = [] := rfl

@[simp] theorem pack_cons (off len : ℕ) (lens : List ℕ) :
    pack off (len :: lens) = (off, len) :: pack (off + len) lens := rfl

@[simp] theorem map_snd_pack (off : ℕ) (lens : List ℕ) : (pack off lens).map Prod.snd = lens := by
  induction lens generalizing off with
  | nil => rfl
  | cons len lens ih => simp [ih]

/-- Every slice lies inside `[off, off + sum)`. -/
theorem mem_pack_bounds {off : ℕ} {lens : List ℕ} {s : ℕ × ℕ} (h : s ∈ pack off lens) :
    off ≤ s.1 ∧ s.1 + s.2 ≤ off + lens.sum := by
  induction lens generalizing off with
  | nil => cases h
  | cons len lens ih =>
    rcases List.mem_cons.mp h with rfl | h
    · simp
    · obtain ⟨h₁, h₂⟩ := ih h
      simp only [List.sum_cons]
      omega

/-- A slice ends at or before the start of every later one. -/
theorem pack_pairwise (off : ℕ) (lens : List ℕ) :
    (pack off lens).Pairwise fun a b => a.1 + a.2 ≤ b.1 := by
  induction lens generalizing off with
  | nil => exact List.Pairwise.nil
  | cons len lens ih =>
    refine List.Pairwise.cons (fun b hb => (mem_pack_bounds hb).1) (ih (off + len))

end Slices
