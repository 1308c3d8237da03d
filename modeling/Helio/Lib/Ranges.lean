import Mathlib

/-!
# Address ranges

A range `[p, p + n)` of addresses, kept as the pair `(p, n)`. Two ranges are apart when they
share no address, and one lies within another when all its addresses are the other's. Both are
decided by comparing ends, and both agree with the sets of addresses the ranges stand for.

Ranges that are pairwise apart and all lie within one range `s` are at most `s.2` long in all:
the packing bound behind an allocator that carves blocks out of a finite address space.
-/

set_option autoImplicit false

namespace Ranges

/-- The addresses of `[r.1, r.1 + r.2)`. -/
def addrs (r : ℕ × ℕ) : Finset ℕ := Finset.Ico r.1 (r.1 + r.2)

/-- `r` and `s` share no address. -/
def Apart (r s : ℕ × ℕ) : Prop := r.2 = 0 ∨ s.2 = 0 ∨ r.1 + r.2 ≤ s.1 ∨ s.1 + s.2 ≤ r.1

/-- Every address of `r` is one of `s`. -/
def Within (r s : ℕ × ℕ) : Prop := r.2 = 0 ∨ s.1 ≤ r.1 ∧ r.1 + r.2 ≤ s.1 + s.2

instance (r s : ℕ × ℕ) : Decidable (Apart r s) := inferInstanceAs (Decidable (_ ∨ _ ∨ _ ∨ _))

instance (r s : ℕ × ℕ) : Decidable (Within r s) := inferInstanceAs (Decidable (_ ∨ _))

variable {r r' s t : ℕ × ℕ}

@[simp] theorem mem_addrs {x : ℕ} : x ∈ addrs r ↔ r.1 ≤ x ∧ x < r.1 + r.2 := Finset.mem_Ico

@[simp] theorem card_addrs (r : ℕ × ℕ) : (addrs r).card = r.2 := by
  rw [addrs, Nat.card_Ico, Nat.add_sub_cancel_left]

theorem apart_iff : Apart r s ↔ Disjoint (addrs r) (addrs s) := by
  rw [Finset.disjoint_left]
  constructor
  · intro h x hx hx'
    rw [mem_addrs] at hx hx'
    unfold Apart at h
    omega
  · intro h
    by_contra hn
    unfold Apart at hn
    -- the later of the two starts is an address of both
    apply h (a := max r.1 s.1) <;> rw [mem_addrs] <;> omega

theorem within_iff : Within r s ↔ addrs r ⊆ addrs s := by
  constructor
  · intro h x hx
    rw [mem_addrs] at hx ⊢
    unfold Within at h
    omega
  · intro h
    by_cases h0 : r.2 = 0
    · exact Or.inl h0
    · -- the first and the last address of `r`
      have h₁ := h (mem_addrs.mpr ⟨le_refl r.1, by omega⟩)
      have h₂ := h (mem_addrs.mpr (⟨by omega, by omega⟩ : r.1 ≤ r.1 + r.2 - 1 ∧ _))
      rw [mem_addrs] at h₁ h₂
      right
      omega

theorem Apart.symm (h : Apart r s) : Apart s r := by
  unfold Apart at *
  omega

theorem Within.refl (r : ℕ × ℕ) : Within r r := Or.inr ⟨le_refl _, le_refl _⟩

theorem Within.trans (h₁ : Within r s) (h₂ : Within s t) : Within r t := by
  unfold Within at *
  omega

/-- A range within one apart from `s` is apart from `s`. -/
theorem Apart.of_within (h : Apart r s) (hw : Within r' r) : Apart r' s := by
  unfold Apart Within at *
  omega

/-! ## The packing bound -/

/-- The addresses of a list of ranges. -/
def cover : List (ℕ × ℕ) → Finset ℕ
  | [] => ∅
  | r :: l => addrs r ∪ cover l

theorem mem_cover {x : ℕ} {l : List (ℕ × ℕ)} : x ∈ cover l ↔ ∃ r ∈ l, x ∈ addrs r := by
  induction l with
  | nil => simp [cover]
  | cons r l ih => simp [cover, ih]

theorem card_cover {l : List (ℕ × ℕ)} (h : l.Pairwise Apart) :
    (cover l).card = (l.map Prod.snd).sum := by
  induction l with
  | nil => rfl
  | cons r l ih =>
    obtain ⟨hr, hl⟩ := List.pairwise_cons.mp h
    have hdisj : Disjoint (addrs r) (cover l) := by
      rw [Finset.disjoint_left]
      intro x hx hx'
      obtain ⟨s, hs, hxs⟩ := mem_cover.mp hx'
      exact Finset.disjoint_left.mp (apart_iff.mp (hr s hs)) hx hxs
    rw [cover, Finset.card_union_of_disjoint hdisj, ih hl, card_addrs, List.map_cons,
      List.sum_cons]

/-- **The packing bound.** Ranges pairwise apart, all within `s`, are at most `s.2` long in
    all. -/
theorem sum_le_of_pairwise_apart {l : List (ℕ × ℕ)} (h : l.Pairwise Apart)
    (hw : ∀ r ∈ l, Within r s) : (l.map Prod.snd).sum ≤ s.2 := by
  have hsub : cover l ⊆ addrs s := by
    intro x hx
    obtain ⟨r, hr, hxr⟩ := mem_cover.mp hx
    exact within_iff.mp (hw r hr) hxr
  rw [← card_cover h, ← card_addrs s]
  exact Finset.card_le_card hsub

end Ranges
