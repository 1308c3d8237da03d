import Mathlib.Data.List.Chain
import Mathlib.Data.List.Infix

/-!
# Neighbours in a list

A structure threaded through `next` pointers (a linked queue, say) is described by the list
of its nodes in order: `b` follows `a` when `[a, b]` is an infix of the list, and "each node
points to the one after it" is `List.IsChain`. What a proof about such a structure asks of
lists is collected here:

* **in a list without duplicates a node has one successor at most** (`Nodup.infix_pair_unique`),
  the last node has none (`Nodup.not_infix_pair_of_getLast`), and a list whose first and
  last element agree is that one element (`Nodup.eq_singleton`);
* a pair that does not start at the front is a pair of the tail (`infix_pair_of_cons_of_ne`);
* appending after the last node adds the pair (last, new one) (`infix_pair_concat`);
* a chain survives any change of the relation on pairs that are not neighbours in the list
  (`IsChain.imp_infix`).
-/

set_option autoImplicit false

namespace List

variable {α : Type*}

theorem infix_pair_cons_iff {a b x : α} {l : List α} :
    [a, b] <:+: x :: l ↔ (a = x ∧ l.head? = some b) ∨ [a, b] <:+: l := by
  rw [infix_cons_iff, cons_prefix_cons]
  cases l with
  | nil => simp
  | cons y l => simp [eq_comm]

theorem infix_pair_of_cons_of_ne {a b x : α} {l : List α} (h : [a, b] <:+: x :: l)
    (hne : a ≠ x) : [a, b] <:+: l := by
  rcases infix_pair_cons_iff.mp h with ⟨rfl, _⟩ | h
  · exact absurd rfl hne
  · exact h

theorem infix_pair_concat {a b : α} {l : List α} (h : l.getLast? = some a) :
    [a, b] <:+: l ++ [b] := by
  obtain ⟨l', rfl⟩ := getLast?_eq_some_iff.mp h
  exact ⟨l', [], by simp⟩

namespace Nodup

/-- In a list without duplicates a node has at most one successor. -/
theorem infix_pair_unique {a b c : α} {l : List α} (hl : l.Nodup) (h₁ : [a, b] <:+: l)
    (h₂ : [a, c] <:+: l) : b = c := by
  induction l with
  | nil => simp at h₁
  | cons x l ih =>
    rw [nodup_cons] at hl
    rcases infix_pair_cons_iff.mp h₁ with ⟨rfl, hb⟩ | h₁ <;>
      rcases infix_pair_cons_iff.mp h₂ with ⟨hx, hc⟩ | h₂
    · rw [hb] at hc
      exact Option.some.inj hc
    -- `a` is the front and also sits in the tail: a duplicate
    · exact absurd (h₂.mem (mem_cons_self ..)) hl.1
    · exact absurd (hx ▸ h₁.mem (mem_cons_self ..)) hl.1
    · exact ih hl.2 h₁ h₂

/-- The last node of a list without duplicates has no successor. -/
theorem not_infix_pair_of_getLast {a b : α} {l : List α} (hl : l.Nodup)
    (hlast : l.getLast? = some a) : ¬ [a, b] <:+: l := by
  induction l with
  | nil => simp at hlast
  | cons x l ih =>
    intro h
    rw [nodup_cons] at hl
    cases l with
    | nil =>
      rcases infix_pair_cons_iff.mp h with ⟨_, hb⟩ | h
      · simp at hb
      · simpa using h.length_le
    | cons y l =>
      rw [getLast?_cons_cons] at hlast
      rcases infix_pair_cons_iff.mp h with ⟨rfl, _⟩ | h
      -- the front is the last node again: a duplicate
      · exact hl.1 (mem_of_getLast? hlast)
      · exact ih hl.2 hlast h

/-- A list without duplicates whose first and last element agree is that one element. -/
theorem eq_singleton {a : α} {l : List α} (hl : l.Nodup) (hhead : l.head? = some a)
    (hlast : l.getLast? = some a) : l = [a] := by
  cases l with
  | nil => simp at hhead
  | cons x l =>
    simp only [head?_cons, Option.some.injEq] at hhead
    subst hhead
    cases l with
    | nil => rfl
    | cons y l =>
      rw [getLast?_cons_cons] at hlast
      exact absurd (mem_of_getLast? hlast) (nodup_cons.mp hl).1

end Nodup

/-- A chain survives a change of relation that agrees on the neighbours of the list. -/
theorem IsChain.imp_infix {R S : α → α → Prop} {l : List α} (h : IsChain R l)
    (H : ∀ a b, [a, b] <:+: l → R a b → S a b) : IsChain S l := by
  induction h with
  | nil => exact .nil
  | singleton a => exact .singleton a
  | @cons_cons a b l hr _ ih =>
    refine .cons_cons (H a b ⟨[], l, rfl⟩ hr) (ih fun c d hcd => H c d ?_)
    exact hcd.trans (suffix_cons a _).isInfix

end List
