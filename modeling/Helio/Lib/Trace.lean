import Mathlib

/-!
# Traces of events

A component that owns resources over time is specified by its trace, the list of what it has
done so far. The trace says, for instance, that a resource is released at most once, or that
once some event has happened another one does not happen again. A step appends its events at
the end, so each such fact is stated for a trace and kept by appending:

* `NotAfter a b l`: `b` does not occur after an occurrence of `a` in `l`. It holds of `[]`, and
  appending `e` keeps it unless `e` is `b` and `a` has occurred (`NotAfter.concat`).
* `count_concat_le_one`: an event that occurs at most once still does after appending another
  event, or the event itself when it has not occurred.
-/

set_option autoImplicit false

namespace Trace

variable {α : Type*}

/-- `b` does not occur after an occurrence of `a` in `l`. -/
def NotAfter (a b : α) (l : List α) : Prop := ∀ l₁ l₂, l = l₁ ++ a :: l₂ → b ∉ l₂

theorem NotAfter.nil (a b : α) : NotAfter a b [] := fun l₁ l₂ h => by
  cases l₁ <;> simp at h

/-- **Appending keeps `NotAfter a b`**, unless what is appended is `b` and `a` has occurred. -/
theorem NotAfter.concat {a b e : α} {l : List α} (h : NotAfter a b l) (he : e = b → a ∉ l) :
    NotAfter a b (l ++ [e]) := by
  intro l₁ l₂ heq hb
  rcases List.eq_nil_or_concat l₂ with rfl | ⟨l₂', e', rfl⟩
  · exact List.not_mem_nil hb
  · -- the occurrence of `a` is in `l`, and `l₂'` is what follows it there
    have heq' : l ++ [e] = (l₁ ++ a :: l₂') ++ [e'] := by simpa using heq
    obtain ⟨hl, he'⟩ := List.append_inj' heq' rfl
    rw [List.concat_eq_append] at hb
    rcases List.mem_append.mp hb with hb | hb
    · exact h l₁ l₂' hl hb
    · have hbe : e = b := by
        rw [List.mem_singleton] at hb
        simpa [hb] using he'
      exact he hbe (hl ▸ List.mem_append_right l₁ List.mem_cons_self)

theorem NotAfter.concat_of_ne {a b e : α} {l : List α} (h : NotAfter a b l) (he : e ≠ b) :
    NotAfter a b (l ++ [e]) :=
  h.concat fun h' => absurd h' he

/-- **An event that occurs at most once** still does after appending another one, or itself
    when it has not occurred. -/
theorem count_concat_le_one [BEq α] [LawfulBEq α] {a e : α} {l : List α} (h : l.count a ≤ 1)
    (he : e = a → a ∉ l) : (l ++ [e]).count a ≤ 1 := by
  rw [List.count_append, List.count_singleton]
  by_cases hea : e = a
  · subst hea
    simp [List.count_eq_zero_of_not_mem (he rfl)]
  · simpa [hea] using h

end Trace
