import Helio.Lib.Bytes
import Mathlib.Data.Vector.Basic

/-!
# Fixed-size elements laid out in memory

A list of elements of `w` bytes each, stored one after another from an address `base`: the
`i`-th element is the `w` bytes at `base + i * w`. An element may be left unspecified (`none`)
for storage that holds whatever bytes were there. A layout is kept by a write elsewhere, is
produced by a write of the elements' bytes, and moves along with a copy of the bytes under it.
-/

set_option autoImplicit false

namespace Bytes

variable {w : Nat} {m m' : Mem} {base : Nat}

/-- The elements of `l` lie in `m` from `base`, `w` bytes each; a `none` may hold any bytes. -/
def Laid (w : Nat) (m : Mem) (base : Nat) (l : List (Option (List.Vector UInt8 w))) : Prop :=
  ∀ i (v : List.Vector UInt8 w), l[i]? = some (some v) → readBytes m (base + i * w) w = v.toList

theorem lt_length_of_getElem_eq {α : Type} {l : List α} {i : Nat} {x : α} (h : l[i]? = some x) :
    i < l.length :=
  (List.getElem?_eq_some_iff.mp h).1

/-- The element at `i` ends by the end of the layout. -/
theorem end_le_of_getElem_eq {α : Type} {l : List α} {i : Nat} {x : α} (h : l[i]? = some x) :
    i * w + w ≤ l.length * w := by
  have := Nat.mul_le_mul_right w (lt_length_of_getElem_eq h)
  rwa [Nat.succ_mul] at this

theorem Laid.nil (m : Mem) (base : Nat) : Laid w m base [] := by
  intro i v h
  cases h

theorem laid_replicate_none (m : Mem) (base n : Nat) : Laid w m base (List.replicate n none) := by
  intro i v h
  rw [List.getElem?_replicate] at h
  split_ifs at h
  cases h

/-- Two layouts, the second starting where the first ends. -/
theorem Laid.append {l₁ l₂ : List (Option (List.Vector UInt8 w))} (h₁ : Laid w m base l₁)
    (h₂ : Laid w m (base + l₁.length * w) l₂) : Laid w m base (l₁ ++ l₂) := by
  intro i v hi
  rcases Nat.lt_or_ge i l₁.length with hlt | hge
  · rw [List.getElem?_append_left hlt] at hi
    exact h₁ i v hi
  · rw [List.getElem?_append_right hge] at hi
    have hoff : base + l₁.length * w + (i - l₁.length) * w = base + i * w := by
      rw [Nat.add_assoc, ← Nat.add_mul, Nat.add_sub_cancel' hge]
    rw [← hoff]
    exact h₂ _ v hi

theorem Laid.take {l : List (Option (List.Vector UInt8 w))} (h : Laid w m base l) (n : Nat) :
    Laid w m base (l.take n) := by
  intro i v hi
  rw [List.getElem?_take] at hi
  split_ifs at hi
  exact h i v hi

theorem Laid.drop {l : List (Option (List.Vector UInt8 w))} (h : Laid w m base l) (k : Nat) :
    Laid w m (base + k * w) (l.drop k) := by
  intro i v hi
  rw [List.getElem?_drop] at hi
  rw [Nat.add_assoc, ← Nat.add_mul]
  exact h (k + i) v hi

/-- A layout depends only on the bytes under it. -/
theorem Laid.of_agree {l : List (Option (List.Vector UInt8 w))} (h : Laid w m base l)
    (hm : ∀ q, base ≤ q → q < base + l.length * w → m' q = m q) : Laid w m' base l := by
  intro i v hi
  have hend := end_le_of_getElem_eq (w := w) hi
  rw [← h i v hi]
  apply readBytes_congr
  intro j hj
  apply hm <;> omega

theorem Laid.writeBytes_of_le {l : List (Option (List.Vector UInt8 w))} {p : Nat}
    (h : Laid w m base l) (bytes : List UInt8) (hp : base + l.length * w ≤ p) :
    Laid w (writeBytes m p bytes) base l :=
  h.of_agree fun _ _ hq => writeBytes_of_lt bytes (by omega)

theorem Laid.writeBytes_of_ge {l : List (Option (List.Vector UInt8 w))} {p : Nat}
    (h : Laid w m base l) (bytes : List UInt8) (hp : p + bytes.length ≤ base) :
    Laid w (writeBytes m p bytes) base l :=
  h.of_agree fun _ hq _ => Bytes.writeBytes_of_ge bytes (by omega)

/-- A copy of the bytes under a layout lays it out again at the destination. -/
theorem Laid.copy {l : List (Option (List.Vector UInt8 w))} {q : Nat} (h : Laid w m' q l)
    (m : Mem) (p : Nat) {n : Nat} (hn : l.length * w ≤ n) :
    Laid w (writeBytes m p (readBytes m' q n)) p l := by
  intro i v hi
  have hend := end_le_of_getElem_eq (w := w) hi
  rw [readBytes_writeBytes_inside m p _ (by rw [readBytes_length]; omega), readBytes_drop,
    readBytes_take (by omega)]
  exact h i v hi

/-! ## The bytes of a list of elements -/

@[simp] theorem length_flatten_toList (src : List (List.Vector UInt8 w)) :
    (src.map List.Vector.toList).flatten.length = src.length * w := by
  induction src with
  | nil => simp
  | cons x xs ih => simp [ih, Nat.succ_mul, Nat.add_comm]

@[simp] theorem length_flatten_replicate_toList (n : Nat) (v : List.Vector UInt8 w) :
    (List.replicate n v.toList).flatten.length = n * w := by
  have := length_flatten_toList (List.replicate n v)
  rwa [List.map_replicate, List.length_replicate] at this

/-- The `i`-th `w` bytes of the elements' bytes are the `i`-th element. -/
theorem take_drop_flatten_toList (src : List (List.Vector UInt8 w)) {i : Nat}
    (hi : i < src.length) :
    (((src.map List.Vector.toList).flatten).drop (i * w)).take w = src[i].toList := by
  induction src generalizing i with
  | nil => cases hi
  | cons x xs ih =>
    rw [List.map_cons, List.flatten_cons]
    cases i with
    | zero => simp
    | succ i =>
      rw [Nat.succ_mul, Nat.add_comm, ← List.drop_drop, List.drop_left' x.toList_length]
      exact ih (by simpa using hi)

/-- Writing the bytes of elements lays them out. -/
theorem laid_writeBytes_flatten (m : Mem) (p : Nat) (src : List (List.Vector UInt8 w)) :
    Laid w (writeBytes m p (src.map List.Vector.toList).flatten) p (src.map some) := by
  intro i v hi
  have hend := end_le_of_getElem_eq (w := w) hi
  rw [List.length_map] at hend
  rw [List.getElem?_map, Option.map_eq_some_iff] at hi
  obtain ⟨x, hx, hxv⟩ := hi
  obtain ⟨hlt, rfl⟩ := List.getElem?_eq_some_iff.mp hx
  cases hxv
  rw [readBytes_writeBytes_inside m p _ (by rw [length_flatten_toList]; exact hend)]
  exact take_drop_flatten_toList src hlt

theorem laid_writeBytes_single (m : Mem) (p : Nat) (v : List.Vector UInt8 w) :
    Laid w (writeBytes m p v.toList) p [some v] := by
  simpa using laid_writeBytes_flatten m p [v]

theorem laid_writeBytes_replicate (m : Mem) (p n : Nat) (v : List.Vector UInt8 w) :
    Laid w (writeBytes m p (List.replicate n v.toList).flatten) p (List.replicate n (some v)) := by
  simpa [List.map_replicate] using laid_writeBytes_flatten m p (List.replicate n v)

end Bytes
