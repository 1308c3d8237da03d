import Mathlib

/-!
# Dividing words without a divide instruction

Two ways code divides a machine word, and the facts their correctness rests on.

* **By a multiplier.** To divide every `n` below some bound by a fixed `d`, multiply by
  `m`, a rounded-up `S / d` for a power of two `S`, and divide by `S`, a shift. The result
  is the quotient as long as the rounding error `m * d - S`, times `n`, stays below `S`
  (`mul_div_eq_div`). Everything a divisor-specific routine does (which power `S`, how `m`
  is rounded, how a multiplier one bit too wide is applied) reduces to this bound.
* **By schoolbook digits.** Long division in base `b` takes the quotient one digit at a
  time. Each digit is estimated from the two top digits of the partial remainder and the
  top digit of the divisor, then corrected down. When the divisor is normalised (its top
  digit at least `b / 2`) the estimate is never too small (`div_le_est`) and at most
  `b + 1` (`est_le`). The correction test on the estimate's remainder is the comparison of
  the estimate's product with the partial remainder (`lt_mul_iff`), and a remainder that
  reaches `b` means the estimate is low enough (`le_div_of_le_sub`). Two digits assemble
  into the quotient and remainder of the whole (`div_mod_two_digits`).

The lemmas are over `ℕ` and name no program; a routine on fixed-width words first shows
that its operations do not wrap, then uses them.
-/

set_option autoImplicit false

namespace WordDiv

/-! ## By a multiplier -/

/-- **Division by a rounded-up reciprocal.** If `m * d` exceeds `S` by an error whose
    product with `n` stays below `S`, multiplying by `m` and dividing by `S` divides by
    `d`. -/
theorem mul_div_eq_div {n d m S : ℕ} (hd : 0 < d) (hS : S ≤ m * d)
    (he : (m * d - S) * n < S) : m * n / S = n / d := by
  obtain ⟨e, hmd⟩ : ∃ e, m * d = S + e := ⟨m * d - S, by omega⟩
  rw [hmd, Nat.add_sub_cancel_left] at he
  apply Nat.div_eq_of_lt_le
  · -- the product is at least the quotient's multiple of `S`
    have hq : n / d * d ≤ n := Nat.div_mul_le_self n d
    have : n / d * S * d ≤ m * n * d := by
      calc n / d * S * d = n / d * d * S := by ring
        _ ≤ n * S := Nat.mul_le_mul_right S hq
        _ ≤ n * (S + e) := Nat.mul_le_mul_left n (Nat.le_add_right S e)
        _ = m * n * d := by rw [← hmd]; ring
    exact Nat.le_of_mul_le_mul_right this hd
  · -- and the error never carries it to the next multiple
    have hq : n + 1 ≤ (n / d + 1) * d := by
      have := Nat.lt_mul_div_succ n hd
      rw [Nat.mul_comm] at this
      omega
    have : m * n * d < (n / d + 1) * S * d := by
      calc m * n * d = S * n + e * n := by rw [Nat.mul_right_comm, hmd]; ring
        _ < S * n + S := by omega
        _ = S * (n + 1) := by ring
        _ ≤ S * ((n / d + 1) * d) := Nat.mul_le_mul_left S hq
        _ = (n / d + 1) * S * d := by ring
    exact Nat.lt_of_mul_lt_mul_right this

/-! ## By schoolbook digits

The divisor is `vn1 * b + vn0`, two digits, and the partial remainder `un * b + u` has the
two top digits `un` and the next digit `u`. -/

section Digits

variable {b vn1 vn0 un u : ℕ}

/-- **The estimate is never too small.** -/
theorem div_le_est (hu : u < b) (hvn1 : 0 < vn1) :
    (un * b + u) / (vn1 * b + vn0) ≤ un / vn1 := by
  have hb : 0 < b := by omega
  calc (un * b + u) / (vn1 * b + vn0) ≤ (un * b + u) / (b * vn1) :=
        Nat.div_le_div_left (by rw [Nat.mul_comm b]; omega) (Nat.mul_pos hb hvn1)
    _ = (un * b + u) / b / vn1 := (Nat.div_div_eq_div_mul _ _ _).symm
    _ = un / vn1 := by rw [Nat.add_comm, Nat.add_mul_div_right _ _ hb, Nat.div_eq_of_lt hu,
        Nat.zero_add]

/-- **A normalised divisor keeps the estimate below `b + 2`.** -/
theorem est_le (hnorm : b ≤ 2 * vn1) (hvn0 : vn0 < b) (hun : un < vn1 * b + vn0) :
    un / vn1 ≤ b + 1 := by
  have hvn1 : 0 < vn1 := by
    rcases Nat.eq_zero_or_pos vn1 with h | h
    · subst h
      omega
    · exact h
  have : un < (b + 2) * vn1 := by
    calc un < vn1 * b + b := by omega
      _ ≤ vn1 * b + 2 * vn1 := by omega
      _ = (b + 2) * vn1 := by ring
  have := (Nat.div_lt_iff_lt_mul hvn1).mpr this
  omega

/-- A partial remainder below the divisor has a quotient digit below `b`. -/
theorem div_lt_base (hu : u < b) (hun : un < vn1 * b + vn0) :
    (un * b + u) / (vn1 * b + vn0) < b := by
  apply (Nat.div_lt_iff_lt_mul (by omega)).mpr
  calc un * b + u < (un + 1) * b := by rw [Nat.add_mul, Nat.one_mul]; omega
    _ ≤ b * (vn1 * b + vn0) := by rw [Nat.mul_comm b]; exact Nat.mul_le_mul_right b hun

/-- **The correction test.** For an estimate `qh` whose multiple of the top digit fits in
    `un`, the test on its remainder `un - qh * vn1` says that `qh` times the divisor
    exceeds the partial remainder. -/
theorem lt_mul_iff {qh : ℕ} (hq : qh * vn1 ≤ un) :
    un * b + u < qh * (vn1 * b + vn0) ↔ b * (un - qh * vn1) + u < qh * vn0 := by
  obtain ⟨r, rfl⟩ : ∃ r, un = qh * vn1 + r := ⟨un - qh * vn1, by omega⟩
  rw [Nat.add_sub_cancel_left]
  have : (qh * vn1 + r) * b + u = qh * vn1 * b + (b * r + u) := by ring
  rw [this, Nat.mul_add, ← Nat.mul_assoc]
  omega

/-- **A remainder of at least `b` ends the correction**: an estimate of at most `b` is then
    no larger than the digit. -/
theorem le_div_of_le_sub {qh : ℕ} (hvn1 : 0 < vn1) (hvn0 : vn0 < b) (hq : qh * vn1 ≤ un)
    (hqb : qh ≤ b) (hr : b ≤ un - qh * vn1) : qh ≤ (un * b + u) / (vn1 * b + vn0) := by
  have hpos : 0 < vn1 * b + vn0 := by
    have : 0 < vn1 * b := Nat.mul_pos hvn1 (by omega)
    omega
  apply (Nat.le_div_iff_mul_le hpos).mpr
  have h1 : qh * vn0 < b * b := by
    calc qh * vn0 ≤ b * vn0 := Nat.mul_le_mul_right vn0 hqb
      _ < b * b := Nat.mul_lt_mul_of_pos_left hvn0 (by omega)
  have h2 : b * b ≤ b * (un - qh * vn1) := Nat.mul_le_mul_left b hr
  have : ¬ un * b + u < qh * (vn1 * b + vn0) := fun h => by
    have := (lt_mul_iff hq).mp h
    omega
  omega

end Digits

/-- **Two digits make the quotient.** The quotient digit of the top part and that of its
    remainder, extended by the next digit, are the quotient of the whole, and the last
    remainder is its remainder. -/
theorem div_mod_two_digits {b V X u q₁ r₁ q₀ r₀ : ℕ} (hV : 0 < V) (h₁ : X = q₁ * V + r₁)
    (h₀ : r₁ * b + u = q₀ * V + r₀) (hr₀ : r₀ < V) :
    (X * b + u) / V = q₁ * b + q₀ ∧ (X * b + u) % V = r₀ := by
  apply (Nat.div_mod_unique hV).mpr
  refine ⟨?_, hr₀⟩
  rw [h₁]
  calc r₀ + V * (q₁ * b + q₀) = q₁ * V * b + (q₀ * V + r₀) := by ring
    _ = (q₁ * V + r₁) * b + u := by rw [← h₀]; ring

end WordDiv
