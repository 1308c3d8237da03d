import Mathlib.Data.Rat.Floor

/-!
# Binary floating-point rounding

A C++ expression over `float` or `double` rounds after every operation: the exact result is
replaced by the nearest number with `p` significant bits (`p = 24` for `float`, `p = 53` for
`double`), a tie going to the one whose last bit is even. On finite values in the normal
range of the format that is all IEEE 754 arithmetic does, so an expression such as
`n * 1.2f + 1.0f` is a composition of `round 24` with the exact rational operations.

`round p q` is that rounding for a rational `q ≥ 0`. It is computable, so the kernel can
evaluate a concrete expression: `1.2f` is `round 24 (12 / 10)`, and whether a product
still fits in an integer type is a comparison of two rationals.
-/

set_option autoImplicit false

namespace Binary

/-- `⌊log₂ q⌋` for a positive rational `q`, from the bit lengths of its numerator and
    denominator, which fix it up to one. -/
def log2 (q : ℚ) : ℤ :=
  let e : ℤ := (q.num.toNat.log2 : ℤ) - q.den.log2
  if (2 : ℚ) ^ e ≤ q then e else e - 1

/-- The integer nearest to `q`, a tie going to the even one. -/
def roundEven (q : ℚ) : ℤ :=
  let f := ⌊q⌋
  if q - f < 1 / 2 then f
  else if 1 / 2 < q - f then f + 1
  else if f % 2 = 0 then f else f + 1

/-- The number with `p` significant bits nearest to `q ≥ 0`, ties to even: the value of an
    IEEE operation of precision `p` whose exact result is `q`, in the normal range. -/
def round (p : ℕ) (q : ℚ) : ℚ :=
  if q ≤ 0 then 0
  else
    -- scale `q` into `[2 ^ (p - 1), 2 ^ p)`, where the representable numbers are the integers
    let e := log2 q + 1 - p
    roundEven (q / 2 ^ e) * 2 ^ e

-- the `float` literal `1.2f`
example : round 24 (12 / 10) = 10066330 / 2 ^ 23 := by decide +kernel

end Binary
