import Mathlib

/-!
# `Sink::Write`: writing a whole `iovec` array

`io::Sink` (`io/io.h`) has one primitive, `WriteSome(v, len)`, which may accept any prefix
of the bytes of `v[0..len)` and returns how many it took. The interface's comment allows
`0` "that the buffer provided is empty". `Sink::Write` (`io/io.cc`) writes everything by
`ApplyExactly`: it calls `WriteSome` on the entries still to go, skips the entries that
were written whole, and finishes a partly written entry with single-entry calls. Every
call goes through `WriteSomeBytes`, which retries `EINTR` and turns a result of `0` into
`io_error`.

An `iovec` is modelled by its bytes (`iov_base` and `iov_len` together), an array by the
list of its entries, and the pointer `v` of `ApplyExactly` by the entries from `v` to
`endv`. A sink is its `WriteSome` on an explicit state. Both loops of `ApplyExactly` and
the retry loop of `WriteSomeBytes` run on explicit fuel; `none` is fuel run out, or a
pointer moved past the end of its array, where the source's behaviour is undefined.

Two sinks of the repository are modelled: `StringSink`, which takes everything, and the
test's `FakeSink` (`io/io_test.cc`), which takes a scripted number of bytes per call.
`write_zero_length_fails` runs both into the zero-length result: `Write` of an array
whose bytes are all written fails with `io_error`.
-/

set_option autoImplicit false

namespace Helio
namespace Io

/-- The `std::errc` values the code tests or sets, and any other error code. -/
inductive Errc where
  | ioError
  | interrupted
  | messageSize
  | other (code : ℕ)
  deriving DecidableEq, Repr

/-- `io::Result<size_t>`. -/
abbrev Result (α : Type) := Except Errc α

/-- An `iovec`: the bytes from `iov_base`, `iov_len` of them. -/
abbrev Iovec := List UInt8

/-- `Sink::WriteSome(v, len)` on a sink whose state is `σ`. -/
abbrev WriteSome (σ : Type) := σ → List Iovec → σ × Result ℕ

variable {σ : Type}

/-! ## The source -/

/-- `WriteSomeBytes(v, len, dest)`: `WriteSome` again while it fails with `EINTR`, and a
    success of `0` bytes reported as `io_error`. -/
def writeSomeBytes (writeSome : WriteSome σ) : ℕ → σ → List Iovec → Option (σ × Result ℕ)
  | 0, _, _ => none
  | fuel + 1, s, v =>
    match writeSome s v with
    | (s, .ok 0) => some (s, .error .ioError)
    | (s, .error .interrupted) => writeSomeBytes writeSome fuel s v
    | (s, r) => some (s, r)

/-- `while (v != endv && done >= v->iov_len) { done -= v->iov_len; ++v; }`: the entries
    written whole are dropped, and `done` becomes the bytes written of the next one. -/
def skipWritten : ℕ → List Iovec → ℕ × List Iovec
  | done, [] => (done, [])
  | done, e :: v => if e.length ≤ done then skipWritten (done - e.length) v else (done, e :: v)

/-- The `do ... while (next != base_end)` loop of `ApplyExactly`: single-entry calls on the
    unwritten rest of one entry. `some (s, e)` ends the loop, with `e` the error returned
    (`none` when the entry is finished). A result longer than the rest moves `next` past
    `base_end`, and the loop reads beyond the entry: undefined. -/
def finishEntry (func : σ → List Iovec → Option (σ × Result ℕ)) :
    ℕ → σ → Iovec → Option (σ × Option Errc)
  | 0, _, _ => none
  | fuel + 1, s, rest => do
    let (s, res) ← func s [rest]
    match res with
    | .error e => some (s, some e)
    | .ok n =>
      if rest.length < n then none
      else if rest.length = n then some (s, none)
      else finishEntry func fuel s (rest.drop n)

/-- `ApplyExactly(v, len, func)`: the state afterwards and the error returned (`none` for
    the empty `error_code`). -/
def applyExactly (func : σ → List Iovec → Option (σ × Result ℕ)) :
    ℕ → σ → List Iovec → Option (σ × Option Errc)
  | 0, _, _ => none
  | _ + 1, s, [] => some (s, none)
  | fuel + 1, s, e :: v => do
    let (s, res) ← func s (e :: v)
    match res with
    | .error err => some (s, some err)
    | .ok done =>
      match skipWritten done (e :: v) with
      | (0, v) => applyExactly func fuel s v
      -- `done` bytes left over past the last entry: `v->iov_base` at `endv`
      | (_ + 1, []) => none
      | (done, e :: v) => do
        let (s, err) ← finishEntry func fuel s (e.drop done)
        match err with
        | some err => some (s, some err)
        | none => applyExactly func fuel s v

/-- `Sink::Write(v, len)`. -/
def write (writeSome : WriteSome σ) (fuel : ℕ) (s : σ) (v : List Iovec) :
    Option (σ × Option Errc) :=
  applyExactly (writeSomeBytes writeSome fuel) fuel s v

/-! ## Two sinks -/

/-- `StringSink::WriteSome`: every entry is appended to `str_`. -/
def stringSink : WriteSome (List UInt8) := fun str v =>
  (v.foldl (fun str e => str ++ e) str, .ok (v.map List.length).sum)

/-- The `while (len)` loop of `FakeSink::WriteSome`: the limit left (`none` once it reached
    zero and `call_sz` was popped), the value so far and `io_res`. -/
def fakeSinkLoop (limit : ℕ) (value : List UInt8) (ioRes : ℕ) :
    List Iovec → Option ℕ × List UInt8 × ℕ
  | [] => (some limit, value, ioRes)
  | e :: v =>
    let ws := min limit e.length
    if limit - ws = 0 then (none, value ++ e.take ws, ioRes + ws)
    else fakeSinkLoop (limit - ws) (value ++ e.take ws) (ioRes + ws) v

/-- `FakeSink::WriteSome` of `io_test.cc`: the state is `call_sz` and `value`. -/
def fakeSink : WriteSome (List ℕ × List UInt8)
  | ([], value), _ => (([], value), .ok 0)
  | (limit :: callSz, value), v =>
    if v.length = 0 then ((limit :: callSz, value), .ok 0)
    else
      match fakeSinkLoop limit value 0 v with
      | (none, value, r) => ((callSz, value), .ok r)
      | (some limit, value, r) => ((limit :: callSz, value), .ok r)

/-- `IoTest.Write`: three ten-byte entries through call sizes `4, 10, 6, 10`; the sink
    ends with the thirty bytes in order and `Write` succeeds. -/
example :
    (write fakeSink 8 ([4, 10, 6, 10], [])
      [(List.range 10).map (·.toUInt8), (List.range 10).map (· + 10 |>.toUInt8),
        (List.range 10).map (· + 20 |>.toUInt8)]).map (fun r => (r.1.2, r.2)) =
      some ((List.range 30).map (·.toUInt8), none) := by
  decide

/-! ## Writing nothing fails -/

/-- **The failing input.** An array of one empty entry written to a `StringSink`:
    `WriteSome` accepts the empty concatenation and returns `0`, `WriteSomeBytes` reports
    `io_error`, and `Write` fails. The same after a partial write: `FakeSink` taking one
    byte per call writes the entry `[1, 2]` whole in two calls, and the empty entry after
    it draws a `0` that fails the `Write` although the sink has every byte. -/
theorem write_zero_length_fails :
    write stringSink 4 [] [[]] = some ([], some .ioError) ∧
    write fakeSink 4 ([1, 1], []) [[1, 2], []] = some (([], [1, 2]), some .ioError) := by
  decide

end Io
end Helio
