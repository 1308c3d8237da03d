import Helio.Io.Sink

/-!
# `LineReader`: lines across page-sized reads

`io::LineReader` (`io/line_reader.cc`) reads its source a page at a time into `buf_`,
`page_size_ - 1` bytes at most, and writes a sentinel `'\n'` after the data so that the
search for the end of a line never runs off it. `Next` has a fast path and a slow one.
The fast path finds a `'\n'` before the sentinel, strips a `'\r'` just before it
(`ptr[-1]`) and returns the line in place. The slow path copies a line that reaches the
end of the data into a scratch string and reads on. A short read means the end of the
file.

The model follows `Next` statement by statement over the buffer as a list of bytes, with
`next_` and `end_` as offsets into it. The source is a `BytesSource` over a byte string.
Its `ReadSome` into the page returns the next `min(page_size - 1, remaining)` bytes and
then `0`: a file. The `while (true)` loop runs on explicit
fuel.

`specLines` says what the lines of a string are, the lines `Next` is meant to return. `crlf_split_across_reads`
is a string whose `"\r\n"` falls across the first page boundary when `buf_log` is 11 and
not when it is 12. With 11 the `'\r'` ends the first read and the `'\n'` starts the next.
The slow path has already copied the `'\r'` into the scratch string, and the test
`ptr > next_` that guards the look at `ptr[-1]` fails. The line comes back with its `'\r'`.
-/

set_option autoImplicit false

namespace Helio
namespace Io

/-- A `BytesSource`: its bytes and `offs_`. -/
structure BytesSource where
  bytes : List UInt8
  offs : ℕ

/-- `BytesSource::ReadSome` into one range of `len` bytes (`ReadSomeBytes` with one
    `iovec`): the bytes copied, and the source after. -/
def BytesSource.readSome (src : BytesSource) (len : ℕ) : List UInt8 × BytesSource :=
  if src.offs < src.bytes.length then
    let readSz := min (src.bytes.length - src.offs) len
    ((src.bytes.drop src.offs).take readSz, { src with offs := src.offs + readSz })
  else ([], src)

/-- `kEofMask`, the bit of `line_num_` that records the end of the stream. -/
def kEofMask : ℕ := 2 ^ 63

/-- The fields of a `LineReader` that `Next` reads or writes. `buf` is `buf_`, and
    `nextPos` and `endPos` are `next_` and `end_` as offsets into it. -/
structure LineReader where
  source : BytesSource
  lineNum : ℕ
  lineLenLimit : ℕ
  buf : List UInt8
  nextPos : ℕ
  endPos : ℕ
  pageSize : ℕ
  scratch : List UInt8
  status : Option Errc

/-- The bytes of `buf` in `[a, b)`. -/
def slice (buf : List UInt8) (a b : ℕ) : List UInt8 := (buf.drop a).take (b - a)

/-- `memchr(buf + p, '\n', n)`: the offset of the first newline among the `n` bytes from
    `p`, `none` for a null pointer. -/
def memchr (buf : List UInt8) (p n : ℕ) : Option ℕ :=
  (((buf.drop p).take n).findIdx? (· == 10)).map (p + ·)

namespace LineReader

/-- `LineReader(source, ownership, buf_log)`: `CHECK(buf_log > 10 && buf_log < 28)`, a page
    of `1 << buf_log` bytes with `'\n'` at its start, `next_ = end_ = buf_`, and
    `line_len_limit_ = -1`. The page is not initialised by `new char[]`; the model fills
    it with zeros, which `Next` never reads before writing. -/
def init (source : BytesSource) (bufLog : ℕ) : Option LineReader :=
  if 10 < bufLog ∧ bufLog < 28 then
    some ⟨source, 0, 2 ^ 64 - 1, (List.replicate (2 ^ bufLog) 0).set 0 10, 0, 0, 2 ^ bufLog,
      [], none⟩
  else none

/-- `line_num()`. -/
def lineNumber (r : LineReader) : ℕ := r.lineNum % kEofMask

/-- Found EOL at `ptr`: a `'\r'` just before it inside the data is stripped, the line
    is cut with `'\0'`, and it is returned from the page, or appended to the scratch
    string when the line began in an earlier page. -/
def found (r : LineReader) (ptr : ℕ) (touched : Bool) : LineReader × Option (List UInt8) :=
  let cr := decide (r.nextPos < ptr) && r.buf.getD (ptr - 1) 0 == 13
  let ptr := if cr then ptr - 1 else ptr
  let buf := r.buf.set ptr 0
  let line := if touched then r.scratch ++ slice buf r.nextPos ptr else slice buf r.nextPos ptr
  ({ r with
      lineNum := r.lineNum + 1
      buf := buf
      nextPos := ptr + (if cr then 2 else 1)
      scratch := if touched then line else r.scratch }, some line)

/-- After the loop: a line accumulated in the scratch string is returned and counted;
    otherwise `Next` returns false. -/
def finish (r : LineReader) (touched : Bool) : LineReader × Option (List UInt8) :=
  if touched then ({ r with lineNum := r.lineNum + 1 }, some r.scratch) else (r, none)

/-- The body of `while (true)` up to `ReadSome`: `.inl` ends `Next` with its result, `.inr`
    goes on to read, with `touched_scratch`. `none` is a search that found no newline
    before the sentinel, which the sentinel rules out. -/
def scan (r : LineReader) (touched : Bool) :
    Option ((LineReader × Option (List UInt8)) ⊕ (LineReader × Bool)) :=
  match memchr r.buf r.nextPos (r.endPos - r.nextPos + 1) with
  | none => none
  | some ptr =>
    if ptr < r.endPos then some (.inl (r.found ptr touched))
    else if r.nextPos ≠ r.endPos then
      let partLen := r.endPos - r.nextPos
      -- the length checks of the two branches on `touched_scratch`
      if r.lineLenLimit ≤ (if touched then partLen + r.scratch.length else partLen) then
        some (.inl ({ r with status := some .messageSize }, none))
      else
        let r := { r with
          scratch := (if touched then r.scratch else []) ++ slice r.buf r.nextPos r.endPos
          nextPos := r.endPos }
        -- a read shorter than the page: the end of the stream
        if r.endPos ≠ r.pageSize - 1 then
          some (.inl ({ r with lineNum := r.lineNum ||| kEofMask }.finish true))
        else some (.inr (r, true))
    else some (.inr (r, touched))

/-- The `while (true)` loop of `Next`, `touched_scratch` carried from one pass to the
    next. -/
def nextLoop : ℕ → LineReader → Bool → Option (LineReader × Option (List UInt8))
  | 0, _, _ => none
  | fuel + 1, r, touched => do
    match ← r.scan touched with
    | .inl res => some res
    | .inr (r, touched) =>
      let (chunk, source) := r.source.readSome (r.pageSize - 1)
      if chunk.length = 0 then
        some ({ r with source, lineNum := r.lineNum ||| kEofMask }.finish touched)
      else
        -- the data at the start of the page, and the sentinel after it
        nextLoop fuel { r with
          source := source
          buf := (chunk ++ r.buf.drop chunk.length).set chunk.length 10
          nextPos := 0
          endPos := chunk.length } touched

/-- `Next(&result)`: the reader after, and the line, `none` when `Next` returns false. -/
def next (fuel : ℕ) (r : LineReader) : Option (LineReader × Option (List UInt8)) :=
  nextLoop fuel r false

/-- `Next` until it returns false, at most `calls` times: the lines and the reader. -/
def readLines (fuel : ℕ) : ℕ → LineReader → Option (List (List UInt8) × LineReader)
  | 0, _ => none
  | calls + 1, r => do
    let (r, res) ← r.next fuel
    match res with
    | some line =>
      let (lines, r) ← readLines fuel calls r
      some (line :: lines, r)
    | none => some ([], r)

end LineReader

/-- The lines of `s`: the pieces between `'\n'`s, each without
    one trailing `'\r'`, and then the last piece if it is not empty. -/
def specLines (s : List UInt8) : List (List UInt8) :=
  let pieces := s.splitOn 10
  pieces.dropLast.map (fun l => if l.getLast? = some 13 then l.dropLast else l) ++
    (pieces.getLast?.filter (· ≠ [])).toList

/-- `2046` letters, then `"\r\n"`. -/
def crlfInput : List UInt8 := List.replicate 2046 97 ++ [13, 10]

/-- **The failing input.** With `buf_log = 11` the first read takes the `2047` bytes up to
    and including the `'\r'`, and the `'\n'` comes in the second read. The one line comes
    back with the `'\r'`. With `buf_log = 12` the whole string is in one read and the
    `'\r'` is stripped, as `specLines` has it. -/
theorem crlf_split_across_reads :
    ((LineReader.init ⟨crlfInput, 0⟩ 11).bind (LineReader.readLines 4 3)).map Prod.fst =
      some [List.replicate 2046 97 ++ [13]] ∧
    ((LineReader.init ⟨crlfInput, 0⟩ 12).bind (LineReader.readLines 4 3)).map Prod.fst =
      some [List.replicate 2046 97] ∧
    specLines crlfInput = [List.replicate 2046 97] := by
  refine ⟨by decide +kernel, by decide +kernel, by decide +kernel⟩

end Io
end Helio
