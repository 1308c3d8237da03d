import Helio.Io.ProcReader

/-!
# `ReadAllPosix`: a file range into an `iovec` array

`ReadAllPosix(fd, offset, v, len)` (`io/file.cc`) reads the file from `offset` into the
entries of `v`. It calls `preadv` on the entries from `v` on. It passes the entries the count
completes. When the count ends inside an entry, `ReadAll` finishes that entry with `pread`
before the vectored reads go on. Both loops retry on `EINTR`, stop at a count of `0` (the end
of the file), and return `-1` on any other error. `PosixReadFile::Read` calls it after two
argument checks, and `FileSource::ReadSome` moves its offset on by what it returns.

The model keeps an entry as the bytes of its buffer, and the array as the entries passed
(`done`) and those from `v` on (`rest`). The kernel is an oracle: the `i`-th call is answered
by `answers i`. `ok k` returns the next `min k n` bytes of the file for a request of `n`, and
`error e` returns `-1` with `errno = e`. A `ssize_t` result is `.ok n` for `n` and
`.error e` for `-1` with `errno = e`. Storing past the end of an entry's buffer is undefined
(`none`). Each loop runs on `fuel`, since a kernel that answers `EINTR` forever keeps it
going.

`ReadAll` asks every `pread` for `len`, the bytes of the whole remainder, not for what is
left of it. After a short read the next `pread` may return more than the entry has room for
and store past its end. That is allowed under a contract where each call returns no more
than it was asked for (`read_all_posix_overflows`).
-/

set_option autoImplicit false

namespace Helio
namespace Io

/-- `EINTR`. -/
def eintr : ℕ := 4

/-- The bytes that a `pread` or `preadv` of `n` bytes at `offset` reads of the file `file` when
    the kernel answers `ok k`. -/
def preadBytes (file : List UInt8) (offset n k : ℕ) : List UInt8 := (file.drop offset).take (min k n)

/-- Storing `bytes` into the buffer `buf` from position `pos`. Past the end of the buffer is
    memory the entry does not own, which is undefined. -/
def writeAt (buf : List UInt8) (pos : ℕ) (bytes : List UInt8) : Option (List UInt8) :=
  if pos + bytes.length ≤ buf.length then
    some (buf.take pos ++ bytes ++ buf.drop (pos + bytes.length))
  else none

/-- How `preadv` stores what it read: into the entries in order. -/
def scatter : List Iovec → List UInt8 → List Iovec
  | [], _ => []
  | e :: es, bytes => (bytes.take e.length ++ e.drop bytes.length) :: scatter es (bytes.drop e.length)

/-- `ReadAll(fd, offset, next, len)`, `next` being position `pos` of the entry `buf`, from the
    `i`-th answer on: the index of the next answer, the entry, and the result. -/
def readAll (file : List UInt8) (answers : ℕ → ReadAnswer) (len : ℕ) :
    ℕ → ℕ → ℕ → List UInt8 → ℕ → ℕ → Option (ℕ × List UInt8 × Except ℕ ℕ)
  | 0, _, _, _, _, _ => none
  | fuel + 1, i, offset, buf, pos, readTotal =>
    match answers i with
    | .error e =>
      if e = eintr then readAll file answers len fuel (i + 1) offset buf pos readTotal
      else some (i + 1, buf, .error e)
    | .ok k =>
      -- every `pread` asks for `len`
      let bytes := preadBytes file offset len k
      if bytes.length = 0 then some (i + 1, buf, .ok readTotal)
      else do
        let buf ← writeAt buf pos bytes
        let readTotal := readTotal + bytes.length
        if readTotal = len then some (i + 1, buf, .ok readTotal)
        else
          readAll file answers len fuel (i + 1) (offset + bytes.length) buf (pos + bytes.length)
            readTotal

/-- The `while (len > 0 && v->iov_len <= size_t(read))` loop: the entries that a count of
    `read` bytes completes pass from `rest` to `done`. -/
def passCompleted : ℕ → List Iovec → List Iovec → ℕ × List Iovec × List Iovec
  | read, done, [] => (read, done, [])
  | read, done, e :: rest =>
    if e.length ≤ read then passCompleted (read - e.length) (done ++ [e]) rest
    else (read, done, e :: rest)

/-- The `do … while (len > 0)` loop of `ReadAllPosix` from the `i`-th answer on, `rest` being
    the entries from `v` on and `done` those before it: the index of the next answer, the
    entries, and the result. -/
def readAllPosixLoop (file : List UInt8) (answers : ℕ → ReadAnswer) (offset : ℕ) :
    ℕ → ℕ → List Iovec → List Iovec → ℕ → Option (ℕ × List Iovec × Except ℕ ℕ)
  | 0, _, _, _, _ => none
  | fuel + 1, i, done, rest, readTotal =>
    match answers i with
    | .error e =>
      -- `continue` goes to the test `len > 0`
      if e = eintr then
        if rest = [] then some (i + 1, done, .ok readTotal)
        else readAllPosixLoop file answers offset fuel (i + 1) done rest readTotal
      else some (i + 1, done ++ rest, .error e)
    | .ok k =>
      let bytes := preadBytes file (offset + readTotal) (rest.map List.length).sum k
      if bytes.length = 0 then some (i + 1, done ++ rest, .ok readTotal)
      else
        let readTotal := readTotal + bytes.length
        match passCompleted bytes.length done (scatter rest bytes) with
        | (0, done, rest) =>
          if rest = [] then some (i + 1, done, .ok readTotal)
          else readAllPosixLoop file answers offset fuel (i + 1) done rest readTotal
        | (read + 1, done, rest) =>
          match rest with
          -- `v->iov_base` past the array, which a count never reaches
          | [] => none
          | e :: rest =>
            -- finish the rest of the entry
            let count := e.length - (read + 1)
            match readAll file answers count fuel (i + 1) (offset + readTotal) e (read + 1) 0 with
            | none => none
            | some (i, e, .error err) => some (i, done ++ e :: rest, .error err)
            | some (i, e, .ok r) =>
              if r < count then some (i, done ++ e :: rest, .ok (readTotal + r))
              else if rest = [] then some (i, done ++ [e], .ok (readTotal + r))
              else readAllPosixLoop file answers offset fuel i (done ++ [e]) rest (readTotal + r)

/-- `ReadAllPosix(fd, offset, v, len)` on the file `file`, with `fuel` rounds for each loop:
    the entries after it, and its result. -/
def readAllPosix (file : List UInt8) (answers : ℕ → ReadAnswer) (fuel offset : ℕ)
    (v : List Iovec) : Option (List Iovec × Except ℕ ℕ) :=
  (readAllPosixLoop file answers offset fuel 0 [] v 0).map fun r => r.2

/-- The errors of `PosixReadFile::Read`: `errc::argument_out_of_domain`, and
    `StatusFileError()`, the `errno` of the failed call. -/
inductive ReadError where
  | argumentOutOfDomain
  | fileError (errno : ℕ)
  deriving DecidableEq, Repr

/-- `PosixReadFile::Read(offset, v, len)`, `file_size_` being the length of the file. -/
def posixReadFileRead (file : List UInt8) (answers : ℕ → ReadAnswer) (fuel offset : ℕ)
    (v : List Iovec) : Option (List Iovec × Except ReadError ℕ) :=
  if v = [] then some (v, .ok 0)
  else if file.length < offset then some (v, .error .argumentOutOfDomain)
  else (readAllPosix file answers fuel offset v).map fun r => (r.1, r.2.mapError .fileError)

/-- `FileSource`: its `offset_`, over a `PosixReadFile`. -/
structure FileSource where
  offset : ℕ

/-- `FileSource::ReadSome(v, len)`: a read at `offset_`, which moves on by the count. -/
def FileSource.readSome (src : FileSource) (file : List UInt8) (answers : ℕ → ReadAnswer)
    (fuel : ℕ) (v : List Iovec) : Option (FileSource × List Iovec × Except ReadError ℕ) :=
  (posixReadFileRead file answers fuel src.offset v).map fun r =>
    match r.2 with
    | .ok n => (⟨src.offset + n⟩, r.1, .ok n)
    | .error e => (src, r.1, .error e)

/-! ## The failing input -/

/-- **`ReadAll` stores past the entry.** A file of the ten bytes `10, …, 19` read from `0` into
    one entry of three bytes. `preadv` returns `1` byte, so `ReadAll` finishes the entry,
    asking for `2`. The first `pread` returns `1`, and the second, again asked for `2` with one
    byte of the entry left, returns `2`. Every count is positive and within its request, yet
    the store goes past the entry. No fuel makes `ReadAllPosix` return `3` with the entry
    `10, 11, 12`. -/
theorem read_all_posix_overflows :
    (∀ i k, (if i = 2 then ReadAnswer.ok 2 else .ok 1) = .ok k → 0 < k) ∧
      preadBytes [10, 11, 12, 13, 14, 15, 16, 17, 18, 19] 2 2 2 = [12, 13] ∧
      writeAt [10, 11, 0] 2 [12, 13] = none ∧
      ∀ fuel, readAllPosix [10, 11, 12, 13, 14, 15, 16, 17, 18, 19]
        (fun i => if i = 2 then .ok 2 else .ok 1) fuel 0 [[0, 0, 0]] = none := by
  refine ⟨fun i k h => ?_, rfl, rfl, fun fuel => ?_⟩
  · split at h <;> (cases h; decide)
  · rcases fuel with _ | _ | _ | fuel <;> rfl

end Io
end Helio
