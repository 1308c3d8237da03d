import Helio.Base.IoBuf
import Mathlib.Data.Vector.Basic

/-!
# `PODArray`: elements of `sizeof(T)` bytes in one block of a memory resource

`PODArrayBase<ELEM_SIZE, ALIGNMENT>` (`base/pmr/pod_array.h`) keeps three pointers into one
block of its memory resource `mr_`: `c_start_`, `c_end_` and `c_end_of_storage_`. Every
operation works on bytes and scales by `ELEM_SIZE` where it counts elements: `size()` and
`capacity()` divide the byte distances by it, `byte_size(n)` multiplies. A new block is
`bit_ceil` of the bytes asked for, with `ALIGNMENT`, and `realloc` copies the bytes in use over
and frees the old block. `PODArray<T, ALIGNMENT>` adds the element operations on top.

The model keeps `c_start_` as an address (`0` for `nullptr`), the other two pointers as byte
offsets from it, the bytes of the block, and `mr_`. A memory resource is an oracle: each
allocation is answered by a `Block`, an address and the bytes it holds, and every call on a
resource is an `Event`. An element is the `sizeof(T)` bytes of a `T`. Writing outside the block,
moving `c_end_` past `c_end_of_storage_` and `pop_back` on an empty array are undefined
(`none`), as is `bit_ceil` of more than `2 ^ 63`.

A program's arrays are variables of a `Heap`, on which the constructors, `swap`, the move
constructor, the move assignment and the destructor act.
-/

set_option autoImplicit false

namespace Helio

namespace Pmr

/-- A `T`: its `sizeof(T)` bytes. -/
abbrev Elem (E : ℕ) := List.Vector UInt8 E

/-- What `memory_resource::allocate` hands out: the address of the block and its bytes. -/
structure Block where
  addr : ℕ
  bytes : Bytes.Mem

/-- A call on a memory resource. -/
inductive Event where
  | allocate (mr bytes alignment addr : ℕ)
  | deallocate (mr addr bytes alignment : ℕ)
  deriving DecidableEq, Repr

/-- `std::pmr::get_default_resource()`. -/
def defaultResource : ℕ := 0

/-- `PODArrayBase<ELEM_SIZE, ALIGNMENT>`: `c_start_` (`0` for `nullptr`), `c_end_ - c_start_`
    and `c_end_of_storage_ - c_start_` in bytes, the bytes of the block, and `mr_`. -/
structure PODArray (E A : ℕ) where
  start : ℕ
  used : ℕ
  storage : ℕ
  bytes : Bytes.Mem
  mr : ℕ

namespace PODArray

variable {E A : ℕ}

/-- `byte_size(num_elements)`, a `size_t`. -/
def byteSize (E n : ℕ) : ℕ := n * E % 2 ^ 64

/-- `minimum_memory_for_elements(num_elements)`. -/
def minimumMemoryForElements (E A n : ℕ) : ℕ := max A (byteSize E n)

/-- `capacity()`. -/
def capacity (a : PODArray E A) : ℕ := a.storage / E

/-- `size()`. -/
def size (a : PODArray E A) : ℕ := a.used / E

/-- The elements `[begin(), end())`. -/
def elements (a : PODArray E A) : List (List UInt8) :=
  (List.range a.size).map fun i => Bytes.readBytes a.bytes (i * E) E

/-- `PODArray(mr)`: no block yet; `mr_` is `mr`, or the default resource for `nullptr`. -/
def create (mr : Option ℕ) : PODArray E A := ⟨0, 0, 0, fun _ => 0, mr.getD defaultResource⟩

/-- `alloc(bytes)`: a block of `bit_ceil(bytes)` bytes, empty. -/
def alloc (a : PODArray E A) (bytes : ℕ) (blk : Block) : Option (PODArray E A × List Event) := do
  let b ← IoBuf.bitCeil bytes
  pure ({ a with start := blk.addr, used := 0, storage := b, bytes := blk.bytes },
    [.allocate a.mr b A blk.addr])

/-- `dealloc()`, which the destructor calls. -/
def dealloc (a : PODArray E A) : List Event :=
  if a.start = 0 then [] else [.deallocate a.mr a.start a.storage A]

/-- `realloc(bytes)`: a block of `bit_ceil(bytes)` bytes, the bytes in use copied into it,
    and the old block freed. -/
def realloc (a : PODArray E A) (bytes : ℕ) (blk : Block) : Option (PODArray E A × List Event) :=
  if a.start = 0 then a.alloc bytes blk
  else do
    let b ← IoBuf.bitCeil bytes
    -- `memcpy(new_start, c_start_, sz)` into the new block
    if a.used ≤ b then
      pure ({ a with
          start := blk.addr
          storage := b
          bytes := Bytes.writeBytes blk.bytes 0 (Bytes.readBytes a.bytes 0 a.used) },
        [.allocate a.mr b A blk.addr, .deallocate a.mr a.start a.storage A])
    else none

/-- `reserve(n)`. -/
def reserve (a : PODArray E A) (n : ℕ) (blk : Block) : Option (PODArray E A × List Event) :=
  if n > a.capacity then a.realloc (minimumMemoryForElements E A n) blk else some (a, [])

/-- `c_end_ = c_start_ + bytes`. -/
def setEnd (a : PODArray E A) (bytes : ℕ) : Option (PODArray E A) :=
  if bytes ≤ a.storage then some { a with used := bytes } else none

/-- A store of `bs` from byte `p` of the block. -/
def write (a : PODArray E A) (p : ℕ) (bs : List UInt8) : Option (PODArray E A) :=
  if p + bs.length ≤ a.storage then some { a with bytes := Bytes.writeBytes a.bytes p bs }
  else none

/-- `resize_assume_reserved(n)`. -/
def resizeAssumeReserved (a : PODArray E A) (n : ℕ) : Option (PODArray E A) :=
  a.setEnd (byteSize E n)

/-- `resize(n)`. -/
def resize (a : PODArray E A) (n : ℕ) (blk : Block) : Option (PODArray E A × List Event) := do
  let (a, ev) ← a.reserve n blk
  let a ← a.resizeAssumeReserved n
  pure (a, ev)

/-- The base class's `resize_fill(n)`: `memset(c_end_, 0, n - old_size)` clears `n - old_size`
    bytes. -/
def resizeFillZero (a : PODArray E A) (n : ℕ) (blk : Block) :
    Option (PODArray E A × List Event) := do
  let old := a.size
  let (a, ev) ← if n > old then do
      let (a, ev) ← a.reserve n blk
      let a ← a.write a.used (List.replicate (n - old) 0)
      pure (a, ev)
    else pure (a, [])
  let a ← a.setEnd (byteSize E n)
  pure (a, ev)

/-- `resize_fill(n, value)`: `std::fill` of the `n - old_size` new elements. -/
def resizeFill (a : PODArray E A) (n : ℕ) (value : Elem E) (blk : Block) :
    Option (PODArray E A × List Event) := do
  let old := a.size
  let (a, ev) ← if n > old then do
      let (a, ev) ← a.reserve n blk
      let a ← a.write a.used (List.replicate (n - old) value.toList).flatten
      pure (a, ev)
    else pure (a, [])
  let a ← a.setEnd (byteSize E n)
  pure (a, ev)

/-- The private `reserve()` of a full array: the first block, or one for twice the capacity. -/
def reserveNext (a : PODArray E A) (blk : Block) : Option (PODArray E A × List Event) :=
  if a.start = 0 then a.alloc (max A (minimumMemoryForElements E A 1)) blk
  else a.realloc (minimumMemoryForElements E A (a.capacity * 2)) blk

/-- `push_back(x)`: `reserve()` once `c_end_ == c_end_of_storage_`, then `*t_end() = x`. -/
def pushBack (a : PODArray E A) (x : Elem E) (blk : Block) :
    Option (PODArray E A × List Event) := do
  let (a, ev) ← if a.used = a.storage then a.reserveNext blk else pure (a, [])
  let a ← a.write a.used x.toList
  pure ({ a with used := a.used + byteSize E 1 }, ev)

/-- `emplace_back(args...)`: as `push_back`, constructing the element in place. -/
def emplaceBack (a : PODArray E A) (x : Elem E) (blk : Block) :
    Option (PODArray E A × List Event) :=
  a.pushBack x blk

/-- `pop_back()`: `c_end_ -= byte_size(1)`. -/
def popBack (a : PODArray E A) : Option (PODArray E A) :=
  if byteSize E 1 ≤ a.used then some { a with used := a.used - byteSize E 1 } else none

/-- The bytes of the range `[from_begin, from_end)`. -/
def rangeBytes (src : List (Elem E)) : List UInt8 := (src.map List.Vector.toList).flatten

/-- `insert_assume_reserved(from_begin, from_end)`: `memcpy` at `c_end_`. -/
def insertAssumeReserved (a : PODArray E A) (src : List (Elem E)) : Option (PODArray E A) := do
  let bytesToCopy := byteSize E src.length
  let a ← a.write a.used ((rangeBytes src).take bytesToCopy)
  pure { a with used := a.used + bytesToCopy }

/-- `reserve(absl::bit_ceil(required_capacity))` when the elements do not fit. -/
def reserveFor (a : PODArray E A) (requiredCapacity : ℕ) (blk : Block) :
    Option (PODArray E A × List Event) :=
  if requiredCapacity > a.capacity then do
    let c ← IoBuf.bitCeil requiredCapacity
    a.reserve c blk
  else some (a, [])

/-- `insert(from_begin, from_end)`, from a range outside the array. -/
def insert (a : PODArray E A) (src : List (Elem E)) (blk : Block) :
    Option (PODArray E A × List Event) := do
  let (a, ev) ← a.reserveFor (a.size + src.length) blk
  let a ← a.insertAssumeReserved src
  pure (a, ev)

/-- `insert(it, from_begin, from_end)` at `it = begin() + k`, from a range outside the array:
    the bytes after `it` are moved up, measured before the `reserve` that can invalidate `it`. -/
def insertAt (a : PODArray E A) (k : ℕ) (src : List (Elem E)) (blk : Block) :
    Option (PODArray E A × List Event) :=
  if a.size < k then none
  else do
    let bytesToCopy := byteSize E src.length
    let bytesToMove := (a.size - k) * E % 2 ^ 64
    let (a, ev) ← a.reserveFor (a.size + src.length) blk
    -- `memmove(c_end_ + bytes_to_copy - bytes_to_move, c_end_ - bytes_to_move, bytes_to_move)`
    let a ← if bytesToMove ≠ 0 then
        a.write (a.used + bytesToCopy - bytesToMove)
          (Bytes.readBytes a.bytes (a.used - bytesToMove) bytesToMove)
      else pure a
    -- `memcpy(c_end_ - bytes_to_move, &*from_begin, bytes_to_copy)`
    let a ← a.write (a.used - bytesToMove) ((rangeBytes src).take bytesToCopy)
    pure ({ a with used := a.used + bytesToCopy }, ev)

/-- `assign(n, x)`: `resize(n)`, then `std::fill(begin(), end(), x)`. -/
def assign (a : PODArray E A) (n : ℕ) (x : Elem E) (blk : Block) :
    Option (PODArray E A × List Event) := do
  let (a, ev) ← a.resize n blk
  let a ← a.write 0 (List.replicate a.size x.toList).flatten
  pure (a, ev)

/-- `assign(from_begin, from_end)`: `memcpy` at `c_start_`. -/
def assignRange (a : PODArray E A) (src : List (Elem E)) (blk : Block) :
    Option (PODArray E A × List Event) := do
  let (a, ev) ← a.reserveFor src.length blk
  let bytesToCopy := byteSize E src.length
  let a ← a.write 0 ((rangeBytes src).take bytesToCopy)
  let a ← a.setEnd bytesToCopy
  pure (a, ev)

/-- `clear()`. -/
def clear (a : PODArray E A) : PODArray E A := { a with used := 0 }

/-- `swap(other)`: the three pointers change places, `mr_` does not. -/
def swap (a b : PODArray E A) : PODArray E A × PODArray E A :=
  ({ a with start := b.start, used := b.used, storage := b.storage, bytes := b.bytes },
   { b with start := a.start, used := a.used, storage := a.storage, bytes := a.bytes })

/-- An operation on one array. -/
inductive Op (E : ℕ) where
  | pushBack (x : Elem E)
  | emplaceBack (x : Elem E)
  | popBack
  | resize (n : ℕ)
  | resizeFill (n : ℕ) (value : Elem E)
  | resizeFillZero (n : ℕ)
  | reserve (n : ℕ)
  | clear
  | insert (src : List (Elem E))
  | insertAt (k : ℕ) (src : List (Elem E))
  | assign (n : ℕ) (x : Elem E)
  | assignRange (src : List (Elem E))

/-- One operation, with the block the resource hands out if it allocates. -/
def exec (a : PODArray E A) : Op E → Block → Option (PODArray E A × List Event)
  | .pushBack x, blk => a.pushBack x blk
  | .emplaceBack x, blk => a.emplaceBack x blk
  | .popBack, _ => a.popBack.map (·, [])
  | .resize n, blk => a.resize n blk
  | .resizeFill n v, blk => a.resizeFill n v blk
  | .resizeFillZero n, blk => a.resizeFillZero n blk
  | .reserve n, blk => a.reserve n blk
  | .clear, _ => some (a.clear, [])
  | .insert src, blk => a.insert src blk
  | .insertAt k src, blk => a.insertAt k src blk
  | .assign n x, blk => a.assign n x blk
  | .assignRange src, blk => a.assignRange src blk

/-- Operations one after another, the events of all of them in order. -/
def run (a : PODArray E A) : List (Op E × Block) → Option (PODArray E A × List Event)
  | [] => some (a, [])
  | (o, blk) :: ops => do
    let (a, ev) ← a.exec o blk
    let (a, ev') ← a.run ops
    pure (a, ev ++ ev')

/-- Three runs that leave the sequence of elements. The base `resize_fill(2)` of a cleared
    array of 4-byte elements clears 2 bytes, not 2 elements. With 3-byte elements in a block of 16
    bytes, five pushes leave `c_end_ != c_end_of_storage_` at full capacity, and the sixth
    writes past the block. `resize(2 ^ 62)` of 4-byte elements wraps `byte_size` to 0. -/
theorem run_leaves_sequence :
    ((create (some 1) : PODArray 4 16).run
        [(.pushBack ⟨[1, 1, 1, 1], rfl⟩, ⟨16, fun _ => 0⟩),
         (.pushBack ⟨[1, 1, 1, 1], rfl⟩, ⟨16, fun _ => 0⟩), (.clear, ⟨16, fun _ => 0⟩),
         (.resizeFillZero 2, ⟨16, fun _ => 0⟩)]).map (fun r => r.1.elements) =
        some [[0, 0, 1, 1], [1, 1, 1, 1]] ∧
      ((create none : PODArray 3 16).run
        (List.replicate 5 (.pushBack ⟨[1, 1, 1], rfl⟩, ⟨16, fun _ => 0⟩))).map
        (fun r => (r.1.used, r.1.storage, r.1.size, r.1.capacity)) = some (15, 16, 5, 5) ∧
      (create none : PODArray 3 16).run
        (List.replicate 6 (.pushBack ⟨[1, 1, 1], rfl⟩, ⟨16, fun _ => 0⟩)) = none ∧
      ((create none : PODArray 4 16).run [(.resize (2 ^ 62), ⟨16, fun _ => 0⟩)]).map
        (fun r => r.1.size) = some 0 := by
  decide

end PODArray

/-! ## A program's arrays -/

/-- A statement on the arrays of a program, each a variable named by a number. -/
inductive Cmd (E : ℕ) where
  /-- `PODArray<T> a(mr)`. -/
  | create (i : ℕ) (mr : Option ℕ)
  | op (i : ℕ) (o : PODArray.Op E)
  /-- `a.swap(b)`. -/
  | swap (i j : ℕ)
  /-- `PODArray<T> a(std::move(b))`. -/
  | moveConstruct (i j : ℕ)
  /-- `a = std::move(b)`. -/
  | moveAssign (i j : ℕ)
  /-- The end of `a`'s lifetime: `~PODArray()`. -/
  | destroy (i : ℕ)

/-- The live arrays of a program and every call made on a memory resource so far. -/
structure Heap (E A : ℕ) where
  arrays : ℕ → Option (PODArray E A)
  log : List Event

namespace Heap

variable {E A : ℕ}

/-- A program before its first statement. -/
def empty : Heap E A := ⟨fun _ => none, []⟩

/-- Two arrays after `swap` (of an array with itself, nothing). -/
def swapArrays (h : Heap E A) (i j : ℕ) (a b : PODArray E A) : Heap E A :=
  if i = j then h
  else
    let arrays := Function.update (Function.update h.arrays i (some (a.swap b).1)) j
      (some (a.swap b).2)
    { h with arrays := arrays }

/-- One statement; a statement on a variable that is not live, or a construction over a live
    one, is undefined. -/
def exec (h : Heap E A) : Cmd E → Block → Option (Heap E A)
  | .create i mr, _ => match h.arrays i with
    | none => some { h with arrays := Function.update h.arrays i (some (PODArray.create mr)) }
    | some _ => none
  | .op i o, blk => do
    let a ← h.arrays i
    let (a, ev) ← a.exec o blk
    pure ⟨Function.update h.arrays i (some a), h.log ++ ev⟩
  | .swap i j, _ => do
    let a ← h.arrays i
    let b ← h.arrays j
    pure (h.swapArrays i j a b)
  -- `PODArray(PODArray&& other) : ParentClass(nullptr) { this->swap(other); }`
  | .moveConstruct i j, _ => match h.arrays i, h.arrays j with
    | none, some b =>
      let (a', b') := (PODArray.create none : PODArray E A).swap b
      let arrays := Function.update (Function.update h.arrays j (some b')) i (some a')
      some { h with arrays := arrays }
    | _, _ => none
  -- `operator=(PODArray&& other) { this->swap(other); }`
  | .moveAssign i j, _ => do
    let a ← h.arrays i
    let b ← h.arrays j
    pure (h.swapArrays i j a b)
  | .destroy i, _ => do
    let a ← h.arrays i
    pure ⟨Function.update h.arrays i none, h.log ++ a.dealloc⟩

/-- Statements one after another. -/
def run (h : Heap E A) : List (Cmd E × Block) → Option (Heap E A)
  | [] => some h
  | (c, blk) :: cs => do
    let h ← h.exec c blk
    h.run cs

/-- An array created with resource 1 and moved from: the move constructor takes the default
    resource and swaps only the pointers, so the block allocated through resource 1 is freed
    through the default resource. -/
theorem move_construct_frees_through_default :
    ((empty : Heap 4 16).run
        [(.create 0 (some 1), ⟨16, fun _ => 0⟩),
         (.op 0 (.pushBack ⟨[1, 1, 1, 1], rfl⟩), ⟨16, fun _ => 0⟩),
         (.moveConstruct 1 0, ⟨16, fun _ => 0⟩), (.destroy 1, ⟨16, fun _ => 0⟩),
         (.destroy 0, ⟨16, fun _ => 0⟩)]).map log =
      some [.allocate 1 16 16 16, .deallocate defaultResource 16 16 16] := by
  decide

end Heap

end Pmr

end Helio
