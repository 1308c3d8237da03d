import Helio.Lib.Bytes
import Helio.Lib.Binary

/-!
# The cuckoo map table

`base::CuckooMapTable` (`base/cuckoo_map-internal.h`, `base/cuckoo_map.cc`) is a hash table
of 64-bit keys and fixed-size values. Its buffer `buf_` holds `bucket_count_` buckets of
`kBucketLength = 4` slots. A key `k` may sit in one of two buckets, `hash1(k)` and
`hash2(k)` (the second moved on by one when the two agree), and a slot whose key is
`empty_value_` is free. Callers name a slot by its *dense id* `4 * bucket + slot`.

This file is the table and every operation of it but `Compact`: hashing, `find`, `Insert`
with the eviction walk `RollPending` and the rehash `Grow`, `Reserve`, `Clear`. `Compact`
and its exhaustive search are `Helio.Base.CuckooMap.Compact`.

The model keeps the source's integer types where they wrap. A `BucketId` is a `uint32`, so
a conversion into one keeps the low 32 bits (`toBucketId`), and so does `ToDenseId`, whose
product `id * kBucketLength` is computed in `unsigned int`: the last section shows what
that does to a table of more than `2 ^ 30` buckets. The buffer is a function from the slot
offset `4 * bucket + i` (a `size_t`, which does not wrap) to the slot's key and value, so a
table of `2 ^ 30` buckets is a small term. A value is of any type `V`; memory that was
never written (a fresh buffer, the pending value after `Init`) reads as `default`. A failed
`CHECK`, a `LOG(FATAL)` and a `float` conversion out of range, which is undefined, are
`none`; the `DCHECK`s are those of the release build, which checks nothing.

Three facts about the code come out on the way. `IsPrime` runs its loop on a `uint32`
counter, so it rejects every value of 33 bits or more (`isPrime_eq_false_of_two_pow_le`),
and every bucket count `GetPrimeNotLessThan` returns fits in a `BucketId`
(`getPrimeNotLessThan_lt`). And `ToDenseId` wraps past `2 ^ 30` buckets
(`fromDenseId_toDenseId`), so that `find` and `Insert` return dense ids of other slots
(`insert_dense_id_wraps`).
-/

set_option autoImplicit false

namespace Helio

/-- The members of a `CuckooMapTable` that its operations read, over values of type `V`.
    `compaction_info_` and `compaction_stack_`, which only `Compact` uses and which hold
    nothing between two of its calls, are the local state of `Compact`'s model. -/
structure CuckooMapTable (V : Type) where
  size : ℕ
  emptyValue : UInt64
  emptyValueSet : Bool
  bucketCount : ℕ
  /-- `growth_`, a `float`, as the rational it denotes. -/
  growth : ℚ
  /-- `buf_`: the key of each slot, by slot offset. -/
  keys : ℕ → UInt64
  /-- `buf_`: the value of each slot, by slot offset. -/
  data : ℕ → V
  pendingKey : UInt64
  /-- The value `pending_ptr_` points at, in whichever half of `tmp_value_`. -/
  pendingValue : V
  shiftsLimit : UInt32
  randomBitIndx : UInt32

namespace CuckooMapTable

def kBucketLength : ℕ := 4
def kMask1 : UInt64 := 0xc949d7c7509e6557
def kMask2 : UInt64 := 0x9ae16a3b2f90404f
/-- `npos = dense_id(-1)`. -/
def npos : ℕ := 2 ^ 64 - 1
def kMinBucketCount : ℕ := 16
def kuint64max : ℕ := 2 ^ 64 - 1

/-- The value a conversion into a `BucketId`, a `uint32`, keeps. -/
def toBucketId (n : ℕ) : ℕ := n % 2 ^ 32

/-! ## Primes -/

/-- The loop of `IsPrime`. `i` is a `uint32`, so `i * i` and `i += 2` wrap modulo `2 ^ 32`.
    `fuel` counts the odd values `i` can take; the loop never uses it up, since `i` comes
    round to `1` first and `val % 1 == 0`. -/
def isPrimeLoop (val : ℕ) : ℕ → ℕ → Bool
  | 0, _ => true
  | fuel + 1, i =>
    if i * i % 2 ^ 32 ≤ val then
      if val % i = 0 then false else isPrimeLoop val fuel ((i + 2) % 2 ^ 32)
    else true

/-- `IsPrime(uint64 val)`. -/
def isPrime (val : ℕ) : Bool :=
  if val < 4 then true
  else if val % 2 = 0 ∨ val % 3 = 0 then false
  else isPrimeLoop val (2 ^ 31) 5

/-- The loop of `GetPrimeNotLessThan` over odd values, which ends in `LOG(FATAL)` at
    `kuint64max`. -/
def scanPrime : ℕ → ℕ → Option ℕ
  | 0, _ => none
  | fuel + 1, value =>
    if value < kuint64max then
      if isPrime value then some value else scanPrime fuel (value + 2)
    else none

/-- `GetPrimeNotLessThan(uint64 value)`; `2 ^ 63` rounds reach `kuint64max` from any odd
    start. -/
def getPrimeNotLessThan (value : ℕ) : Option ℕ :=
  scanPrime (2 ^ 63) (if value % 2 = 0 then value + 1 else value)

/-- With fuel for the odd steps that `i` still takes before it comes round to `1`, the loop
    rejects a value of 33 bits or more: `i * i % 2 ^ 32` never exceeds it. -/
theorem isPrimeLoop_eq_false {val : ℕ} (hval : 2 ^ 32 ≤ val) :
    ∀ fuel i, i % 2 = 1 → i < 2 ^ 32 → (2 ^ 32 + 1 - i) % 2 ^ 32 < 2 * fuel →
      isPrimeLoop val fuel i = false := by
  intro fuel
  induction fuel with
  | zero => intro i _ _ hsteps; omega
  | succ fuel ih =>
    intro i hodd hlt hsteps
    have hsq : i * i % 2 ^ 32 ≤ val := (Nat.mod_lt _ (by norm_num)).le.trans hval
    rw [isPrimeLoop, if_pos hsq]
    by_cases hdvd : val % i = 0
    · rw [if_pos hdvd]
    · rw [if_neg hdvd]
      -- `1` divides `val`, so the counter has not come round yet
      have hne : i ≠ 1 := by rintro rfl; exact hdvd (Nat.mod_one val)
      apply ih
      · omega
      · exact Nat.mod_lt _ (by norm_num)
      · omega

/-- **`IsPrime` rejects every value of 33 bits or more.** `i * i` wraps in `uint32`, so it
    stays below such a value, and the loop runs until `i` wraps round to `1`. -/
theorem isPrime_eq_false_of_two_pow_le {val : ℕ} (hval : 2 ^ 32 ≤ val) : isPrime val = false := by
  unfold isPrime
  rw [if_neg (by omega)]
  split
  · rfl
  · exact isPrimeLoop_eq_false hval _ 5 rfl (by norm_num) (by norm_num)

theorem isPrime_of_scanPrime {fuel value p : ℕ} (h : scanPrime fuel value = some p) :
    isPrime p = true := by
  induction fuel generalizing value with
  | zero => simp [scanPrime] at h
  | succ fuel ih =>
    unfold scanPrime at h
    split at h
    · split at h
      · rename_i hprime
        cases h
        exact hprime
      · exact ih h
    · cases h

/-- **A count that `GetPrimeNotLessThan` returns fits in a `BucketId`.** From a start of
    `2 ^ 32` or more it scans up to `kuint64max` and ends in `LOG(FATAL)`. -/
theorem getPrimeNotLessThan_lt {value p : ℕ} (h : getPrimeNotLessThan value = some p) :
    p < 2 ^ 32 := by
  by_contra hge
  have hprime := isPrime_of_scanPrime h
  rw [isPrime_eq_false_of_two_pow_le (not_lt.mp hge)] at hprime
  cases hprime

/-! ## Slots and hashing -/

/-- The offset of `GetBucketById(id)->key[i]` in `buf_`, counted in slots. -/
def slot (id i : ℕ) : ℕ := id * kBucketLength + i

/-- `ToDenseId(BucketId id, uint8 offset)`, computed in `unsigned int`. -/
def toDenseId (id offset : ℕ) : ℕ := (id * kBucketLength + offset) % 2 ^ 32

/-- `BucketFromId(dense_id d)`. -/
def bucketFromId (d : ℕ) : ℕ := toBucketId (d / kBucketLength)

variable {V : Type}

/-- `FromHash`: `hash_val % bucket_count_` (libdivide computes the exact quotient). -/
def fromHash (t : CuckooMapTable V) (hashVal : UInt64) : ℕ :=
  toBucketId (hashVal.toNat % t.bucketCount)

def hash1 (t : CuckooMapTable V) (k : UInt64) : ℕ := t.fromHash (kMask1 ^^^ k)

def hash2 (t : CuckooMapTable V) (k : UInt64) : ℕ := t.fromHash (kMask2 ^^^ k)

/-- `HashToIdPair`: the two buckets of `v`; `(b + 1)` is a `uint32` sum. -/
def hashToIdPair (t : CuckooMapTable V) (v : UInt64) : ℕ × ℕ :=
  let a := t.hash1 v
  let b := t.hash2 v
  if b = a then (a, toBucketId (toBucketId (b + 1) % t.bucketCount)) else (a, b)

/-- `NextBucketId`: the other bucket of `key`. -/
def nextBucketId (t : CuckooMapTable V) (current : ℕ) (key : UInt64) : ℕ :=
  let idPair := t.hashToIdPair key
  if current = idPair.1 then idPair.2 else idPair.1

/-- `CheckEmpty`: bit `i` is set when slot `i` of bucket `b` is free. -/
def checkEmpty (t : CuckooMapTable V) (b : ℕ) : ℕ :=
  (List.range kBucketLength).foldl
    (fun result i => result ||| (if t.keys (slot b i) = t.emptyValue then 1 else 0) <<< i) 0

/-! ## Lookup -/

/-- The first slot of bucket `b` that holds `k`: the two loops of `FindInBucket` and of
    `find`. -/
def scanBucket (t : CuckooMapTable V) (b : ℕ) (k : UInt64) : Option ℕ :=
  (List.range kBucketLength).find? fun i => t.keys (slot b i) = k

/-- `FindInBucket`. -/
def findInBucket (t : CuckooMapTable V) (idPair : ℕ × ℕ) (k : UInt64) : ℕ :=
  match t.scanBucket idPair.1 k with
  | some i => toDenseId idPair.1 i
  | none =>
    match t.scanBucket idPair.2 k with
    | some i => toDenseId idPair.2 i
    | none => npos

/-- `find`, which computes the second bucket only when the first does not hold `v`. -/
def find (t : CuckooMapTable V) (v : UInt64) : ℕ :=
  let bid1 := t.hash1 v
  match t.scanBucket bid1 v with
  | some i => toDenseId bid1 i
  | none =>
    let bid2 :=
      if t.hash2 v = bid1 then toBucketId (toBucketId (t.hash2 v + 1) % t.bucketCount)
      else t.hash2 v
    match t.scanBucket bid2 v with
    | some i => toDenseId bid2 i
    | none => npos

/-- `find` and `FindInBucket` agree: `find` is `FindInBucket` on the pair of its key. -/
theorem find_eq_findInBucket (t : CuckooMapTable V) (v : UInt64) :
    t.find v = t.findInBucket (t.hashToIdPair v) v := by
  unfold find findInBucket hashToIdPair
  by_cases hab : t.hash2 v = t.hash1 v
  · simp only [hab, if_true]
  · simp only [hab, if_false]

/-- `FromDenseId(d)`: the key and the value of slot `d % kBucketLength` of bucket
    `BucketFromId(d)`. -/
def fromDenseId (t : CuckooMapTable V) (d : ℕ) : UInt64 × V :=
  let s := slot (bucketFromId d) (d % kBucketLength)
  (t.keys s, t.data s)

/-- **`FromDenseId` undoes `ToDenseId` only modulo `2 ^ 30` buckets.** The product of
    `ToDenseId` is taken in `unsigned int`, so the dense id of slot `i` of bucket `b` reads
    slot `i` of bucket `b % 2 ^ 30`. -/
theorem fromDenseId_toDenseId (t : CuckooMapTable V) (b : ℕ) {i : ℕ} (hi : i < kBucketLength) :
    t.fromDenseId (toDenseId b i) =
      (t.keys (slot (b % 2 ^ 30) i), t.data (slot (b % 2 ^ 30) i)) := by
  have hb : bucketFromId (toDenseId b i) = b % 2 ^ 30 := by
    simp only [bucketFromId, toDenseId, toBucketId, kBucketLength] at hi ⊢
    omega
  have hi' : toDenseId b i % kBucketLength = i := by
    simp only [toDenseId, kBucketLength] at hi ⊢
    omega
  simp only [fromDenseId, hb, hi']

/-- `Capacity()`: `bucket_count_ * kBucketLength`, a `size_t` times an `unsigned char`, so
    computed in `size_t`. -/
def capacity (t : CuckooMapTable V) : ℕ := t.bucketCount * kBucketLength % 2 ^ 64

/-! ## Moving the pending key -/

/-- `InsertIntoBucket`: the pending key and value go to the first free slot of `empty_mask`,
    whose index is returned. -/
def insertIntoBucket (t : CuckooMapTable V) (emptyMask b : ℕ) : CuckooMapTable V × ℕ :=
  let i := Bytes.countrZero 32 emptyMask
  ({ t with
      keys := Function.update t.keys (slot b i) t.pendingKey
      data := Function.update t.data (slot b i) t.pendingValue }, i)

/-- `SwapPending`: the pending key and value trade places with those of slot `index` of
    bucket `b` (the value through the other half of `tmp_value_`). -/
def swapPending (t : CuckooMapTable V) (b index : ℕ) : CuckooMapTable V :=
  let s := slot b index
  { t with
    pendingKey := t.keys s
    keys := Function.update t.keys s t.pendingKey
    pendingValue := t.data s
    data := Function.update t.data s t.pendingValue }

/-- `random_bit(random_bit_indx_)`. -/
def randomBit (t : CuckooMapTable V) : CuckooMapTable V × Bool :=
  ({ t with randomBitIndx := t.randomBitIndx + 1 }, t.randomBitIndx &&& 1 != 0)

/-- `random_index(random_bit_indx_)`. -/
def randomIndex (t : CuckooMapTable V) : CuckooMapTable V × ℕ :=
  ({ t with randomBitIndx := t.randomBitIndx + 1 }, (t.randomBitIndx &&& 3).toNat)

/-- The walk of `RollPending` once both buckets are full: each of the `j` rounds left
    evicts the key of slot `shiftIndex` of bucket `bid` and moves it on to its other
    bucket. Success returns the dense id of the walk's first slot. -/
def rollLoop (start startIndex : ℕ) :
    ℕ → CuckooMapTable V → ℕ → ℕ → CuckooMapTable V × ℕ
  | 0, t, _, _ => (t, npos)
  | j + 1, t, bid, shiftIndex =>
    let t := t.swapPending bid shiftIndex
    let nextBid := t.nextBucketId bid t.pendingKey
    let empty := t.checkEmpty nextBid
    if empty ≠ 0 then ((t.insertIntoBucket empty nextBid).1, toDenseId start startIndex)
    else
      let (t, shiftIndex) := t.randomIndex
      -- an exact cycle back to the first slot takes the next slot instead
      let shiftIndex :=
        if nextBid = start ∧ shiftIndex = startIndex then (shiftIndex + 1) % kBucketLength
        else shiftIndex
      rollLoop start startIndex j t nextBid shiftIndex

/-- `RollPending(shifts_limit, bucket_pair)`: a free slot of the first bucket, else of the
    second, else the random walk. The source calls `InsertIntoBucket` twice on the free
    slot it finds, once for a log line. -/
def rollPending (t : CuckooMapTable V) (shiftsLimit : UInt32) (bucketPair : ℕ × ℕ) :
    CuckooMapTable V × ℕ :=
  let empty0 := t.checkEmpty bucketPair.1
  if empty0 ≠ 0 then
    let t := (t.insertIntoBucket empty0 bucketPair.1).1
    let (t, index) := t.insertIntoBucket empty0 bucketPair.1
    (t, toDenseId bucketPair.1 index)
  else
    let empty1 := t.checkEmpty bucketPair.2
    if empty1 ≠ 0 then
      let t := (t.insertIntoBucket empty1 bucketPair.2).1
      let (t, index) := t.insertIntoBucket empty1 bucketPair.2
      (t, toDenseId bucketPair.2 index)
    else
      let (t, bit) := t.randomBit
      let bid := if bit then bucketPair.2 else bucketPair.1
      let (t, startIndex) := t.randomIndex
      t.rollLoop bid startIndex shiftsLimit.toNat bid startIndex

/-! ## Allocation -/

/-- `SetBucketCount`: the count, and `shifts_limit_ = countr_zero(bucket_count_) * 2`. -/
def setBucketCount (t : CuckooMapTable V) (bucketCnt : ℕ) : CuckooMapTable V :=
  { t with bucketCount := bucketCnt, shiftsLimit := (Bytes.countrZero 64 bucketCnt * 2).toUInt32 }

/-- `SetEmptyValues`: every key of the buffer is the empty key. -/
def setEmptyValues (t : CuckooMapTable V) : CuckooMapTable V :=
  { t with keys := fun _ => t.emptyValue }

variable [Inhabited V]

/-- `DoAllocate`: a fresh buffer, its keys set to the empty key and its values unwritten.
    An allocation failure, a `CHECK`, is not modelled. -/
def doAllocate (t : CuckooMapTable V) : CuckooMapTable V :=
  { t with keys := fun _ => t.emptyValue, data := fun _ => default }

/-- `Init(bucket_capacity)`: `growth_ = 1.2f`, a fresh `tmp_value_`, and a buffer of the
    first prime count not below `bucket_capacity`. -/
def init (t : CuckooMapTable V) (bucketCapacity : ℕ) : Option (CuckooMapTable V) := do
  let bucketCnt ← getPrimeNotLessThan bucketCapacity
  pure ({ t with growth := Binary.round 24 (12 / 10), pendingValue := default }.setBucketCount
    bucketCnt).doAllocate

/-- The members before the constructor's call of `Init`: the in-class initialisers, and
    `0` or `default` for those `Init` or a first use overwrites. -/
def unset : CuckooMapTable V :=
  { size := 0, emptyValue := 0, emptyValueSet := false, bucketCount := 0, growth := 0,
    keys := fun _ => 0, data := fun _ => default, pendingKey := 0, pendingValue := default,
    shiftsLimit := 0, randomBitIndx := 0 }

/-- The constructor `CuckooMapTable(value_size, capacity)`. -/
def create (capacity : ℕ) : Option (CuckooMapTable V) :=
  unset.init (max kMinBucketCount (bucketFromId capacity))

/-- `CuckooSet(capacity)` and `CuckooMap<T>(capacity)`: the wrapper's constructor takes a
    `uint32` and passes it on to `CuckooMapTable(value_size, capacity)`. -/
def cuckooSet (capacity : ℕ) : Option (CuckooMapTable V) := create (capacity % 2 ^ 32)

/-- `SetEmptyKey(v)`, which may be called once. -/
def setEmptyKey (t : CuckooMapTable V) (v : UInt64) : Option (CuckooMapTable V) :=
  if t.emptyValueSet then none
  else some { t with emptyValue := v, emptyValueSet := true }.setEmptyValues

/-- `Clear()`. -/
def clear (t : CuckooMapTable V) : CuckooMapTable V := { t with size := 0 }.setEmptyValues

/-- `SetGrowth(growth)`, whose `CHECK_GT` compares with the `float` `1.01f`. -/
def setGrowth (t : CuckooMapTable V) (growth : ℚ) : Option (CuckooMapTable V) :=
  if Binary.round 24 (101 / 100) < growth then some { t with growth } else none

/-! ## Rehashing -/

/-- `CopyBuffer(bucket_array, count, insert_func)` over the slots `slots` of an old buffer:
    each key that is not the empty one becomes the pending key, with its value, and is
    handed to `insert_func`, whose `false` stops the copy. `acc` is what `insert_func`
    captures by reference (nothing for `Grow`, the problematic keys for `Compact`). The
    pending key is set before the test, so the empty key becomes pending too. -/
def copyBuffer {α : Type} (oldKeys : ℕ → UInt64) (oldData : ℕ → V)
    (insertFunc : CuckooMapTable V → α → ℕ × ℕ → CuckooMapTable V × α × Bool) :
    List ℕ → CuckooMapTable V → α → CuckooMapTable V × α × Bool
  | [], t, acc => (t, acc, true)
  | s :: slots, t, acc =>
    let t := { t with pendingKey := oldKeys s }
    if t.pendingKey = t.emptyValue then copyBuffer oldKeys oldData insertFunc slots t acc
    else
      let idPair := t.hashToIdPair t.pendingKey
      match insertFunc { t with pendingValue := oldData s } acc idPair with
      | (t, acc, true) => copyBuffer oldKeys oldData insertFunc slots t acc
      | (t, acc, false) => (t, acc, false)

/-- The slots of a buffer of `count` buckets, in the order `CopyBuffer` visits them. -/
def bufferSlots (count : ℕ) : List ℕ := List.range (slot count 0)

/-- `static_cast<BucketId>(bucket_count_ * growth_ + 1.0f)`: each operation rounds to
    `float`, and a result out of the range of `uint32` makes the conversion undefined. -/
def grownBucketCount (t : CuckooMapTable V) : Option ℕ :=
  let f := Binary.round 24 (Binary.round 24 (Binary.round 24 t.bucketCount * t.growth) + 1)
  if f < 2 ^ 32 then some ⌊f⌋₊ else none

/-- The `while (true)` loop of `Grow`, one pass per unit of fuel: the next count, a fresh
    buffer, and the old buffer's keys moved over with `RollPending`; a pass that cannot
    place a key starts again from its larger count. The count grows on every pass
    (`CHECK_LT`) and stays a `BucketId`, so `2 ^ 32` passes are never used up. -/
def growLoop (oldKeys : ℕ → UInt64) (oldData : ℕ → V) (oldBucketCount lowBucketBound : ℕ) :
    ℕ → CuckooMapTable V → Option (CuckooMapTable V)
  | 0, _ => none
  | fuel + 1, t => do
    let newBucketCount ← t.grownBucketCount
    let newBucketCount :=
      if newBucketCount < lowBucketBound then toBucketId lowBucketBound else newBucketCount
    let newBucketCount := toBucketId (← getPrimeNotLessThan newBucketCount)
    if t.bucketCount < newBucketCount then
      let t := (t.setBucketCount newBucketCount).doAllocate
      let roll := fun (t : CuckooMapTable V) (_ : Unit) idPair =>
        let r := t.rollPending (t.shiftsLimit * 2) idPair
        (r.1, (), r.2 != npos)
      match t.copyBuffer oldKeys oldData roll (bufferSlots (toBucketId oldBucketCount)) () with
      | (t, _, true) => some t
      | (t, _, false) => growLoop oldKeys oldData oldBucketCount lowBucketBound fuel t
    else none

/-- `Grow(low_bucket_bound)`: the rehash, with the pending key and value saved across it. -/
def grow (t : CuckooMapTable V) (lowBucketBound : ℕ) : Option (CuckooMapTable V) :=
  (growLoop t.keys t.data t.bucketCount lowBucketBound (2 ^ 32) t).map fun t' =>
    { t' with pendingKey := t.pendingKey, pendingValue := t.pendingValue }

/-- `Reserve(bigger_capacity)`: nothing when the capacity suffices, a fresh buffer when the
    table is empty, `Grow` otherwise. -/
def reserve (t : CuckooMapTable V) (biggerCapacity : ℕ) : Option (CuckooMapTable V) :=
  if biggerCapacity ≤ t.capacity then some t
  else if t.size = 0 then t.init (bucketFromId biggerCapacity)
  else t.grow (bucketFromId biggerCapacity)

/-! ## Insertion -/

/-- The `while (true)` loop of `Insert`: roll the pending key into its pair and grow when
    that fails. `iteration` counts the grows; each grows the count, so `2 ^ 32` rounds are
    never used up and the `uint32` counter does not wrap. -/
def insertLoop : ℕ → CuckooMapTable V → ℕ × ℕ → ℕ → Option (CuckooMapTable V × ℕ × ℕ)
  | 0, _, _, _ => none
  | fuel + 1, t, idPair, iteration =>
    let r := t.rollPending t.shiftsLimit idPair
    if r.2 ≠ npos then some (r.1, r.2, iteration)
    else do
      let t ← r.1.grow 0
      insertLoop fuel t (t.hashToIdPair t.pendingKey) (iteration + 1)

/-- `Insert(k, data)`: the dense id of `k` and whether it was new. After a grow the pending
    key is no longer `k`, so its id is looked up again. -/
def insert (t : CuckooMapTable V) (k : UInt64) (v : V) : Option (CuckooMapTable V × ℕ × Bool) :=
  let idPair := t.hashToIdPair k
  let found := t.findInBucket idPair k
  if found ≠ npos then some (t, found, false)
  else do
    let (t, r, iteration) ← insertLoop (2 ^ 32) { t with pendingKey := k, pendingValue := v }
      idPair 0
    let t := { t with size := t.size + 1 }
    pure (t, if iteration ≠ 0 then t.find k else r, true)

/-! ## Dense ids and `2 ^ 30` buckets -/

omit [Inhabited V] in
/-- A `FromHash` bucket is below the bucket count, which fits a `BucketId`. -/
theorem fromHash_lt (t : CuckooMapTable V) (hashVal : UInt64) (hpos : 0 < t.bucketCount)
    (hb : t.bucketCount ≤ 2 ^ 32) : t.fromHash hashVal < t.bucketCount := by
  have hlt := Nat.mod_lt hashVal.toNat hpos
  unfold fromHash toBucketId
  rw [Nat.mod_eq_of_lt (by omega)]
  exact hlt

omit [Inhabited V] in
/-- Both buckets of `HashToIdPair` are below the bucket count. -/
theorem hashToIdPair_lt (t : CuckooMapTable V) (v : UInt64) (hpos : 0 < t.bucketCount)
    (hb : t.bucketCount ≤ 2 ^ 32) :
    (t.hashToIdPair v).1 < t.bucketCount ∧ (t.hashToIdPair v).2 < t.bucketCount := by
  unfold hashToIdPair
  dsimp only
  split
  · -- the second bucket is the first one's successor, reduced modulo the count
    have hlt := Nat.mod_lt (toBucketId (t.hash2 v + 1)) hpos
    refine ⟨fromHash_lt t _ hpos hb, ?_⟩
    unfold toBucketId
    rw [Nat.mod_eq_of_lt (by unfold toBucketId at hlt; omega)]
    exact hlt
  · exact ⟨fromHash_lt t _ hpos hb, fromHash_lt t _ hpos hb⟩

omit [Inhabited V] in
/-- A slot that `scanBucket` finds is a slot of the bucket, and holds the key. -/
theorem scanBucket_some {t : CuckooMapTable V} {b i : ℕ} {k : UInt64}
    (h : t.scanBucket b k = some i) : i < kBucketLength ∧ t.keys (slot b i) = k := by
  unfold scanBucket at h
  exact ⟨List.mem_range.mp (List.mem_of_find?_eq_some h), by simpa using List.find?_some h⟩

omit [Inhabited V] in
/-- The dense id of a slot that `scanBucket` found in a bucket below `2 ^ 30` reads the key
    back. -/
theorem fromDenseId_of_scanBucket {t : CuckooMapTable V} {b i : ℕ} {k : UInt64}
    (hb : b < 2 ^ 30) (hs : t.scanBucket b k = some i) :
    (t.fromDenseId (toDenseId b i)).1 = k := by
  obtain ⟨hi, hkey⟩ := scanBucket_some hs
  rw [fromDenseId_toDenseId t _ hi, Nat.mod_eq_of_lt hb]
  exact hkey

omit [Inhabited V] in
/-- `FindInBucket` over two buckets below `2 ^ 30` returns `npos` or a dense id whose slot
    holds the key. -/
theorem findInBucket_fromDenseId (t : CuckooMapTable V) (idPair : ℕ × ℕ) (k : UInt64)
    (h₁ : idPair.1 < 2 ^ 30) (h₂ : idPair.2 < 2 ^ 30) (hf : t.findInBucket idPair k ≠ npos) :
    (t.fromDenseId (t.findInBucket idPair k)).1 = k := by
  unfold findInBucket at hf ⊢
  cases hs₁ : t.scanBucket idPair.1 k with
  | some i => exact fromDenseId_of_scanBucket h₁ hs₁
  | none =>
    cases hs₂ : t.scanBucket idPair.2 k with
    | some i => exact fromDenseId_of_scanBucket h₂ hs₂
    | none =>
      -- neither bucket holds the key: `npos`
      rw [hs₁, hs₂] at hf
      exact absurd rfl hf

/-- A table for `4 * 1610612736` keys: the constructor's `131` buckets, `0` as the empty key,
    then `Reserve`, which finds the table empty and calls `Init` for `1610612741` buckets. -/
def wideTable : Option (CuckooMapTable Unit) := do
  let t ← create 512
  let t ← t.setEmptyKey 0
  t.reserve (4 * 1610612736)

/-- The key `kMask1 ^ (2 ^ 30 + 7)`, whose first bucket is `2 ^ 30 + 7`. -/
def wideKey : UInt64 := 14504361324900672848

/-- In the table of `1610612741` buckets, `Insert` puts `wideKey` in bucket `2 ^ 30 + 7`
    and returns, as `find` does afterwards, the dense id `28`: a slot of bucket `7`, which
    holds the empty key. -/
theorem insert_dense_id_wraps :
    ∃ t, wideTable = some t ∧ ∃ t' id, t.insert wideKey () = some (t', id, true) ∧
      t'.find wideKey = id ∧ (t'.fromDenseId id).1 ≠ wideKey := by
  have hrun : (wideTable.bind fun t => (t.insert wideKey ()).map fun r =>
      (r.2.2, r.1.find wideKey == r.2.1, (r.1.fromDenseId r.2.1).1 != wideKey)) =
        some (true, true, true) := by
    decide +kernel
  obtain ⟨t, ht, hins⟩ := Option.bind_eq_some_iff.mp hrun
  obtain ⟨⟨t', id, isNew⟩, hins, hcheck⟩ := Option.map_eq_some_iff.mp hins
  simp only [Prod.mk.injEq, beq_iff_eq, bne_iff_ne, ne_eq] at hcheck
  obtain ⟨rfl, hfind, hne⟩ := hcheck
  exact ⟨t, ht, t', id, hins, hfind, hne⟩

end CuckooMapTable

end Helio
