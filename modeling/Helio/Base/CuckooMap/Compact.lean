import Helio.Base.CuckooMap.Table

/-!
# Compaction of the cuckoo map

`CuckooMapTable::Compact(ratio)` (`base/cuckoo_map.cc`) moves the table into a smaller
buffer of about `size() * ratio / 4` buckets. It releases the old buffer into a local
`unique_ptr` and tries up to `kMaxCompactTries = 10` prime bucket counts, each time
copying the old buffer over with `RollPending` and handing the keys that would not fit to
`InsertProblematicKeys`, which places them one by one with an exhaustive search,
`ShiftExhaustive`.

That search is a depth-first walk over full buckets. Its stack `compaction_stack_` is a
path of buckets, each reached from the one below it through one of its keys, and the
pending key rides along the path: advancing into a bucket swaps it with the key that
leads there, backtracking swaps it back. `compaction_info_` keeps for every bucket a
`BucketState`, a `uint8` of four flags: the children still to try, and whether the bucket
was explored, visited in this search, or found full. The search ends when `Explore` finds
a free slot next to the top of the stack, or when the stack runs empty.

The two members are the state of a search (`Search`); they hold nothing between two calls
of `Compact` (`InsertProblematicKeys` assigns `compaction_info_` before every use, and the
stack is empty when `ShiftExhaustive` returns), so `compact` starts from an empty one.

The last section runs `Compact` on a table of 18 keys on which all ten tries fail:
`Compact` returns `false`, the buffer it leaves is the last try, and one of the keys is no
longer in it.
-/

set_option autoImplicit false

namespace Helio

namespace CuckooMapTable

def kMaxCompactTries : ℕ := 10

/-! ## Bucket states -/

/-- `BucketState`: the four flags of its `uint8` mask, `children` being the low nibble
    (`children_mask()`). -/
structure BucketState where
  children : BitVec 4
  explored : Bool
  visited : Bool
  full : Bool
  deriving DecidableEq, Repr

namespace BucketState

/-- `BucketState()`: `mask_(0)`. -/
def init : BucketState := ⟨0, false, false, false⟩

def setExplored (s : BucketState) (childrenMask : BitVec 4) : BucketState :=
  { s with explored := true, children := s.children ||| childrenMask }

def unexplored (s : BucketState) : Bool := !s.explored

def setVisited (s : BucketState) : BucketState := { s with visited := true }

def clearVisited (s : BucketState) : BucketState := { s with visited := false }

def setFull (s : BucketState) : BucketState := { s with full := true }

/-- `num_children()`: `absl::popcount(children_mask())`. -/
def numChildren (s : BucketState) : ℕ := Bytes.popCount 8 s.children.toNat

/-- `first_child()`: `absl::countr_zero(children_mask())` of a `uint8`. -/
def firstChild (s : BucketState) : ℕ := Bytes.countrZero 8 s.children.toNat

def removeChild (s : BucketState) (child : ℕ) : BucketState :=
  { s with children := s.children &&& ~~~((1 : BitVec 4) <<< child) }

/-- `unshiftable()`: `(mask_ & ~kFullBitVal) == kExploredBitVal`, explored and nothing else
    but perhaps full. -/
def unshiftable (s : BucketState) : Bool := s.explored && !s.visited && s.children == 0

/-- `reset_but_preserve_unshiftable()`: only the full flag survives, except that an
    unshiftable bucket stays unshiftable and is marked full. -/
def resetButPreserveUnshiftable (s : BucketState) : BucketState :=
  if !s.unshiftable then { init with full := s.full } else { init with explored := true, full := true }

end BucketState

/-! ## The search -/

/-- A table with `compaction_info_` and `compaction_stack_`. -/
structure Search (V : Type) where
  table : CuckooMapTable V
  compactionInfo : List BucketState
  compactionStack : List ℕ

namespace Search

variable {V : Type}

/-- `compaction_info_[b]`. -/
def infoAt (s : Search V) (b : ℕ) : BucketState := s.compactionInfo.getD b BucketState.init

def setInfo (s : Search V) (b : ℕ) (state : BucketState) : Search V :=
  { s with compactionInfo := s.compactionInfo.set b state }

variable [Inhabited V]

/-- The loop of `Explore(parent)` over the slots `ks` still to look at. A slot whose key
    leads to a bucket neither visited nor unshiftable makes that bucket a child, in `mask`,
    unless the bucket has a free slot: then the pending key takes the slot and its key
    moves there, and the search is over. -/
def exploreLoop (parent : ℕ) : List ℕ → Search V → ℕ → Search V × Bool
  | [], s, mask => (s.setInfo parent ((s.infoAt parent).setExplored (BitVec.ofNat 4 mask)), false)
  | k :: ks, s, mask =>
    let key := s.table.keys (slot parent k)
    let nextId := s.table.nextBucketId parent key
    let nextState := s.infoAt nextId
    if nextState.visited || nextState.unshiftable then exploreLoop parent ks s mask
    else if !nextState.full then
      let empty := s.table.checkEmpty nextId
      if empty ≠ 0 then
        let s := { s with table := ((s.table.swapPending parent k).insertIntoBucket empty nextId).1 }
        -- the children marked so far are recorded, so that the cleanup unmarks them
        (if mask ≠ 0 then s.setInfo parent ((s.infoAt parent).setExplored (BitVec.ofNat 4 mask))
          else s, true)
      else exploreLoop parent ks (s.setInfo nextId nextState.setFull.setVisited) (mask ||| 1 <<< k)
    else exploreLoop parent ks (s.setInfo nextId nextState.setVisited) (mask ||| 1 <<< k)

/-- `Explore(parent)`: `true` when the pending key found a place. -/
def explore (s : Search V) (parent : ℕ) : Search V × Bool :=
  exploreLoop parent (List.range kBucketLength) s 0

/-- A round of the loop of `ShiftExhaustive` after its top bucket `parent` was explored. A
    top without children is popped (its two `CHECK`s fail as `none`); otherwise the pending
    key swaps with the first child, and the bucket the new pending key leads to is pushed if
    unexplored (advancing) or the child dropped (backtracking, which the swap undid, or back
    at the start of the search). -/
def advance (bid : ℕ) (startKey : UInt64) (parent : ℕ) (s : Search V) (visitedCount : UInt32) :
    Option (Search V × UInt32) :=
  let state := s.infoAt parent
  if state.numChildren = 0 then
    if state.visited && state.clearVisited.unshiftable then
      some ({ s.setInfo parent state.clearVisited with
        compactionStack := s.compactionStack.dropLast }, visitedCount - 1)
    else none
  else
    let childIndex := state.firstChild
    let s := { s with table := s.table.swapPending parent childIndex }
    if parent = bid ∧ s.table.pendingKey = startKey then
      some (s.setInfo parent (state.removeChild childIndex), visitedCount)
    else
      let nextId := s.table.nextBucketId parent s.table.pendingKey
      if (s.infoAt nextId).unexplored then
        some ({ s with compactionStack := s.compactionStack ++ [nextId] }, visitedCount)
      else some (s.setInfo parent (state.removeChild childIndex), visitedCount)

/-- The `while (!compaction_stack_.empty())` loop of `ShiftExhaustive`, a round per unit of
    fuel. It returns at an empty stack, or at the `break` after a successful `Explore`,
    which leaves the stack as it is. -/
def shiftLoop (bid : ℕ) (startKey : UInt64) : ℕ → Search V → UInt32 → Option (Search V × UInt32)
  | 0, _, _ => none
  | fuel + 1, s, visitedCount =>
    match s.compactionStack.getLast? with
    | none => some (s, visitedCount)
    | some parent =>
      if (s.infoAt parent).unexplored then
        match s.explore parent with
        | (s, true) => some (s, visitedCount)
        | (s, false) =>
          (advance bid startKey parent s
              (visitedCount + ((s.infoAt parent).numChildren).toUInt32)).bind
            fun (s, visitedCount) => shiftLoop bid startKey fuel s visitedCount
      else
        (advance bid startKey parent s visitedCount).bind
          fun (s, visitedCount) => shiftLoop bid startKey fuel s visitedCount

/-- Rounds enough for one search: a round pushes a bucket not explored yet, which is then
    explored, pops one, or clears one of the at most four children bits that a bucket had or
    gained when it was explored. -/
def searchFuel (s : Search V) : ℕ := 10 * s.compactionInfo.length + s.compactionStack.length + 2

/-- The `while (bstate.num_children() > 0)` loop of the cleanup for the stack bucket `id`,
    with `below` the bucket under it: each child is dropped and, unless it leads back to
    `below`, the bucket it leads to is reset. Four rounds clear the four bits. -/
def unmarkChildren (id : ℕ) (below : Option ℕ) : ℕ → Search V → Search V
  | 0, s => s
  | fuel + 1, s =>
    let bstate := s.infoAt id
    if 0 < bstate.numChildren then
      let cindex := bstate.firstChild
      let next := s.table.nextBucketId id (s.table.keys (slot id cindex))
      let s := s.setInfo id (bstate.removeChild cindex)
      if below = some next then unmarkChildren id below fuel s
      else unmarkChildren id below fuel (s.setInfo next (s.infoAt next).resetButPreserveUnshiftable)
    else s

/-- The cleanup loop over the stack from its top, each bucket with the one under it:
    `stack` is the stack reversed. -/
def unmarkStack : List ℕ → Search V → Search V
  | [], s => s
  | id :: stack, s =>
    let s := unmarkChildren id stack.head? kBucketLength s
    unmarkStack stack (s.setInfo id (s.infoAt id).resetButPreserveUnshiftable)

/-- `ShiftExhaustive(bid)`: search from `bid` for a place for the pending key. After a success
    the states of the visited buckets are reset, those of the children of the stack buckets
    alone when few were visited, all of them otherwise. -/
def shiftExhaustive (s : Search V) (bid : ℕ) : Option (Search V × Bool) :=
  if bid < s.compactionInfo.length then
    let s := { s with compactionStack := s.compactionStack ++ [bid] }
    let s := s.setInfo bid (s.infoAt bid).setVisited
    (shiftLoop bid s.table.pendingKey (searchFuel s) s 1).map fun (s, visitedCount) =>
      if s.compactionStack = [] then (s, false)
      else
        let s :=
          if visitedCount.toNat < s.compactionInfo.length / 6 then
            unmarkStack s.compactionStack.reverse s
          else { s with compactionInfo := s.compactionInfo.map BucketState.resetButPreserveUnshiftable }
        ({ s with compactionStack := [] }, true)
  else none

/-- The loop of `InsertProblematicKeys`: each key, with its value, becomes the pending one
    and is searched a place for from its first bucket; the first failure ends it. -/
def placeProblematic : List (UInt64 × V) → Search V → Option (Search V × Bool)
  | [], s => some (s, true)
  | (k, v) :: keys, s =>
    let s := { s with table := { s.table with pendingKey := k, pendingValue := v } }
    match s.shiftExhaustive (s.table.hashToIdPair k).1 with
    | some (s, true) => placeProblematic keys s
    | r => r

/-- `InsertProblematicKeys(keys, values)`, with fresh bucket states for the whole buffer. -/
def insertProblematicKeys (s : Search V) (keys : List (UInt64 × V)) : Option (Search V × Bool) :=
  if keys.isEmpty then some (s, true)
  else placeProblematic keys
    { s with compactionInfo := List.replicate s.table.bucketCount BucketState.init }

end Search

variable {V : Type} [Inhabited V]

/-- The tries of `Compact`: a buffer of `desiredBucketSize` buckets, the old buffer's keys
    rolled in with those that do not fit collected, then `InsertProblematicKeys`; on failure
    the next prime count. The last failure still computes that count. -/
def compactTries (oldKeys : ℕ → UInt64) (oldData : ℕ → V) (prevReservedBuckets : ℕ) :
    ℕ → Search V → ℕ → Option (Search V × Bool)
  | 0, s, _ => some (s, false)
  | tries + 1, s, desiredBucketSize =>
    let t := (s.table.setBucketCount desiredBucketSize).doAllocate
    let roll := fun (t : CuckooMapTable V) (problematic : List (UInt64 × V)) idPair =>
      let r := t.rollPending (t.shiftsLimit * 2) idPair
      (r.1, if r.2 = npos then problematic ++ [(r.1.pendingKey, r.1.pendingValue)] else problematic,
        true)
    match t.copyBuffer oldKeys oldData roll (bufferSlots prevReservedBuckets) [] with
    | (_, _, false) => none
    | (t, problematic, true) =>
      match Search.insertProblematicKeys { s with table := t } problematic with
      | none => none
      | some (s, true) => some ({ s with compactionInfo := [] }, true)
      | some (s, false) => do
        let next ← getPrimeNotLessThan (toBucketId (desiredBucketSize + 2))
        compactTries oldKeys oldData prevReservedBuckets tries s (toBucketId next)

/-- `Compact(ratio)`. `ratio` is a `double`; `CHECK_GT(ratio, 1.001)` compares it with the
    `double` `1.001`, and `size() * ratio` is a `double` product converted to `size_t`. -/
def compact (t : CuckooMapTable V) (ratio : ℚ) : Option (CuckooMapTable V × Bool) :=
  if ratio ≤ Binary.round 53 (1001 / 1000) then none
  else if t.bucketCount < 128 then some (t, true)
  else
    let prevReservedBuckets := toBucketId t.bucketCount
    let product := Binary.round 53 (Binary.round 53 t.size * ratio)
    if 2 ^ 64 ≤ product then none
    else do
      -- `1 + BucketFromId(...)` is a `uint32` sum
      let bucketCountFromSize := max kMinBucketCount (toBucketId (1 + bucketFromId ⌊product⌋₊))
      let desired ← getPrimeNotLessThan bucketCountFromSize
      let r ← compactTries t.keys t.data prevReservedBuckets kMaxCompactTries ⟨t, [], []⟩
        (toBucketId desired)
      pure (r.1.table, r.2)

/-! ## A compaction that loses a key -/

/-- Eighteen keys in two groups of nine. The first nine share both their buckets at each of
    the bucket counts `17, 19, 23, 29, 31`, the others at each of `37, 41, 43, 47, 53`: the
    ten counts that `Compact(1.25)` tries on 18 keys. At each of them eight keys fill the
    pair and no search can place the ninth. -/
def lossKeys : List UInt64 :=
  [14504616506555233996, 14504359481494370252, 14504350306300375373, 14504262329682802013,
    14504360666367808460, 14504367589651550277, 14504563609402471372, 14504403203453137997,
    14504360668519471432, 14504359534665668680, 14504359483646033224, 14504361322462067792,
    14504208693997114453, 14504361320310404820, 14504361235774453824, 14504580892753646276,
    14504226165588529493, 14504361233622790852]

/-- The table of the constructor's `131` buckets, with `0` as the empty key and `lossKeys`
    inserted, none of which needs a grow. -/
def lossTable : Option (CuckooMapTable Unit) := do
  let t ← create 512
  let t ← t.setEmptyKey 0
  lossKeys.foldlM (fun t k => (t.insert k ()).map (·.1)) t

/-- The key of `lossKeys` that the failed compaction leaves out. -/
def lostKey : UInt64 := 14504262329682802013

/-- `Compact(1.25)` on `lossTable` fails, and the table it leaves, the last try's buffer of
    `53` buckets, no longer holds `lostKey`, while `size()` still counts it. -/
theorem compact_failure_loses_key :
    ∃ t, lossTable = some t ∧ ∃ t', t.compact (5 / 4) = some (t', false) ∧
      t.find lostKey ≠ npos ∧ t'.find lostKey = npos ∧ t'.size = t.size := by
  have hrun : (lossTable.bind fun t => (t.compact (5 / 4)).map fun r =>
      (r.2, t.find lostKey != npos, r.1.find lostKey == npos, r.1.size == t.size)) =
        some (false, true, true, true) := by
    decide +kernel
  obtain ⟨t, ht, hcompact⟩ := Option.bind_eq_some_iff.mp hrun
  obtain ⟨⟨t', ok⟩, hcompact, hcheck⟩ := Option.map_eq_some_iff.mp hcompact
  simp only [Prod.mk.injEq, beq_iff_eq, bne_iff_ne, ne_eq] at hcheck
  obtain ⟨rfl, hfound, hlost, hsize⟩ := hcheck
  exact ⟨t, ht, t', hcompact, hfound, hlost, hsize⟩

/-! ## A search that misses the second bucket -/

/-- Twelve keys for a table of `17` buckets: eight whose buckets are `1` and `2`, and four
    whose buckets are `3` and `4`. -/
def shiftKeys : List UInt64 := [24, 55, 92, 122, 145, 191, 213, 243, 23, 53, 90, 120]

/-- The constructor's `17` buckets, `0` as the empty key and `shiftKeys` inserted, none of
    which needs a walk: buckets `1`, `2` and `3` are full and bucket `4` is empty. -/
def shiftTable : Option (CuckooMapTable Unit) := do
  let t ← create 64
  let t ← t.setEmptyKey 0
  shiftKeys.foldlM (fun t k => (t.insert k ()).map (·.1)) t

/-- A key whose buckets are `1` and `3`. -/
def shiftKey : UInt64 := 38

/-- **The failing input.** `ShiftExhaustive` from the first bucket of `shiftKey`, with fresh
    bucket states, returns false: every key of bucket `1` leads to bucket `2`, whose keys
    all lead back, so the search runs out of buckets. Yet the key in the first slot of the
    second bucket, `3`, leads to bucket `4`, which has a free slot: moving it there frees a
    slot of bucket `3` for `shiftKey`. The search never starts from that bucket. -/
theorem shift_exhaustive_misses_second_bucket :
    ∃ t, shiftTable = some t ∧ t.hashToIdPair shiftKey = (1, 3) ∧ t.find shiftKey = npos ∧
      t.checkEmpty 1 = 0 ∧ t.checkEmpty 2 = 0 ∧ t.checkEmpty 3 = 0 ∧
      t.nextBucketId 3 (t.keys (slot 3 0)) = 4 ∧ t.checkEmpty 4 ≠ 0 ∧
      (Search.shiftExhaustive ⟨{ t with pendingKey := shiftKey, pendingValue := () },
        List.replicate t.bucketCount .init, []⟩ 1).map (·.2) = some false := by
  have hrun : shiftTable.map (fun t => (t.hashToIdPair shiftKey == (1, 3) &&
      t.find shiftKey == npos && t.checkEmpty 1 == 0 && t.checkEmpty 2 == 0 &&
      t.checkEmpty 3 == 0 && t.nextBucketId 3 (t.keys (slot 3 0)) == 4 && t.checkEmpty 4 != 0) &&
      (Search.shiftExhaustive ⟨{ t with pendingKey := shiftKey, pendingValue := () },
        List.replicate t.bucketCount .init, []⟩ 1).map (·.2) == some false) = some true := by
    decide +kernel
  obtain ⟨t, ht, hcheck⟩ := Option.map_eq_some_iff.mp hrun
  simp only [Bool.and_eq_true, beq_iff_eq, bne_iff_ne, ne_eq] at hcheck
  obtain ⟨⟨⟨⟨⟨⟨⟨h₁, h₂⟩, h₃⟩, h₄⟩, h₅⟩, h₆⟩, h₇⟩, h₈⟩ := hcheck
  exact ⟨t, ht, h₁, h₂, h₃, h₄, h₅, h₆, h₇, h₈⟩

end CuckooMapTable

end Helio
