import Helio.Base.CuckooMap.FromHash
import Helio.Lib.Trans

/-!
# The cuckoo map over every run of calls

A table is built by the constructor and then changed by its public calls: `SetEmptyKey`,
`Reserve`, `Insert`, `Clear`, `SetGrowth` and `Compact` (`Call`, `exec`). The states they
reach from `create` are `Trans.Reachable exec`. This file proves what every one of them
keeps and what follows for `FromHash` and `RollPending`.

`SetBucketCount` is the only writer of `bucket_count_` and `shifts_limit_`, and every count
it is given is a result of `GetPrimeNotLessThan`, which scans odd values only. So every
reachable count is odd and a `BucketId`, and `shifts_limit_ = countr_zero(bucket_count_) * 2`
is `0` (`OddCount`, `Reachable.oddCount`). Three consequences:

* `FromHash` through libdivide is the remainder `fromHash` that the table's model uses, in
  every reachable table with more than one bucket (`reachable_fromHashDivide_eq`);
* `RollPending` is always called with a limit of `0`, so the random walk of cuckoo hashing
  never runs: a key whose two buckets are full is not placed, and no key is moved
  (`reachable_rollPending_full`); `Insert` grows instead;
* the one count that is a power of two, `1`, is reached: `Reserve` of an empty table asked
  for a capacity whose `BucketFromId` wraps to `0` or `1` calls `Init` for one bucket, and
  `FromHash` then returns bucket ids outside it (`reserve_one_bucket`).

The moves of keys (`RollPending`, `CopyBuffer`, the exhaustive search of `Compact`) leave
the pair of members alone (`sizing`); the frame lemmas of the first section say so.
-/

set_option autoImplicit false

namespace Helio

namespace CuckooMapTable

variable {V : Type}

/-! ## What moving keys leaves alone -/

/-- The two members that only `SetBucketCount` writes. -/
def sizing (t : CuckooMapTable V) : ℕ × UInt32 := (t.bucketCount, t.shiftsLimit)

section Frames

@[simp] theorem sizing_insertIntoBucket (t : CuckooMapTable V) (emptyMask b : ℕ) :
    (t.insertIntoBucket emptyMask b).1.sizing = t.sizing := rfl

@[simp] theorem sizing_swapPending (t : CuckooMapTable V) (b index : ℕ) :
    (t.swapPending b index).sizing = t.sizing := rfl

@[simp] theorem sizing_randomBit (t : CuckooMapTable V) : t.randomBit.1.sizing = t.sizing := rfl

@[simp] theorem sizing_randomIndex (t : CuckooMapTable V) :
    t.randomIndex.1.sizing = t.sizing := rfl

theorem sizing_rollLoop (start startIndex : ℕ) :
    ∀ (j : ℕ) (t : CuckooMapTable V) (bid shiftIndex : ℕ),
      (t.rollLoop start startIndex j bid shiftIndex).1.sizing = t.sizing
  | 0, _, _, _ => rfl
  | j + 1, t, bid, shiftIndex => by
    rw [rollLoop]
    dsimp only
    split
    · simp
    · rw [sizing_rollLoop start startIndex j]
      simp

@[simp] theorem sizing_rollPending (t : CuckooMapTable V) (shiftsLimit : UInt32)
    (bucketPair : ℕ × ℕ) : (t.rollPending shiftsLimit bucketPair).1.sizing = t.sizing := by
  unfold rollPending
  dsimp only
  split
  · simp
  · split
    · simp
    · rw [sizing_rollLoop]
      simp

/-- `CopyBuffer` leaves the pair alone when its `insert_func` does. -/
theorem sizing_copyBuffer {α : Type} (oldKeys : ℕ → UInt64) (oldData : ℕ → V)
    {insertFunc : CuckooMapTable V → α → ℕ × ℕ → CuckooMapTable V × α × Bool}
    (hf : ∀ t acc idPair, (insertFunc t acc idPair).1.sizing = t.sizing) :
    ∀ (slots : List ℕ) (t : CuckooMapTable V) (acc : α),
      (copyBuffer oldKeys oldData insertFunc slots t acc).1.sizing = t.sizing
  | [], _, _ => rfl
  | s :: slots, t, acc => by
    rw [copyBuffer]
    dsimp only
    split
    · exact sizing_copyBuffer oldKeys oldData hf slots _ acc
    · have hins := hf { t with pendingKey := oldKeys s, pendingValue := oldData s } acc
        ({ t with pendingKey := oldKeys s }.hashToIdPair (oldKeys s))
      split <;> rename_i t' acc' heq <;> rw [heq] at hins
      · rw [sizing_copyBuffer oldKeys oldData hf slots t' acc']
        exact hins
      · exact hins

theorem sizing_of_copyBuffer {α : Type} {oldKeys : ℕ → UInt64} {oldData : ℕ → V}
    {insertFunc : CuckooMapTable V → α → ℕ × ℕ → CuckooMapTable V × α × Bool}
    {slots : List ℕ} {t t' : CuckooMapTable V} {acc acc' : α} {ok : Bool}
    (h : copyBuffer oldKeys oldData insertFunc slots t acc = (t', acc', ok))
    (hf : ∀ t acc idPair, (insertFunc t acc idPair).1.sizing = t.sizing) :
    t'.sizing = t.sizing := by
  have hcopy := sizing_copyBuffer oldKeys oldData hf slots t acc
  rw [h] at hcopy
  exact hcopy

namespace Search

theorem sizing_exploreLoop (parent : ℕ) :
    ∀ (ks : List ℕ) (s : Search V) (mask : ℕ),
      (exploreLoop parent ks s mask).1.table.sizing = s.table.sizing
  | [], _, _ => rfl
  | k :: ks, s, mask => by
    rw [exploreLoop]
    dsimp only
    split
    · exact sizing_exploreLoop parent ks s mask
    · split
      · split
        · split <;> simp
        · rw [sizing_exploreLoop]
          rfl
      · rw [sizing_exploreLoop]
        rfl

theorem sizing_explore {s s' : Search V} {parent : ℕ} {found : Bool}
    (h : s.explore parent = (s', found)) : s'.table.sizing = s.table.sizing := by
  have hloop := sizing_exploreLoop parent (List.range kBucketLength) s 0
  unfold explore at h
  rw [h] at hloop
  exact hloop

theorem sizing_advance {bid parent : ℕ} {startKey : UInt64} {s s' : Search V}
    {visitedCount visitedCount' : UInt32}
    (h : advance bid startKey parent s visitedCount = some (s', visitedCount')) :
    s'.table.sizing = s.table.sizing := by
  unfold advance at h
  dsimp only at h
  split at h
  · split at h
    · cases h
      rfl
    · cases h
  · split at h
    · cases h
      rfl
    · split at h <;> (cases h; rfl)

theorem sizing_shiftLoop (bid : ℕ) (startKey : UInt64) :
    ∀ (fuel : ℕ) (s s' : Search V) (visitedCount visitedCount' : UInt32),
      shiftLoop bid startKey fuel s visitedCount = some (s', visitedCount') →
      s'.table.sizing = s.table.sizing
  | 0, _, _, _, _, h => by cases h
  | fuel + 1, s, s', visitedCount, visitedCount', h => by
    rw [shiftLoop] at h
    split at h
    · cases h
      rfl
    · split at h
      · split at h
        · rename_i heq
          cases h
          exact sizing_explore heq
        · rename_i s₁ heq
          obtain ⟨⟨s₂, c₂⟩, hadv, hrest⟩ := Option.bind_eq_some_iff.mp h
          rw [sizing_shiftLoop bid startKey fuel s₂ s' c₂ visitedCount' hrest,
            sizing_advance hadv, sizing_explore heq]
      · obtain ⟨⟨s₂, c₂⟩, hadv, hrest⟩ := Option.bind_eq_some_iff.mp h
        rw [sizing_shiftLoop bid startKey fuel s₂ s' c₂ visitedCount' hrest, sizing_advance hadv]

theorem sizing_shiftExhaustive {s s' : Search V} {bid : ℕ} {found : Bool}
    (h : s.shiftExhaustive bid = some (s', found)) : s'.table.sizing = s.table.sizing := by
  unfold shiftExhaustive at h
  split at h
  · obtain ⟨⟨s₁, c₁⟩, hloop, hres⟩ := Option.map_eq_some_iff.mp h
    have hs₁ := sizing_shiftLoop _ _ _ _ _ _ _ hloop
    dsimp only at hres
    -- the cleanup touches bucket states only
    split at hres
    · cases hres
      exact hs₁
    · cases hres
      split <;> simp only [table_unmarkStack] <;> exact hs₁
  · cases h

theorem sizing_placeProblematic :
    ∀ (keys : List (UInt64 × V)) (s s' : Search V) (found : Bool),
      placeProblematic keys s = some (s', found) → s'.table.sizing = s.table.sizing
  | [], _, _, _, h => by
    cases h
    rfl
  | (k, v) :: keys, s, s', found, h => by
    rw [placeProblematic] at h
    dsimp only at h
    split at h
    · rename_i s₁ heq
      rw [sizing_placeProblematic keys s₁ s' found h, sizing_shiftExhaustive heq]
      rfl
    · -- a failed search ends the loop with its own result
      have hs := sizing_shiftExhaustive h
      exact hs

theorem sizing_insertProblematicKeys {s s' : Search V} {keys : List (UInt64 × V)}
    {found : Bool} (h : s.insertProblematicKeys keys = some (s', found)) :
    s'.table.sizing = s.table.sizing := by
  unfold insertProblematicKeys at h
  split at h
  · cases h
    rfl
  · have hplace := sizing_placeProblematic _ _ _ _ h
    exact hplace

end Search

end Frames

/-! ## Every count is odd -/

/-- **What every built table keeps**: an odd count that is a `BucketId`, and so a
    `shifts_limit_` of `0`. -/
structure OddCount (t : CuckooMapTable V) : Prop where
  odd : t.bucketCount % 2 = 1
  lt : t.bucketCount < 2 ^ 32
  shiftsLimit : t.shiftsLimit = 0

theorem OddCount.of_sizing {t t' : CuckooMapTable V} (ht : OddCount t)
    (h : t'.sizing = t.sizing) : OddCount t' := by
  obtain ⟨hc, hs⟩ := Prod.mk.inj h
  exact ⟨hc ▸ ht.odd, hc ▸ ht.lt, hs ▸ ht.shiftsLimit⟩

/-- `GetPrimeNotLessThan` scans odd values only. -/
theorem getPrimeNotLessThan_odd {c p : ℕ} (h : getPrimeNotLessThan c = some p) : p % 2 = 1 := by
  rw [getPrimeNotLessThan_eq] at h
  have := (scanPrime_ge h).2
  split at this <;> omega

/-- `SetBucketCount` of an odd count: `countr_zero` of it is `0`. -/
theorem oddCount_setBucketCount (t : CuckooMapTable V) {p : ℕ} (hodd : p % 2 = 1)
    (hlt : p < 2 ^ 32) : OddCount (t.setBucketCount p) := by
  refine ⟨hodd, hlt, ?_⟩
  show (Bytes.countrZero 64 p * 2).toUInt32 = 0
  rw [Bytes.countrZero, if_pos hodd]
  rfl

/-- `RollPending` with a limit of `0`: with both buckets full, the walk has no round, so it
    returns `npos` and moves no key. -/
theorem rollPending_zero_full (t : CuckooMapTable V) (bucketPair : ℕ × ℕ)
    (h₁ : t.checkEmpty bucketPair.1 = 0) (h₂ : t.checkEmpty bucketPair.2 = 0) :
    (t.rollPending 0 bucketPair).2 = npos ∧ (t.rollPending 0 bucketPair).1.keys = t.keys := by
  unfold rollPending
  simp only [h₁, h₂, ne_eq, not_true_eq_false, if_false]
  exact ⟨rfl, rfl⟩

section Calls

variable [Inhabited V]

@[simp] theorem sizing_doAllocate (t : CuckooMapTable V) : t.doAllocate.sizing = t.sizing := rfl

theorem oddCount_of_getPrimeNotLessThan (t : CuckooMapTable V) {c p : ℕ}
    (h : getPrimeNotLessThan c = some p) : OddCount (t.setBucketCount p).doAllocate :=
  (oddCount_setBucketCount t (getPrimeNotLessThan_odd h) (getPrimeNotLessThan_lt h)).of_sizing
    (sizing_doAllocate _)

theorem oddCount_init {t t' : CuckooMapTable V} {c : ℕ} (h : t.init c = some t') :
    OddCount t' := by
  unfold init at h
  obtain ⟨p, hp, hres⟩ := Option.bind_eq_some_iff.mp h
  cases hres
  exact oddCount_of_getPrimeNotLessThan _ hp

/-- **Every table `Grow`'s loop returns has an odd count**: each pass sets one that
    `GetPrimeNotLessThan` returned, and the copy with `RollPending` keeps it. -/
theorem oddCount_growLoop (oldKeys : ℕ → UInt64) (oldData : ℕ → V)
    (oldBucketCount lowBucketBound : ℕ) :
    ∀ (fuel : ℕ) (t t' : CuckooMapTable V),
      growLoop oldKeys oldData oldBucketCount lowBucketBound fuel t = some t' → OddCount t'
  | 0, _, _, h => by cases h
  | fuel + 1, t, t', h => by
    rw [growLoop] at h
    obtain ⟨g, -, h⟩ := Option.bind_eq_some_iff.mp h
    obtain ⟨p, hp, h⟩ := Option.bind_eq_some_iff.mp h
    rw [toBucketId_of_getPrimeNotLessThan hp] at h
    dsimp only at h
    split at h
    · have hset := oddCount_of_getPrimeNotLessThan t hp
      split at h <;> rename_i t'' _ heq <;>
        have hcopy := sizing_of_copyBuffer heq (fun t _ idPair => sizing_rollPending t _ idPair)
      · cases h
        exact hset.of_sizing hcopy
      · exact oddCount_growLoop oldKeys oldData oldBucketCount lowBucketBound fuel t'' t' h
    · cases h

theorem oddCount_grow {t t' : CuckooMapTable V} {lowBucketBound : ℕ}
    (h : t.grow lowBucketBound = some t') : OddCount t' := by
  unfold grow at h
  obtain ⟨t'', hloop, rfl⟩ := Option.map_eq_some_iff.mp h
  exact (oddCount_growLoop _ _ _ _ _ _ _ hloop).of_sizing rfl

theorem oddCount_insertLoop :
    ∀ (fuel : ℕ) (t : CuckooMapTable V) (idPair : ℕ × ℕ) (iteration : ℕ)
      (r : CuckooMapTable V × ℕ × ℕ),
      OddCount t → insertLoop fuel t idPair iteration = some r → OddCount r.1
  | 0, _, _, _, _, _, h => by cases h
  | fuel + 1, t, idPair, iteration, r, ht, h => by
    rw [insertLoop] at h
    split at h
    · cases h
      exact ht.of_sizing (sizing_rollPending _ _ _)
    · obtain ⟨t', hgrow, h⟩ := Option.bind_eq_some_iff.mp h
      exact oddCount_insertLoop fuel t' _ _ r (oddCount_grow hgrow) h

theorem oddCount_insert {t : CuckooMapTable V} {k : UInt64} {v : V}
    {r : CuckooMapTable V × ℕ × Bool} (ht : OddCount t) (h : t.insert k v = some r) :
    OddCount r.1 := by
  unfold insert at h
  dsimp only at h
  split at h
  · cases h
    exact ht
  · obtain ⟨⟨t', r', it⟩, hloop, hres⟩ := Option.bind_eq_some_iff.mp h
    cases hres
    refine (oddCount_insertLoop _ _ _ _ _ ?_ hloop).of_sizing rfl
    exact ht.of_sizing rfl

/-- The tries of `Compact` keep an odd count: each sets one, odd, from its argument, and the
    next try's count is `GetPrimeNotLessThan`'s. -/
theorem oddCount_compactTries (oldKeys : ℕ → UInt64) (oldData : ℕ → V)
    (prevReservedBuckets : ℕ) :
    ∀ (tries : ℕ) (s s' : Search V) (d : ℕ) (found : Bool), d % 2 = 1 → d < 2 ^ 32 →
      OddCount s.table →
      compactTries oldKeys oldData prevReservedBuckets tries s d = some (s', found) →
      OddCount s'.table
  | 0, _, _, _, _, _, _, hs, h => by
    cases h
    exact hs
  | tries + 1, s, s', d, found, hd, hd32, _, h => by
    rw [compactTries] at h
    dsimp only at h
    have hset := (oddCount_setBucketCount s.table hd hd32).of_sizing (sizing_doAllocate _)
    split at h
    · cases h
    · rename_i t problematic heq
      have hcopy := hset.of_sizing (sizing_of_copyBuffer heq
        (fun t _ idPair => sizing_rollPending t _ idPair))
      split at h
      · cases h
      · rename_i s₁ heq₁
        cases h
        exact hcopy.of_sizing (Search.sizing_insertProblematicKeys heq₁)
      · rename_i s₁ heq₁
        obtain ⟨next, hnext, hrest⟩ := Option.bind_eq_some_iff.mp h
        rw [toBucketId_of_getPrimeNotLessThan hnext] at hrest
        exact oddCount_compactTries oldKeys oldData prevReservedBuckets tries s₁ s' next found
          (getPrimeNotLessThan_odd hnext) (getPrimeNotLessThan_lt hnext)
          (hcopy.of_sizing (Search.sizing_insertProblematicKeys heq₁)) hrest

theorem oddCount_compact {t : CuckooMapTable V} {ratio : ℚ} {r : CuckooMapTable V × Bool}
    (ht : OddCount t) (h : t.compact ratio = some r) : OddCount r.1 := by
  unfold compact at h
  split at h
  · cases h
  split at h
  · cases h
    exact ht
  dsimp only at h
  split at h
  · cases h
  obtain ⟨desired, hdesired, hrest⟩ := Option.bind_eq_some_iff.mp h
  obtain ⟨⟨s', found⟩, htries, hres⟩ := Option.bind_eq_some_iff.mp hrest
  cases hres
  rw [toBucketId_of_getPrimeNotLessThan hdesired] at htries
  exact oddCount_compactTries _ _ _ _ _ _ _ _ (getPrimeNotLessThan_odd hdesired)
    (getPrimeNotLessThan_lt hdesired) ht htries

theorem oddCount_reserve {t t' : CuckooMapTable V} {biggerCapacity : ℕ} (ht : OddCount t)
    (h : t.reserve biggerCapacity = some t') : OddCount t' := by
  unfold reserve at h
  split at h
  · cases h
    exact ht
  · split at h
    · exact oddCount_init h
    · exact oddCount_grow h

/-! ## Runs of calls -/

/-- A call of the table's interface that changes it. -/
inductive Call (V : Type) where
  | setEmptyKey (v : UInt64)
  | reserve (biggerCapacity : ℕ)
  | insert (k : UInt64) (v : V)
  | clear
  | setGrowth (growth : ℚ)
  | compact (ratio : ℚ)

/-- One call; a failed `CHECK` or `LOG(FATAL)` is `none`. -/
def exec (t : CuckooMapTable V) : Call V → Option (CuckooMapTable V)
  | .setEmptyKey v => t.setEmptyKey v
  | .reserve biggerCapacity => t.reserve biggerCapacity
  | .insert k v => (t.insert k v).map (·.1)
  | .clear => some t.clear
  | .setGrowth growth => t.setGrowth growth
  | .compact ratio => (t.compact ratio).map (·.1)

/-- **Every call keeps the count odd.** -/
theorem oddCount_exec {t t' : CuckooMapTable V} {c : Call V} (ht : OddCount t)
    (h : exec t c = some t') : OddCount t' := by
  cases c with
  | setEmptyKey v =>
    change t.setEmptyKey v = some t' at h
    unfold setEmptyKey at h
    split at h
    · cases h
    · cases h
      exact ht.of_sizing rfl
  | reserve biggerCapacity => exact oddCount_reserve ht (h : t.reserve biggerCapacity = some t')
  | insert k v =>
    obtain ⟨r, hr, rfl⟩ := Option.map_eq_some_iff.mp h
    exact oddCount_insert ht hr
  | clear =>
    cases (h : some t.clear = some t')
    exact ht.of_sizing rfl
  | setGrowth growth =>
    change t.setGrowth growth = some t' at h
    unfold setGrowth at h
    split at h
    · cases h
      exact ht.of_sizing rfl
    · cases h
  | compact ratio =>
    obtain ⟨r, hr, rfl⟩ := Option.map_eq_some_iff.mp h
    exact oddCount_compact ht hr

/-- **Every table the constructor and any run of calls build has an odd count.** -/
theorem Reachable.oddCount {c : ℕ} {t₀ t : CuckooMapTable V} (h₀ : create c = some t₀)
    (h : Trans.Reachable exec t₀ t) : OddCount t :=
  Trans.Reachable.invariant OddCount (fun _ _ _ hs hstep => oddCount_exec hs hstep) h
    (oddCount_init h₀)

/-! ## What follows -/

/-- An odd count other than `1` is not a power of two. -/
theorem not_isPowerOfTwo_of_odd {n : ℕ} (hodd : n % 2 = 1) (h1 : n ≠ 1) : ¬ n.isPowerOfTwo := by
  rintro ⟨k, rfl⟩
  cases k with
  | zero => exact h1 rfl
  | succ k => rw [Nat.pow_succ, Nat.mul_mod_left] at hodd; cases hodd

/-- **`FromHash` computes the remainder in every table with more than one bucket.** In
    every table that the constructor and any run of calls build, the count is `1` or the
    libdivide path of `FromHash` returns `hash % bucket_count_` for every hash. -/
theorem reachable_fromHashDivide_eq {c : ℕ} {t₀ t : CuckooMapTable V}
    (h₀ : create c = some t₀) (h : Trans.Reachable exec t₀ t) :
    t.bucketCount = 1 ∨ ∀ hashVal, t.fromHashDivide hashVal = some (t.fromHash hashVal) := by
  have ht := Reachable.oddCount h₀ h
  by_cases h1 : t.bucketCount = 1
  · exact Or.inl h1
  · refine Or.inr fun hashVal => fromHashDivide_eq t hashVal (by have := ht.odd; omega)
      (not_isPowerOfTwo_of_odd ht.odd h1) (lt_trans ht.lt (by norm_num))

/-- The constructor's table for `64` keys, of `17` buckets, asked to `Reserve` room for `100`
    while empty, is rebuilt with `29` buckets and takes two keys: `FromHash` is the remainder
    there. -/
theorem reachable_fromHashDivide_eq_reserved :
    ∃ t₀ t : CuckooMapTable Unit, create 64 = some t₀ ∧ Trans.Reachable exec t₀ t ∧
      t.bucketCount = 29 ∧ t.size = 2 ∧
      (t.bucketCount = 1 ∨ ∀ hashVal, t.fromHashDivide hashVal = some (t.fromHash hashVal)) := by
  obtain ⟨t₀, ht₀⟩ := Option.isSome_iff_exists.mp
    (by decide : (create 64 : Option (CuckooMapTable Unit)).isSome)
  have hrun : ((create 64 : Option (CuckooMapTable Unit)).bind fun t =>
      (Trans.run exec t [.setEmptyKey 0, .reserve 100, .insert 1 (), .insert 2 ()]).map
        fun t => t.bucketCount == 29 && t.size == 2) = some true := by
    decide
  rw [ht₀, Option.bind_some] at hrun
  obtain ⟨t, hr, hend⟩ := Trans.exists_reachable_of_run _ _ hrun
  simp only [Bool.and_eq_true, beq_iff_eq] at hend
  exact ⟨t₀, t, ht₀, hr, hend.1, hend.2, reachable_fromHashDivide_eq ht₀ hr⟩

/-- **The eviction walk never runs.** In every table that the constructor and any run of
    calls build, `shifts_limit_` is `0`, so `RollPending(shifts_limit_, pair)` with both
    buckets of the pair full fails and moves no key: `Insert` grows the table instead of
    making room by cuckoo moves. -/
theorem reachable_rollPending_full {c : ℕ} {t₀ t : CuckooMapTable V} (h₀ : create c = some t₀)
    (h : Trans.Reachable exec t₀ t) (bucketPair : ℕ × ℕ)
    (h₁ : t.checkEmpty bucketPair.1 = 0) (h₂ : t.checkEmpty bucketPair.2 = 0) :
    t.shiftsLimit = 0 ∧ (t.rollPending t.shiftsLimit bucketPair).2 = npos ∧
      (t.rollPending t.shiftsLimit bucketPair).1.keys = t.keys := by
  have hs := (Reachable.oddCount h₀ h).shiftsLimit
  rw [hs]
  exact ⟨rfl, rollPending_zero_full t bucketPair h₁ h₂⟩

/-- In the constructor's table of `17` buckets the key `kMask1 ^ 85` has the buckets `0` and
    `12`. Four keys whose first bucket is `0` and four whose first bucket is `12` fill both, so
    `RollPending` of that key finds no room, and nothing moves. -/
theorem reachable_rollPending_full_pair :
    ∃ t₀ t : CuckooMapTable Unit, create 64 = some t₀ ∧ Trans.Reachable exec t₀ t ∧
      t.hashToIdPair (kMask1 ^^^ 85) = (0, 12) ∧ t.checkEmpty 0 = 0 ∧ t.checkEmpty 12 = 0 ∧
      t.shiftsLimit = 0 ∧ (t.rollPending t.shiftsLimit (t.hashToIdPair (kMask1 ^^^ 85))).2 = npos ∧
        (t.rollPending t.shiftsLimit (t.hashToIdPair (kMask1 ^^^ 85))).1.keys = t.keys := by
  obtain ⟨t₀, ht₀⟩ := Option.isSome_iff_exists.mp
    (by decide : (create 64 : Option (CuckooMapTable Unit)).isSome)
  have hfill : ((create 64 : Option (CuckooMapTable Unit)).bind fun t =>
      (Trans.run exec t [.setEmptyKey 0,
        .insert (kMask1 ^^^ 17) (), .insert (kMask1 ^^^ 34) (), .insert (kMask1 ^^^ 51) (),
        .insert (kMask1 ^^^ 68) (), .insert (kMask1 ^^^ 12) (), .insert (kMask1 ^^^ 29) (),
        .insert (kMask1 ^^^ 46) (), .insert (kMask1 ^^^ 63) ()]).map
          fun t => t.hashToIdPair (kMask1 ^^^ 85) == (0, 12) && t.checkEmpty 0 == 0 &&
            t.checkEmpty 12 == 0) = some true := by
    decide
  rw [ht₀, Option.bind_some] at hfill
  obtain ⟨t, hr, hend⟩ := Trans.exists_reachable_of_run _ _ hfill
  simp only [Bool.and_eq_true, beq_iff_eq] at hend
  obtain ⟨⟨hpair, h₁⟩, h₂⟩ := hend
  exact ⟨t₀, t, ht₀, hr, hpair, h₁, h₂, reachable_rollPending_full ht₀ hr _
    (by rw [hpair]; exact h₁) (by rw [hpair]; exact h₂)⟩

/-! ## A table of one bucket -/

/-- `GetPrimeNotLessThan` of `0` or `1` is `1`, which `IsPrime` accepts. -/
theorem getPrimeNotLessThan_le_one {v : ℕ} (hv : v ≤ 1) : getPrimeNotLessThan v = some 1 := by
  rcases Nat.le_one_iff_eq_zero_or_eq_one.mp hv with rfl | rfl <;> decide

/-- **`Reserve` can make a table of one bucket, and `FromHash` then leaves it.** An empty
    table asked for more than its capacity, for a capacity whose `BucketFromId` is `0` or
    `1` (which the `uint32` conversion gives from `2 ^ 34` on), gets `Init(1)`: one bucket.
    A count of `1` is a power of two, and `FromHash` returns `hash - hash / 2`, not `0`. -/
theorem reserve_one_bucket {t : CuckooMapTable V} (biggerCapacity : ℕ) (hsize : t.size = 0)
    (hcap : t.bucketCount * kBucketLength < biggerCapacity)
    (hb : bucketFromId biggerCapacity ≤ 1) :
    ∃ t', t.reserve biggerCapacity = some t' ∧ t'.bucketCount = 1 ∧
      ∀ hashVal : UInt64,
        t'.fromHashDivide hashVal = some ((hashVal.toNat - hashVal.toNat / 2) % 2 ^ 32) := by
  obtain ⟨t', hinit, hbc⟩ := init_of_getPrimeNotLessThan t (getPrimeNotLessThan_le_one hb)
  have hlt : ¬ biggerCapacity ≤ t.capacity := by
    unfold capacity
    have := Nat.mod_le (t.bucketCount * kBucketLength) (2 ^ 32)
    omega
  refine ⟨t', ?_, hbc, fun hashVal => ?_⟩
  · unfold reserve
    rw [if_neg hlt, if_pos hsize]
    exact hinit
  · rw [fromHashDivide_two_pow t' hashVal (k := 0) (by norm_num) hbc]
    simp only [Nat.zero_add, Nat.pow_one, Nat.pow_zero, Nat.mul_one]
    rfl

/-- The constructor's table for `512` keys, of `131` buckets, asked for `2 ^ 34` keys: one
    bucket, and the hash `2` goes to bucket `1`. -/
theorem reserve_one_bucket_create :
    ∃ t t' : CuckooMapTable Unit, create 512 = some t ∧ t.reserve (2 ^ 34) = some t' ∧
      t'.bucketCount = 1 ∧ t'.fromHashDivide 2 = some 1 := by
  have hrun : (create 512 : Option (CuckooMapTable Unit)).map (fun t => (t.size, t.bucketCount)) =
      some (0, 131) := by
    decide
  obtain ⟨t, ht, hsb⟩ := Option.map_eq_some_iff.mp hrun
  obtain ⟨hsize, hbc⟩ := Prod.mk.inj hsb
  obtain ⟨t', hres, hone, hfrom⟩ := reserve_one_bucket (2 ^ 34) hsize
    (by rw [hbc]; unfold kBucketLength; norm_num) (by decide)
  exact ⟨t, t', ht, hres, hone, by rw [hfrom]; rfl⟩

end Calls

end CuckooMapTable

end Helio
