import Helio.Base.CuckooMap.Table

/-!
# Iterating over the cuckoo map

`CuckooMapTable::Iterator` (`base/cuckoo_map-internal.h`) is a table and a dense id
`current_`. `operator++` runs `while (current_ < Capacity())`. Each round increments
`current_` first, then asks `IsEmptyKey(current_)` and stops at a slot that holds a key. So it
moves to the next such slot, or to `Capacity()`.

The model gives `operator++` the ids that `IsEmptyKey` reads besides the position it stops at.
A traversal applies it while the position is short of `Capacity()`. It stops at every
non-empty slot after the start, in order, and then at `Capacity()`. It reads every id from the
start on, one at a time, up to and including `Capacity()`. The last read is of slot `0` of
bucket `bucket_count_`, one bucket past the buffer: `Capacity()` is a `size_t` product, which
does not wrap for a count that is a `BucketId`. The buffer of the model is a function on all slot offsets, so the model can make
that read.
-/

set_option autoImplicit false

namespace Helio

namespace CuckooMapTable

variable {V : Type}

/-- `IsEmptyKey(d)`: whether slot `d % kBucketLength` of bucket `BucketFromId(d)` holds the
    empty key. -/
def isEmptyKey (t : CuckooMapTable V) (d : ℕ) : Bool :=
  t.keys (slot (bucketFromId d) (d % kBucketLength)) == t.emptyValue

/-- `CuckooMapTable::Iterator`: `table_` and `current_`. -/
structure Iterator (V : Type) where
  table : CuckooMapTable V
  current : ℕ

/-- The `while` loop of `operator++` from `current`, `fuel` bounding its rounds: the id it
    stops at and the ids `IsEmptyKey` reads, in order. -/
def incLoop (t : CuckooMapTable V) : ℕ → ℕ → ℕ × List ℕ
  | 0, current => (current, [])
  | fuel + 1, current =>
    if current < t.capacity then
      -- `++current_` comes before the test
      if t.isEmptyKey (current + 1) then
        let r := t.incLoop fuel (current + 1)
        (r.1, (current + 1) :: r.2)
      else (current + 1, [current + 1])
    else (current, [])

namespace Iterator

/-- `operator++`: the iterator after it and the ids it reads. Each round of the loop moves
    `current_` one on towards `Capacity()`, so `Capacity() - current_` rounds are the loop's
    own bound. -/
def inc (it : Iterator V) : Iterator V × List ℕ :=
  let r := it.table.incLoop (it.table.capacity - it.current) it.current
  (⟨it.table, r.1⟩, r.2)

/-- `operator++` applied while the iterator is short of `Capacity()`, for at most `fuel`
    calls: the positions it stops at and the ids it reads. -/
def traverse : ℕ → Iterator V → List ℕ × List ℕ
  | 0, _ => ([], [])
  | fuel + 1, it =>
    if it.current < it.table.capacity then
      let r := it.inc
      let rest := traverse fuel r.1
      (r.1.current :: rest.1, r.2 ++ rest.2)
    else ([], [])

end Iterator

/-! ## One `operator++` -/

section Inc

variable (t : CuckooMapTable V)

theorem incLoop_empty {fuel current : ℕ} (h : current < t.capacity)
    (he : t.isEmptyKey (current + 1) = true) :
    t.incLoop (fuel + 1) current =
      ((t.incLoop fuel (current + 1)).1, (current + 1) :: (t.incLoop fuel (current + 1)).2) := by
  rw [incLoop, if_pos h, if_pos he]

theorem incLoop_occupied {fuel current : ℕ} (h : current < t.capacity)
    (he : t.isEmptyKey (current + 1) = false) :
    t.incLoop (fuel + 1) current = (current + 1, [current + 1]) := by
  rw [incLoop, if_pos h, if_neg (by rw [he]; decide)]

/-- **What one `operator++` does.** From a position short of `Capacity()` it stops at `d`,
    the first id after it that holds a key or `Capacity()`, having read every id up to `d`. -/
theorem incLoop_spec : ∀ n current, current + n = t.capacity → 0 < n →
    ∃ d, current < d ∧ d ≤ t.capacity ∧ (d < t.capacity → t.isEmptyKey d = false) ∧
      (∀ j, current < j → j < d → t.isEmptyKey j = true) ∧
      t.incLoop n current = (d, List.range' (current + 1) (d - current))
  | 0, _, _, hn => absurd hn (Nat.lt_irrefl 0)
  | n + 1, current, hcap, _ => by
    have hlt : current < t.capacity := by omega
    cases he : t.isEmptyKey (current + 1) with
    | false =>
      refine ⟨current + 1, by omega, by omega, fun _ => he, fun j hj hj' => by omega, ?_⟩
      rw [incLoop_occupied t hlt he, Nat.add_sub_cancel_left]
      rfl
    | true =>
      rw [incLoop_empty t hlt he]
      cases n with
      | zero =>
        -- `current + 1` is `Capacity()`: the loop ends there whatever the key
        refine ⟨current + 1, by omega, by omega, fun h => by omega, fun j hj hj' => by omega, ?_⟩
        rw [Nat.add_sub_cancel_left]
        rfl
      | succ n =>
        obtain ⟨d, hd, hdcap, hocc, hempty, hloop⟩ :=
          incLoop_spec (n + 1) (current + 1) (by omega) (by omega)
        refine ⟨d, by omega, hdcap, hocc, fun j hj hj' => ?_, ?_⟩
        · rcases Nat.lt_or_ge (current + 1) j with h | h
          · exact hempty j h hj'
          · rw [show j = current + 1 by omega]
            exact he
        · rw [hloop, show d - current = d - (current + 1) + 1 by omega, List.range'_succ]

end Inc

/-! ## A traversal -/

namespace Iterator

variable (t : CuckooMapTable V)

theorem traverse_done {fuel current : ℕ} (h : t.capacity ≤ current) :
    traverse fuel ⟨t, current⟩ = ([], []) := by
  cases fuel with
  | zero => rfl
  | succ fuel => rw [traverse, if_neg (by dsimp only; omega)]

theorem traverse_step {fuel current : ℕ} (h : current < t.capacity) :
    traverse (fuel + 1) ⟨t, current⟩ =
      ((t.incLoop (t.capacity - current) current).1 ::
          (traverse fuel ⟨t, (t.incLoop (t.capacity - current) current).1⟩).1,
        (t.incLoop (t.capacity - current) current).2 ++
          (traverse fuel ⟨t, (t.incLoop (t.capacity - current) current).1⟩).2) := by
  rw [traverse, if_pos h]
  rfl

/-- **A traversal visits the slots that hold keys, in order, and reads one id past them.**
    From a position short of `Capacity()`, with fuel for the ids left, `operator++` stops at
    each id after it that holds a key, then at `Capacity()`, and `IsEmptyKey` reads every id
    after it up to and including `Capacity()`. The induction is on the fuel, each call of
    `operator++` taking the traversal to the next stop. -/
theorem traverse_eq : ∀ fuel current, current < t.capacity → t.capacity - current ≤ fuel →
    traverse fuel ⟨t, current⟩ =
      ((List.range' (current + 1) (t.capacity - current - 1)).filter (fun d => !t.isEmptyKey d) ++
          [t.capacity],
        List.range' (current + 1) (t.capacity - current))
  | 0, _, h, hfuel => by omega
  | fuel + 1, current, h, hfuel => by
    obtain ⟨d, hd, hdcap, hocc, hempty, hloop⟩ :=
      incLoop_spec t (t.capacity - current) current (by omega) (by omega)
    rw [traverse_step t h, hloop]
    dsimp only
    -- the ids strictly between `current` and `d` are empty
    have hnil : (List.range' (current + 1) (d - current - 1)).filter (fun d => !t.isEmptyKey d) =
        [] := by
      rw [List.filter_eq_nil_iff]
      intro j hj
      rw [List.mem_range'_1] at hj
      rw [hempty j (by omega) (by omega)]
      decide
    rcases Nat.lt_or_ge d t.capacity with hdlt | hdge
    · -- `d` holds a key: the rest of the traversal starts from it
      rw [traverse_eq fuel d hdlt (by omega)]
      have hsplit : List.range' (current + 1) (t.capacity - current - 1) =
          List.range' (current + 1) (d - current - 1) ++
            (d :: List.range' (d + 1) (t.capacity - d - 1)) := by
        have happ := @List.range'_append_1 (current + 1) (d - current - 1) (t.capacity - d)
        rw [show current + 1 + (d - current - 1) = d by omega,
          show t.capacity - d = t.capacity - d - 1 + 1 by omega, List.range'_succ] at happ
        rw [happ]
        congr 1
        omega
      have hread : List.range' (current + 1) (d - current) ++
          List.range' (d + 1) (t.capacity - d) = List.range' (current + 1) (t.capacity - current) := by
        rw [show d + 1 = current + 1 + (d - current) by omega, List.range'_append_1]
        congr 1
        omega
      rw [hsplit, List.filter_append, hnil, List.filter_cons_of_pos (by rw [hocc hdlt]; decide),
        hread]
      rfl
    · -- `d` is `Capacity()`: the traversal ends
      have hd' : d = t.capacity := by omega
      subst hd'
      rw [traverse_done t le_rfl, hnil, List.append_nil]
      rfl

/-- **The last `operator++` of a traversal reads past the buffer.** Every traversal from a
    position short of `Capacity()` ends with `IsEmptyKey(Capacity())`. For every count that is a
    `BucketId` that id is slot `0` of bucket `bucket_count_`, one past the buffer. -/
theorem traverse_reads_past_buffer (current : ℕ) (h : current < t.capacity)
    (hsmall : t.bucketCount < 2 ^ 32) :
    (traverse (t.capacity - current) ⟨t, current⟩).2.getLast? = some t.capacity ∧
      bucketFromId t.capacity = t.bucketCount ∧ t.capacity % kBucketLength = 0 := by
  have hcap : t.capacity = t.bucketCount * kBucketLength := by
    unfold capacity kBucketLength
    omega
  refine ⟨?_, ?_, ?_⟩
  · rw [traverse_eq t _ current h le_rfl, show t.capacity - current = (t.capacity - current - 1) + 1
      by omega, List.range'_concat, List.getLast?_concat]
    congr 1
    omega
  · unfold bucketFromId toBucketId
    rw [hcap, Nat.mul_div_cancel _ (by decide)]
    omega
  · rw [hcap]
    exact Nat.mul_mod_left _ _

end Iterator

/-- **The failing input.** A traversal of `CuckooSet(512)`, of `131` buckets, from id `0`
    ends by reading id `524`, which is `Capacity()`, in bucket `131`: one past the buffer. -/
theorem iterator_reads_past_buffer :
    ∃ t : CuckooMapTable Unit, create 512 = some t ∧ t.bucketCount = 131 ∧ t.capacity = 524 ∧
      (Iterator.traverse 524 ⟨t, 0⟩).2.getLast? = some 524 ∧ bucketFromId 524 = t.bucketCount := by
  have hrun : (create 512 : Option (CuckooMapTable Unit)).map bucketCount = some 131 := by
    decide +kernel
  obtain ⟨t, ht, hbc⟩ := Option.map_eq_some_iff.mp hrun
  have hcap : t.capacity = 524 := by
    unfold capacity kBucketLength
    rw [hbc]
    norm_num
  obtain ⟨hlast, hbucket, -⟩ := Iterator.traverse_reads_past_buffer t 0 (by omega) (by omega)
  rw [hcap] at hlast hbucket
  exact ⟨t, ht, hbc, hcap, hlast, hbucket⟩

end CuckooMapTable

end Helio
