import Helio.Lib.Trans

/-!
# Metric families: per-thread values behind a shared label index

A `CounterFamily` or `GaugeFamily` (`util/metrics/{family,metrics}.{h,cc}`) gives every
distinct tuple of label values a **dense id**, handed out in order by the family under its
mutex (`label_values_`, `label_map_`). Each proactor thread keeps its own copy of the
index (`PerThread::label_map`) and its own vector of values indexed by dense id
(`PerThread::metric_vec`), so that an update touches only thread-local data once the
thread has seen the tuple. `Iterate` adds the vectors of all threads up, index by index.

`Emplace` looks the tuple's hash up in the thread's map and, on a miss, in the shared
one; it reports `inserted` when the *thread's* map gained an entry, even if the id is an
old one of the shared map. `GetDenseId` then calls `metric_vec.resize(dense_id + 1)`. When
a thread meets an old tuple after a newer one, that resize *shrinks* the vector: the value
of the newer tuple is thrown away, and the thread's map keeps an id past the end of its
vector, which the next update of that tuple indexes (`shrink_loses_dense_id`).

The model takes each call (`IncBy`, `Set` and the ones defined from them) as one step:
only the shared index is touched by more than one thread, and only under the mutex. The
64-bit hash of a label tuple (`XXH3`, from outside the repository) is a parameter. An
out-of-bounds `metric_vec[dense_id]` and a failed `CHECK_EQ` are `none`.
-/

set_option autoImplicit false

namespace Helio

namespace Metrics

/-- `PerThread`: the thread's copy of the index and its values. -/
structure PerThread (V : Type) where
  labelMap : UInt64 → Option ℕ
  metricVec : List V

/-- The state of a `SingleFamily`: how many labels it has, the shared index, and every
    thread's `PerThread`. Dense ids are `uint32_t`; the model takes fewer than `2 ^ 32`
    tuples. -/
structure Family (V : Type) where
  numLabels : ℕ
  labelValues : List (List String)
  labelMap : UInt64 → Option ℕ
  perThread : ℕ → PerThread V

variable {V : Type}

namespace Family

/-- Replace thread `t`'s `PerThread`. -/
def setThread (f : Family V) (t : ℕ) (pt : PerThread V) : Family V :=
  { f with perThread := Function.update f.perThread t pt }

/-- `Family::Emplace(hash, label_values, &per_thread_[t].label_map)`: the dense id, and
    whether thread `t`'s map gained an entry. -/
def emplace (f : Family V) (t : ℕ) (hash : UInt64) (lv : List String) :
    Family V × ℕ × Bool :=
  let pt := f.perThread t
  match pt.labelMap hash with
  | some id => (f, id, false)
  | none =>
    let denseId := f.labelValues.length
    -- under `mu_`, `label_map->emplace(hash, dense_id)` checks the thread's map again for
    -- other fibers of the thread; calls are whole steps here, so it always inserts
    match pt.labelMap hash with
    | some id => (f, id, false)
    | none =>
      match f.labelMap hash with
      | none =>
        ({ f with labelValues := f.labelValues ++ [lv],
                  labelMap := Function.update f.labelMap hash (some denseId) }.setThread t
          { pt with labelMap := Function.update pt.labelMap hash (some denseId) },
         denseId, true)
      -- the tuple is known: `it->second = global_it->second`, and still `inserted`
      | some g =>
        (f.setThread t { pt with labelMap := Function.update pt.labelMap hash (some g) },
         g, true)

end Family

/-- `std::vector::resize(n)` with value-initialised new elements. -/
def resize [Zero V] (xs : List V) (n : ℕ) : List V :=
  xs.take n ++ List.replicate (n - xs.length) 0

/-- The calls a proactor thread makes on a family. `IncBy` serves `Inc`, `Dec` and
    `DecBy` (below); `Set` is `GaugeFamily::Set`. -/
inductive Call (V : Type)
  | incBy (labels : List String) (val : V)
  | set (labels : List String) (val : V)

/-- `Inc(labels)`: `IncBy(labels, 1)`. -/
def Call.inc [One V] (labels : List String) : Call V := .incBy labels 1

/-- `GaugeFamily::Dec(labels)`: `IncBy(labels, -1)`. -/
def Call.dec [One V] [Neg V] (labels : List String) : Call V := .incBy labels (-1)

/-- `GaugeFamily::DecBy(labels, val)`: `IncBy(labels, -val)`. -/
def Call.decBy [Neg V] (labels : List String) (val : V) : Call V := .incBy labels (-val)

section Ops

variable [Zero V] (hash : List String → UInt64)

/-- `SingleFamily::GetDenseId` for thread `t`. -/
def getDenseId (f : Family V) (t : ℕ) (lv : List String) : Family V × ℕ :=
  match f.emplace t (hash lv) lv with
  | (f', id, true) =>
    let pt := f'.perThread t
    (f'.setThread t { pt with metricVec := resize pt.metricVec (id + 1) }, id)
  | (f', id, false) => (f', id)

/-- The body shared by `IncBy` and `Set`: check the labels, find the dense id, and apply
    `g` to the thread's value there; `none` for a failed `CHECK_EQ` or an index out of
    bounds. A caller outside the proactor threads (`index < 0`) changes nothing. -/
def update (g : V → V) (f : Family V) (index : ℤ) (lv : List String) : Option (Family V) :=
  if f.numLabels ≠ lv.length then none
  else if index < 0 then some f
  else
    let t := index.toNat
    let (f', id) := getDenseId hash f t lv
    let pt := f'.perThread t
    match pt.metricVec[id]? with
    | none => none
    | some m => some (f'.setThread t { pt with metricVec := pt.metricVec.set id (g m) })

/-- `SingleFamily::IncBy`: `metric_vec[dense_id].IncBy(val)`. -/
def incBy [Add V] (f : Family V) (index : ℤ) (lv : List String) (val : V) :
    Option (Family V) :=
  update hash (fun m => m + val) f index lv

/-- `GaugeFamily::Set`: `metric_vec[dense_id].set_val(val)`. -/
def set (f : Family V) (index : ℤ) (lv : List String) (val : V) : Option (Family V) :=
  update hash (fun _ => val) f index lv

/-- A call by the thread with proactor index `index`. -/
def step [Add V] (f : Family V) : ℤ × Call V → Option (Family V)
  | (index, .incBy lv val) => incBy hash f index lv val
  | (index, .set lv val) => set hash f index lv val

end Ops

/-- `SingleFamily::Combine(t, dest)`: add thread `t`'s values into `dest`, over the indices
    both have. -/
def combine [Add V] (pt : PerThread V) (dest : List V) : List V :=
  dest.mapIdx fun i d =>
    match pt.metricVec[i]? with
    | some m => d + m
    | none => d

/-- What `Iterate` reports for the family: one value per tuple, the threads' values added
    up. -/
def report [Zero V] [Add V] (f : Family V) (threads : List ℕ) : List V :=
  threads.foldl (fun dest t => combine (f.perThread t) dest)
    (List.replicate f.labelValues.length 0)

/-- A family with `numLabels` labels before any call. -/
def init (numLabels : ℕ) : Family V :=
  ⟨numLabels, [], fun _ => none, fun _ => ⟨fun _ => none, []⟩⟩

/-! ## A thread that learns an old id after a newer one -/

/-- A hash that tells the two tuples used below apart, as `XXH3` does. -/
def lenHash (lv : List String) : UInt64 := UInt64.ofNat (lv.map String.length).sum

/-- Thread `0` counts `["a"]` and then `["bb"]`, which get ids `0` and `1`; thread `1`
    counts them in the other order. -/
def learnCalls : List (ℤ × Call ℕ) :=
  [(0, .inc ["a"]), (0, .inc ["bb"]), (1, .inc ["bb"]), (1, .inc ["a"])]

/-- **`resize` shrinks the vector.** After the four increments thread `1` keeps dense id
    `1` for `["bb"]` in its map while its `metric_vec` has one element, so its next
    `Inc(["bb"])` indexes past the end; and `Iterate` reports `1` for `["bb"]` although
    it was incremented twice (thread `1`'s increment was thrown away). -/
theorem shrink_loses_dense_id :
    ∃ f, Trans.Reachable (step lenHash) (init 1) f ∧
      (f.perThread 1).labelMap (lenHash ["bb"]) = some 1 ∧
      (f.perThread 1).metricVec.length = 1 ∧
      step lenHash f (1, .inc ["bb"]) = none ∧
      report f [0, 1] = [2, 1] := by
  obtain ⟨f, hf, hp⟩ := @Trans.exists_reachable_of_run _ _ (step lenHash) (init 1) learnCalls
    (fun f => (f.perThread 1).labelMap (lenHash ["bb"]) == some 1 &&
      (f.perThread 1).metricVec.length == 1 &&
      (step lenHash f (1, .inc ["bb"])).isNone && report f [0, 1] == [2, 1])
    (by decide)
  simp only [Bool.and_eq_true, beq_iff_eq, Option.isNone_iff_eq_none] at hp
  exact ⟨f, hf, hp.1.1.1, hp.1.1.2, hp.1.2, hp.2⟩

end Metrics

end Helio
