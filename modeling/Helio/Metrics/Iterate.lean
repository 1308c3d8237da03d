import Helio.Lib.Slices

/-!
# `metrics::Iterate`: the layout of result rows and adjustments

`Iterate(cb)` (`util/metrics/family.cc`) walks the list of registered families three times. The
first loop takes each family's `ObservationDescriptor` from `GetDescriptor()` with its label
tuples, and adds up `total_metrics` (`cardinality_` rows per tuple) and `total_adjustments`
(`cardinality_` for a family whose cardinality is above `1`, `0` otherwise), both `uint32_t`.
The second loop gives every SUMMARY or HISTOGRAM family the span
`[offset, offset + cardinality_)` of the vector `adjustments(total_adjustments)`, whatever its
cardinality. The per-thread callback and the final loop then cut `result(total_metrics)` into one
slice of `metrics_len()` rows per family, one after another.

The two loops over the result agree, and their slices are disjoint and inside the vector while
the sums fit in 32 bits (`thread_slices_eq`, `finalSlices_eq_pack`). The adjustment spans are
disjoint, but they fit in the vector only when every SUMMARY or HISTOGRAM family has a
cardinality above `1` (`adjustment_spans_inside`): a SUMMARY of cardinality `1` gets a span of one
adjustment in a vector of none (`iterate_summary_span_outside`).

What the layout reads of a family is its type, its cardinality and its number of label tuples
(`Shape`); the names, the help texts, the label values and the values that `Combine` writes are
left out.
-/

set_option autoImplicit false

namespace Helio

namespace Metrics

/-- `MetricType`. -/
inductive MetricType where
  | counter
  | gauge
  | summary
  | histogram
  deriving DecidableEq, Repr

/-- `metric_type_ == SUMMARY || metric_type_ == HISTOGRAM`. -/
def MetricType.hasAdjustments : MetricType → Bool
  | .summary | .histogram => true
  | .counter | .gauge => false

/-- What `Iterate` reads of a `Family`: `metric_type_`, `cardinality_` and
    `label_values_.size()`. -/
structure Shape where
  metricType : MetricType
  cardinality : ℕ
  numTuples : ℕ
  deriving DecidableEq, Repr

/-- The sizes of an `ObservationDescriptor` that the layout reads: its type, the size of its
    `adjustments` span and of its `label_values`. -/
structure Descr where
  type : MetricType
  adjustments : ℕ
  labelValues : ℕ
  deriving DecidableEq, Repr

/-- `Family::GetDescriptor()`, with `label_values` resized to the family's tuples by `Iterate`:
    a span of `cardinality_` adjustments for a SUMMARY or HISTOGRAM, none otherwise. -/
def getDescriptor (f : Shape) : Descr :=
  ⟨f.metricType, if f.metricType.hasAdjustments then f.cardinality else 0, f.numTuples⟩

/-- `ObservationDescriptor::metrics_len()`, a `size_t`. -/
def Descr.metricsLen (d : Descr) : ℕ :=
  if d.type.hasAdjustments then d.adjustments * d.labelValues % 2 ^ 64 else d.labelValues

/-- The first loop of `Iterate`: `total_metrics += cur->cardinality_ * num_tuples` and
    `total_adjustments += (cur->cardinality_ > 1) ? cur->cardinality_ : 0`, in `uint32_t`. -/
def totals : List Shape → ℕ × ℕ → ℕ × ℕ
  | [], acc => acc
  | f :: fs, (metrics, adjustments) =>
    totals fs ((metrics + f.cardinality * f.numTuples % 2 ^ 64) % 2 ^ 32,
      (adjustments + if f.cardinality > 1 then f.cardinality else 0) % 2 ^ 32)

/-- The second loop of `Iterate`: the span `{adjustments.data() + offset, cardinality_}` of each
    SUMMARY or HISTOGRAM family, `none` for the others; `offset` is `unsigned`. -/
def adjustmentSpans : List Shape → ℕ → List (Option (ℕ × ℕ))
  | [], _ => []
  | f :: fs, offset =>
    if f.metricType.hasAdjustments then
      some (offset, f.cardinality) :: adjustmentSpans fs ((offset + f.cardinality) % 2 ^ 32)
    else none :: adjustmentSpans fs offset

/-- The slices of `per_thread_cb`: `unsigned len = descrs[descr_index].metrics_len()` rows at the
    `uint32_t` offset. -/
def threadSlices : List Descr → ℕ → List (ℕ × ℕ)
  | [], _ => []
  | d :: ds, offset =>
    let len := d.metricsLen % 2 ^ 32
    (offset, len) :: threadSlices ds ((offset + len) % 2 ^ 32)

/-- The slices of the final loop: `metrics_len()` rows at the `unsigned` offset. -/
def finalSlices : List Descr → ℕ → List (ℕ × ℕ)
  | [], _ => []
  | d :: ds, offset => (offset, d.metricsLen) :: finalSlices ds ((offset + d.metricsLen) % 2 ^ 32)

/-- Everything `Iterate` lays out for the registered families `fs`, in list order. -/
structure Layout where
  totalMetrics : ℕ
  totalAdjustments : ℕ
  adjSpans : List (Option (ℕ × ℕ))
  threadSlices : List (ℕ × ℕ)
  finalSlices : List (ℕ × ℕ)
  deriving DecidableEq, Repr

/-- `Iterate` over a non-empty `family_list`. -/
def layout (fs : List Shape) : Layout :=
  let t := totals fs (0, 0)
  let descrs := fs.map getDescriptor
  ⟨t.1, t.2, adjustmentSpans fs 0, threadSlices descrs 0, finalSlices descrs 0⟩

/-! ## Without wrap-around, the loops lay slices out one after another -/

/-- The cardinalities that the second loop advances its offset by. -/
def adjustedCards (fs : List Shape) : List ℕ :=
  (fs.filter fun f => f.metricType.hasAdjustments).map Shape.cardinality

theorem adjustedCards_cons (f : Shape) (fs : List Shape) :
    adjustedCards (f :: fs) =
      if f.metricType.hasAdjustments then f.cardinality :: adjustedCards fs
      else adjustedCards fs := by
  by_cases hq : f.metricType.hasAdjustments <;> simp [adjustedCards, hq]

theorem adjustmentSpans_eq_pack (fs : List Shape) (offset : ℕ)
    (h : offset + (adjustedCards fs).sum < 2 ^ 32) :
    (adjustmentSpans fs offset).filterMap id = Slices.pack offset (adjustedCards fs) := by
  induction fs generalizing offset with
  | nil => rfl
  | cons f fs ih =>
    rw [adjustedCards_cons] at h ⊢
    by_cases hq : f.metricType.hasAdjustments
    · -- the offset advances by the cardinality, and does not wrap
      rw [if_pos hq, List.sum_cons] at h
      rw [if_pos hq, Slices.pack_cons]
      have hmod : (offset + f.cardinality) % 2 ^ 32 = offset + f.cardinality := by
        apply Nat.mod_eq_of_lt
        omega
      simp only [adjustmentSpans, hq, if_true, hmod]
      exact congrArg (List.cons _) (ih (offset + f.cardinality) (by omega))
    · rw [if_neg hq] at h ⊢
      simp only [adjustmentSpans, hq, Bool.false_eq_true, if_false]
      exact ih offset h

theorem finalSlices_eq_pack (ds : List Descr) (offset : ℕ)
    (h : offset + (ds.map Descr.metricsLen).sum < 2 ^ 32) :
    finalSlices ds offset = Slices.pack offset (ds.map Descr.metricsLen) := by
  induction ds generalizing offset with
  | nil => rfl
  | cons d ds ih =>
    simp only [List.map_cons, List.sum_cons] at h
    have hmod : (offset + d.metricsLen) % 2 ^ 32 = offset + d.metricsLen := by
      apply Nat.mod_eq_of_lt
      omega
    simp only [finalSlices, List.map_cons, Slices.pack_cons, hmod]
    rw [ih _ (by omega)]

/-- **The two loops over the result cut the same slices**, while the rows fit in 32 bits. -/
theorem thread_slices_eq (ds : List Descr) (offset : ℕ)
    (h : offset + (ds.map Descr.metricsLen).sum < 2 ^ 32) :
    threadSlices ds offset = finalSlices ds offset := by
  induction ds generalizing offset with
  | nil => rfl
  | cons d ds ih =>
    simp only [List.map_cons, List.sum_cons] at h
    have hlen : d.metricsLen % 2 ^ 32 = d.metricsLen := by
      apply Nat.mod_eq_of_lt
      omega
    simp only [threadSlices, finalSlices, hlen]
    rw [ih _ (by omega)]

/-- A family has at least as many rows in `total_metrics` as in its slice. -/
theorem metricsLen_le (f : Shape) (hc : 0 < f.cardinality)
    (h : f.cardinality * f.numTuples < 2 ^ 64) :
    (getDescriptor f).metricsLen ≤ f.cardinality * f.numTuples := by
  unfold Descr.metricsLen getDescriptor
  by_cases hq : f.metricType.hasAdjustments
  · simp only [hq, if_true, Nat.mod_eq_of_lt h]
    exact Nat.le_refl _
  · simp only [hq]
    exact Nat.le_mul_of_pos_left _ hc

theorem totals_fst (fs : List Shape) (metrics adjustments : ℕ)
    (h : metrics + (fs.map fun f => f.cardinality * f.numTuples).sum < 2 ^ 32) :
    (totals fs (metrics, adjustments)).1 =
      metrics + (fs.map fun f => f.cardinality * f.numTuples).sum := by
  induction fs generalizing metrics adjustments with
  | nil => rfl
  | cons f fs ih =>
    simp only [List.map_cons, List.sum_cons] at h
    have hrow : f.cardinality * f.numTuples % 2 ^ 64 = f.cardinality * f.numTuples := by
      apply Nat.mod_eq_of_lt
      omega
    have hmod : (metrics + f.cardinality * f.numTuples) % 2 ^ 32 =
        metrics + f.cardinality * f.numTuples := by
      apply Nat.mod_eq_of_lt
      omega
    simp only [totals, hrow, hmod]
    rw [ih _ _ (by omega)]
    simp only [List.map_cons, List.sum_cons]
    omega

theorem totals_snd (fs : List Shape) (metrics adjustments : ℕ)
    (h : adjustments + (fs.map fun f => if f.cardinality > 1 then f.cardinality else 0).sum <
      2 ^ 32) :
    (totals fs (metrics, adjustments)).2 =
      adjustments + (fs.map fun f => if f.cardinality > 1 then f.cardinality else 0).sum := by
  induction fs generalizing metrics adjustments with
  | nil => rfl
  | cons f fs ih =>
    simp only [List.map_cons, List.sum_cons] at h
    have hmod : (adjustments + if f.cardinality > 1 then f.cardinality else 0) % 2 ^ 32 =
        adjustments + if f.cardinality > 1 then f.cardinality else 0 := by
      apply Nat.mod_eq_of_lt
      omega
    simp only [totals, hmod]
    rw [ih _ _ (by omega)]
    simp only [List.map_cons, List.sum_cons]
    omega

/-- Rows of every family, added up. -/
def totalRows (fs : List Shape) : ℕ := (fs.map fun f => f.cardinality * f.numTuples).sum

theorem sum_metricsLen_le (fs : List Shape) (hc : ∀ f ∈ fs, 0 < f.cardinality)
    (h : totalRows fs < 2 ^ 32) :
    ((fs.map getDescriptor).map Descr.metricsLen).sum ≤ totalRows fs := by
  induction fs with
  | nil => simp
  | cons f fs ih =>
    simp only [totalRows, List.map_cons, List.sum_cons] at h ⊢
    have h₁ := metricsLen_le f (hc f List.mem_cons_self) (by omega)
    have h₂ := ih (fun g hg => hc g (List.mem_cons_of_mem f hg)) (by simp only [totalRows]; omega)
    simp only [totalRows] at h₂
    omega

/-- **The result slices are the same in both loops, disjoint, and inside `result`**, for families
    of cardinality at least `1` whose rows fit in `total_metrics`. -/
theorem result_slices_sound (fs : List Shape) (hc : ∀ f ∈ fs, 0 < f.cardinality)
    (h : totalRows fs < 2 ^ 32) :
    (layout fs).threadSlices = (layout fs).finalSlices ∧
      (layout fs).finalSlices.Pairwise (fun a b => a.1 + a.2 ≤ b.1) ∧
      ∀ s ∈ (layout fs).finalSlices, s.1 + s.2 ≤ (layout fs).totalMetrics := by
  have hle := sum_metricsLen_le fs hc h
  have hlt : 0 + ((fs.map getDescriptor).map Descr.metricsLen).sum < 2 ^ 32 := by omega
  have htot : (layout fs).totalMetrics = totalRows fs := by
    simp only [layout]
    rw [totals_fst fs 0 0 (by simp only [totalRows] at h; omega)]
    simp [totalRows]
  refine ⟨thread_slices_eq _ 0 hlt, ?_, fun s hs => ?_⟩
  · simp only [layout]
    rw [finalSlices_eq_pack _ 0 hlt]
    exact Slices.pack_pairwise _ _
  · simp only [layout] at hs
    rw [finalSlices_eq_pack _ 0 hlt] at hs
    have := (Slices.mem_pack_bounds hs).2
    omega

/-- A counter over three label tuples, a histogram of four buckets over two and a summary of
    three quantiles over one: fourteen rows, cut the same way by both loops. -/
theorem result_slices_sound_mixed :
    (layout [⟨.counter, 1, 3⟩, ⟨.histogram, 4, 2⟩, ⟨.summary, 3, 1⟩]).finalSlices =
        [(0, 3), (3, 8), (11, 3)] ∧
      (layout [⟨.counter, 1, 3⟩, ⟨.histogram, 4, 2⟩, ⟨.summary, 3, 1⟩]).totalMetrics = 14 ∧
      (layout [⟨.counter, 1, 3⟩, ⟨.histogram, 4, 2⟩, ⟨.summary, 3, 1⟩]).threadSlices =
        (layout [⟨.counter, 1, 3⟩, ⟨.histogram, 4, 2⟩, ⟨.summary, 3, 1⟩]).finalSlices := by
  have hsound := result_slices_sound [⟨.counter, 1, 3⟩, ⟨.histogram, 4, 2⟩, ⟨.summary, 3, 1⟩]
    (by decide) (by decide)
  exact ⟨by decide, by decide, hsound.1⟩

/-- **The adjustment spans fit `adjustments` when no SUMMARY or HISTOGRAM has cardinality `1`.**
    They are disjoint whatever the cardinalities. -/
theorem adjustment_spans_inside (fs : List Shape)
    (hc : ∀ f ∈ fs, f.metricType.hasAdjustments → 1 < f.cardinality)
    (h : (fs.map fun f => if f.cardinality > 1 then f.cardinality else 0).sum < 2 ^ 32) :
    ((layout fs).adjSpans.filterMap id).Pairwise (fun a b => a.1 + a.2 ≤ b.1) ∧
      ∀ s ∈ (layout fs).adjSpans.filterMap id, s.1 + s.2 ≤ (layout fs).totalAdjustments := by
  -- the cards of SUMMARY and HISTOGRAM families are among those the first loop counts
  have hle : (adjustedCards fs).sum ≤
      (fs.map fun f => if f.cardinality > 1 then f.cardinality else 0).sum := by
    clear h
    induction fs with
    | nil => simp [adjustedCards]
    | cons f fs ih =>
      have ih' := ih fun g hg => hc g (List.mem_cons_of_mem f hg)
      rw [adjustedCards_cons, List.map_cons, List.sum_cons]
      by_cases hq : f.metricType.hasAdjustments
      · have h1 := hc f List.mem_cons_self hq
        rw [if_pos hq, List.sum_cons, if_pos h1]
        omega
      · rw [if_neg hq]
        omega
  have hlt : 0 + (adjustedCards fs).sum < 2 ^ 32 := by omega
  have htot : (layout fs).totalAdjustments =
      (fs.map fun f => if f.cardinality > 1 then f.cardinality else 0).sum := by
    simp only [layout]
    rw [totals_snd fs 0 0 (by omega)]
    omega
  simp only [layout] at htot ⊢
  rw [adjustmentSpans_eq_pack fs 0 hlt]
  refine ⟨Slices.pack_pairwise _ _, fun s hs => ?_⟩
  have := (Slices.mem_pack_bounds hs).2
  omega

/-- The same families: the histogram's four adjustments and the summary's three are laid out
    one after the other in a vector of seven. -/
theorem adjustment_spans_inside_mixed :
    (layout [⟨.counter, 1, 3⟩, ⟨.histogram, 4, 2⟩, ⟨.summary, 3, 1⟩]).adjSpans =
        [none, some (0, 4), some (4, 3)] ∧
      (layout [⟨.counter, 1, 3⟩, ⟨.histogram, 4, 2⟩, ⟨.summary, 3, 1⟩]).totalAdjustments = 7 ∧
      ∀ s ∈ (layout [⟨.counter, 1, 3⟩, ⟨.histogram, 4, 2⟩, ⟨.summary, 3, 1⟩]).adjSpans.filterMap id,
        s.1 + s.2 ≤ 7 := by
  have hinside := adjustment_spans_inside
    [⟨.counter, 1, 3⟩, ⟨.histogram, 4, 2⟩, ⟨.summary, 3, 1⟩] (by decide) (by decide)
  have htot : (layout [⟨.counter, 1, 3⟩, ⟨.histogram, 4, 2⟩, ⟨.summary, 3, 1⟩]).totalAdjustments
      = 7 := by decide
  rw [htot] at hinside
  exact ⟨by decide, htot, hinside.2⟩

/-- **A SUMMARY family of cardinality `1` gets an adjustment outside the vector.** The first
    loop counts no adjustment for it, the second gives it `[0, 1)`. -/
theorem iterate_summary_span_outside :
    (layout [⟨.summary, 1, 1⟩]).totalAdjustments = 0 ∧
      (layout [⟨.summary, 1, 1⟩]).adjSpans = [some (0, 1)] := by
  decide

end Metrics

end Helio
