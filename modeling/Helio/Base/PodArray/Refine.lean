import Helio.Base.PodArray.Model
import Helio.Lib.Layout

/-!
# `PODArray` refines a sequence

The sequence an array stands for is a list of its elements, each a `T` or, for an element that
`resize` added and nothing has written yet, unspecified. Under the contract below every
operation of `Op` does to the array's bytes what the list operation does to the sequence, and
`swap` and the moves exchange whole sequences between a program's arrays:

* `sizeof(T)` and `ALIGNMENT` are powers of two (`ALIGNMENT` by its `static_assert`, and as the
  resource asks of an alignment), so that a block of `bit_ceil` bytes holds whole elements;
* the base `resize_fill(n)` is used only where a `T` is one byte, since it clears
  `n - old_size` bytes;
* no byte size passes `2 ^ 62`, so that neither `byte_size` nor the doubling `reserve()` wraps;
* `pop_back` is called on a non-empty array, the iterator of `insert(it, ...)` is one of the
  array's own, and the resource hands out non-null blocks aligned as asked.

The invariant `Rep` says that the bytes in use are the sequence laid out from the start of the
block, inside the block, whose size is a multiple of `sizeof(T)` and zero exactly when there is
no block.
-/

set_option autoImplicit false

namespace Helio

namespace Pmr

open Bytes

/-- A power of two that a `size_t` holds. -/
def PowerOfTwo (n : ℕ) : Prop := ∃ k, k < 64 ∧ n = 2 ^ k

theorem PowerOfTwo.pos {n : ℕ} (h : PowerOfTwo n) : 0 < n := by
  obtain ⟨k, -, rfl⟩ := h
  exact Nat.two_pow_pos k

theorem PowerOfTwo.le {n : ℕ} (h : PowerOfTwo n) : n ≤ 2 ^ 63 := by
  obtain ⟨k, hk, rfl⟩ := h
  exact Nat.pow_le_pow_right (by norm_num) (by omega)

/-- A power of two divides every larger one. -/
theorem PowerOfTwo.dvd {n c k : ℕ} (h : PowerOfTwo n) (hc : c = 2 ^ k) (hle : n ≤ c) : n ∣ c := by
  obtain ⟨j, -, rfl⟩ := h
  subst hc
  exact Nat.pow_dvd_pow 2 ((Nat.pow_le_pow_iff_right (by norm_num)).mp hle)

/-- What the resource is asked to hand out: a non-null block aligned to `ALIGNMENT`. -/
def Honours (A : ℕ) (blk : Block) : Prop := blk.addr ≠ 0 ∧ blk.addr % A = 0

instance (A : ℕ) (blk : Block) : Decidable (Honours A blk) :=
  inferInstanceAs (Decidable (_ ∧ _))

/-- The zero `T` that the base `resize_fill(n)` is meant to add. -/
def Elem.zero (E : ℕ) : Elem E := List.Vector.replicate E 0

namespace PODArray

variable {E A : ℕ}

/-! ## The sequence -/

namespace Op

/-- What each operation does to the sequence. -/
def spec : Op E → List (Option (Elem E)) → List (Option (Elem E))
  | .pushBack x, l => l ++ [some x]
  | .emplaceBack x, l => l ++ [some x]
  | .popBack, l => l.dropLast
  | .resize n, l => l.take n ++ List.replicate (n - l.length) none
  | .resizeFill n v, l => l.take n ++ List.replicate (n - l.length) (some v)
  | .resizeFillZero n, l => l.take n ++ List.replicate (n - l.length) (some (Elem.zero E))
  | .reserve _, l => l
  | .clear, _ => []
  | .insert src, l => l ++ src.map some
  | .insertAt k src, l => l.take k ++ src.map some ++ l.drop k
  | .assign n x, _ => List.replicate n (some x)
  | .assignRange src, _ => src.map some

/-- The contract of an operation on an array that holds `l`. -/
def Allowed (l : List (Option (Elem E))) (o : Op E) : Prop :=
  (o.spec l).length * E ≤ 2 ^ 62 ∧
    match o with
    | .popBack => l ≠ []
    | .reserve n => n * E ≤ 2 ^ 62
    | .resizeFillZero _ => E = 1
    | .insertAt k _ => k ≤ l.length
    | _ => True

end Op

theorem length_take_append_replicate {α : Type} (l : List α) (n : ℕ) (x : α) :
    (l.take n ++ List.replicate (n - l.length) x).length = n := by
  rw [List.length_append, List.length_take, List.length_replicate]
  omega

theorem length_take_append_append_drop {α : Type} {l : List α} {k : ℕ} (hk : k ≤ l.length)
    (m : List α) : (l.take k ++ m ++ l.drop k).length = l.length + m.length := by
  rw [List.length_append, List.length_append, List.length_take_of_le hk, List.length_drop]
  omega

/-! ## The invariant -/

/-- The array holds the sequence `l`. -/
structure Rep (a : PODArray E A) (l : List (Option (Elem E))) : Prop where
  used_eq : a.used = l.length * E
  used_le : a.used ≤ a.storage
  laid : Laid E a.bytes 0 l
  dvd_storage : E ∣ a.storage
  start_eq_zero : a.start = 0 ↔ a.storage = 0
  aligned : a.start % A = 0

/-- What the sequence model promises of an array that holds `l`: `size()` is `l`'s length,
    every element `l` names is the one at its place in `[begin(), end())`, `size()` is at most
    `capacity()`, and `c_start_` is aligned. -/
structure Holds (a : PODArray E A) (l : List (Option (Elem E))) : Prop where
  size_eq : a.size = l.length
  elements_eq : ∀ (i : ℕ) (v : Elem E), l[i]? = some (some v) → a.elements[i]? = some v.toList
  size_le_capacity : a.size ≤ a.capacity
  aligned : a.start % A = 0

variable {a : PODArray E A} {l : List (Option (Elem E))} {blk : Block}

theorem Rep.holds (hE : 0 < E) (h : Rep a l) : Holds a l := by
  have hsize : a.size = l.length := by
    rw [size, h.used_eq, Nat.mul_div_cancel _ hE]
  refine ⟨hsize, fun i v hi => ?_, Nat.div_le_div_right h.used_le, h.aligned⟩
  have hlt : i < a.size := hsize ▸ lt_length_of_getElem_eq hi
  rw [elements, List.getElem?_map, List.getElem?_range hlt, Option.map_some, ← h.laid i v hi,
    Nat.zero_add]

theorem rep_create (mr : Option ℕ) : Rep (create mr : PODArray E A) [] :=
  ⟨(Nat.zero_mul E).symm, Nat.le_refl _, Laid.nil _ _, Nat.dvd_zero E, Iff.rfl, rfl⟩

/-- Without a block the array is empty. -/
theorem Rep.eq_nil (hE : 0 < E) (h : Rep a l) (hs : a.start = 0) : l = [] := by
  have hu : l.length * E = 0 := by
    have := h.used_le
    rw [h.start_eq_zero.mp hs, h.used_eq] at this
    omega
  exact List.eq_nil_of_length_eq_zero ((Nat.mul_eq_zero.mp hu).resolve_right hE.ne')

/-- The block holds `capacity()` whole elements. -/
theorem Rep.capacity_mul (h : Rep a l) : a.capacity * E = a.storage :=
  Nat.div_mul_cancel h.dvd_storage

/-- Room for one element more while `c_end_ != c_end_of_storage_`. -/
theorem Rep.used_add_le (h : Rep a l) (hlt : a.used < a.storage) :
    a.used + E ≤ a.storage := by
  have hcap := h.capacity_mul
  rw [h.used_eq, ← hcap] at hlt ⊢
  have : l.length + 1 ≤ a.capacity := Nat.lt_of_mul_lt_mul_right hlt
  have := Nat.mul_le_mul_right E this
  rwa [Nat.succ_mul] at this

theorem byteSize_of_le {n : ℕ} (h : n * E ≤ 2 ^ 63) : byteSize E n = n * E :=
  Nat.mod_eq_of_lt (by omega)

/-! ## Writes in the block -/

theorem write_of_le {p : ℕ} {b : List UInt8} (h : p + b.length ≤ a.storage) :
    a.write p b = some { a with bytes := writeBytes a.bytes p b } :=
  if_pos h

theorem setEnd_of_le {n : ℕ} (h : n ≤ a.storage) : a.setEnd n = some { a with used := n } :=
  if_pos h

/-- New bytes and a new end in the same block. -/
theorem Rep.update (h : Rep a l) {m : Mem} {u : ℕ} {l' : List (Option (Elem E))}
    (hlaid : Laid E m 0 l') (hu : u = l'.length * E) (hle : u ≤ a.storage) :
    Rep ({ a with bytes := m, used := u } : PODArray E A) l' :=
  ⟨hu, hle, hlaid, h.dvd_storage, h.start_eq_zero, h.aligned⟩

/-- Elements written from `c_end_` on extend the sequence. -/
theorem Rep.laid_append (h : Rep a l) {bs : List UInt8} {l' : List (Option (Elem E))}
    (hlaid : Laid E (writeBytes a.bytes a.used bs) a.used l') :
    Laid E (writeBytes a.bytes a.used bs) 0 (l ++ l') := by
  refine (h.laid.writeBytes_of_le bs (by rw [h.used_eq, Nat.zero_add])).append ?_
  rwa [Nat.zero_add, ← h.used_eq]

/-- `c_end_` moved to `n` elements inside the block: the first `n` stay, and the new ones are
    unspecified. -/
theorem Rep.resizeAssumeReserved {n : ℕ} (h : Rep a l) (hn : n * E ≤ 2 ^ 62)
    (hst : n * E ≤ a.storage) :
    ∃ a', a.resizeAssumeReserved n = some a' ∧
      Rep a' (l.take n ++ List.replicate (n - l.length) none) := by
  refine ⟨_, by rw [PODArray.resizeAssumeReserved, byteSize_of_le (n := n) (by omega),
    setEnd_of_le hst], ?_⟩
  refine h.update (u := n * E) ((h.laid.take n).append (laid_replicate_none _ _ _)) ?_ hst
  rw [length_take_append_replicate]

theorem Rep.clear (h : Rep a l) : Rep a.clear [] :=
  h.update (u := 0) (Laid.nil _ _) (Nat.zero_mul E).symm (Nat.zero_le _)

/-- `swap` hands each array the other's sequence. -/
theorem Rep.swap {b : PODArray E A} {lb : List (Option (Elem E))} (ha : Rep a l) (hb : Rep b lb) :
    Rep (a.swap b).1 lb ∧ Rep (a.swap b).2 l :=
  ⟨⟨hb.used_eq, hb.used_le, hb.laid, hb.dvd_storage, hb.start_eq_zero, hb.aligned⟩,
   ⟨ha.used_eq, ha.used_le, ha.laid, ha.dvd_storage, ha.start_eq_zero, ha.aligned⟩⟩

/-! ## The operations as chains of steps -/

/-- `push_back(x)` as a chain of its steps. -/
theorem pushBack_eq (x : Elem E) :
    a.pushBack x blk =
      (if a.used = a.storage then a.reserveNext blk else some (a, [])).bind fun r =>
        (r.1.write r.1.used x.toList).bind fun a =>
          some ({ a with used := a.used + byteSize E 1 }, r.2) := by
  unfold PODArray.pushBack
  split <;> rfl

theorem resize_eq (n : ℕ) :
    a.resize n blk =
      (a.reserve n blk).bind fun r => (r.1.resizeAssumeReserved n).bind fun a => some (a, r.2) :=
  rfl

/-- `resize_fill(n, value)` as a chain of its steps. -/
theorem resizeFill_eq (n : ℕ) (v : Elem E) :
    a.resizeFill n v blk =
      if n > a.size then
        (a.reserve n blk).bind fun r =>
          (r.1.write r.1.used (List.replicate (n - a.size) v.toList).flatten).bind fun a =>
            (a.setEnd (byteSize E n)).bind fun a => some (a, r.2)
      else (a.setEnd (byteSize E n)).bind fun a => some (a, []) := by
  unfold PODArray.resizeFill
  by_cases hgt : n > a.size
  · simp only [hgt, if_true]
    rfl
  · simp only [hgt, if_false]
    rfl

/-- Where a `T` is one byte, the base `resize_fill(n)` is `resize_fill(n, T())`. -/
theorem resizeFillZero_eq_resizeFill (hE : E = 1) (n : ℕ) :
    a.resizeFillZero n blk = a.resizeFill n (Elem.zero E) blk := by
  subst hE
  have hzero : (Elem.zero 1).toList = [0] := rfl
  simp only [PODArray.resizeFillZero, PODArray.resizeFill, hzero, List.flatten_replicate_singleton]

theorem insert_eq (src : List (Elem E)) :
    a.insert src blk =
      (a.reserveFor (a.size + src.length) blk).bind fun r =>
        (r.1.insertAssumeReserved src).bind fun a => some (a, r.2) :=
  rfl

/-- `insert(it, from_begin, from_end)` at `it = begin() + k` as a chain of its steps. -/
theorem insertAt_eq {k : ℕ} (hk : k ≤ a.size) (src : List (Elem E)) :
    a.insertAt k src blk =
      (a.reserveFor (a.size + src.length) blk).bind fun r =>
        (if (a.size - k) * E % 2 ^ 64 ≠ 0 then
            r.1.write (r.1.used + byteSize E src.length - (a.size - k) * E % 2 ^ 64)
              (readBytes r.1.bytes (r.1.used - (a.size - k) * E % 2 ^ 64)
                ((a.size - k) * E % 2 ^ 64))
          else some r.1).bind fun a₂ =>
          (a₂.write (a₂.used - (a.size - k) * E % 2 ^ 64)
              ((rangeBytes src).take (byteSize E src.length))).bind fun a₃ =>
            some ({ a₃ with used := a₃.used + byteSize E src.length }, r.2) := by
  unfold PODArray.insertAt
  rw [if_neg (by omega)]
  -- the `memmove` branch is a join point of the `do` block: decide it on both sides
  by_cases hc : (a.size - k) * E % 2 ^ 64 = 0
  · simp only [hc, ne_eq, not_true_eq_false, if_false]
    rfl
  · simp only [ne_eq, hc, not_false_eq_true, if_true]
    rfl

theorem assign_eq (n : ℕ) (x : Elem E) :
    a.assign n x blk =
      (a.resize n blk).bind fun r =>
        (r.1.write 0 (List.replicate r.1.size x.toList).flatten).bind fun a => some (a, r.2) :=
  rfl

theorem assignRange_eq (src : List (Elem E)) :
    a.assignRange src blk =
      (a.reserveFor src.length blk).bind fun r =>
        (r.1.write 0 ((rangeBytes src).take (byteSize E src.length))).bind fun a =>
          (a.setEnd (byteSize E src.length)).bind fun a => some (a, r.2) :=
  rfl

/-! ## Blocks and operations -/

section Blocks

variable (hE : PowerOfTwo E)
include hE

theorem alloc_rep (bytes : ℕ) (hb : bytes ≤ 2 ^ 63) (hEb : E ≤ bytes) (hblk : Honours A blk) :
    ∃ a' ev, a.alloc bytes blk = some (a', ev) ∧ Rep a' [] ∧ bytes ≤ a'.storage := by
  obtain ⟨c, hc⟩ := Option.isSome_iff_exists.mp (IoBuf.bitCeil_isSome hb)
  obtain ⟨hbc, -⟩ := IoBuf.bitCeil_eq_some hc
  obtain ⟨k, hk⟩ := IoBuf.bitCeil_eq_pow hc
  have hc0 : c ≠ 0 := by have := hE.pos; omega
  refine ⟨_, _, by simp only [alloc, hc]; rfl, ?_, hbc⟩
  exact ⟨(Nat.zero_mul E).symm, Nat.zero_le _, Laid.nil _ _, hE.dvd hk (Nat.le_trans hEb hbc),
    by simpa only [hblk.1, false_iff] using hc0, hblk.2⟩

/-- `realloc(bytes)` keeps the sequence in a block of at least `bytes` bytes. -/
theorem Rep.realloc (h : Rep a l) (bytes : ℕ) (hb : bytes ≤ 2 ^ 63) (hEb : E ≤ bytes)
    (hu : a.used ≤ bytes) (hblk : Honours A blk) :
    ∃ a' ev, a.realloc bytes blk = some (a', ev) ∧ Rep a' l ∧ bytes ≤ a'.storage := by
  by_cases hs : a.start = 0
  · -- no block yet: `alloc`, of an empty array
    obtain rfl := h.eq_nil hE.pos hs
    rw [PODArray.realloc, if_pos hs]
    exact alloc_rep hE bytes hb hEb hblk
  · obtain ⟨c, hc⟩ := Option.isSome_iff_exists.mp (IoBuf.bitCeil_isSome hb)
    obtain ⟨hbc, -⟩ := IoBuf.bitCeil_eq_some hc
    obtain ⟨k, hk⟩ := IoBuf.bitCeil_eq_pow hc
    have hrun : a.realloc bytes blk = some
        ({ a with start := blk.addr, storage := c,
                  bytes := writeBytes blk.bytes 0 (readBytes a.bytes 0 a.used) },
         [.allocate a.mr c A blk.addr, .deallocate a.mr a.start a.storage A]) := by
      simp only [PODArray.realloc, if_neg hs, hc, Option.bind_eq_bind, Option.bind_some]
      rw [if_pos (by omega)]
      rfl
    have hc0 : c ≠ 0 := by have := hE.pos; omega
    refine ⟨_, _, hrun, ⟨h.used_eq, Nat.le_trans hu hbc,
      h.laid.copy _ 0 (Nat.le_of_eq h.used_eq.symm), hE.dvd hk (Nat.le_trans hEb hbc),
      by simpa only [hblk.1, false_iff] using hc0, hblk.2⟩, hbc⟩

/-- `reserve(n)` leaves room for `n` elements. -/
theorem Rep.reserve {n : ℕ} (hA : PowerOfTwo A) (h : Rep a l) (hn : n * E ≤ 2 ^ 63)
    (hblk : Honours A blk) :
    ∃ a' ev, a.reserve n blk = some (a', ev) ∧ Rep a' l ∧ n * E ≤ a'.storage := by
  unfold PODArray.reserve
  split_ifs with hcap
  · have hcapE : a.capacity * E < n * E := Nat.mul_lt_mul_of_pos_right hcap hE.pos
    rw [h.capacity_mul] at hcapE
    have hbytes : minimumMemoryForElements E A n = max A (n * E) := by
      rw [minimumMemoryForElements, byteSize_of_le hn]
    have hEn : E ≤ n * E := Nat.le_mul_of_pos_left E (by omega)
    obtain ⟨a', ev, hr, hrep, hst⟩ := h.realloc hE (max A (n * E))
      (max_le hA.le hn) (le_max_of_le_right hEn) (by have := h.used_le; omega) hblk
    exact ⟨a', ev, hbytes ▸ hr, hrep, le_of_max_le_right hst⟩
  · refine ⟨a, [], rfl, h, ?_⟩
    rw [← h.capacity_mul]
    exact Nat.mul_le_mul_right E (by omega)

/-- The private `reserve()` of a full array leaves room for one element more. -/
theorem Rep.reserveNext (hA : PowerOfTwo A) (h : Rep a l) (hfull : a.used = a.storage)
    (hn : (l.length + 1) * E ≤ 2 ^ 62) (hblk : Honours A blk) :
    ∃ a' ev, a.reserveNext blk = some (a', ev) ∧ Rep a' l ∧ a'.used + E ≤ a'.storage := by
  have hE1 : byteSize E 1 = E := by
    have := hE.le
    rw [byteSize_of_le (n := 1) (by omega), Nat.one_mul]
  unfold PODArray.reserveNext
  split_ifs with hs
  · -- the first block: `max(REAL_MIN_SIZE, minimum_memory_for_elements(1))`
    obtain rfl := h.eq_nil hE.pos hs
    obtain ⟨a', ev, hr, hrep, hst⟩ := alloc_rep hE (a := a)
      (max A (minimumMemoryForElements E A 1))
      (by rw [minimumMemoryForElements, hE1]; have := hA.le; have := hE.le; omega)
      (by rw [minimumMemoryForElements, hE1]; omega) hblk
    refine ⟨a', ev, hr, hrep, ?_⟩
    rw [hrep.used_eq, List.length_nil, Nat.zero_mul, Nat.zero_add]
    rw [minimumMemoryForElements, hE1] at hst
    omega
  · -- twice the capacity: the block is full, so at least one element is in use
    have hcap := h.capacity_mul
    have hst0 : a.storage ≠ 0 := fun h0 => hs (h.start_eq_zero.mpr h0)
    have hEst : E ≤ a.storage := Nat.le_of_dvd (by omega) h.dvd_storage
    have h2 : a.capacity * 2 * E = 2 * a.storage := by
      rw [Nat.mul_right_comm, hcap, Nat.mul_comm]
    have hle : a.capacity * 2 * E ≤ 2 ^ 63 := by
      rw [h2, ← hfull, h.used_eq]
      rw [Nat.add_mul, Nat.one_mul] at hn
      omega
    obtain ⟨a', ev, hr, hrep, hst⟩ := h.realloc hE
      (minimumMemoryForElements E A (a.capacity * 2))
      (by rw [minimumMemoryForElements, byteSize_of_le hle]; exact max_le hA.le hle)
      (by rw [minimumMemoryForElements, byteSize_of_le hle, h2]; omega)
      (by rw [minimumMemoryForElements, byteSize_of_le hle, h2]; omega) hblk
    refine ⟨a', ev, hr, hrep, ?_⟩
    rw [minimumMemoryForElements, byteSize_of_le hle, h2] at hst
    rw [hrep.used_eq, ← h.used_eq]
    omega

/-- `reserve(absl::bit_ceil(required_capacity))` when the elements do not fit. -/
theorem Rep.reserveFor {n : ℕ} (hA : PowerOfTwo A) (h : Rep a l) (hn : n * E ≤ 2 ^ 62)
    (hblk : Honours A blk) :
    ∃ a' ev, a.reserveFor n blk = some (a', ev) ∧ Rep a' l ∧ n * E ≤ a'.storage := by
  unfold PODArray.reserveFor
  split_ifs with hcap
  · have hn63 : n ≤ 2 ^ 63 := by
      have := Nat.le_mul_of_pos_right n hE.pos
      omega
    obtain ⟨c, hc⟩ := Option.isSome_iff_exists.mp (IoBuf.bitCeil_isSome hn63)
    obtain ⟨hnc, -⟩ := IoBuf.bitCeil_eq_some hc
    -- `bit_ceil` at most doubles, so the bytes of `c` elements stay below `2 ^ 63`
    have hcE : c * E ≤ 2 ^ 63 := by
      have := Nat.mul_le_mul_right E (IoBuf.bitCeil_lt_two_mul hc (by omega))
      rw [Nat.succ_mul, Nat.mul_assoc] at this
      omega
    obtain ⟨a', ev, hr, hrep, hst⟩ := h.reserve hE hA hcE hblk
    refine ⟨a', ev, ?_, hrep, Nat.le_trans (Nat.mul_le_mul_right E hnc) hst⟩
    simp only [hc, Option.bind_eq_bind, Option.bind_some, hr]
  · refine ⟨a, [], rfl, h, ?_⟩
    rw [← h.capacity_mul]
    exact Nat.mul_le_mul_right E (by omega)

theorem Rep.pushBack (hA : PowerOfTwo A) (h : Rep a l) (x : Elem E)
    (hn : (l.length + 1) * E ≤ 2 ^ 62) (hblk : Honours A blk) :
    ∃ a' ev, a.pushBack x blk = some (a', ev) ∧ Rep a' (l ++ [some x]) := by
  -- room for `x`, made by `reserve()` when the block is full
  obtain ⟨a₁, ev, hr, h₁, hroom⟩ : ∃ a₁ ev,
      (if a.used = a.storage then a.reserveNext blk else some (a, [])) = some (a₁, ev) ∧
        Rep a₁ l ∧ a₁.used + E ≤ a₁.storage := by
    split_ifs with hfull
    · exact h.reserveNext hE hA hfull hn hblk
    · exact ⟨a, [], rfl, h, h.used_add_le (Nat.lt_of_le_of_ne h.used_le hfull)⟩
  have hE1 : byteSize E 1 = E := by
    have := hE.le
    rw [byteSize_of_le (n := 1) (by omega), Nat.one_mul]
  have hw := write_of_le (a := a₁) (p := a₁.used) (b := x.toList) (by rw [x.toList_length]; exact hroom)
  refine ⟨_, ev, ?_, h₁.update (u := a₁.used + E) (h₁.laid_append (laid_writeBytes_single _ _ x))
    ?_ hroom⟩
  · rw [pushBack_eq, hr, Option.bind_some, hw, Option.bind_some, hE1]
  · rw [h₁.used_eq, List.length_append, List.length_singleton, Nat.succ_mul]

theorem Rep.popBack (h : Rep a l) (hl : l ≠ []) :
    ∃ a', a.popBack = some a' ∧ Rep a' l.dropLast := by
  have hE1 : byteSize E 1 = E := by
    have := hE.le
    rw [byteSize_of_le (n := 1) (by omega), Nat.one_mul]
  have hlen : 1 ≤ l.length := List.length_pos_iff.mpr hl
  have hused : E ≤ a.used := by
    rw [h.used_eq]
    exact Nat.le_mul_of_pos_left E hlen
  refine ⟨_, by rw [PODArray.popBack, hE1, if_pos hused], ?_⟩
  rw [List.dropLast_eq_take]
  refine h.update (u := a.used - E) (h.laid.take _) ?_ (by have := h.used_le; omega)
  rw [List.length_take_of_le (by omega), Nat.sub_mul, Nat.one_mul, h.used_eq]

theorem Rep.resize {n : ℕ} (hA : PowerOfTwo A) (h : Rep a l) (hn : n * E ≤ 2 ^ 62)
    (hblk : Honours A blk) :
    ∃ a' ev, a.resize n blk = some (a', ev) ∧
      Rep a' (l.take n ++ List.replicate (n - l.length) none) := by
  obtain ⟨a₁, ev, hr, h₁, hst⟩ := h.reserve hE hA (n := n) (by omega) hblk
  obtain ⟨a₂, hs, h₂⟩ := h₁.resizeAssumeReserved hn hst
  exact ⟨a₂, ev, by rw [resize_eq, hr, Option.bind_some, hs, Option.bind_some], h₂⟩

theorem Rep.resizeFill {n : ℕ} (hA : PowerOfTwo A) (h : Rep a l) (v : Elem E)
    (hn : n * E ≤ 2 ^ 62) (hblk : Honours A blk) :
    ∃ a' ev, a.resizeFill n v blk = some (a', ev) ∧
      Rep a' (l.take n ++ List.replicate (n - l.length) (some v)) := by
  have hsize : a.size = l.length := (h.holds hE.pos).size_eq
  rw [resizeFill_eq, hsize, byteSize_of_le (n := n) (by omega)]
  by_cases hgt : n > l.length
  · -- the new elements are written from `c_end_`, in the block `reserve(n)` made
    rw [if_pos hgt]
    obtain ⟨a₁, ev, hr, h₁, hst⟩ := h.reserve hE hA (n := n) (by omega) hblk
    have hnew : l.length * E + (n - l.length) * E = n * E := by
      rw [← Nat.add_mul, Nat.add_sub_cancel' (by omega)]
    have hw := write_of_le (a := a₁) (p := a₁.used)
      (b := (List.replicate (n - l.length) v.toList).flatten)
      (by rw [length_flatten_replicate_toList, h₁.used_eq, hnew]; exact hst)
    refine ⟨{ a₁ with
        bytes := writeBytes a₁.bytes a₁.used (List.replicate (n - l.length) v.toList).flatten
        used := n * E }, ev, ?_, ?_⟩
    · rw [hr, Option.bind_some, hw, Option.bind_some, setEnd_of_le (a := { a₁ with
        bytes := writeBytes a₁.bytes a₁.used (List.replicate (n - l.length) v.toList).flatten })
        hst, Option.bind_some]
    · rw [List.take_of_length_le (by omega)]
      refine h₁.update (u := n * E) (h₁.laid_append (laid_writeBytes_replicate _ _ _ v)) ?_ hst
      rw [List.length_append, List.length_replicate, Nat.add_sub_cancel' (by omega)]
  · -- shrinking, or the same size: only `c_end_` moves
    rw [if_neg hgt]
    have hst : n * E ≤ a.storage :=
      Nat.le_trans (Nat.mul_le_mul_right E (by omega)) (h.used_eq ▸ h.used_le)
    obtain ⟨a', hs, h'⟩ := h.resizeAssumeReserved hn hst
    rw [PODArray.resizeAssumeReserved, byteSize_of_le (n := n) (by omega)] at hs
    rw [Nat.sub_eq_zero_of_le (by omega), List.replicate_zero] at h' ⊢
    exact ⟨a', [], by rw [hs, Option.bind_some], h'⟩

theorem Rep.resizeFillZero {n : ℕ} (hA : PowerOfTwo A) (h : Rep a l) (hE1 : E = 1)
    (hn : n * E ≤ 2 ^ 62) (hblk : Honours A blk) :
    ∃ a' ev, a.resizeFillZero n blk = some (a', ev) ∧
      Rep a' (l.take n ++ List.replicate (n - l.length) (some (Elem.zero E))) := by
  rw [resizeFillZero_eq_resizeFill hE1]
  exact h.resizeFill hE hA _ hn hblk

theorem Rep.insert (hA : PowerOfTwo A) (h : Rep a l) (src : List (Elem E))
    (hn : (l.length + src.length) * E ≤ 2 ^ 62) (hblk : Honours A blk) :
    ∃ a' ev, a.insert src blk = some (a', ev) ∧ Rep a' (l ++ src.map some) := by
  have hsize : a.size = l.length := (h.holds hE.pos).size_eq
  obtain ⟨a₁, ev, hr, h₁, hst⟩ := h.reserveFor hE hA hn hblk
  have hcopy : byteSize E src.length = src.length * E :=
    byteSize_of_le (n := src.length) (by have := Nat.add_mul l.length src.length E; omega)
  have hbytes : (rangeBytes src).take (src.length * E) = rangeBytes src :=
    List.take_of_length_le (by rw [rangeBytes, length_flatten_toList])
  have hfit : a₁.used + (rangeBytes src).length ≤ a₁.storage := by
    rw [rangeBytes, length_flatten_toList, h₁.used_eq, ← Nat.add_mul]
    exact hst
  refine ⟨_, ev, ?_, h₁.update (u := a₁.used + src.length * E)
    (h₁.laid_append (laid_writeBytes_flatten _ _ src)) ?_ ?_⟩
  · rw [insert_eq, hsize, hr, Option.bind_some, insertAssumeReserved, hcopy, hbytes,
      write_of_le hfit]
    rfl
  · rw [h₁.used_eq, List.length_append, List.length_map, Nat.add_mul]
  · rwa [rangeBytes, length_flatten_toList] at hfit

/-- `insert(it, ...)` at `it = begin() + k`: the elements from `it` on move up past the new
    ones, which the `memcpy` then writes where they were. -/
theorem Rep.insertAt {k : ℕ} (hA : PowerOfTwo A) (h : Rep a l) (src : List (Elem E))
    (hk : k ≤ l.length) (hn : (l.length + src.length) * E ≤ 2 ^ 62) (hblk : Honours A blk) :
    ∃ a' ev, a.insertAt k src blk = some (a', ev) ∧
      Rep a' (l.take k ++ src.map some ++ l.drop k) := by
  have hsize : a.size = l.length := (h.holds hE.pos).size_eq
  obtain ⟨a₁, ev, hr, h₁, hst⟩ := h.reserveFor hE hA hn hblk
  -- the byte counts: `C` to copy, `M` to move, and where they meet in the block
  have hC : (l.length + src.length) * E = l.length * E + src.length * E := Nat.add_mul _ _ _
  have hM : (l.length - k) * E + k * E = l.length * E := by
    rw [← Nat.add_mul, Nat.sub_add_cancel hk]
  have hcopy : byteSize E src.length = src.length * E := byteSize_of_le (n := src.length) (by omega)
  have hmove : (l.length - k) * E % 2 ^ 64 = (l.length - k) * E := Nat.mod_eq_of_lt (by omega)
  have hu₁ := h₁.used_eq
  -- the `memmove`: the bytes of the elements from `it` on, `C` bytes up
  obtain ⟨m₂, hm₂, hfront, hback⟩ : ∃ m₂,
      (if (l.length - k) * E ≠ 0 then
          a₁.write (a₁.used + src.length * E - (l.length - k) * E)
            (readBytes a₁.bytes (a₁.used - (l.length - k) * E) ((l.length - k) * E))
        else some a₁) = some { a₁ with bytes := m₂ } ∧
        Laid E m₂ 0 (l.take k) ∧ Laid E m₂ (k * E + src.length * E) (l.drop k) := by
    split_ifs with hM0
    · have hw := write_of_le (a := a₁) (p := k * E + src.length * E)
        (b := readBytes a₁.bytes (k * E) ((l.length - k) * E))
        (by rw [readBytes_length]; omega)
      refine ⟨writeBytes a₁.bytes (k * E + src.length * E)
        (readBytes a₁.bytes (k * E) ((l.length - k) * E)), ?_,
        (h₁.laid.take k).writeBytes_of_le _ ?_, ?_⟩
      · rw [show a₁.used + src.length * E - (l.length - k) * E = k * E + src.length * E by omega,
          show a₁.used - (l.length - k) * E = k * E by omega, hw]
      · rw [List.length_take_of_le hk]
        omega
      · have := (h₁.laid.drop k).copy a₁.bytes (k * E + src.length * E)
          (n := (l.length - k) * E) (by rw [List.length_drop])
        rwa [Nat.zero_add] at this
    · -- nothing after `it`
      have hdrop : l.drop k = [] := List.drop_eq_nil_of_le (by
        rcases Nat.mul_eq_zero.mp (not_not.mp hM0) with h0 | h0
        · omega
        · exact absurd h0 hE.pos.ne')
      exact ⟨a₁.bytes, rfl, h₁.laid.take k, hdrop ▸ Laid.nil _ _⟩
  -- the `memcpy` of the new elements to where the moved ones started
  have hbytes : (rangeBytes src).take (src.length * E) = rangeBytes src :=
    List.take_of_length_le (by rw [rangeBytes, length_flatten_toList])
  have hw := write_of_le (a := ({ a₁ with bytes := m₂ } : PODArray E A)) (p := k * E)
    (b := rangeBytes src)
    (by rw [rangeBytes, length_flatten_toList]; dsimp only; omega)
  have hlen : (l.take k ++ src.map some ++ l.drop k).length = l.length + src.length := by
    rw [length_take_append_append_drop hk, List.length_map]
  refine ⟨{ a₁ with bytes := writeBytes m₂ (k * E) (rangeBytes src), used := a₁.used + src.length * E },
    ev, ?_, ?_⟩
  · rw [insertAt_eq (hsize ▸ hk), hsize, hr, Option.bind_some, hmove, hcopy, hm₂,
      Option.bind_some]
    dsimp only
    rw [show a₁.used - (l.length - k) * E = k * E by omega, hbytes, hw, Option.bind_some]
  · refine h₁.update (u := a₁.used + src.length * E) ?_ (by rw [hlen, hC, hu₁]) (by omega)
    have hk' : 0 + (l.take k).length * E = k * E := by rw [List.length_take_of_le hk, Nat.zero_add]
    refine (((hfront.writeBytes_of_le _ (by rw [hk'])).append ?_).append ?_)
    · rw [hk']
      exact laid_writeBytes_flatten _ _ src
    · rw [List.length_append, List.length_map, Nat.add_mul, ← Nat.add_assoc, hk']
      exact hback.writeBytes_of_ge _ (by rw [rangeBytes, length_flatten_toList])

theorem Rep.assign {n : ℕ} (hA : PowerOfTwo A) (h : Rep a l) (x : Elem E) (hn : n * E ≤ 2 ^ 62)
    (hblk : Honours A blk) :
    ∃ a' ev, a.assign n x blk = some (a', ev) ∧ Rep a' (List.replicate n (some x)) := by
  obtain ⟨a₁, ev, hr, h₁⟩ := h.resize hE hA hn hblk
  have hlen₁ := length_take_append_replicate l n none
  have hsize₁ : a₁.size = n := by rw [(h₁.holds hE.pos).size_eq, hlen₁]
  have hu₁ : a₁.used = n * E := by rw [h₁.used_eq, hlen₁]
  have hw := write_of_le (a := a₁) (p := 0) (b := (List.replicate a₁.size x.toList).flatten)
    (by rw [length_flatten_replicate_toList, hsize₁, Nat.zero_add, ← hu₁]; exact h₁.used_le)
  refine ⟨_, ev, by rw [assign_eq, hr, Option.bind_some, hw, Option.bind_some], ?_⟩
  refine h₁.update (u := a₁.used) ?_ (by rw [hu₁, List.length_replicate]) h₁.used_le
  rw [hsize₁]
  exact laid_writeBytes_replicate _ _ _ x

theorem Rep.assignRange (hA : PowerOfTwo A) (h : Rep a l) (src : List (Elem E))
    (hn : src.length * E ≤ 2 ^ 62) (hblk : Honours A blk) :
    ∃ a' ev, a.assignRange src blk = some (a', ev) ∧ Rep a' (src.map some) := by
  obtain ⟨a₁, ev, hr, h₁, hst⟩ := h.reserveFor hE hA hn hblk
  have hbytes : (rangeBytes src).take (src.length * E) = rangeBytes src :=
    List.take_of_length_le (by rw [rangeBytes, length_flatten_toList])
  have hw := write_of_le (a := a₁) (p := 0) (b := rangeBytes src)
    (by rw [rangeBytes, length_flatten_toList, Nat.zero_add]; exact hst)
  refine ⟨_, ev, ?_, h₁.update (u := src.length * E) (laid_writeBytes_flatten a₁.bytes 0 src)
    (by rw [List.length_map]) hst⟩
  rw [assignRange_eq, hr, Option.bind_some, byteSize_of_le (by omega), hbytes, hw,
    Option.bind_some, setEnd_of_le (a := { a₁ with bytes := writeBytes a₁.bytes 0 (rangeBytes src) })
    hst, Option.bind_some]
  rfl

/-- Every operation within the contract runs and does to the sequence what `Op.spec` says. -/
theorem Rep.exec (hA : PowerOfTwo A) (h : Rep a l) {o : Op E} (ho : o.Allowed l)
    (hblk : Honours A blk) : ∃ a' ev, a.exec o blk = some (a', ev) ∧ Rep a' (o.spec l) := by
  obtain ⟨hlen, hpre⟩ := ho
  cases o with
  | pushBack x =>
    rw [Op.spec, List.length_append, List.length_singleton] at hlen
    exact h.pushBack hE hA x hlen hblk
  | emplaceBack x =>
    rw [Op.spec, List.length_append, List.length_singleton] at hlen
    exact h.pushBack hE hA x hlen hblk
  | popBack =>
    obtain ⟨a', hp, h'⟩ := h.popBack hE hpre
    exact ⟨a', [], by rw [PODArray.exec, hp]; rfl, h'⟩
  | resize n =>
    rw [Op.spec, length_take_append_replicate] at hlen
    exact h.resize hE hA hlen hblk
  | resizeFill n v =>
    rw [Op.spec, length_take_append_replicate] at hlen
    exact h.resizeFill hE hA v hlen hblk
  | resizeFillZero n =>
    rw [Op.spec, length_take_append_replicate] at hlen
    exact h.resizeFillZero hE hA hpre hlen hblk
  | reserve n =>
    obtain ⟨a', ev, hr, h', -⟩ := h.reserve hE hA (n := n) (Nat.le_trans hpre (by norm_num)) hblk
    exact ⟨a', ev, hr, h'⟩
  | clear => exact ⟨_, [], rfl, h.clear⟩
  | insert src =>
    rw [Op.spec, List.length_append, List.length_map] at hlen
    exact h.insert hE hA src hlen hblk
  | insertAt k src =>
    rw [Op.spec, length_take_append_append_drop hpre, List.length_map] at hlen
    exact h.insertAt hE hA src hpre hlen hblk
  | assign n x =>
    rw [Op.spec, List.length_replicate] at hlen
    exact h.assign hE hA x hlen hblk
  | assignRange src =>
    rw [Op.spec, List.length_map] at hlen
    exact h.assignRange hE hA src hlen hblk

end Blocks

end PODArray

/-! ## A program's arrays -/

/-- The relation holds of two partial maps where both are defined, and both are undefined
    together; it survives updating both at one point with related values. -/
theorem rel_update {α β : Type} {r : α → β → Prop} {f : ℕ → Option α} {g : ℕ → Option β}
    (h : ∀ x, Option.Rel r (f x) (g x)) (i : ℕ) {a : Option α} {b : Option β}
    (hab : Option.Rel r a b) (x : ℕ) :
    Option.Rel r (Function.update f i a x) (Function.update g i b x) := by
  by_cases hx : x = i
  · subst hx
    rw [Function.update_self, Function.update_self]
    exact hab
  · rw [Function.update_of_ne hx, Function.update_of_ne hx]
    exact h x

namespace Cmd

variable {E : ℕ}

/-- What each statement does to the sequences of a program's arrays (`none` for a variable
    with no live array); a moved-from array of the move assignment holds the other's sequence,
    as `swap` leaves it. -/
def spec (ls : ℕ → Option (List (Option (Elem E)))) :
    Cmd E → ℕ → Option (List (Option (Elem E)))
  | .create i _ => Function.update ls i (some [])
  | .op i o => Function.update ls i ((ls i).map o.spec)
  | .swap i j => Function.update (Function.update ls i (ls j)) j (ls i)
  | .moveConstruct i j => Function.update (Function.update ls j (some [])) i (ls j)
  | .moveAssign i j => Function.update (Function.update ls i (ls j)) j (ls i)
  | .destroy i => Function.update ls i none

/-- The contract of a statement: constructions over dead variables, the rest on live ones, and
    each operation within its own contract, with a block as the resource is asked for. -/
def Allowed (A : ℕ) (ls : ℕ → Option (List (Option (Elem E)))) : Cmd E → Block → Prop
  | .create i _, _ => ls i = none
  | .op i o, blk => Honours A blk ∧ ∃ l, ls i = some l ∧ o.Allowed l
  | .swap i j, _ => ls i ≠ none ∧ ls j ≠ none
  | .moveConstruct i j, _ => ls i = none ∧ ls j ≠ none
  | .moveAssign i j, _ => ls i ≠ none ∧ ls j ≠ none
  | .destroy i, _ => ls i ≠ none

/-- A program within the contract, statement after statement. -/
def AllowedRun (A : ℕ) :
    (ℕ → Option (List (Option (Elem E)))) → List (Cmd E × Block) → Prop
  | _, [] => True
  | ls, (c, blk) :: cs => c.Allowed A ls blk ∧ AllowedRun A (c.spec ls) cs

/-- The sequences after a program. -/
def specRun : (ℕ → Option (List (Option (Elem E)))) → List (Cmd E × Block) →
    ℕ → Option (List (Option (Elem E)))
  | ls, [] => ls
  | ls, (c, _) :: cs => specRun (c.spec ls) cs

end Cmd

namespace Heap

variable {E A : ℕ} {hp : Heap E A} {ls : ℕ → Option (List (Option (Elem E)))} {blk : Block}

/-- Every live array holds the sequence of its variable, and only live variables have one. -/
def Rep (hp : Heap E A) (ls : ℕ → Option (List (Option (Elem E)))) : Prop :=
  ∀ i, Option.Rel PODArray.Rep (hp.arrays i) (ls i)

theorem rep_empty : (empty : Heap E A).Rep fun _ => none := fun _ => .none

/-- `swap` and the move assignment exchange the two sequences. -/
theorem Rep.swapArrays (h : hp.Rep ls) {i j : ℕ} {a b : PODArray E A}
    {la lb : List (Option (Elem E))} (hla : ls i = some la) (hlb : ls j = some lb) (hra : PODArray.Rep a la)
    (hrb : PODArray.Rep b lb) :
    (hp.swapArrays i j a b).Rep (Function.update (Function.update ls i (ls j)) j (ls i)) := by
  unfold Heap.swapArrays
  split_ifs with hij
  · subst hij
    rw [Function.update_idem, Function.update_eq_self]
    exact h
  · rw [hla, hlb]
    exact rel_update (rel_update h i (.some (hra.swap hrb).1)) j (.some (hra.swap hrb).2)

section Run

variable (hE : PowerOfTwo E) (hA : PowerOfTwo A)
include hE hA

/-- One statement within the contract runs and does to the sequences what `Cmd.spec` says. -/
theorem Rep.exec (h : hp.Rep ls) {c : Cmd E} (hc : c.Allowed A ls blk) :
    ∃ hp', hp.exec c blk = some hp' ∧ hp'.Rep (c.spec ls) := by
  cases c with
  | create i mr =>
    have hi : hp.arrays i = none := Trans.rel_none (hc ▸ h i)
    exact ⟨{ hp with arrays := Function.update hp.arrays i (some (PODArray.create mr)) },
      by rw [Heap.exec, hi], rel_update h i (.some (PODArray.rep_create mr))⟩
  | op i o =>
    obtain ⟨hblk, l, hl, ho⟩ := hc
    obtain ⟨a, ha, hra⟩ := Trans.rel_some (hl ▸ h i)
    obtain ⟨a', ev, hx, hra'⟩ := hra.exec hE hA ho hblk
    refine ⟨_, by rw [Heap.exec, ha, Option.bind_eq_bind, Option.bind_some, hx]; rfl, ?_⟩
    rw [Cmd.spec, hl, Option.map_some]
    exact rel_update h i (.some hra')
  | swap i j =>
    obtain ⟨la, hla⟩ := Option.ne_none_iff_exists'.mp hc.1
    obtain ⟨lb, hlb⟩ := Option.ne_none_iff_exists'.mp hc.2
    obtain ⟨a, ha, hra⟩ := Trans.rel_some (hla ▸ h i)
    obtain ⟨b, hb, hrb⟩ := Trans.rel_some (hlb ▸ h j)
    refine ⟨_, by rw [Heap.exec, ha, hb]; rfl, ?_⟩
    exact h.swapArrays hla hlb hra hrb
  | moveConstruct i j =>
    obtain ⟨hi, hj⟩ := hc
    obtain ⟨lb, hlb⟩ := Option.ne_none_iff_exists'.mp hj
    have hai : hp.arrays i = none := Trans.rel_none (hi ▸ h i)
    obtain ⟨b, hb, hrb⟩ := Trans.rel_some (hlb ▸ h j)
    -- a fresh array swapped with `b`: it takes `b`'s sequence and leaves `b` empty
    have hsw := (PODArray.rep_create none : PODArray.Rep (PODArray.create none : PODArray E A) []).swap
      hrb
    refine ⟨_, by rw [Heap.exec, hai, hb], ?_⟩
    rw [Cmd.spec, hlb]
    exact rel_update (rel_update h j (.some hsw.2)) i (.some hsw.1)
  | moveAssign i j =>
    obtain ⟨la, hla⟩ := Option.ne_none_iff_exists'.mp hc.1
    obtain ⟨lb, hlb⟩ := Option.ne_none_iff_exists'.mp hc.2
    obtain ⟨a, ha, hra⟩ := Trans.rel_some (hla ▸ h i)
    obtain ⟨b, hb, hrb⟩ := Trans.rel_some (hlb ▸ h j)
    refine ⟨_, by rw [Heap.exec, ha, hb]; rfl, ?_⟩
    exact h.swapArrays hla hlb hra hrb
  | destroy i =>
    obtain ⟨l, hl⟩ := Option.ne_none_iff_exists'.mp hc
    obtain ⟨a, ha, -⟩ := Trans.rel_some (hl ▸ h i)
    exact ⟨⟨Function.update hp.arrays i none, hp.log ++ a.dealloc⟩, by rw [Heap.exec, ha]; rfl,
      rel_update h i .none⟩

/-- A program within the contract runs to its end, by induction on its statements. -/
theorem Rep.run (h : hp.Rep ls) {cmds : List (Cmd E × Block)} (hok : Cmd.AllowedRun A ls cmds) :
    ∃ hp', hp.run cmds = some hp' ∧ hp'.Rep (Cmd.specRun ls cmds) := by
  induction cmds generalizing hp ls with
  | nil => exact ⟨hp, rfl, h⟩
  | cons cb cs ih =>
    obtain ⟨c, blk⟩ := cb
    obtain ⟨hc, hcs⟩ := hok
    obtain ⟨hp₁, hx, h₁⟩ := h.exec hE hA hc
    obtain ⟨hp₂, hr, h₂⟩ := ih h₁ hcs
    exact ⟨hp₂, by rw [Heap.run, Option.bind_eq_bind, hx, Option.bind_some, hr], h₂⟩

end Run

/-- `PODArray` refines a sequence: a program of array operations, swaps and moves within the
    contract runs to its end, and each live array then holds the sequence that the list
    operations give, with `size() <= capacity()` and an aligned block. -/
theorem heap_run_refines_sequences (hE : PowerOfTwo E) (hA : PowerOfTwo A)
    (cmds : List (Cmd E × Block)) (hok : Cmd.AllowedRun A (fun _ => none) cmds) :
    ∃ hp, (empty : Heap E A).run cmds = some hp ∧
      ∀ i, Option.Rel PODArray.Holds (hp.arrays i) (Cmd.specRun (fun _ => none) cmds i) := by
  obtain ⟨hp, hr, h⟩ := rep_empty.run hE hA hok
  exact ⟨hp, hr, fun i => Trans.rel_mono (h i) fun _ _ hrep => hrep.holds hE.pos⟩

/-- An array of 4-byte elements: a `push_back`, then an `insert` of one element at the front. -/
theorem heap_run_refines_sequences_insert :
    let prog : List (Cmd 4 × Block) :=
      [(.create 0 none, ⟨16, fun _ => 0⟩),
       (.op 0 (.pushBack ⟨[1, 2, 3, 4], rfl⟩), ⟨16, fun _ => 0⟩),
       (.op 0 (.insertAt 0 [⟨[5, 6, 7, 8], rfl⟩]), ⟨16, fun _ => 0⟩)]
    PowerOfTwo 4 ∧ PowerOfTwo 16 ∧ Cmd.AllowedRun 16 (fun _ => none) prog ∧
      ∃ hp, (empty : Heap 4 16).run prog = some hp ∧
        ∀ i, Option.Rel PODArray.Holds (hp.arrays i) (Cmd.specRun (fun _ => none) prog i) :=
  have hok : Cmd.AllowedRun 16 (fun _ => none)
      [(.create 0 none, ⟨16, fun _ => 0⟩),
       (.op 0 (.pushBack ⟨[1, 2, 3, 4], rfl⟩), ⟨16, fun _ => 0⟩),
       (.op 0 (.insertAt 0 [⟨[5, 6, 7, 8], rfl⟩]), ⟨16, fun _ => 0⟩)] :=
    ⟨rfl, ⟨by decide, [], rfl, by decide, trivial⟩,
      ⟨by decide, [some ⟨[1, 2, 3, 4], rfl⟩], rfl, by decide, by decide⟩, trivial⟩
  ⟨⟨2, by decide, rfl⟩, ⟨4, by decide, rfl⟩, hok,
    heap_run_refines_sequences ⟨2, by decide, rfl⟩ ⟨4, by decide, rfl⟩ _ hok⟩

end Heap

end Pmr

end Helio
