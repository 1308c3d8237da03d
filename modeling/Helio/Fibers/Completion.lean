import Mathlib.Algebra.Order.BigOperators.Group.Finset
import Helio.Lib.FreeList
import Helio.Lib.Trans

/-!
# The completion-entry tables of the proactors

Both proactors hand out *completion entries*: slots of a vector `centries_` that hold the
callback of an operation in flight, named to the kernel by the user data
`index + kUserDataCbIndex`. The free slots form a list threaded through their `index`
fields from `next_free_ce_`, an `int32_t`; a negative index ends it.

* `UringProactor` (`util/fibers/uring_proactor.cc`): `GetSubmitEntry(cb)` takes the head of
  the list for `cb`, and `DispatchCqe` puts the entry of a completion back at the head and
  only then runs the callback it moved out, so that the callback can take the entry again;
  `pending_cb_cnt_` counts the entries taken.
* `EpollProactor` (`util/fibers/epoll_proactor.cc`): `Arm` takes the head, `Disarm` puts an
  entry back.

When the list is empty both call `RegrowCentries()`, which doubles the vector, links the new
half in order and leaves the default `index = -1` of the last new entry to end the list.
The operations on the vector are shared (`Table.take`, `Table.free`,
`Table.regrowCentries`), and each proactor's calls are those at its own values.

The abstract model is the table of registered callbacks (`Table.table`): an allocation
registers a callback under an index that had none, a completion hands back the callback
of its index and forgets it.

* `Table.Inv`: the free list is threaded from `next_free_ce_` through the entries without a
  callback, and through all of them; its links fit in `int32_t`, and the vector's size is a
  power of two of at most `2 ^ 31`. `take`, `free` and `regrowCentries` keep it.
* `uring_centries_sound`, `epoll_centries_sound`: in every state reached by calls that keep
  the contract (a completion names an entry in flight, a `Disarm` an armed entry, and no
  callback is registered while `2 ^ 31` entries are in flight), the list is sound, an
  allocation hands out an entry without a callback and registers the new one, a completion
  runs exactly the registered callback and releases the entry, and `pending_cb_cnt_` counts
  the entries in flight; `completion_entries_sound` is both.
* `centries_limits`: without the contract both fail. A `Disarm` of a free entry links it to
  itself, and `Arm` then hands it out twice. With `2 ^ 31` entries in flight
  `RegrowCentries` stores `2 ^ 31` in `next_free_ce_`, which wraps negative, and
  `GetSubmitEntry` indexes the vector with it.

A callback is a value of a type `Cb`; what it does when it runs is the calls of the run
that follow its completion. The vector is a size and a function from index to entry.
-/

set_option autoImplicit false

namespace Helio

namespace Completion

open FreeList

/-- `kUserDataCbIndex`: a user data from here on names entry `user_data - 1024`. -/
def kUserDataCbIndex : ℕ := 1024

/-- `kIgnoreIndex`: the user data of a submission without a callback. -/
def kIgnoreIndex : ℕ := 0

/-- Conversion to `int32_t`: modulo `2 ^ 32`, into `[-2 ^ 31, 2 ^ 31)`. -/
def toInt32 (x : ℤ) : ℤ := (x + 2 ^ 31) % 2 ^ 32 - 2 ^ 31

theorem toInt32_of_mem {x : ℤ} (h₁ : -2 ^ 31 ≤ x) (h₂ : x < 2 ^ 31) : toInt32 x = x := by
  unfold toInt32
  omega

/-- A `CompletionEntry`: its callback, `none` for the empty `std::function`, and `index`. -/
structure Entry (Cb : Type) where
  cb : Option Cb
  index : ℤ

/-- `centries_`, as a size and its entries, and `next_free_ce_`. -/
structure Table (Cb : Type) where
  size : ℕ
  entries : ℕ → Entry Cb
  nextFreeCe : ℤ

namespace Table

variable {Cb : Type} {t : Table Cb}

/-! ## The operations on the vector -/

/-- The vector as the constructors leave it: `resize(n)`, `next_free_ce_ = 0`, and every entry
    but the last linked to the next, its `index` converted by `wrap` to the field's type. -/
def create (n : ℕ) (wrap : ℤ → ℤ) : Table Cb :=
  ⟨n, fun j => ⟨none, if j + 1 < n then wrap (j + 1) else -1⟩, 0⟩

/-- `RegrowCentries()`: `resize(2 * prev)` with default entries, `next_free_ce_ = prev`, and
    the new entries but the last linked in order. On an empty vector `size() - 1` wraps and
    the loop writes past its end. -/
def regrowCentries (t : Table Cb) (wrap : ℤ → ℤ) : Option (Table Cb) :=
  if t.size = 0 then none
  else some ⟨2 * t.size, fun j => if j < t.size then t.entries j
    else ⟨none, if j + 1 < 2 * t.size then wrap (j + 1) else -1⟩, toInt32 t.size⟩

/-- The head of the free list taken for `cb`: `next_free_ce_` becomes the entry's `index`,
    and the entry gets `cb` and `index'` of its old `index`. `none` when `next_free_ce_`
    names no entry, where `centries_[next_free_ce_]` reads outside the vector. -/
def take (t : Table Cb) (cb : Cb) (index' : ℤ → ℤ) : Option (Table Cb × ℕ) :=
  if 0 ≤ t.nextFreeCe ∧ t.nextFreeCe < t.size then
    some (⟨t.size, Function.update t.entries t.nextFreeCe.toNat
        ⟨some cb, index' (t.entries t.nextFreeCe.toNat).index⟩,
      toInt32 (t.entries t.nextFreeCe.toNat).index⟩, t.nextFreeCe.toNat)
  else none

/-- Entry `i` back at the head of the free list without its callback:
    `e.index = next_free_ce_; next_free_ce_ = i`. -/
def free (t : Table Cb) (i : ℕ) : Table Cb :=
  ⟨t.size, Function.update t.entries i ⟨none, t.nextFreeCe⟩, toInt32 i⟩

/-- What `take` leaves: the head's entry rewritten, nothing else. -/
theorem take_eq {cb : Cb} {index' : ℤ → ℤ} {t' : Table Cb} {i : ℕ}
    (h : t.take cb index' = some (t', i)) :
    t'.size = t.size ∧ t'.entries = Function.update t.entries i ⟨some cb, index' (t.entries i).index⟩ ∧
      t'.nextFreeCe = toInt32 (t.entries i).index ∧ t.nextFreeCe = i := by
  unfold Table.take at h
  split at h
  · next hh =>
    simp only [Option.some.injEq, Prod.mk.injEq] at h
    obtain ⟨rfl, rfl⟩ := h
    exact ⟨rfl, rfl, rfl, (Int.toNat_of_nonneg hh.1).symm⟩
  · cases h

/-- What `regrowCentries` leaves: the old entries where they were, and new ones without a
    callback. -/
theorem regrowCentries_eq {wrap : ℤ → ℤ} {t' : Table Cb} (h : t.regrowCentries wrap = some t') :
    t'.size = 2 * t.size ∧ (∀ j, j < t.size → t'.entries j = t.entries j) ∧
      ∀ j, t.size ≤ j → (t'.entries j).cb = none := by
  unfold Table.regrowCentries at h
  split at h
  · cases h
  · simp only [Option.some.injEq] at h
    subst h
    refine ⟨rfl, fun j hj => if_pos hj, fun j hj => ?_⟩
    simp [show ¬ j < t.size by omega]

/-! ## What the vector stands for -/

/-- The callback registered under index `i`. -/
def table (t : Table Cb) (i : ℕ) : Option Cb := if i < t.size then (t.entries i).cb else none

/-- `1` for an entry in flight, one with a callback. -/
def inFlight (e : Entry Cb) : ℕ := if e.cb.isSome then 1 else 0

/-- The entries in flight. -/
def outstanding (t : Table Cb) : ℕ := ∑ i ∈ Finset.range t.size, inFlight (t.entries i)

/-- The `index` fields: the links of the free list. -/
def links (t : Table Cb) (j : ℕ) : ℤ := (t.entries j).index

/-- **The free list is sound.** `next_free_ce_` threads a list through the entries that have
    no callback, and through all of them; each link on it fits in `int32_t`; and the size of
    the vector is a power of two of at most `2 ^ 31`. -/
structure Inv (t : Table Cb) : Prop where
  size_pow : ∃ k, k ≤ 31 ∧ t.size = 2 ^ k
  head_ge : -1 ≤ t.nextFreeCe
  free_list : ∃ L, Threads t.links t.nextFreeCe L ∧
    (∀ j, j ∈ L ↔ j < t.size ∧ (t.entries j).cb = none) ∧
    ∀ j ∈ L, -1 ≤ t.links j ∧ t.links j < t.size

@[simp] theorem inFlight_none (index : ℤ) : inFlight (⟨none, index⟩ : Entry Cb) = 0 := rfl

@[simp] theorem inFlight_some (cb : Cb) (index : ℤ) : inFlight (⟨some cb, index⟩ : Entry Cb) = 1 :=
  rfl

theorem inFlight_le (e : Entry Cb) : inFlight e ≤ 1 := by
  unfold inFlight
  split <;> omega

/-! ### One entry rewritten

`take` and `free` rewrite one entry and the head; these are the three views of such a
table. -/

section Set

variable (t) {i : ℕ} (e : Entry Cb) (n : ℤ)

theorem set_outstanding (hi : i < t.size) :
    (⟨t.size, Function.update t.entries i e, n⟩ : Table Cb).outstanding + inFlight (t.entries i) =
      t.outstanding + inFlight e :=
  Trans.sum_update_of_mem _ (Finset.mem_range.mpr hi) inFlight t.entries e

theorem set_links :
    (⟨t.size, Function.update t.entries i e, n⟩ : Table Cb).links =
      Function.update t.links i e.index := by
  funext j
  by_cases hj : j = i
  · subst hj
    simp [links]
  · simp [Function.update_of_ne hj, links]

theorem set_table (hi : i < t.size) :
    (⟨t.size, Function.update t.entries i e, n⟩ : Table Cb).table =
      Function.update t.table i e.cb := by
  funext j
  by_cases hj : j = i
  · subst hj
    simp [table, hi]
  · simp [Function.update_of_ne hj, table]

end Set

theorem table_eq_some {i : ℕ} {cb : Cb} (hi : t.table i = some cb) :
    i < t.size ∧ (t.entries i).cb = some cb := by
  unfold table at hi
  split at hi
  · exact ⟨by assumption, hi⟩
  · cases hi

@[simp] theorem outstanding_create (n : ℕ) (wrap : ℤ → ℤ) :
    (Table.create n wrap : Table Cb).outstanding = 0 := by
  simp [outstanding, Table.create]

theorem outstanding_le (t : Table Cb) : t.outstanding ≤ t.size := by
  have hle : ∀ i ∈ Finset.range t.size, inFlight (t.entries i) ≤ 1 := fun i _ => inFlight_le _
  simpa [outstanding] using Finset.sum_le_card_nsmul _ _ 1 hle

theorem Inv.size_le (hv : Inv t) : t.size ≤ 2 ^ 31 := by
  obtain ⟨k, hk, hs⟩ := hv.size_pow
  rw [hs]
  exact Nat.pow_le_pow_right Nat.two_pos hk

/-- A nonnegative head is an entry of the vector without a callback. -/
theorem Inv.head (hv : Inv t) (h0 : 0 ≤ t.nextFreeCe) :
    t.nextFreeCe.toNat < t.size ∧ (t.entries t.nextFreeCe.toNat).cb = none := by
  obtain ⟨L, hL, hmem, -⟩ := hv.free_list
  obtain ⟨i, L', hhead, rfl, -⟩ := hL.of_nonneg h0
  rw [hhead, Int.toNat_natCast]
  exact (hmem i).mp List.mem_cons_self

/-- With the list empty, every entry is in flight. -/
theorem Inv.outstanding_eq_size (hv : Inv t) (hneg : t.nextFreeCe < 0) :
    t.outstanding = t.size := by
  obtain ⟨L, hL, hmem, -⟩ := hv.free_list
  have hnil : L = [] := hL.eq_nil_iff.mpr hneg
  subst hnil
  have hone : ∀ i ∈ Finset.range t.size, inFlight (t.entries i) = 1 := by
    intro i hi
    have hsome : (t.entries i).cb ≠ none := fun h =>
      List.not_mem_nil ((hmem i).mpr ⟨Finset.mem_range.mp hi, h⟩)
    simp [inFlight, Option.isSome_iff_ne_none.mpr hsome]
  rw [outstanding, Finset.sum_congr rfl hone]
  simp

/-- With the list not empty, some entry is free. -/
theorem Inv.outstanding_lt (hv : Inv t) (h0 : 0 ≤ t.nextFreeCe) : t.outstanding < t.size := by
  obtain ⟨hlt, hfree⟩ := hv.head h0
  have hle : ∀ i ∈ Finset.range t.size, inFlight (t.entries i) ≤ 1 := fun i _ => inFlight_le _
  have hzero : inFlight (t.entries t.nextFreeCe.toNat) < 1 := by
    simp [inFlight, hfree]
  have := Finset.sum_lt_sum hle ⟨_, Finset.mem_range.mpr hlt, hzero⟩
  simpa [outstanding] using this

/-- **Rewriting an entry in flight** with another entry in flight keeps the list, which never
    visits it. -/
theorem Inv.set_used (hv : Inv t) {i : ℕ} (hi : (t.entries i).cb ≠ none) (e : Entry Cb)
    (he : e.cb ≠ none) : Inv ⟨t.size, Function.update t.entries i e, t.nextFreeCe⟩ := by
  obtain ⟨L, hL, hmem, hlinks⟩ := hv.free_list
  have hnot : i ∉ L := fun h => hi ((hmem i).mp h).2
  refine ⟨hv.size_pow, hv.head_ge, L, ?_, ?_, ?_⟩
  · rw [set_links]
    exact hL.frame fun j hj => Function.update_of_ne (by rintro rfl; exact hnot hj) _ _
  · intro j
    by_cases hj : j = i
    · subst hj
      simp [hnot, he]
    · simp only [Function.update_of_ne hj]
      exact hmem j
  · intro j hj
    have hne : j ≠ i := by rintro rfl; exact hnot hj
    rw [set_links, Function.update_of_ne hne]
    exact hlinks j hj

/-- **The constructors' vector is sound** for a power of two of at most `2 ^ 31` entries,
    when `wrap` keeps the indices in `int32_t` as they are. -/
theorem Inv.of_create {k : ℕ} (hk : k ≤ 31) (wrap : ℤ → ℤ)
    (hwrap : ∀ x : ℤ, 0 ≤ x → x < 2 ^ 31 → wrap x = x) :
    Inv (Table.create (2 ^ k) wrap : Table Cb) := by
  have hpos := Nat.two_pow_pos k
  have hpow : 2 ^ k ≤ 2 ^ 31 := Nat.pow_le_pow_right Nat.two_pos hk
  -- each link below the last is the next index, the last is `-1`
  have hlink : ∀ j, (Table.create (2 ^ k) wrap : Table Cb).links j =
      if j + 1 < 2 ^ k then (j : ℤ) + 1 else -1 := by
    intro j
    simp only [links, Table.create]
    split
    · exact hwrap _ (by omega) (by omega)
    · rfl
  refine ⟨⟨k, hk, rfl⟩, by simp [Table.create], List.range' 0 (2 ^ k), ?_, ?_, ?_⟩
  · have := @threads_range' (Table.create (2 ^ k) wrap : Table Cb).links 0 (2 ^ k) hpos
      (fun j _ hj => by rw [hlink, if_pos (by omega)])
      (by rw [hlink, if_neg (by omega)]; omega)
    simpa [Table.create] using this
  · intro j
    simp [Table.create, List.mem_range'_1]
  · intro j hj
    rw [List.mem_range'_1] at hj
    rw [hlink]
    split <;> simp only [Table.create] <;> omega

/-- **Taking the head** hands out an entry without a callback, registers `cb` under it, and
    keeps the list sound. -/
theorem Inv.take (hv : Inv t) (h0 : 0 ≤ t.nextFreeCe) (cb : Cb) (index' : ℤ → ℤ) :
    ∃ t' i, t.take cb index' = some (t', i) ∧ t.table i = none ∧
      t'.table = Function.update t.table i (some cb) ∧ t'.outstanding = t.outstanding + 1 ∧
      t'.size = t.size ∧ Inv t' := by
  obtain ⟨L, hL, hmem, hlinks⟩ := hv.free_list
  obtain ⟨i, L', hhead, rfl, hrest⟩ := hL.of_nonneg h0
  have hi : i < t.size ∧ (t.entries i).cb = none := (hmem i).mp List.mem_cons_self
  have hnot : i ∉ L' := (List.nodup_cons.mp hL.nodup).1
  have hli := hlinks i List.mem_cons_self
  have hsize := hv.size_le
  have hwrap : toInt32 (t.entries i).index = (t.entries i).index :=
    toInt32_of_mem (by simp only [links] at hli; omega) (by simp only [links] at hli; omega)
  have htoNat : t.nextFreeCe.toNat = i := by rw [hhead, Int.toNat_natCast]
  have htake : t.take cb index' = some (⟨t.size, Function.update t.entries i
      ⟨some cb, index' (t.entries i).index⟩, (t.entries i).index⟩, i) := by
    rw [Table.take, if_pos ⟨h0, by omega⟩, htoNat, hwrap]
  refine ⟨_, i, htake, by simp [table, hi.1, hi.2], set_table t _ _ hi.1, ?_, rfl, ?_⟩
  · have := set_outstanding t ⟨some cb, index' (t.entries i).index⟩ (t.entries i).index hi.1
    rw [inFlight_some, show inFlight (t.entries i) = 0 by simp [inFlight, hi.2]] at this
    omega
  · -- the rest of the list is threaded from the head's old link, which nothing rewrote
    refine ⟨hv.size_pow, hli.1, L', ?_, ?_, ?_⟩
    · rw [set_links]
      exact hrest.frame fun j hj => Function.update_of_ne (by rintro rfl; exact hnot hj) _ _
    · intro j
      by_cases hj : j = i
      · subst hj
        simp [hnot]
      · simp only [Function.update_of_ne hj]
        rw [← hmem j, List.mem_cons, or_iff_right hj]
    · intro j hj
      have hne : j ≠ i := by rintro rfl; exact hnot hj
      rw [set_links, Function.update_of_ne hne]
      exact hlinks j (List.mem_cons_of_mem i hj)

/-- **Releasing an entry in flight** forgets its callback and pushes it on the list. -/
theorem Inv.free (hv : Inv t) {i : ℕ} {cb : Cb} (hi : t.table i = some cb) :
    (t.free i).table = Function.update t.table i none ∧
      (t.free i).outstanding + 1 = t.outstanding ∧ Inv (t.free i) := by
  obtain ⟨L, hL, hmem, hlinks⟩ := hv.free_list
  obtain ⟨hlt, hcb⟩ := table_eq_some hi
  have hnot : i ∉ L := fun h => by simp [((hmem i).mp h).2] at hcb
  have hsize := hv.size_le
  -- the old head, now the released entry's link, is `-1` or an entry
  have hhead : t.nextFreeCe < t.size := by
    rcases lt_or_ge t.nextFreeCe 0 with hneg | h0
    · omega
    · have := (hv.head h0).1
      omega
  have hwrap : toInt32 (i : ℤ) = i := toInt32_of_mem (by omega) (by omega)
  have hfree : t.free i = ⟨t.size, Function.update t.entries i ⟨none, t.nextFreeCe⟩, i⟩ := by
    rw [Table.free, hwrap]
  rw [hfree]
  refine ⟨set_table t _ _ hlt, ?_, hv.size_pow, by show (-1 : ℤ) ≤ i; omega, i :: L, ?_, ?_, ?_⟩
  · have := set_outstanding t ⟨none, t.nextFreeCe⟩ (i : ℤ) hlt
    rw [inFlight_none, show inFlight (t.entries i) = 1 by simp [inFlight, hcb]] at this
    omega
  · rw [set_links]
    exact hL.push hnot
  · intro j
    by_cases hj : j = i
    · subst hj
      simp [hlt]
    · simp only [List.mem_cons, hj, false_or, Function.update_of_ne hj]
      exact hmem j
  · intro j hj
    rw [set_links]
    rcases List.mem_cons.mp hj with rfl | hjL
    · rw [Function.update_self]
      exact ⟨hv.head_ge, hhead⟩
    · have hne : j ≠ i := by rintro rfl; exact hnot hjL
      rw [Function.update_of_ne hne]
      exact hlinks j hjL

/-- **Growing the vector** when the list is empty and it has fewer than `2 ^ 31` entries:
    the new half becomes the list, and no callback moves. -/
theorem Inv.regrow (hv : Inv t) (hneg : t.nextFreeCe < 0) (hlt : t.size < 2 ^ 31)
    (wrap : ℤ → ℤ) (hwrap : ∀ x : ℤ, 0 ≤ x → x < 2 ^ 31 → wrap x = x) :
    ∃ t', t.regrowCentries wrap = some t' ∧ t'.table = t.table ∧
      t'.outstanding = t.outstanding ∧ 0 < t'.nextFreeCe ∧ Inv t' := by
  obtain ⟨k, hk, hs⟩ := hv.size_pow
  obtain ⟨L, hL, hmem, -⟩ := hv.free_list
  have hnil : L = [] := hL.eq_nil_iff.mpr hneg
  subst hnil
  -- a power of two below `2 ^ 31` is at most `2 ^ 30`, so the doubled size fits
  have hk30 : k ≤ 30 := by
    by_contra h
    have : 2 ^ 31 ≤ 2 ^ k := Nat.pow_le_pow_right Nat.two_pos (by omega)
    omega
  have hpos : 0 < t.size := by rw [hs]; exact Nat.two_pow_pos k
  have hdouble : 2 * t.size ≤ 2 ^ 31 := by
    rw [hs, ← Nat.pow_succ']
    exact Nat.pow_le_pow_right Nat.two_pos (by omega)
  have hused : ∀ j, j < t.size → (t.entries j).cb ≠ none := fun j hj h =>
    List.not_mem_nil ((hmem j).mpr ⟨hj, h⟩)
  have hhead : toInt32 (t.size : ℤ) = t.size := toInt32_of_mem (by omega) (by omega)
  -- the grown vector: the old entries, then the new half linked in order
  let grown : ℕ → Entry Cb := fun j => if j < t.size then t.entries j
    else ⟨none, if j + 1 < 2 * t.size then wrap (j + 1) else -1⟩
  have hgrow : t.regrowCentries wrap = some ⟨2 * t.size, grown, t.size⟩ := by
    rw [Table.regrowCentries, if_neg (by omega), hhead]
  have hlinks : ∀ j, t.size ≤ j → (grown j).index =
      if j + 1 < 2 * t.size then (j : ℤ) + 1 else -1 := by
    intro j hj
    simp only [grown, show ¬ j < t.size by omega, if_false]
    split
    · exact hwrap _ (by omega) (by omega)
    · rfl
  refine ⟨_, hgrow, ?_, ?_, by show (0 : ℤ) < t.size; omega, ?_⟩
  · funext j
    simp only [table]
    by_cases hj : j < t.size
    · simp [grown, hj, show j < 2 * t.size by omega]
    · simp [grown, hj]
  · simp only [outstanding, Nat.two_mul, Finset.sum_range_add]
    have hnew : ∀ j ∈ Finset.range t.size, inFlight (grown (t.size + j)) = 0 := by
      intro j _
      simp [grown]
    rw [Finset.sum_congr rfl hnew, Finset.sum_const_zero, Nat.add_zero]
    exact Finset.sum_congr rfl fun j hj => by simp [grown, Finset.mem_range.mp hj]
  · refine ⟨⟨k + 1, by omega, by rw [hs, Nat.pow_succ, Nat.mul_comm]⟩,
      by show (-1 : ℤ) ≤ t.size; omega,
      List.range' t.size t.size, ?_, ?_, ?_⟩
    · exact @threads_range' (fun j => (grown j).index) t.size t.size hpos
        (fun j hj hj2 => by rw [hlinks j hj, if_pos (by omega)])
        (by rw [hlinks _ (by omega), if_neg (by omega)]; omega)
    · intro j
      rw [List.mem_range'_1]
      by_cases hj : j < t.size
      · simp [grown, hj, hused j hj]
      · simp only [grown, hj, if_false, and_true]
        omega
    · intro j hj
      rw [List.mem_range'_1] at hj
      simp only [links]
      rw [hlinks j hj.1]
      split <;> omega

/-- Before taking the head: `RegrowCentries()` when the list is empty. Below `2 ^ 31` entries in
    flight the vector it leaves is sound, keeps every callback and has a free entry. -/
theorem Inv.ready (hv : Inv t) (hlt : t.outstanding < 2 ^ 31) (wrap : ℤ → ℤ)
    (hwrap : ∀ x : ℤ, 0 ≤ x → x < 2 ^ 31 → wrap x = x) :
    ∃ t', (if t.nextFreeCe < 0 then t.regrowCentries wrap else some t) = some t' ∧
      t'.table = t.table ∧ t'.outstanding = t.outstanding ∧ 0 ≤ t'.nextFreeCe ∧
      (t.nextFreeCe < 0 → 0 < t'.nextFreeCe) ∧ Inv t' := by
  by_cases hneg : t.nextFreeCe < 0
  · -- an empty list means every entry is in flight, so the vector has fewer than `2 ^ 31`
    have hsize : t.size < 2 ^ 31 := hv.outstanding_eq_size hneg ▸ hlt
    obtain ⟨t', hgrow, htable, hout, hpos, hv'⟩ := hv.regrow hneg hsize wrap hwrap
    rw [if_pos hneg]
    exact ⟨t', hgrow, htable, hout, hpos.le, fun _ => hpos, hv'⟩
  · rw [if_neg hneg]
    exact ⟨t, rfl, rfl, rfl, by omega, fun h => absurd h hneg, hv⟩

/-- **The free list**: `next_free_ce_` threads an acyclic list through
    exactly the entries without a callback. -/
def FreeChain (t : Table Cb) : Prop :=
  ∃ L, Threads t.links t.nextFreeCe L ∧ L.Nodup ∧ ∀ j, j ∈ L ↔ j < t.size ∧ (t.entries j).cb = none

theorem Inv.freeChain (hv : Inv t) : t.FreeChain := by
  obtain ⟨L, hL, hmem, -⟩ := hv.free_list
  exact ⟨L, hL, hL.nodup, hmem⟩

end Table

/-! ## `UringProactor` -/

/-- The completion entries of a `UringProactor`: `centries_`, `next_free_ce_` and
    `pending_cb_cnt_`. -/
structure Uring (Cb : Type) extends Table Cb where
  pendingCbCnt : ℕ

namespace Uring

variable {Cb : Type} {u : Uring Cb}

/-- `Init`: `centries_.resize(params.sq_entries)` with each entry linked to the next; the
    `index` field is an `int64_t`, so no link wraps. -/
def init (sqEntries : ℕ) : Uring Cb := ⟨Table.create sqEntries id, 0⟩

/-- `GetSubmitEntry(cb, payload)`: the user data of the submission. With a callback, the head
    of the free list, after `RegrowCentries()` when the list is empty, and `++pending_cb_cnt_`;
    the entry keeps its `index`, which is read again only once the entry is back on the list. -/
def getSubmitEntry (u : Uring Cb) : Option Cb → Option (Uring Cb × ℕ)
  | none => some (u, kIgnoreIndex)
  | some cb => do
    let t ← (if u.nextFreeCe < 0 then u.toTable.regrowCentries id else some u.toTable)
    let (t, i) ← t.take cb id
    some (⟨t, (u.pendingCbCnt + 1) % 2 ^ 32⟩, i + kUserDataCbIndex)

/-- `DispatchCqe(cqe)`: the callback it runs. The entry of a completion goes back to the head
    of the free list, and `--pending_cb_cnt_`, before the moved-out callback runs. -/
def dispatchCqe (u : Uring Cb) (userData : ℕ) : Option (Uring Cb × Option Cb) :=
  if kUserDataCbIndex ≤ userData then
    if userData - kUserDataCbIndex < u.size then
      match (u.entries (userData - kUserDataCbIndex)).cb with
      | some cb => some (⟨u.toTable.free (userData - kUserDataCbIndex),
          (u.pendingCbCnt + (2 ^ 32 - 1)) % 2 ^ 32⟩, some cb)
      -- calling the empty `func` throws `std::bad_function_call`
      | none => none
    -- `centries_[index]` past the end of the vector
    else none
  else some (u, none)

/-- The calls on the table. -/
inductive Op (Cb : Type) where
  | getSubmitEntry (cb : Option Cb)
  | dispatchCqe (userData : ℕ)

/-- The calls of the contract: a completion in the callbacks' range carries the user data of
    an entry in flight, and no callback is submitted while `2 ^ 31` entries are in flight. -/
def Op.allowed (u : Uring Cb) : Op Cb → Bool
  | .getSubmitEntry (some _) => decide (u.outstanding < 2 ^ 31)
  | .getSubmitEntry none => true
  | .dispatchCqe d => !decide (kUserDataCbIndex ≤ d) || (u.table (d - kUserDataCbIndex)).isSome

/-- The state a call leaves. -/
def exec (u : Uring Cb) : Op Cb → Option (Uring Cb)
  | .getSubmitEntry cb => (u.getSubmitEntry cb).map Prod.fst
  | .dispatchCqe d => (u.dispatchCqe d).map Prod.fst

/-- The runs of the contract. A callback that submits while it is dispatched is the next
    call of the run. -/
def step (u : Uring Cb) (op : Op Cb) : Option (Uring Cb) :=
  if op.allowed u then u.exec op else none

/-- The vector is sound and `pending_cb_cnt_` counts the entries in flight. -/
structure Inv (u : Uring Cb) : Prop where
  centries : u.toTable.Inv
  pending : u.pendingCbCnt = u.outstanding

/-- **A sound state of the table.** -/
structure Sound (u : Uring Cb) : Prop where
  free_chain : u.toTable.FreeChain
  submit : ∀ cb, u.outstanding < 2 ^ 31 → ∃ u' i,
    u.getSubmitEntry (some cb) = some (u', i + kUserDataCbIndex) ∧ u.table i = none ∧
      u'.table = Function.update u.table i (some cb)
  dispatch : ∀ i cb, u.table i = some cb → ∃ u',
    u.dispatchCqe (i + kUserDataCbIndex) = some (u', some cb) ∧
      u'.table = Function.update u.table i none
  pending : u.pendingCbCnt = u.outstanding

theorem Inv.of_init {k : ℕ} (hk : k ≤ 31) : Inv (init (2 ^ k) : Uring Cb) :=
  ⟨Table.Inv.of_create hk id fun _ _ _ => rfl, (Table.outstanding_create _ _).symm⟩

/-- **Submitting a callback** below `2 ^ 31` entries in flight names an entry without a
    callback and registers `cb` under it. -/
theorem Inv.getSubmitEntry (hv : Inv u) (hlt : u.outstanding < 2 ^ 31) (cb : Cb) :
    ∃ u' i, u.getSubmitEntry (some cb) = some (u', i + kUserDataCbIndex) ∧ u.table i = none ∧
      u'.table = Function.update u.table i (some cb) ∧ u'.outstanding = u.outstanding + 1 ∧
      Inv u' := by
  obtain ⟨t, hready, htable, hout, h0, -, hvt⟩ := hv.centries.ready hlt id fun _ _ _ => rfl
  obtain ⟨t', i, htake, hfree, htable', hout', -, hvt'⟩ := hvt.take h0 cb id
  refine ⟨⟨t', (u.pendingCbCnt + 1) % 2 ^ 32⟩, i, ?_, htable ▸ hfree, htable ▸ htable', ?_,
    ⟨hvt', ?_⟩⟩
  · unfold Uring.getSubmitEntry
    rw [hready]
    simp [htake]
  · show t'.outstanding = u.outstanding + 1
    omega
  · -- at most `2 ^ 31` in flight, so the `uint32_t` counter does not wrap
    show (u.pendingCbCnt + 1) % 2 ^ 32 = t'.outstanding
    rw [hv.pending]
    omega

/-- **A completion of an entry in flight** runs the callback registered for it and releases
    the entry. -/
theorem Inv.dispatchCqe (hv : Inv u) {i : ℕ} {cb : Cb} (hi : u.table i = some cb) :
    ∃ u', u.dispatchCqe (i + kUserDataCbIndex) = some (u', some cb) ∧
      u'.table = Function.update u.table i none ∧ u'.outstanding + 1 = u.outstanding ∧
      Inv u' := by
  obtain ⟨htable, hout, hvt⟩ := hv.centries.free hi
  obtain ⟨hlt, hcb⟩ := Table.table_eq_some hi
  refine ⟨⟨u.toTable.free i, (u.pendingCbCnt + (2 ^ 32 - 1)) % 2 ^ 32⟩, ?_, htable, hout,
    ⟨hvt, ?_⟩⟩
  · simp [Uring.dispatchCqe, kUserDataCbIndex, hlt, hcb]
  · show (u.pendingCbCnt + (2 ^ 32 - 1)) % 2 ^ 32 = (u.toTable.free i).outstanding
    have := Table.outstanding_le u.toTable
    have := hv.centries.size_le
    rw [hv.pending]
    omega

/-- **Every call of the contract keeps the invariant.** -/
theorem Inv.step (hv : Inv u) {op : Op Cb} {u' : Uring Cb} (h : step u op = some u') :
    Inv u' := by
  by_cases hallowed : op.allowed u = true
  · rw [Uring.step, if_pos hallowed] at h
    cases op with
    | getSubmitEntry cb =>
      cases cb with
      | none =>
        simp only [exec, Uring.getSubmitEntry, Option.map_some, Option.some.injEq] at h
        exact h ▸ hv
      | some cb =>
        have hlt : u.outstanding < 2 ^ 31 := by simpa [Op.allowed] using hallowed
        obtain ⟨u₁, i, hsub, -, -, -, hv₁⟩ := hv.getSubmitEntry hlt cb
        simp only [exec, hsub, Option.map_some, Option.some.injEq] at h
        exact h ▸ hv₁
    | dispatchCqe d =>
      by_cases hd : kUserDataCbIndex ≤ d
      · -- the contract names an entry in flight
        have hsome : (u.table (d - kUserDataCbIndex)).isSome := by
          simpa [Op.allowed, hd] using hallowed
        obtain ⟨cb, hcb⟩ := Option.isSome_iff_exists.mp hsome
        obtain ⟨u₁, hdis, -, -, hv₁⟩ := hv.dispatchCqe hcb
        rw [Nat.sub_add_cancel hd] at hdis
        simp only [exec, hdis, Option.map_some, Option.some.injEq] at h
        exact h ▸ hv₁
      · simp only [exec, Uring.dispatchCqe, if_neg hd, Option.map_some, Option.some.injEq] at h
        exact h ▸ hv
  · rw [Uring.step, if_neg hallowed] at h
    cases h

theorem Inv.sound (hv : Inv u) : Sound u where
  free_chain := hv.centries.freeChain
  submit cb hlt := by
    obtain ⟨u', i, hsub, hfree, htable, -⟩ := hv.getSubmitEntry hlt cb
    exact ⟨u', i, hsub, hfree, htable⟩
  dispatch i cb hi := by
    obtain ⟨u', hdis, htable, -⟩ := hv.dispatchCqe hi
    exact ⟨u', hdis, htable⟩
  pending := hv.pending

/-- **Every state the contract reaches is sound**, from a submission queue whose size, which the
    kernel makes a power of two, is at most `2 ^ 31`. -/
theorem uring_centries_sound {k : ℕ} (hk : k ≤ 31) {u : Uring Cb}
    (hu : Trans.Reachable step (init (2 ^ k)) u) : Sound u :=
  (Trans.Reachable.invariant Inv (fun _ _ _ hv h => hv.step h) hu (Inv.of_init hk)).sound

/-- With `2 ^ 31` entries in flight the vector has `2 ^ 31` entries, none of them free:
    `RegrowCentries()` stores `2 ^ 31` in the `int32_t` `next_free_ce_`, where it wraps to
    `-2 ^ 31`, and `centries_[next_free_ce_]` reads before the vector. -/
theorem Inv.getSubmitEntry_full (hv : Inv u) (hfull : u.outstanding = 2 ^ 31) (cb : Cb) :
    u.getSubmitEntry (some cb) = none := by
  have hsize : u.size = 2 ^ 31 := by
    have := hv.centries.size_le
    have := Table.outstanding_le u.toTable
    omega
  have hneg : u.nextFreeCe < 0 := by
    by_contra h0
    have := hv.centries.outstanding_lt (by omega)
    omega
  simp [Uring.getSubmitEntry, hneg, Table.regrowCentries, hsize, Table.take, toInt32]

/-- A run of the contract reaches every number of entries in flight up to `2 ^ 31`. -/
theorem exists_reachable_outstanding (n : ℕ) (hn : n ≤ 2 ^ 31) :
    ∃ u : Uring ℕ, Trans.Reachable step (init 1) u ∧ Inv u ∧ u.outstanding = n := by
  induction n with
  | zero => exact ⟨init 1, Trans.Reachable.refl _, Inv.of_init (k := 0) (by omega), by simp [init]⟩
  | succ n ih =>
    obtain ⟨u, hu, hv, hout⟩ := ih (by omega)
    obtain ⟨u', i, hsub, -, -, hout', hv'⟩ := hv.getSubmitEntry (by omega) 0
    have hstep : step u (.getSubmitEntry (some 0)) = some u' := by
      simp [step, Op.allowed, exec, hsub, hout]
      omega
    exact ⟨u', hu.tail hstep, hv', by omega⟩

/-! ## The callbacks by user data -/

/-- The callback registered for a user data: entry `ud - kUserDataCbIndex` from
    `kUserDataCbIndex` on. -/
def callback (u : Uring Cb) (ud : ℕ) : Option Cb :=
  if kUserDataCbIndex ≤ ud then u.table (ud - kUserDataCbIndex) else none

/-- **Submitting a callback** registers it under a user data that had none. -/
theorem Inv.callback_submit (hv : Inv u) (hlt : u.outstanding < 2 ^ 31) (c : Cb) :
    ∃ u' ud, u.getSubmitEntry (some c) = some (u', ud) ∧ u.callback ud = none ∧
      u'.callback = Function.update u.callback ud (some c) ∧
      u'.outstanding = u.outstanding + 1 ∧ u'.Inv := by
  obtain ⟨u', i, hsub, hfree, htable, hout, hv'⟩ := hv.getSubmitEntry hlt c
  refine ⟨u', i + kUserDataCbIndex, hsub, by simp [callback, hfree], ?_, hout, hv'⟩
  funext ud
  by_cases hud : ud = i + kUserDataCbIndex
  · subst hud
    simp [callback, htable]
  · rw [Function.update_of_ne hud]
    unfold callback
    split
    · rw [htable, Function.update_of_ne (by omega)]
    · rfl

/-- **A completion of a user data in flight** runs its callback and forgets it. -/
theorem Inv.callback_dispatch (hv : Inv u) {ud : ℕ} {c : Cb} (h : u.callback ud = some c) :
    ∃ u', u.dispatchCqe ud = some (u', some c) ∧
      u'.callback = Function.update u.callback ud none ∧
      u'.outstanding + 1 = u.outstanding ∧ u'.Inv := by
  have hge : kUserDataCbIndex ≤ ud := by
    by_contra hlt
    simp [callback, hlt] at h
  have hi : u.table (ud - kUserDataCbIndex) = some c := by simpa [callback, hge] using h
  obtain ⟨u', hdis, htable, hout, hv'⟩ := hv.dispatchCqe hi
  rw [Nat.sub_add_cancel hge] at hdis
  refine ⟨u', hdis, ?_, hout, hv'⟩
  funext x
  by_cases hx : x = ud
  · subst hx
    simp [callback, hge, htable]
  · rw [Function.update_of_ne hx]
    unfold callback
    split
    · rw [htable, Function.update_of_ne (by omega)]
    · rfl

end Uring

/-! ## `EpollProactor` -/

namespace Epoll

variable {Cb : Type} {t : Table Cb}

/-- `Init`: `centries_.resize(512)`, `next_free_ce_ = 0` and each entry linked to the next.
    `Init` then arms the wake-up descriptor, the first `Arm` of every run. -/
def init : Table Cb := Table.create 512 toInt32

/-- `Arm(fd, cb, event_mask)`: the index it returns. `RegrowCentries()` when the list is empty,
    then `CHECK_GT(next_free_ce_, 0)`; the taken entry's `index` becomes `-1`. The
    `epoll_ctl` is taken to succeed. -/
def arm (t : Table Cb) (cb : Cb) : Option (Table Cb × ℕ) := do
  let t ← (if t.nextFreeCe < 0 then
      (t.regrowCentries toInt32).bind fun t => if 0 < t.nextFreeCe then some t else none
    else some t)
  t.take cb fun _ => -1

/-- `Disarm(fd, arm_index)`: `CHECK_LT(arm_index, centries_.size())`, and the entry goes back
    to the head of the list. -/
def disarm (t : Table Cb) (armIndex : ℕ) : Option (Table Cb) :=
  if armIndex < t.size then some (t.free armIndex) else none

/-- `CancelPeriodicInternal(tfd, arm_id)`: the callback it runs one last time, if the entry has
    one, before it clears it and calls `Disarm`. -/
def cancelPeriodicInternal (t : Table Cb) (armId : ℕ) : Option (Table Cb × Option Cb) :=
  if armId < t.size then
    (disarm ⟨t.size, Function.update t.entries armId ⟨none, (t.entries armId).index⟩,
      t.nextFreeCe⟩ armId).map fun t' => (t', (t.entries armId).cb)
  else none

/-- One event of `DispatchCompletions`: the callback it runs, the entry's if it still has one
    (a completion may come after its `Disarm`). -/
def dispatchCompletion (t : Table Cb) (userData : ℕ) : Option (Option Cb) :=
  if kUserDataCbIndex ≤ userData then
    if userData - kUserDataCbIndex < t.size then some (t.entries (userData - kUserDataCbIndex)).cb
    -- `centries_[index]` past the end of the vector
    else none
  else some none

/-- The calls on the table. -/
inductive Op (Cb : Type) where
  | arm (cb : Cb)
  | disarm (armIndex : ℕ)
  | cancelPeriodicInternal (armId : ℕ)
  | dispatchCompletion (userData : ℕ)

/-- The calls of the contract: a `Disarm` or a cancel names an armed entry, an event in the
    callbacks' range an entry of the vector, and no `Arm` is made while `2 ^ 31` entries are
    armed. -/
def Op.allowed (t : Table Cb) : Op Cb → Bool
  | .arm _ => decide (t.outstanding < 2 ^ 31)
  | .disarm i => (t.table i).isSome
  | .cancelPeriodicInternal i => (t.table i).isSome
  | .dispatchCompletion d => !decide (kUserDataCbIndex ≤ d) || decide (d - kUserDataCbIndex < t.size)

/-- The state a call leaves. -/
def exec (t : Table Cb) : Op Cb → Option (Table Cb)
  | .arm cb => (arm t cb).map Prod.fst
  | .disarm i => disarm t i
  | .cancelPeriodicInternal i => (cancelPeriodicInternal t i).map Prod.fst
  | .dispatchCompletion d => (dispatchCompletion t d).map fun _ => t

/-- The runs of the contract. -/
def step (t : Table Cb) (op : Op Cb) : Option (Table Cb) :=
  if op.allowed t then exec t op else none

/-- **A sound state of the table.** -/
structure Sound (t : Table Cb) : Prop where
  free_chain : t.FreeChain
  arm : ∀ cb, t.outstanding < 2 ^ 31 → ∃ t' i,
    arm t cb = some (t', i) ∧ t.table i = none ∧ t'.table = Function.update t.table i (some cb)
  disarm : ∀ i cb, t.table i = some cb → ∃ t',
    disarm t i = some t' ∧ t'.table = Function.update t.table i none
  dispatch : ∀ i, i < t.size → dispatchCompletion t (i + kUserDataCbIndex) = some (t.table i)

theorem toInt32_wrap (x : ℤ) (h0 : 0 ≤ x) (hlt : x < 2 ^ 31) : toInt32 x = x :=
  toInt32_of_mem (by omega) hlt

/-- **Arming** below `2 ^ 31` armed entries hands out an entry without a callback and registers
    `cb` under it. -/
theorem arm_spec (hv : t.Inv) (hlt : t.outstanding < 2 ^ 31) (cb : Cb) :
    ∃ t' i, arm t cb = some (t', i) ∧ t.table i = none ∧
      t'.table = Function.update t.table i (some cb) ∧ t'.outstanding = t.outstanding + 1 ∧
      t'.Inv := by
  obtain ⟨t₁, hready, htable, hout, h0, hpos, hv₁⟩ := hv.ready hlt toInt32 toInt32_wrap
  -- after a regrow the head is the old size, so `CHECK_GT(next_free_ce_, 0)` holds
  have hchecked : (if t.nextFreeCe < 0 then (t.regrowCentries toInt32).bind fun t =>
      if 0 < t.nextFreeCe then some t else none else some t) = some t₁ := by
    by_cases hneg : t.nextFreeCe < 0
    · rw [if_pos hneg] at hready ⊢
      rw [hready, Option.bind_some, if_pos (hpos hneg)]
    · rw [if_neg hneg] at hready ⊢
      exact hready
  obtain ⟨t', i, htake, hfree, htable', hout', -, hv'⟩ := hv₁.take h0 cb fun _ => -1
  refine ⟨t', i, ?_, htable ▸ hfree, htable ▸ htable', by omega, hv'⟩
  unfold Epoll.arm
  rw [hchecked]
  exact htake

/-- **A `Disarm` of an armed entry** forgets its callback and releases it. -/
theorem disarm_spec (hv : t.Inv) {i : ℕ} {cb : Cb} (hi : t.table i = some cb) :
    disarm t i = some (t.free i) ∧ (t.free i).table = Function.update t.table i none ∧
      (t.free i).Inv := by
  obtain ⟨htable, -, hv'⟩ := hv.free hi
  exact ⟨if_pos (Table.table_eq_some hi).1, htable, hv'⟩

/-- The entry `CancelPeriodicInternal` clears first is the one `Disarm` writes again. -/
theorem cancelPeriodicInternal_eq {i : ℕ} (hi : i < t.size) :
    cancelPeriodicInternal t i = some (t.free i, (t.entries i).cb) := by
  simp [cancelPeriodicInternal, disarm, hi, Table.free]

theorem dispatchCompletion_eq {i : ℕ} (hi : i < t.size) :
    dispatchCompletion t (i + kUserDataCbIndex) = some (t.table i) := by
  simp [dispatchCompletion, Table.table, hi]

/-- **Every call of the contract keeps the invariant.** -/
theorem inv_step (hv : t.Inv) {op : Op Cb} {t' : Table Cb} (h : step t op = some t') :
    t'.Inv := by
  by_cases hallowed : op.allowed t = true
  · rw [step, if_pos hallowed] at h
    cases op with
    | arm cb =>
      have hlt : t.outstanding < 2 ^ 31 := by simpa [Op.allowed] using hallowed
      obtain ⟨t₁, i, harm, -, -, -, hv₁⟩ := arm_spec hv hlt cb
      simp only [exec, harm, Option.map_some, Option.some.injEq] at h
      exact h ▸ hv₁
    | disarm i =>
      obtain ⟨cb, hcb⟩ := Option.isSome_iff_exists.mp (by simpa [Op.allowed] using hallowed)
      obtain ⟨hdis, -, hv₁⟩ := disarm_spec hv hcb
      simp only [exec, hdis, Option.some.injEq] at h
      exact h ▸ hv₁
    | cancelPeriodicInternal i =>
      obtain ⟨cb, hcb⟩ := Option.isSome_iff_exists.mp (by simpa [Op.allowed] using hallowed)
      obtain ⟨-, -, hv₁⟩ := disarm_spec hv hcb
      simp only [exec, cancelPeriodicInternal_eq (Table.table_eq_some hcb).1, Option.map_some,
        Option.some.injEq] at h
      exact h ▸ hv₁
    | dispatchCompletion d =>
      -- an event changes nothing; only the callback it runs makes calls
      cases hd : dispatchCompletion t d with
      | none => simp [exec, hd] at h
      | some cb =>
        simp only [exec, hd, Option.map_some, Option.some.injEq] at h
        exact h ▸ hv
  · rw [step, if_neg hallowed] at h
    cases h

theorem sound_of_inv (hv : t.Inv) : Sound t where
  free_chain := hv.freeChain
  arm cb hlt := by
    obtain ⟨t', i, harm, hfree, htable, -⟩ := arm_spec hv hlt cb
    exact ⟨t', i, harm, hfree, htable⟩
  disarm i cb hi := by
    obtain ⟨hdis, htable, -⟩ := disarm_spec hv hi
    exact ⟨_, hdis, htable⟩
  dispatch _ hi := dispatchCompletion_eq hi

/-- **Every state the contract reaches is sound.** -/
theorem epoll_centries_sound {t : Table Cb} (ht : Trans.Reachable step init t) : Sound t :=
  sound_of_inv (Trans.Reachable.invariant Table.Inv (fun _ _ _ hv h => inv_step hv h) ht
    (Table.Inv.of_create (k := 9) (by omega) toInt32 toInt32_wrap))

end Epoll

/-! ## Both proactors -/

/-- **The completion-entry tables are sound allocators**: those of a `UringProactor` whose
    submission queue has `2 ^ k` entries and of an `EpollProactor`, in every state their calls
    reach under the contract. -/
theorem completion_entries_sound {Cb : Type} {k : ℕ} (hk : k ≤ 31) {u : Uring Cb}
    (hu : Trans.Reachable Uring.step (Uring.init (2 ^ k)) u) {t : Table Cb}
    (ht : Trans.Reachable Epoll.step Epoll.init t) : u.Sound ∧ Epoll.Sound t :=
  ⟨Uring.uring_centries_sound hk hu, Epoll.epoll_centries_sound ht⟩

/-- A `UringProactor` with two entries submits three callbacks, the third after
    `RegrowCentries`, and the first completes; an `EpollProactor` arms two entries, disarms
    the first and arms a third, which reuses it. `completion_entries_sound` holds of both
    states reached. -/
theorem completion_entries_sound_run :
    1 ≤ 31 ∧ ∃ (u : Uring ℕ) (t : Table ℕ),
      Trans.Reachable Uring.step (Uring.init (2 ^ 1)) u ∧ Trans.Reachable Epoll.step Epoll.init t ∧
      u.size = 4 ∧ u.table 0 = none ∧ u.table 1 = some 8 ∧ u.table 2 = some 9 ∧
      t.table 0 = some 9 ∧ t.table 1 = some 8 ∧ u.Sound ∧ Epoll.Sound t := by
  obtain ⟨u, hu, hend⟩ := @Trans.exists_reachable_of_run _ _ Uring.step (Uring.init (2 ^ 1))
    [.getSubmitEntry (some 7), .getSubmitEntry (some 8), .getSubmitEntry (some 9),
      .dispatchCqe kUserDataCbIndex]
    (fun u => u.size == 4 && u.table 0 == none && u.table 1 == some 8 && u.table 2 == some 9)
    (by decide +kernel)
  obtain ⟨t, ht, hend'⟩ := @Trans.exists_reachable_of_run _ _ Epoll.step Epoll.init
    [.arm 7, .arm 8, .disarm 0, .arm 9]
    (fun t => t.table 0 == some 9 && t.table 1 == some 8) (by decide +kernel)
  simp only [Bool.and_eq_true, beq_iff_eq] at hend hend'
  exact ⟨by omega, u, t, hu, ht, hend.1.1.1, hend.1.1.2, hend.1.2, hend.2, hend'.1, hend'.2,
    completion_entries_sound (by omega) hu ht⟩

/-- **Without the contract both tables fail.** A second `Disarm` of entry `0` links it to
    itself, so that no walk from `next_free_ce_` ends, and the next two `Arm`s both return `0`,
    the second while the entry holds the first one's callback. And a run of the contract
    reaches `2 ^ 31` entries in flight, where `GetSubmitEntry` of one more callback reads
    `centries_[-2 ^ 31]`. -/
theorem centries_limits :
    (∃ t₃ : Table ℕ, Trans.run Epoll.exec Epoll.init [.arm 7, .disarm 0, .disarm 0] = some t₃ ∧
      (∀ L, ¬ Threads t₃.links t₃.nextFreeCe L) ∧
      ∃ t₄, Epoll.arm t₃ 8 = some (t₄, 0) ∧ t₄.table 0 = some 8 ∧
        (Epoll.arm t₄ 9).map Prod.snd = some 0) ∧
    ∃ u : Uring ℕ, Trans.Reachable Uring.step (Uring.init 1) u ∧ u.outstanding = 2 ^ 31 ∧
      u.getSubmitEntry (some 0) = none := by
  refine ⟨?_, ?_⟩
  · have hrun : (Trans.run Epoll.exec Epoll.init [.arm 7, .disarm 0, .disarm 0]).map
        (fun t₃ : Table ℕ => decide (t₃.links 0 = 0) && decide (t₃.nextFreeCe = 0) &&
          (Epoll.arm t₃ 8).map (fun r => decide (r.2 = 0) && decide (r.1.table 0 = some 8) &&
            decide ((Epoll.arm r.1 9).map Prod.snd = some 0)) == some true) = some true := by
      decide +kernel
    obtain ⟨t₃, hrun₃, hcheck⟩ := Option.map_eq_some_iff.mp hrun
    simp only [Bool.and_eq_true, decide_eq_true_eq, beq_iff_eq] at hcheck
    obtain ⟨⟨hself, hhead⟩, harm⟩ := hcheck
    obtain ⟨⟨t₄, i⟩, harm₄, hr⟩ := Option.map_eq_some_iff.mp harm
    simp only [Bool.and_eq_true, decide_eq_true_eq] at hr
    obtain ⟨⟨rfl, htable⟩, harm₉⟩ := hr
    refine ⟨t₃, hrun₃, fun L => ?_, t₄, harm₄, htable, harm₉⟩
    rw [hhead]
    exact Threads.not_of_self (i := 0) hself
  · obtain ⟨u, hu, hv, hout⟩ := Uring.exists_reachable_outstanding (2 ^ 31) le_rfl
    exact ⟨u, hu, hout, hv.getSubmitEntry_full hout 0⟩

end Completion

end Helio
