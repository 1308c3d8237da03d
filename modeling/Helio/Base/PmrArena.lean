import Helio.Base.PodArray.Model
import Helio.Lib.Ranges

/-!
# `PmrArena`: bump allocation in blocks of a memory resource

`PmrArena` (`base/pmr/arena.{h,cc}`) hands out pieces of blocks it takes from its memory
resource `mr_` and never gives back before its destructor. `Allocate(n)` takes the next `n`
bytes of the current block while they last. Otherwise `AllocateFallback(n)` gives a request of
more than `kBlockSize / 4 = 2048` bytes a block of its own and leaves the current block as it
is, and for a smaller one abandons the rest of the current block for a new block of
`kBlockSize = 8192` bytes. `AllocateAligned(n)` first skips the slop up to the next multiple of
`sizeof(void*) = 8`. `AllocateNewBlock` takes its size as a `uint32_t`, records every block in
`blocks_` with that size, and adds it up in the `size_t` `blocks_memory_`.

The model keeps the addresses as numbers (`0` for `nullptr`) on a 64-bit target. As with
`PODArray`, the resource is an oracle: each call carries the address `mr_->allocate` answers if
the call asks for a block, and every call on the resource is an `Event`. The `assert`s are
compiled out; that those of `AllocateAligned` hold is proved below. The storage of `blocks_`,
which is also taken from `mr_`, is not modelled.

Under the contract that `mr_` answers every request with a block apart from the blocks the
arena holds, the ranges a run hands out are pairwise apart, each within one recorded block,
`AllocateAligned`'s aligned, and `blocks_memory_` is the sum of the block sizes, which the
packing bound keeps below `2 ^ 64`.
-/

set_option autoImplicit false

namespace Helio

namespace Pmr

/-- `kBlockSize`. -/
def kBlockSize : ℕ := 8192

/-- `alignof(std::max_align_t)`, the alignment of `memory_resource::allocate(bytes)` on
    x86-64. -/
def maxAlign : ℕ := 16

/-- `PmrArena::Block`: a block of `mr_` and its `uint32_t` size. -/
structure PmrArena.Block where
  ptr : ℕ
  sz : ℕ
  deriving DecidableEq, Repr

/-- `PmrArena`: `mr_`, `alloc_ptr_`, `alloc_bytes_remaining_`, `blocks_memory_` and
    `blocks_`. -/
structure PmrArena where
  mr : ℕ
  allocPtr : ℕ
  allocBytesRemaining : ℕ
  blocksMemory : ℕ
  blocks : List PmrArena.Block

namespace PmrArena

/-- The addresses of a block. -/
def Block.range (b : Block) : ℕ × ℕ := (b.ptr, b.sz)

/-- What is left of the current block: `[alloc_ptr_, alloc_ptr_ + alloc_bytes_remaining_)`. -/
def free (a : PmrArena) : ℕ × ℕ := (a.allocPtr, a.allocBytesRemaining)

/-- `PmrArena(mr = std::pmr::get_default_resource())`. -/
def create (mr : Option ℕ) : PmrArena := ⟨mr.getD defaultResource, 0, 0, 0, []⟩

/-- `alloc_ptr_ += n; alloc_bytes_remaining_ -= n`. -/
def advance (a : PmrArena) (n : ℕ) : PmrArena :=
  { a with allocPtr := a.allocPtr + n, allocBytesRemaining := a.allocBytesRemaining - n }

/-- `AllocateNewBlock(block_bytes)`, `addr` being what `mr_->allocate(block_bytes)` returns:
    the arena after it, the block, and the call on `mr_`. -/
def allocateNewBlock (a : PmrArena) (blockBytes addr : ℕ) : PmrArena × ℕ × List Event :=
  ({ a with blocksMemory := (a.blocksMemory + blockBytes) % 2 ^ 64,
            blocks := a.blocks ++ [⟨addr, blockBytes⟩] },
    addr, [.allocate a.mr blockBytes maxAlign addr])

/-- `AllocateFallback(bytes)`. -/
def allocateFallback (a : PmrArena) (bytes addr : ℕ) : PmrArena × ℕ × List Event :=
  if bytes > kBlockSize / 4 then
    -- a block of its own, its `size_t` size passed as a `uint32_t`
    a.allocateNewBlock (bytes % 2 ^ 32) addr
  else
    -- the rest of the current block is wasted
    let (a, p, ev) := a.allocateNewBlock kBlockSize addr
    ({ a with allocPtr := p, allocBytesRemaining := kBlockSize }.advance bytes, p, ev)

/-- `Allocate(bytes)`. -/
def allocate (a : PmrArena) (bytes addr : ℕ) : PmrArena × ℕ × List Event :=
  if bytes ≤ a.allocBytesRemaining then (a.advance bytes, a.allocPtr, [])
  else a.allocateFallback bytes addr

/-- The `slop` of `AllocateAligned` at `alloc_ptr_`: the bytes up to the next multiple of
    `align = sizeof(void*)`. -/
def slop (allocPtr : ℕ) : ℕ :=
  let currentMod := allocPtr % 2 ^ 64 &&& (8 - 1)
  if currentMod = 0 then 0 else 8 - currentMod

/-- `AllocateAligned(bytes)`. -/
def allocateAligned (a : PmrArena) (bytes addr : ℕ) : PmrArena × ℕ × List Event :=
  let needed := (bytes + slop a.allocPtr) % 2 ^ 64
  if needed ≤ a.allocBytesRemaining then (a.advance needed, a.allocPtr + slop a.allocPtr, [])
  else a.allocateFallback bytes addr

/-- `~PmrArena()`: every block back to `mr_`, with the size it was taken with. -/
def destroy (a : PmrArena) : List Event :=
  a.blocks.map fun b => .deallocate a.mr b.ptr b.sz maxAlign

/-- A call on the arena. -/
inductive Call where
  | allocate (bytes : ℕ)
  | allocateAligned (bytes : ℕ)
  deriving DecidableEq, Repr

/-- The bytes a call asks for. -/
def Call.bytes : Call → ℕ
  | .allocate n => n
  | .allocateAligned n => n

/-- One call, `addr` being what `mr_` answers if the call asks it for a block. -/
def exec (a : PmrArena) : Call → ℕ → PmrArena × ℕ × List Event
  | .allocate n, addr => a.allocate n addr
  | .allocateAligned n, addr => a.allocateAligned n addr

/-- Calls one after another: the arena after them, what they return, and the calls on
    `mr_`. -/
def run (a : PmrArena) : List (Call × ℕ) → PmrArena × List ℕ × List Event
  | [] => (a, [], [])
  | (c, addr) :: cs =>
    let (a, p, ev) := a.exec c addr
    let (a, ps, evs) := a.run cs
    (a, p :: ps, ev ++ evs)

/-! ## The contract -/

/-- What `mr_` guarantees of a block it hands out while the arena holds `blocks`: not
    `nullptr`, aligned to `sizeof(void*)`, inside the address space, and apart from every block
    the arena holds, as those are still allocated. -/
def Fresh (blocks : List Block) : Event → Prop
  | .allocate _ bytes _ addr =>
    addr ≠ 0 ∧ addr % 8 = 0 ∧ addr + bytes ≤ 2 ^ 64 ∧
      ∀ b ∈ blocks, Ranges.Apart (addr, bytes) b.range
  | .deallocate .. => True

instance (blocks : List Block) : ∀ e, Decidable (Fresh blocks e)
  | .allocate _ _ _ _ => inferInstanceAs (Decidable (_ ∧ _ ∧ _ ∧ ∀ b ∈ blocks, _))
  | .deallocate .. => isTrue trivial

/-- The contract of a run: every call asks for `0 < n < 2 ^ 32` bytes, and `mr_` answers each
    request with a fresh block. -/
def Allowed : PmrArena → List (Call × ℕ) → Prop
  | _, [] => True
  | a, (c, addr) :: cs =>
    0 < c.bytes ∧ c.bytes < 2 ^ 32 ∧ (∀ e ∈ (a.exec c addr).2.2, Fresh a.blocks e) ∧
      Allowed (a.exec c addr).1 cs

instance decAllowed : ∀ a calls, Decidable (Allowed a calls)
  | _, [] => isTrue trivial
  | a, (c, addr) :: cs =>
    have := decAllowed (a.exec c addr).1 cs
    inferInstanceAs (Decidable (_ ∧ _ ∧ _ ∧ _))

/-- The call on `mr_` that took block `b`. -/
def allocEvent (mr : ℕ) (b : Block) : Event := .allocate mr b.sz maxAlign b.ptr

/-- The ranges a run handed out: each result with the bytes its call asked for. -/
def handedOut (calls : List (Call × ℕ)) (ps : List ℕ) : List (ℕ × ℕ) :=
  (calls.zip ps).map fun x => (x.2, x.1.1.bytes)

/-! ## What the calls do -/

variable {a : PmrArena} {handed : List (ℕ × ℕ)}

@[simp] theorem free_advance (a : PmrArena) (n : ℕ) :
    (a.advance n).free = (a.allocPtr + n, a.allocBytesRemaining - n) := rfl

section NewBlock

variable (a : PmrArena) (sz addr : ℕ)

@[simp] theorem allocateNewBlock_blocks :
    (a.allocateNewBlock sz addr).1.blocks = a.blocks ++ [⟨addr, sz⟩] := rfl

@[simp] theorem allocateNewBlock_blocksMemory :
    (a.allocateNewBlock sz addr).1.blocksMemory = (a.blocksMemory + sz) % 2 ^ 64 := rfl

@[simp] theorem allocateNewBlock_allocBytesRemaining :
    (a.allocateNewBlock sz addr).1.allocBytesRemaining = a.allocBytesRemaining := rfl

@[simp] theorem allocateNewBlock_free : (a.allocateNewBlock sz addr).1.free = a.free := rfl

end NewBlock

theorem allocateFallback_of_gt {bytes addr : ℕ} (h : kBlockSize / 4 < bytes) :
    a.allocateFallback bytes addr = a.allocateNewBlock (bytes % 2 ^ 32) addr :=
  if_pos h

theorem allocateFallback_of_le {bytes addr : ℕ} (h : bytes ≤ kBlockSize / 4) :
    a.allocateFallback bytes addr =
      ({ (a.allocateNewBlock kBlockSize addr).1 with
          allocPtr := addr, allocBytesRemaining := kBlockSize }.advance bytes,
        addr, [.allocate a.mr kBlockSize maxAlign addr]) := by
  rw [allocateFallback, if_neg (by omega)]
  rfl

theorem mask_eq_mod (p : ℕ) : p % 2 ^ 64 &&& (8 - 1) = p % 8 := by
  rw [show (8 - 1 : ℕ) = 2 ^ 3 - 1 from rfl, Nat.and_two_pow_sub_one_eq_mod,
    Nat.mod_mod_of_dvd _ (by decide : 2 ^ 3 ∣ 2 ^ 64)]
  rfl

theorem slop_lt (p : ℕ) : slop p < 8 := by
  unfold slop
  rw [mask_eq_mod]
  dsimp only
  split_ifs <;> omega

/-- The slop brings `alloc_ptr_` to a multiple of `sizeof(void*)`. -/
theorem add_slop_mod (p : ℕ) : (p + slop p) % 8 = 0 := by
  unfold slop
  rw [mask_eq_mod]
  dsimp only
  split_ifs <;> omega

theorem run_cons (a : PmrArena) (c : Call) (addr : ℕ) (cs : List (Call × ℕ)) :
    a.run ((c, addr) :: cs) =
      (((a.exec c addr).1.run cs).1, (a.exec c addr).2.1 :: ((a.exec c addr).1.run cs).2.1,
        (a.exec c addr).2.2 ++ ((a.exec c addr).1.run cs).2.2) :=
  rfl

/-! ## The invariant -/

/-- The blocks are apart and inside the address space, `blocks_memory_` is their sum, the
    ranges handed out and what is left of the current block lie within blocks and are apart,
    and what was handed out and is left fits in `blocks_memory_`. -/
structure Inv (a : PmrArena) (handed : List (ℕ × ℕ)) : Prop where
  blocks_apart : (a.blocks.map Block.range).Pairwise Ranges.Apart
  blocks_within : ∀ b ∈ a.blocks, Ranges.Within b.range (1, 2 ^ 64 - 1)
  memory_eq : a.blocksMemory = (a.blocks.map Block.sz).sum
  handed_within : ∀ r ∈ handed, ∃ b ∈ a.blocks, Ranges.Within r b.range
  handed_apart : handed.Pairwise Ranges.Apart
  free_within : 0 < a.allocBytesRemaining → ∃ b ∈ a.blocks, Ranges.Within a.free b.range
  free_apart : ∀ r ∈ handed, Ranges.Apart r a.free
  sum_le : (handed.map Prod.snd).sum + a.allocBytesRemaining ≤ a.blocksMemory

/-- The arena took the blocks `blk` from `mr_`, and `ev` are the calls that took them. -/
def Taken (a a' : PmrArena) (ev : List Event) : Prop :=
  a'.mr = a.mr ∧ ∃ blk, a'.blocks = a.blocks ++ blk ∧ ev = blk.map (allocEvent a.mr)

theorem Taken.trans {a₁ a₂ : PmrArena} {ev₁ ev₂ : List Event} (h₁ : Taken a a₁ ev₁)
    (h₂ : Taken a₁ a₂ ev₂) : Taken a a₂ (ev₁ ++ ev₂) := by
  obtain ⟨hmr₁, blk₁, hb₁, he₁⟩ := h₁
  obtain ⟨hmr₂, blk₂, hb₂, he₂⟩ := h₂
  refine ⟨hmr₂.trans hmr₁, blk₁ ++ blk₂, by rw [hb₂, hb₁, List.append_assoc], ?_⟩
  rw [he₁, he₂, hmr₁, List.map_append]

theorem inv_create (mr : Option ℕ) : Inv (create mr) [] where
  blocks_apart := List.Pairwise.nil
  blocks_within _ h := by cases h
  memory_eq := rfl
  handed_within _ h := by cases h
  handed_apart := List.Pairwise.nil
  free_within h := absurd h (lt_irrefl 0)
  free_apart _ h := by cases h
  sum_le := le_refl 0

/-- Handing out `[p, p + n)` from the first `m` bytes left of the current block. -/
theorem Inv.advance (h : Inv a handed) {p n m : ℕ} (hn : 0 < n) (hp : a.allocPtr ≤ p)
    (hpn : p + n ≤ a.allocPtr + m) (hm : m ≤ a.allocBytesRemaining) :
    Inv (a.advance m) (handed ++ [(p, n)]) := by
  obtain ⟨b, hb, hfree⟩ := h.free_within (by omega)
  have hnew : Ranges.Within (p, n) a.free := Or.inr ⟨hp, by simp only [free]; omega⟩
  have hrest : Ranges.Within (a.advance m).free a.free := by
    right
    show a.allocPtr ≤ a.allocPtr + m ∧
      a.allocPtr + m + (a.allocBytesRemaining - m) ≤ a.allocPtr + a.allocBytesRemaining
    omega
  refine ⟨h.blocks_apart, h.blocks_within, h.memory_eq, ?_, ?_, ?_, ?_, ?_⟩
  · intro r hr
    rcases List.mem_append.mp hr with hr | hr
    · exact h.handed_within r hr
    · rw [List.mem_singleton.mp hr]
      exact ⟨b, hb, hnew.trans hfree⟩
  · refine List.pairwise_append.mpr ⟨h.handed_apart, List.pairwise_singleton _ _, ?_⟩
    intro r hr s hs
    rw [List.mem_singleton.mp hs]
    exact ((h.free_apart r hr).symm.of_within hnew).symm
  · intro _
    exact ⟨b, hb, hrest.trans hfree⟩
  · intro r hr
    rcases List.mem_append.mp hr with hr | hr
    · exact ((h.free_apart r hr).symm.of_within hrest).symm
    · -- the new range ends where what is left begins
      rw [List.mem_singleton.mp hr, free_advance]
      right; right; left
      omega
  · have := h.sum_le
    simp only [List.map_append, List.sum_append, List.map_singleton, List.sum_singleton]
    show _ + n + (a.allocBytesRemaining - m) ≤ a.blocksMemory
    omega

section Fresh

variable {sz addr : ℕ} (hf : Fresh a.blocks (.allocate a.mr sz maxAlign addr))
include hf

/-- A fresh block is apart from every range handed out and from what is left. -/
theorem Inv.apart_fresh (h : Inv a handed) :
    (∀ r ∈ handed, Ranges.Apart r (addr, sz)) ∧ Ranges.Apart a.free (addr, sz) := by
  obtain ⟨-, -, -, hapart⟩ : addr ≠ 0 ∧ addr % 8 = 0 ∧ addr + sz ≤ 2 ^ 64 ∧
      ∀ b ∈ a.blocks, Ranges.Apart (addr, sz) b.range := hf
  refine ⟨fun r hr => ?_, ?_⟩
  · obtain ⟨b, hb, hw⟩ := h.handed_within r hr
    exact (hapart b hb).symm.of_within hw
  · by_cases h0 : a.allocBytesRemaining = 0
    · exact Or.inl h0
    · obtain ⟨b, hb, hw⟩ := h.free_within (by omega)
      exact (hapart b hb).symm.of_within hw

/-- `AllocateNewBlock` with a fresh block keeps the invariant: the packing bound keeps
    `blocks_memory_` from wrapping. -/
theorem Inv.allocateNewBlock (h : Inv a handed) : Inv (a.allocateNewBlock sz addr).1 handed := by
  obtain ⟨hne, -, hend, hapart⟩ : addr ≠ 0 ∧ addr % 8 = 0 ∧ addr + sz ≤ 2 ^ 64 ∧
      ∀ b ∈ a.blocks, Ranges.Apart (addr, sz) b.range := hf
  have hblocks : ((a.blocks ++ [(⟨addr, sz⟩ : Block)]).map Block.range).Pairwise Ranges.Apart := by
    rw [List.map_append]
    refine List.pairwise_append.mpr ⟨h.blocks_apart, List.pairwise_singleton _ _, ?_⟩
    intro r hr s hs
    obtain ⟨b, hb, rfl⟩ := List.mem_map.mp hr
    rw [List.mem_singleton.mp hs]
    exact (hapart b hb).symm
  have hwithin :
      ∀ b ∈ a.blocks ++ [(⟨addr, sz⟩ : Block)], Ranges.Within b.range (1, 2 ^ 64 - 1) := by
    intro b hb
    rcases List.mem_append.mp hb with hb | hb
    · exact h.blocks_within b hb
    · rw [List.mem_singleton.mp hb]
      right
      simp only [Block.range]
      omega
  have hsum := Ranges.sum_le_of_pairwise_apart hblocks fun r hr => by
    obtain ⟨b, hb, rfl⟩ := List.mem_map.mp hr
    exact hwithin b hb
  rw [List.map_map] at hsum
  have hsum' : (a.blocks.map Block.sz).sum + sz ≤ 2 ^ 64 - 1 := by
    simpa [Block.range, Function.comp_def] using hsum
  have hmem : (a.blocksMemory + sz) % 2 ^ 64 = a.blocksMemory + sz := by
    rw [Nat.mod_eq_of_lt (by rw [h.memory_eq]; omega)]
  have hold : ∀ b ∈ a.blocks, b ∈ a.blocks ++ [(⟨addr, sz⟩ : Block)] :=
    fun b hb => List.mem_append_left _ hb
  refine ⟨hblocks, hwithin, ?_, ?_, h.handed_apart, ?_, h.free_apart, ?_⟩
  · show (a.blocksMemory + sz) % 2 ^ 64 = ((a.blocks ++ [(⟨addr, sz⟩ : Block)]).map Block.sz).sum
    rw [hmem, h.memory_eq, List.map_append, List.sum_append, List.map_singleton,
      List.sum_singleton]
  · intro r hr
    obtain ⟨b, hb, hw⟩ := h.handed_within r hr
    exact ⟨b, hold b hb, hw⟩
  · intro hpos
    obtain ⟨b, hb, hw⟩ := h.free_within hpos
    exact ⟨b, hold b hb, hw⟩
  · show _ ≤ (a.blocksMemory + sz) % 2 ^ 64
    rw [hmem]
    exact h.sum_le.trans (Nat.le_add_right _ _)

/-- A block of its own for a request: the block is the range handed out. -/
theorem Inv.dedicated (h : Inv a handed) :
    Inv (a.allocateNewBlock sz addr).1 (handed ++ [(addr, sz)]) := by
  have h' := h.allocateNewBlock hf
  obtain ⟨hhanded, hfree⟩ := h.apart_fresh hf
  refine ⟨h'.blocks_apart, h'.blocks_within, h'.memory_eq, ?_, ?_, h'.free_within, ?_, ?_⟩
  · intro r hr
    rcases List.mem_append.mp hr with hr | hr
    · exact h'.handed_within r hr
    · rw [List.mem_singleton.mp hr]
      exact ⟨⟨addr, sz⟩, List.mem_append_right _ (List.mem_singleton_self _), Ranges.Within.refl _⟩
  · refine List.pairwise_append.mpr ⟨h.handed_apart, List.pairwise_singleton _ _, ?_⟩
    intro r hr s hs
    rw [List.mem_singleton.mp hs]
    exact hhanded r hr
  · intro r hr
    rcases List.mem_append.mp hr with hr | hr
    · exact h.free_apart r hr
    · rw [List.mem_singleton.mp hr]
      exact hfree.symm
  · have h₁ := h.sum_le
    rw [h.memory_eq] at h₁
    rw [h'.memory_eq]
    simp only [allocateNewBlock_blocks, allocateNewBlock_allocBytesRemaining, List.map_append,
      List.sum_append, List.map_singleton, List.sum_singleton]
    omega

/-- A new current block: what is left is the whole block. -/
theorem Inv.newCurrent (h : Inv a handed) :
    Inv { (a.allocateNewBlock sz addr).1 with allocPtr := addr, allocBytesRemaining := sz }
      handed := by
  have h' := h.allocateNewBlock hf
  obtain ⟨hhanded, -⟩ := h.apart_fresh hf
  refine ⟨h'.blocks_apart, h'.blocks_within, h'.memory_eq, h'.handed_within, h.handed_apart,
    fun _ =>
      ⟨⟨addr, sz⟩, List.mem_append_right _ (List.mem_singleton_self _), Ranges.Within.refl _⟩,
    hhanded, ?_⟩
  have h₁ := h.sum_le
  rw [h.memory_eq] at h₁
  show _ + sz ≤ (a.allocateNewBlock sz addr).1.blocksMemory
  rw [h'.memory_eq]
  simp only [allocateNewBlock_blocks, List.map_append, List.sum_append, List.map_singleton,
    List.sum_singleton]
  omega

end Fresh

theorem taken_allocateNewBlock (a : PmrArena) (sz addr : ℕ) :
    Taken a (a.allocateNewBlock sz addr).1 (a.allocateNewBlock sz addr).2.2 :=
  ⟨rfl, [⟨addr, sz⟩], rfl, rfl⟩

theorem taken_advance (a : PmrArena) (n : ℕ) : Taken a (a.advance n) [] :=
  ⟨rfl, [], (List.append_nil _).symm, rfl⟩

theorem taken_newCurrent (a : PmrArena) (sz addr n : ℕ) :
    Taken a ({ (a.allocateNewBlock sz addr).1 with
        allocPtr := addr, allocBytesRemaining := sz }.advance n)
      (a.allocateNewBlock sz addr).2.2 :=
  ⟨rfl, [⟨addr, sz⟩], rfl, rfl⟩

/-- `AllocateFallback(n)` with a fresh block hands out `[addr, addr + n)`, whichever block it
    takes. -/
theorem Inv.allocateFallback (h : Inv a handed) {n addr : ℕ} (hn : 0 < n) (hn' : n < 2 ^ 32)
    (hf : ∀ e ∈ (a.allocateFallback n addr).2.2, Fresh a.blocks e) :
    Inv (a.allocateFallback n addr).1 (handed ++ [((a.allocateFallback n addr).2.1, n)]) ∧
      (a.allocateFallback n addr).2.1 % 8 = 0 ∧
      Taken a (a.allocateFallback n addr).1 (a.allocateFallback n addr).2.2 := by
  by_cases hbig : kBlockSize / 4 < n
  · rw [allocateFallback_of_gt hbig, Nat.mod_eq_of_lt hn'] at hf ⊢
    have hf' := hf _ (List.mem_singleton_self _)
    exact ⟨h.dedicated hf', hf'.2.1, taken_allocateNewBlock a n addr⟩
  · rw [allocateFallback_of_le (by omega)] at hf ⊢
    have hf' := hf _ (List.mem_singleton_self _)
    -- the new block is the current one, and `n` bytes of it are handed out
    have hle : n ≤ kBlockSize := by
      unfold kBlockSize at hbig ⊢
      omega
    exact ⟨(h.newCurrent hf').advance hn (le_refl addr) (le_refl _) hle, hf'.2.1,
      taken_newCurrent a kBlockSize addr n⟩

/-- One call within the contract hands out `[p, p + n)` for its `n` bytes, aligned for
    `AllocateAligned`. -/
theorem Inv.exec (h : Inv a handed) {c : Call} {addr : ℕ} (hn : 0 < c.bytes)
    (hn' : c.bytes < 2 ^ 32) (hf : ∀ e ∈ (a.exec c addr).2.2, Fresh a.blocks e) :
    Inv (a.exec c addr).1 (handed ++ [((a.exec c addr).2.1, c.bytes)]) ∧
      (∀ n, c = .allocateAligned n → (a.exec c addr).2.1 % 8 = 0) ∧
      Taken a (a.exec c addr).1 (a.exec c addr).2.2 := by
  cases c with
  | allocate n =>
    simp only [PmrArena.exec, PmrArena.allocate, Call.bytes] at hn hn' hf ⊢
    split_ifs with hle
    · exact ⟨h.advance hn (le_refl _) (le_refl _) hle, fun _ hc => hc.elim, taken_advance a n⟩
    · rw [if_neg hle] at hf
      obtain ⟨hinv, -, htaken⟩ := h.allocateFallback hn hn' hf
      exact ⟨hinv, fun _ hc => hc.elim, htaken⟩
  | allocateAligned n =>
    simp only [PmrArena.exec, PmrArena.allocateAligned, Call.bytes] at hn hn' hf ⊢
    -- `needed` does not wrap
    have hslop := slop_lt a.allocPtr
    rw [Nat.mod_eq_of_lt (by omega : n + slop a.allocPtr < 2 ^ 64)] at hf ⊢
    split_ifs with hle
    · exact ⟨h.advance (p := a.allocPtr + slop a.allocPtr) hn (Nat.le_add_right _ _) (by omega) hle,
        fun _ _ => add_slop_mod _, taken_advance a _⟩
    · rw [if_neg hle] at hf
      obtain ⟨hinv, halign, htaken⟩ := h.allocateFallback hn hn' hf
      exact ⟨hinv, fun _ _ => halign, htaken⟩

/-- A run within the contract, by induction on the calls. -/
theorem Inv.run (h : Inv a handed) {calls : List (Call × ℕ)} (hok : Allowed a calls) :
    (a.run calls).2.1.length = calls.length ∧
      Inv (a.run calls).1 (handed ++ handedOut calls (a.run calls).2.1) ∧
      (∀ n addr p, ((Call.allocateAligned n, addr), p) ∈ calls.zip (a.run calls).2.1 →
        p % 8 = 0) ∧
      Taken a (a.run calls).1 (a.run calls).2.2 := by
  induction calls generalizing a handed with
  | nil =>
    refine ⟨rfl, ?_, fun _ _ _ hp => (List.not_mem_nil hp).elim,
      ⟨rfl, [], (List.append_nil _).symm, rfl⟩⟩
    rw [handedOut, List.zip_nil_left, List.map_nil, List.append_nil]
    exact h
  | cons ca cs ih =>
    obtain ⟨c, addr⟩ := ca
    obtain ⟨hn, hn', hf, hcs⟩ := hok
    obtain ⟨h₁, halign₁, htaken₁⟩ := h.exec hn hn' hf
    obtain ⟨hlen, h₂, halign₂, htaken₂⟩ := ih h₁ hcs
    rw [run_cons]
    refine ⟨by rw [List.length_cons, List.length_cons, hlen], ?_, ?_, htaken₁.trans htaken₂⟩
    · simpa [handedOut] using h₂
    · intro n addr' p hp
      rcases List.mem_cons.mp hp with hp | hp
      · simp only [Prod.mk.injEq] at hp
        obtain ⟨⟨rfl, -⟩, rfl⟩ := hp
        exact halign₁ n rfl
      · exact halign₂ n addr' p hp

/-- **Disjoint blocks.** Within the contract, the ranges a run of a new arena hands out are
    pairwise apart and each within one of the blocks it took from `mr_`, `AllocateAligned`'s are
    aligned to `sizeof(void*)`, and `blocks_memory_` is the sum of the block sizes, at least the
    bytes asked for. -/
theorem run_hands_out_apart_ranges (mr : Option ℕ) (calls : List (Call × ℕ))
    (hok : Allowed (create mr) calls) {a : PmrArena} {ps : List ℕ} {evs : List Event}
    (hrun : (create mr).run calls = (a, ps, evs)) :
    ps.length = calls.length ∧
      (handedOut calls ps).Pairwise Ranges.Apart ∧
      (∀ r ∈ handedOut calls ps, ∃ b ∈ a.blocks, Ranges.Within r b.range) ∧
      (∀ n addr p, ((Call.allocateAligned n, addr), p) ∈ calls.zip ps → p % 8 = 0) ∧
      evs = a.blocks.map (allocEvent a.mr) ∧
      a.blocksMemory = (a.blocks.map Block.sz).sum ∧
      (calls.map fun c => c.1.bytes).sum ≤ a.blocksMemory := by
  obtain ⟨hlen, hinv, halign, hmr, blk, hblocks, hevs⟩ := (inv_create mr).run hok
  simp only [hrun, List.nil_append] at hlen hinv halign hmr hblocks hevs
  -- every call's bytes are handed out once
  have hsum : ((handedOut calls ps).map Prod.snd).sum = (calls.map fun c => c.1.bytes).sum := by
    have hfst : (calls.zip ps).map Prod.fst = calls := List.map_fst_zip (by omega)
    calc ((handedOut calls ps).map Prod.snd).sum
        = (((calls.zip ps).map Prod.fst).map fun c => c.1.bytes).sum := by
          rw [handedOut, List.map_map, List.map_map]
          rfl
      _ = (calls.map fun c => c.1.bytes).sum := by rw [hfst]
  refine ⟨hlen, hinv.handed_apart, hinv.handed_within, halign, ?_, hinv.memory_eq, ?_⟩
  · rw [hevs, hmr, hblocks]
    rfl
  · have := hinv.sum_le
    omega

theorem run_hands_out_apart_ranges_mixed :
    let calls : List (Call × ℕ) :=
      [(.allocate 100, 16), (.allocateAligned 9000, 16400), (.allocateAligned 5, 0),
        (.allocate 2048, 0), (.allocate 2048, 0), (.allocate 2048, 0), (.allocate 2000, 40960)]
    let r := (create none).run calls
    Allowed (create none) calls ∧ r.2.1.length = calls.length ∧
      (handedOut calls r.2.1).Pairwise Ranges.Apart ∧
      (∀ x ∈ handedOut calls r.2.1, ∃ b ∈ r.1.blocks, Ranges.Within x b.range) ∧
      (∀ n addr p, ((Call.allocateAligned n, addr), p) ∈ calls.zip r.2.1 → p % 8 = 0) ∧
      r.2.2 = r.1.blocks.map (allocEvent r.1.mr) ∧
      r.1.blocksMemory = (r.1.blocks.map Block.sz).sum ∧
      (calls.map fun c => c.1.bytes).sum ≤ r.1.blocksMemory := by
  intro calls r
  exact ⟨by decide, run_hands_out_apart_ranges none calls (by decide) rfl⟩

end PmrArena

end Pmr

end Helio
