import Mathlib.Data.Nat.Log
import Mathlib.Data.Rat.Init
import Mathlib.Algebra.Order.Field.Rat
import Mtdp.Memory

/-!
# The heap buffer FIFO

`src/buffer.c` and `src/impl/buffer.h` in their default configuration: the
FIFO is a deque whose cells live in fixed-size blocks, and the blocks are
reached through a vector that grows by doubling.  The `blocks.size` live
slots are the rightmost ones of the vector; elements are pushed to the left
and popped from the right.

Every definition below follows the C function it is named after.  A result
of `none` means that the C program has left the memory it owns (a slot
outside the vector, a cell outside a block, a block nobody allocated, a
store through `NULL`) or that a `size_t` subtraction has wrapped.
-/

namespace Mtdp.Fifo

/-- The compile-time settings the heap FIFO reads. -/
structure Config where
  /-- `MTDP_BUFFER_FIFO_BLOCK_SIZE` -/
  blockSize : Nat
  /-- `MTDP_BUFFER_FIFO_SHIFT_FILLING_RATIO` -/
  shiftFillingRatio : ℚ
  blockSize_pos : 0 < blockSize
  ratio_nonneg : 0 ≤ shiftFillingRatio
  ratio_le_one : shiftFillingRatio ≤ 1

/-- `mtdp_buffer_fifo_blocks`: a pointer to the slots and two counters. -/
structure Blocks where
  slots : Nat → Nat
  size : Nat
  capacity : Nat

/-- `mtdp_buffer_fifo` -/
structure BufferFifo where
  blocks : Blocks
  size : Nat
  firstElementOffset : Nat

/-- A pointer to a cell: block and index in the block. -/
abbrev CellPtr := Nat × Nat

variable {α : Type}

/-! ## Checked accesses -/

/-- Read a slot of the block vector. -/
def Blocks.get (v : Blocks) (i : Nat) : Option Nat :=
  if i < v.capacity then some (v.slots i) else none

/-- The vector with block `b` in slot `i`. -/
def Blocks.put (v : Blocks) (i b : Nat) : Blocks :=
  { v with slots := Function.update v.slots i b }

@[simp] theorem Blocks.put_size (v : Blocks) (i b : Nat) : (v.put i b).size = v.size := rfl

@[simp] theorem Blocks.put_capacity (v : Blocks) (i b : Nat) :
    (v.put i b).capacity = v.capacity := rfl

@[simp] theorem Blocks.put_slots_self (v : Blocks) (i b : Nat) :
    (v.put i b).slots i = b := by
  simp [Blocks.put]

theorem Blocks.put_slots_of_ne (v : Blocks) {i j : Nat} (b : Nat) (hne : j ≠ i) :
    (v.put i b).slots j = v.slots j := by
  simp [Blocks.put, hne]

/-- Write a slot of the block vector. -/
def Blocks.set (v : Blocks) (i b : Nat) : Option Blocks :=
  if i < v.capacity then some (v.put i b) else none

/-- The cell lies in a block that was allocated. -/
def Valid (c : Config) (h : Heap α) (p : CellPtr) : Prop :=
  p.1 < h.nextBlock ∧ p.2 < c.blockSize

instance (c : Config) (h : Heap α) (p : CellPtr) : Decidable (Valid c h p) := by
  unfold Valid
  infer_instance

/-- Read a cell of a block. -/
def read (c : Config) (h : Heap α) (p : CellPtr) : Option α :=
  if Valid c h p then some (h.cells p.1 p.2) else none

/-- Write a cell of a block. -/
def write (c : Config) (h : Heap α) (p : CellPtr) (e : α) : Option (Heap α) :=
  if Valid c h p then
    some { h with
      cells := Function.update h.cells p.1 (Function.update (h.cells p.1) p.2 e) }
  else none

/-! ## Allocation -/

/-- `mtdp_buffer_fifo_block_alloc` -/
def blockAlloc (h : Heap α) : Option Nat × Heap α :=
  let (ok, h) := h.attempt
  if ok then (some h.nextBlock, { h with nextBlock := h.nextBlock + 1 }) else (none, h)

/-- `mtdp_buffer_fifo_blocks_init`; `none` for a return value of `false`. -/
def blocksInit (h : Heap α) : Option Blocks × Heap α :=
  let (ok, h) := h.attempt
  if ok then
    match blockAlloc h with
    | (some tmp, h) =>
        (some { slots := Function.update h.junkSlots 0 tmp, size := 1, capacity := 1 }, h)
    | (none, h) => (none, h)
  else (none, h)

/-- `mtdp_buffer_fifo_init`; `none` for a return value of `false`. -/
def init (c : Config) (h : Heap α) : Option BufferFifo × Heap α :=
  match blocksInit h with
  | (some blocks, h) => (some { blocks, size := 0, firstElementOffset := c.blockSize }, h)
  | (none, h) => (none, h)

/-! ## Shifting the elements to the right -/

/-- Iteration `i` of the copy loop of `mtdp_buffer_fifo_rightshift_elements`;
`capacity` has already been decremented. -/
def rightshiftStep (c : Config) (v : Blocks) (capacity delta i : Nat) (h : Heap α) :
    Option (Heap α) := do
  let rightmostStartingBlock ← checkedSub capacity (i / c.blockSize)
  let rightmostStarting ← checkedSub (c.blockSize - 1) (i % c.blockSize)
  let frontStartingIndex := i + delta
  let frontStartingBlock ← checkedSub capacity (frontStartingIndex / c.blockSize)
  let frontStarting ← checkedSub (c.blockSize - 1) (frontStartingIndex % c.blockSize)
  let source ← v.get frontStartingBlock
  let target ← v.get rightmostStartingBlock
  let e ← read c h (source, frontStarting)
  write c h (target, rightmostStarting) e

/-- The first `k` iterations of the copy loop. -/
def rightshiftLoop (c : Config) (v : Blocks) (capacity delta : Nat) (h : Heap α) :
    Nat → Option (Heap α)
  | 0 => some h
  | k + 1 => do
      let h ← rightshiftLoop c v capacity delta h k
      rightshiftStep c v capacity delta k h

/-- `mtdp_buffer_fifo_rightshift_elements` -/
def rightshiftElements (c : Config) (f : BufferFifo) (h : Heap α) :
    Option (BufferFifo × Heap α) := do
  let bufferCapacity := f.blocks.size * c.blockSize
  let delta ← checkedSub bufferCapacity (f.firstElementOffset + f.size)
  let capacity ← checkedSub f.blocks.capacity 1
  let h ← rightshiftLoop c f.blocks capacity delta h f.size
  some ({ f with firstElementOffset := f.firstElementOffset + delta }, h)

/-! ## Growing the block vector -/

/-- The first `k` iterations of the blocks' right shift after a `realloc`. -/
def blockShiftLoop (v : Blocks) : Nat → Option Blocks
  | 0 => some v
  | k + 1 => do
      let v ← blockShiftLoop v k
      let source ← checkedSub v.size (k + 1)
      let target ← checkedSub v.capacity (k + 1)
      let block ← v.get source
      v.set target block

/-- `mtdp_buffer_fifo_try_reserve_a_block`.  `realloc` keeps the old slots
and leaves the new ones as they are. -/
def tryReserveABlock (f : BufferFifo) (h : Heap α) : Option (Bool × BufferFifo × Heap α) :=
  if f.blocks.capacity = f.blocks.size then
    let cap := 2 ^ (1 + Nat.clog 2 f.blocks.capacity)
    let (ok, h) := h.attempt
    if ok then do
      let blocks ← blockShiftLoop { f.blocks with capacity := cap } f.blocks.size
      some (true, { f with blocks }, h)
    else some (false, f, h)
  else some (true, f, h)

/-! ## Push -/

/-- What `mtdp_buffer_fifo_shift_back_left` works on: the deque, the heap
and two locals.  `capacity` is read on entry and refreshed only after a
block was allocated. -/
structure PushState (α : Type) where
  fifo : BufferFifo
  heap : Heap α
  capacity : Nat
  freeSpaceOnTheLeft : Bool

/-- `size >= blocks.size * BLOCK_SIZE * FILLING_RATIO` -/
def wantsMoreMemory (c : Config) (f : BufferFifo) : Bool :=
  decide ((f.blocks.size * c.blockSize : ℚ) * c.shiftFillingRatio ≤ f.size)

/-- The first `if` of `mtdp_buffer_fifo_shift_back_left`. -/
def allocateOnTheLeft (c : Config) (s : PushState α) : Option (PushState α) :=
  if !s.freeSpaceOnTheLeft && wantsMoreMemory c s.fifo then do
    let (reserved, fifo, heap) ← tryReserveABlock s.fifo s.heap
    if reserved then
      match blockAlloc heap with
      | (some tmpBlock, heap) =>
          let capacity := fifo.blocks.capacity
          let slot ← checkedSub capacity (fifo.blocks.size + 1)
          let blocks ← fifo.blocks.set slot tmpBlock
          some {
            fifo := { fifo with
              blocks := { blocks with size := fifo.blocks.size + 1 }
              firstElementOffset := c.blockSize }
            heap
            capacity
            freeSpaceOnTheLeft := true }
      | (none, heap) => some { s with fifo, heap }
    else some { s with fifo, heap }
  else some s

/-- The second `if`: make room on the left by shifting. -/
def shiftOnTheLeft (c : Config) (s : PushState α) : Option (PushState α) :=
  if !s.freeSpaceOnTheLeft && s.fifo.size != s.fifo.blocks.size * c.blockSize then do
    let (fifo, heap) ← rightshiftElements c s.fifo s.heap
    some { s with fifo, heap, freeSpaceOnTheLeft := fifo.firstElementOffset != 0 }
  else some s

/-- The third `if`: claim the cell left of the elements, `none` for `NULL`. -/
def claimOnTheLeft (c : Config) (s : PushState α) :
    Option (Option CellPtr × BufferFifo × Heap α) :=
  if s.freeSpaceOnTheLeft then do
    let offset ← checkedSub s.fifo.firstElementOffset 1
    let left ← checkedSub s.capacity s.fifo.blocks.size
    let tmpBlock ← s.fifo.blocks.get (left + offset / c.blockSize)
    let fifo := { s.fifo with size := s.fifo.size + 1, firstElementOffset := offset }
    some (some (tmpBlock, offset % c.blockSize), fifo, s.heap)
  else some (none, s.fifo, s.heap)

/-- `mtdp_buffer_fifo_shift_back_left` -/
def shiftBackLeft (c : Config) (f : BufferFifo) (h : Heap α) :
    Option (Option CellPtr × BufferFifo × Heap α) := do
  let s := {
    fifo := f
    heap := h
    capacity := f.blocks.capacity
    freeSpaceOnTheLeft := f.firstElementOffset != 0 }
  let s ← allocateOnTheLeft c s
  let s ← shiftOnTheLeft c s
  claimOnTheLeft c s

/-- `mtdp_buffer_fifo_push_back` -/
def pushBack (c : Config) (f : BufferFifo) (h : Heap α) (e : α) :
    Option (Bool × BufferFifo × Heap α) := do
  let (back, f, h) ← shiftBackLeft c f h
  match back with
  | none => some (false, f, h)
  | some p =>
      let h ← write c h p e
      some (true, f, h)

/-! ## Pop -/

/-- The first `k` iterations of the block rotation of
`mtdp_buffer_fifo_shift_front_left`. -/
def rotateLoop (v : Blocks) (capacity : Nat) : Nat → Option Blocks
  | 0 => some v
  | k + 1 => do
      let v ← rotateLoop v capacity k
      let target ← checkedSub capacity (k + 1)
      let source ← checkedSub target 1
      let block ← v.get source
      v.set target block

/-- The last block of the deque holds no element any more: move it in front
of the blocks that do. -/
def rotateBlocks (c : Config) (f : BufferFifo) (capacity lastBlock : Nat) : Option BufferFifo := do
  let moved := (f.firstElementOffset % c.blockSize + f.size) / c.blockSize
  let blocks ← rotateLoop f.blocks capacity moved
  let slot ← checkedSub capacity (moved + 1)
  let blocks ← blocks.set slot lastBlock
  some { f with blocks, firstElementOffset := f.firstElementOffset + c.blockSize }

/-- `mtdp_buffer_fifo_shift_front_left`, `none` for `NULL`. -/
def shiftFrontLeft (c : Config) (f : BufferFifo) : Option (Option CellPtr × BufferFifo) :=
  if f.size = 0 then some (none, f)
  else do
    let capacity := f.blocks.capacity
    let frontIndexInBlock ←
      checkedSub (f.blocks.size * c.blockSize) (f.size + f.firstElementOffset)
    let last ← checkedSub capacity 1
    let lastBlock ← f.blocks.get last
    let left ← checkedSub c.blockSize frontIndexInBlock
    let index ← checkedSub left 1
    let f := { f with size := f.size - 1 }
    if frontIndexInBlock = c.blockSize - 1 ∧ f.blocks.size ≠ 1 then do
      let f ← rotateBlocks c f capacity lastBlock
      some (some (lastBlock, index), f)
    else some (some (lastBlock, index), f)

/-- `mtdp_buffer_fifo_pop_front`.  The element is stored through `ret`;
`retIsNull` says that the caller passed `NULL` for it. -/
def popFront (c : Config) (f : BufferFifo) (h : Heap α) (retIsNull : Bool) :
    Option (Option α × BufferFifo) := do
  let (back, f) ← shiftFrontLeft c f
  match back with
  | none => some (none, f)
  | some p =>
      let e ← read c h p
      if retIsNull then none else some (some e, f)

end Mtdp.Fifo
