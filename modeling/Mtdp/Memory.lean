/-!
# The allocator

What the library asks of `malloc`, `calloc` and `realloc`, and the checked
arithmetic every access goes through.  Which allocation calls fail is
decided by the environment, call by call.
-/

namespace Mtdp

/-- The allocator and the memory of the FIFO blocks it handed out.  Blocks
are numbered in the order of their allocation; the cells of a block that was
never written hold anything. -/
structure Heap (α : Type) where
  /-- contents of cell `i` of block `b` -/
  cells : Nat → Nat → α
  /-- what a block vector fresh from `malloc` contains -/
  junkSlots : Nat → Nat
  /-- number of blocks allocated so far -/
  nextBlock : Nat
  /-- number of `malloc`, `calloc` and `realloc` calls made so far -/
  allocations : Nat
  /-- whether the `k`-th of these calls fails -/
  fails : Nat → Bool

/-- One call of `malloc`, `calloc` or `realloc`: does it succeed? -/
def Heap.attempt {α : Type} (h : Heap α) : Bool × Heap α :=
  (!h.fails h.allocations, { h with allocations := h.allocations + 1 })

/-- Some allocation call made between `h` and `h'` failed. -/
def Heap.FailedSince {α : Type} (h h' : Heap α) : Prop :=
  ∃ k, h.allocations ≤ k ∧ k < h'.allocations ∧ h.fails k = true

/-- `size_t` subtraction, defined where it does not wrap. -/
def checkedSub (a b : Nat) : Option Nat :=
  if b ≤ a then some (a - b) else none

theorem checkedSub_of_le {a b : Nat} (h : b ≤ a) : checkedSub a b = some (a - b) :=
  if_pos h

end Mtdp
