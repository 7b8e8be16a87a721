import Mathlib.Tactic.Ring
import Mtdp.Fifo.Model
import Mtdp.Lib.Move

/-!
# Where the elements live

The C code addresses cells from the left end of the vector, through
`capacity`, `blocks.size` and `first_element_offset`.  All three change when
the vector grows or the blocks rotate; the distance of a cell from the
*right* end of the vector does not.  This file therefore counts cells from
the right: cell `q` is cell `BLOCK_SIZE - 1 - q % BLOCK_SIZE` of the
`q / BLOCK_SIZE`-th block from the right, and the elements are the cells
`gap, gap + 1, …`, oldest first.
-/

namespace Mtdp.Fifo

open Lib.Move

variable {α : Type}

/-! ## Cells counted from the right -/

/-- The `j`-th block counted from the right end of the vector. -/
def Blocks.fromRight (v : Blocks) (j : Nat) : Nat := v.slots (v.capacity - 1 - j)

/-- The `q`-th cell counted from the right end of the vector. -/
def cellPtr (c : Config) (v : Blocks) (q : Nat) : CellPtr :=
  (v.fromRight (q / c.blockSize), c.blockSize - 1 - q % c.blockSize)

/-- Contents of the `q`-th cell from the right. -/
def cellAt (c : Config) (v : Blocks) (h : Heap α) (q : Nat) : α :=
  h.cells (cellPtr c v q).1 (cellPtr c v q).2

/-- Number of unused cells right of the oldest element. -/
def gap (c : Config) (f : BufferFifo) : Nat :=
  f.blocks.size * c.blockSize - (f.firstElementOffset + f.size)

/-- The queued elements, oldest first. -/
def contents (c : Config) (f : BufferFifo) (h : Heap α) : List α :=
  (List.range f.size).map fun k => cellAt c f.blocks h (gap c f + k)

@[simp] theorem contents_length (c : Config) (f : BufferFifo) (h : Heap α) :
    (contents c f h).length = f.size := by
  simp [contents]

/-- Two deques hold the same elements when the cells agree from their gaps on. -/
theorem contents_congr {c : Config} {f f' : BufferFifo} {h h' : Heap α}
    (hsize : f'.size = f.size)
    (hcell : ∀ k, k < f.size →
      cellAt c f'.blocks h' (gap c f' + k) = cellAt c f.blocks h (gap c f + k)) :
    contents c f' h' = contents c f h := by
  unfold contents
  rw [hsize]
  apply List.map_congr_left
  intro k hk
  exact hcell k (List.mem_range.mp hk)

/-! ## Block arithmetic -/

theorem cell_lt_blocks {B n q : Nat} (hq : q < n * B) : q / B < n :=
  Nat.div_lt_of_lt_mul (by rwa [Nat.mul_comm] at hq)

/-- The mirror image of cell `q` in a row of `n` blocks, split into block
and index. -/
theorem mirror_div_mod {B n q : Nat} (hB : 0 < B) (hq : q < n * B) :
    (n * B - 1 - q) / B = n - 1 - q / B ∧ (n * B - 1 - q) % B = B - 1 - q % B := by
  have hdm := Nat.div_add_mod q B
  have hmod := Nat.mod_lt q hB
  have hdiv := cell_lt_blocks hq
  have hrow : n * B = (n - 1 - q / B) * B + q / B * B + B := by
    rw [← Nat.add_mul, ← Nat.succ_mul]
    congr 1
    omega
  have hsplit : n * B - 1 - q = B * (n - 1 - q / B) + (B - 1 - q % B) := by
    have hcomm := Nat.mul_comm B (q / B)
    have hcomm' := Nat.mul_comm B (n - 1 - q / B)
    omega
  have hindex : B - 1 - q % B < B := by omega
  rw [hsplit]
  constructor
  · rw [Nat.mul_add_div hB, Nat.div_eq_of_lt hindex, Nat.add_zero]
  · rw [Nat.mul_add_mod, Nat.mod_eq_of_lt hindex]

/-! ## Well-formed block vectors -/

/-- The live blocks of the vector are allocated and pairwise distinct. -/
structure Separate (v : Blocks) (nextBlock : Nat) : Prop where
  size_le_capacity : v.size ≤ v.capacity
  distinct : ∀ i j, i < v.size → j < v.size → v.fromRight i = v.fromRight j → i = j
  allocated : ∀ i, i < v.size → v.fromRight i < nextBlock

/-- What is more of the vectors the C code makes: there is a live block, and the
vector has been doubled a number of times. -/
structure BlocksInv (v : Blocks) (nextBlock : Nat) : Prop where
  size_pos : 0 < v.size
  size_le_capacity : v.size ≤ v.capacity
  capacity_pow : ∃ k, v.capacity = 2 ^ k
  distinct : ∀ i j, i < v.size → j < v.size → v.fromRight i = v.fromRight j → i = j
  allocated : ∀ i, i < v.size → v.fromRight i < nextBlock

theorem BlocksInv.separate {v : Blocks} {nextBlock : Nat} (hv : BlocksInv v nextBlock) :
    Separate v nextBlock :=
  ⟨hv.size_le_capacity, hv.distinct, hv.allocated⟩

/-- Different live cells have different addresses. -/
theorem Separate.cellPtr_row {v : Blocks} {nextBlock : Nat} (hv : Separate v nextBlock)
    (c : Config) : Row (cellPtr c v) (v.size * c.blockSize) := by
  intro q q' hq hq' heq
  have hB := c.blockSize_pos
  simp only [cellPtr, Prod.mk.injEq] at heq
  have hdiv : q / c.blockSize = q' / c.blockSize :=
    hv.distinct _ _ (cell_lt_blocks hq) (cell_lt_blocks hq') heq.1
  have hmod : q % c.blockSize = q' % c.blockSize := by
    have := Nat.mod_lt q hB
    have := Nat.mod_lt q' hB
    omega
  rw [← Nat.div_add_mod q c.blockSize, ← Nat.div_add_mod q' c.blockSize, hdiv, hmod]

/-- The cell that the C code finds at distance `p` from the left end of the live
blocks. -/
def leftCell (c : Config) (v : Blocks) (p : Nat) : CellPtr :=
  (v.slots (v.capacity - v.size + p / c.blockSize), p % c.blockSize)

/-- The same cell, counted from the right. -/
theorem leftCell_eq {c : Config} {v : Blocks} (hle : v.size ≤ v.capacity) {p : Nat}
    (hp : p < v.size * c.blockSize) :
    leftCell c v p = cellPtr c v (v.size * c.blockSize - 1 - p) := by
  have hq : v.size * c.blockSize - 1 - p < v.size * c.blockSize := by omega
  obtain ⟨hdiv, hmod⟩ := mirror_div_mod c.blockSize_pos hq
  have hlt := cell_lt_blocks hq
  rw [show v.size * c.blockSize - 1 - (v.size * c.blockSize - 1 - p) = p by omega]
    at hdiv hmod
  unfold leftCell cellPtr Blocks.fromRight
  rw [hdiv, hmod]
  congr 2
  omega

theorem Separate.leftCell_row {v : Blocks} {nextBlock : Nat} (hv : Separate v nextBlock)
    (c : Config) : Row (leftCell c v) (v.size * c.blockSize) := by
  intro p q hp hq heq
  rw [leftCell_eq hv.size_le_capacity hp, leftCell_eq hv.size_le_capacity hq] at heq
  have := hv.cellPtr_row c _ _ (by omega) (by omega) heq
  omega

theorem cellPtr_valid {c : Config} {v : Blocks} {h : Heap α} (hv : Separate v h.nextBlock)
    {q : Nat} (hq : q < v.size * c.blockSize) : Valid c h (cellPtr c v q) := by
  refine ⟨hv.allocated _ (cell_lt_blocks hq), ?_⟩
  have := c.blockSize_pos
  simp only [cellPtr]
  omega

/-- The slot expression of the C code, `capacity - 1 - j`, reads block `j`. -/
theorem get_fromRight {v : Blocks} {j : Nat} (hj : j < v.capacity) :
    v.get (v.capacity - 1 - j) = some (v.fromRight j) := by
  unfold Blocks.get Blocks.fromRight
  rw [if_pos (by omega)]

theorem read_cellPtr {c : Config} {v : Blocks} {h : Heap α} (hv : Separate v h.nextBlock)
    {q : Nat} (hq : q < v.size * c.blockSize) :
    read c h (cellPtr c v q) = some (cellAt c v h q) :=
  if_pos (cellPtr_valid hv hq)

/-- Nothing but the cells differs. -/
structure SameAllocator (h h' : Heap α) : Prop where
  nextBlock : h'.nextBlock = h.nextBlock
  allocations : h'.allocations = h.allocations
  fails : h'.fails = h.fails

theorem SameAllocator.refl (h : Heap α) : SameAllocator h h := ⟨rfl, rfl, rfl⟩

theorem SameAllocator.trans {h h' h'' : Heap α} (hh : SameAllocator h h')
    (hh' : SameAllocator h' h'') : SameAllocator h h'' :=
  ⟨hh'.nextBlock.trans hh.nextBlock, hh'.allocations.trans hh.allocations,
    hh'.fails.trans hh.fails⟩

/-- The cells of all blocks as one memory. -/
def memory (h : Heap α) (p : CellPtr) : α := h.cells p.1 p.2

/-- Writing a cell changes that cell only. -/
theorem write_memory {c : Config} {h : Heap α} {p : CellPtr} (hp : Valid c h p) (e : α) :
    ∃ h', write c h p e = some h' ∧ SameAllocator h h' ∧
      memory h' = Function.update (memory h) p e := by
  refine ⟨_, if_pos hp, ⟨rfl, rfl, rfl⟩, ?_⟩
  funext p'
  by_cases hpp : p' = p
  · subst hpp
    simp [memory]
  · rw [Function.update_of_ne hpp]
    by_cases hblock : p'.1 = p.1
    · have hindex : p'.2 ≠ p.2 := fun hidx => hpp (Prod.ext hblock hidx)
      simp [memory, hblock, hindex]
    · simp [memory, hblock]

/-- Writing live cell `q` changes the contents of that cell only. -/
theorem write_cellPtr {c : Config} {v : Blocks} {h : Heap α} (hv : Separate v h.nextBlock)
    {q : Nat} (hq : q < v.size * c.blockSize) (e : α) :
    ∃ h', write c h (cellPtr c v q) e = some h' ∧ SameAllocator h h' ∧
      ∀ q', q' < v.size * c.blockSize →
        cellAt c v h' q' = if q' = q then e else cellAt c v h q' := by
  obtain ⟨h', hwrite, hsame, hmemory⟩ := write_memory (cellPtr_valid hv hq) e
  refine ⟨h', hwrite, hsame, ?_⟩
  intro q' hq'
  change memory h' (cellPtr c v q') = _
  rw [hmemory]
  by_cases hqq : q' = q
  · rw [if_pos hqq, hqq, Function.update_self]
  · rw [if_neg hqq, Function.update_of_ne]
    · rfl
    · intro heq
      exact hqq (hv.cellPtr_row c q' q hq' hq heq)

end Mtdp.Fifo
