import Mtdp.Fifo.Layout

/-!
# Moving elements and blocks

The three moves of the deque, each as a statement about cells or slots
counted from the right:

* `rightshiftElements_atRightEnd` — the overlapping copy moves the elements to
  the right end;
* `tryReserveABlock_spec` — doubling the vector moves no block away from
  the right end, and the left copies it leaves behind still name the same
  blocks;
* `rotateBlocks_spec` — the last block goes in front of the blocks that
  hold elements.
-/

namespace Mtdp.Fifo

open Lib.Move

variable {α : Type}

/-! ## The invariant -/

/-- The state between two calls. -/
structure Inv (c : Config) (f : BufferFifo) (h : Heap α) : Prop where
  blocks : BlocksInv f.blocks h.nextBlock
  fits : f.firstElementOffset + f.size ≤ f.blocks.size * c.blockSize
  /-- the oldest element lies in the last block; a deque of one block may
  also be empty with its offset at the left end -/
  lastBlock : (f.blocks.size - 1) * c.blockSize < f.firstElementOffset + f.size ∨
    (f.blocks.size = 1 ∧ f.firstElementOffset = 0 ∧ f.size = 0)

theorem Inv.gap_add_size {c : Config} {f : BufferFifo} {h : Heap α} (hf : Inv c f h) :
    gap c f + f.size + f.firstElementOffset = f.blocks.size * c.blockSize := by
  have := hf.fits
  unfold gap
  omega

/-- A row of `n` blocks is its first `n - 1` blocks and one more. -/
theorem pred_mul_add {n : Nat} (B : Nat) (hn : 0 < n) : (n - 1) * B + B = n * B := by
  rw [← Nat.succ_mul]
  congr 1
  omega

/-! ## The element move -/

/-- The cells that iteration `i` of the copy loop reads and writes. -/
def rightshiftCells (c : Config) (v : Blocks) (capacity delta i : Nat) :
    Option (CellPtr × CellPtr) := do
  let rightmostStartingBlock ← checkedSub capacity (i / c.blockSize)
  let rightmostStarting ← checkedSub (c.blockSize - 1) (i % c.blockSize)
  let frontStartingIndex := i + delta
  let frontStartingBlock ← checkedSub capacity (frontStartingIndex / c.blockSize)
  let frontStarting ← checkedSub (c.blockSize - 1) (frontStartingIndex % c.blockSize)
  let source ← v.get frontStartingBlock
  let target ← v.get rightmostStartingBlock
  some ((source, frontStarting), (target, rightmostStarting))

/-- An iteration is these index computations, a read and a write. -/
theorem rightshiftStep_eq (c : Config) (v : Blocks) (capacity delta i : Nat) (h : Heap α) :
    rightshiftStep c v capacity delta i h =
      (rightshiftCells c v capacity delta i).bind fun cells =>
        (read c h cells.1).bind fun e => write c h cells.2 e := by
  simp only [rightshiftStep, rightshiftCells, Option.bind_eq_bind, Option.bind_assoc,
    Option.bind_some]

/-- Both divisions lead to the cell they are meant for. -/
theorem rightshiftCells_eq {c : Config} {v : Blocks} (hle : v.size ≤ v.capacity)
    {delta i : Nat} (hi : i + delta < v.size * c.blockSize) :
    rightshiftCells c v (v.capacity - 1) delta i =
      some (cellPtr c v (i + delta), cellPtr c v i) := by
  have hB := c.blockSize_pos
  have htarget : i / c.blockSize < v.capacity :=
    Nat.lt_of_lt_of_le (cell_lt_blocks (show i < v.size * c.blockSize by omega)) hle
  have hsource : (i + delta) / c.blockSize < v.capacity :=
    Nat.lt_of_lt_of_le (cell_lt_blocks hi) hle
  have hmod := Nat.mod_lt i hB
  have hmod' := Nat.mod_lt (i + delta) hB
  simp only [rightshiftCells, Option.bind_eq_bind, Option.bind_some,
    checkedSub_of_le (show i / c.blockSize ≤ v.capacity - 1 by omega),
    checkedSub_of_le (show i % c.blockSize ≤ c.blockSize - 1 by omega),
    checkedSub_of_le (show (i + delta) / c.blockSize ≤ v.capacity - 1 by omega),
    checkedSub_of_le (show (i + delta) % c.blockSize ≤ c.blockSize - 1 by omega),
    get_fromRight hsource, get_fromRight htarget, cellPtr]

theorem rightshiftStep_spec {c : Config} {v : Blocks} {h : Heap α}
    (hv : Separate v h.nextBlock) {delta i : Nat} (hi : i + delta < v.size * c.blockSize) :
    ∃ h', rightshiftStep c v (v.capacity - 1) delta i h = some h' ∧ SameAllocator h h' ∧
      memory h' = Function.update (memory h) (cellPtr c v i)
        (memory h (cellPtr c v (i + delta))) := by
  obtain ⟨h', hwrite, hsame, hmemory⟩ :=
    write_memory (cellPtr_valid hv (show i < v.size * c.blockSize by omega))
      (memory h (cellPtr c v (i + delta)))
  refine ⟨h', ?_, hsame, hmemory⟩
  rw [rightshiftStep_eq, rightshiftCells_eq hv.size_le_capacity hi, Option.bind_some,
    read_cellPtr hv hi]
  exact hwrite

/-- The loop moves cell `k + delta` to cell `k`, for one `k` after the other. -/
theorem rightshiftLoop_spec {c : Config} {v : Blocks} {h : Heap α}
    (hv : Separate v h.nextBlock) (delta k : Nat) (hk : k + delta ≤ v.size * c.blockSize) :
    ∃ h', rightshiftLoop c v (v.capacity - 1) delta h k = some h' ∧ SameAllocator h h' ∧
      memory h' = moved (fun i => cellPtr c v (i + delta)) (cellPtr c v) (memory h) k := by
  induction k with
  | zero => exact ⟨h, rfl, .refl h, rfl⟩
  | succ k ih =>
      obtain ⟨h₁, hloop, hsame₁, hmemory₁⟩ := ih (by omega)
      have hv₁ : Separate v h₁.nextBlock := by rwa [hsame₁.nextBlock]
      obtain ⟨h₂, hstep, hsame₂, hmemory₂⟩ :=
        rightshiftStep_spec (c := c) hv₁ (show k + delta < v.size * c.blockSize by omega)
      refine ⟨h₂, ?_, hsame₁.trans hsame₂, ?_⟩
      · simp only [rightshiftLoop, hloop, Option.bind_eq_bind, Option.bind_some, hstep]
      · rw [hmemory₂, hmemory₁]
        rfl

/-- **The shift.**  For any row of blocks and any place of the elements in it:
the elements go to the right end, and nothing else changes. -/
theorem rightshiftElements_atRightEnd {c : Config} {f : BufferFifo} {h : Heap α}
    (hv : Separate f.blocks h.nextBlock) (hpos : 0 < f.blocks.capacity)
    (hfits : f.firstElementOffset + f.size ≤ f.blocks.size * c.blockSize) :
    ∃ h', rightshiftElements c f h =
        some ({ f with firstElementOffset := f.blocks.size * c.blockSize - f.size }, h') ∧
      SameAllocator h h' ∧
      AtRightEnd (leftCell c f.blocks) (f.blocks.size * c.blockSize) f.firstElementOffset f.size
        (memory h) (memory h') := by
  obtain ⟨h', hloop, hsame, hmemory⟩ :=
    rightshiftLoop_spec (c := c) hv (gap c f) f.size (by unfold gap; omega)
  have hoffset : f.firstElementOffset +
      (f.blocks.size * c.blockSize - (f.firstElementOffset + f.size)) =
        f.blocks.size * c.blockSize - f.size := by omega
  refine ⟨h', ?_, hsame, ?_⟩
  · unfold gap at hloop
    simp only [rightshiftElements, Option.bind_eq_bind, Option.bind_some,
      checkedSub_of_le hfits, checkedSub_of_le (show 1 ≤ f.blocks.capacity by omega),
      hloop, hoffset]
  · rw [hmemory]
    apply moved_row (memory h) (hv.leftCell_row c) hfits
    · intro i hi
      rw [leftCell_eq hv.size_le_capacity (by omega)]
      congr 1
      unfold gap
      omega
    · intro i hi
      rw [leftCell_eq hv.size_le_capacity (by omega)]
      congr 1
      omega

/-- After the shift the queue is the same. -/
theorem rightshiftElements_spec {c : Config} {f : BufferFifo} {h : Heap α} (hf : Inv c f h) :
    ∃ h', rightshiftElements c f h =
        some ({ f with firstElementOffset := f.blocks.size * c.blockSize - f.size }, h') ∧
      SameAllocator h h' ∧
      contents c { f with firstElementOffset := f.blocks.size * c.blockSize - f.size } h' =
        contents c f h := by
  have hfits := hf.fits
  have hle := hf.blocks.size_le_capacity
  have hpos := hf.blocks.size_pos
  obtain ⟨h', hrun, hsame, hend⟩ :=
    rightshiftElements_atRightEnd hf.blocks.separate (by omega) hfits
  refine ⟨h', hrun, hsame, ?_⟩
  refine contents_congr (f := f) rfl ?_
  intro k hk
  -- the `k`-th oldest element is the `size - 1 - k`-th from the left
  have hmoved := hend.elements (f.size - 1 - k) (by omega)
  rw [leftCell_eq hle (by omega), leftCell_eq hle (by omega)] at hmoved
  unfold cellAt
  unfold memory at hmoved
  have hafter : f.blocks.size * c.blockSize - 1 -
      (f.blocks.size * c.blockSize - f.size + (f.size - 1 - k)) =
      gap c { f with firstElementOffset := f.blocks.size * c.blockSize - f.size } + k := by
    simp only [gap]
    omega
  have hbefore : f.blocks.size * c.blockSize - 1 - (f.firstElementOffset + (f.size - 1 - k)) =
      gap c f + k := by
    unfold gap
    omega
  rw [hafter, hbefore] at hmoved
  exact hmoved

/-! ## Doubling the block vector -/

/-- Two block vectors with the same live blocks, counted from the right. -/
structure SameBlocks (v v' : Blocks) : Prop where
  size : v'.size = v.size
  fromRight : ∀ j, j < v.size → v'.fromRight j = v.fromRight j

theorem SameBlocks.cellAt {c : Config} {v v' : Blocks} (hv : SameBlocks v v') (h : Heap α)
    {q : Nat} (hq : q < v.size * c.blockSize) :
    Fifo.cellAt c v' h q = Fifo.cellAt c v h q := by
  unfold Fifo.cellAt cellPtr
  rw [hv.fromRight _ (cell_lt_blocks hq)]

/-- After `k` iterations the last `k` live blocks stand at the right end of
the larger vector; the slots left of the middle are as before. -/
theorem blockShiftLoop_spec {v : Blocks} (hcap : 2 * v.size ≤ v.capacity) (k : Nat)
    (hk : k ≤ v.size) :
    ∃ v', blockShiftLoop v k = some v' ∧ v'.size = v.size ∧ v'.capacity = v.capacity ∧
      ∀ i, i < v.capacity → v'.slots i =
        if v.capacity - k ≤ i then v.slots (v.size - (v.capacity - i)) else v.slots i := by
  induction k with
  | zero => exact ⟨v, rfl, rfl, rfl, fun i hi => by rw [if_neg (by omega)]⟩
  | succ k ih =>
      obtain ⟨v₁, hloop, hsize, hcapacity, hslots⟩ := ih (by omega)
      refine ⟨v₁.put (v.capacity - (k + 1)) (v.slots (v.size - (k + 1))), ?_,
        hsize, hcapacity, ?_⟩
      · have hsource : v₁.slots (v.size - (k + 1)) = v.slots (v.size - (k + 1)) := by
          rw [hslots _ (by omega), if_neg (by omega)]
        simp only [blockShiftLoop, hloop, Option.bind_eq_bind, Option.bind_some, hsize,
          hcapacity, checkedSub_of_le hk,
          checkedSub_of_le (show k + 1 ≤ v.capacity by omega), Blocks.get, Blocks.set,
          if_pos (show v.size - (k + 1) < v.capacity by omega),
          if_pos (show v.capacity - (k + 1) < v.capacity by omega), hsource]
      · intro i hi
        by_cases hik : i = v.capacity - (k + 1)
        · subst hik
          rw [Blocks.put_slots_self, if_pos (Nat.le_refl _)]
          congr 1
          omega
        · rw [Blocks.put_slots_of_ne _ _ hik, hslots i hi]
          by_cases hle : v.capacity - k ≤ i
          · rw [if_pos hle, if_pos (by omega)]
          · rw [if_neg hle, if_neg (by omega)]

/-- The C expression for the new capacity is the double of a power of two. -/
theorem doubledCapacity {n : Nat} (hn : ∃ k, n = 2 ^ k) : 2 ^ (1 + Nat.clog 2 n) = 2 * n := by
  obtain ⟨k, rfl⟩ := hn
  rw [Nat.clog_pow 2 k (by omega), Nat.pow_add, Nat.pow_one]

/-- What the caller of `try_reserve_a_block` may rely on.  `stale` is the
reason why a caller that still uses the old capacity reads the right
blocks. -/
structure Reserved (f f' : BufferFifo) (h h' : Heap α) (reserved : Bool) : Prop where
  size : f'.size = f.size
  offset : f'.firstElementOffset = f.firstElementOffset
  same : SameBlocks f.blocks f'.blocks
  inv : BlocksInv f'.blocks h.nextBlock
  stale : ∀ j, j < f.blocks.size →
    f.blocks.capacity - f.blocks.size + j < f'.blocks.capacity ∧
    f'.blocks.slots (f.blocks.capacity - f.blocks.size + j) =
      f'.blocks.fromRight (f.blocks.size - 1 - j)
  cells : h'.cells = h.cells
  nextBlock : h'.nextBlock = h.nextBlock
  fails : h'.fails = h.fails
  allocations : h.allocations ≤ h'.allocations
  room : reserved = true → f.blocks.size < f'.blocks.capacity
  failed : reserved = false → h.FailedSince h'

/-- A vector with room to spare is left alone. -/
theorem Reserved.refl {f : BufferFifo} {h : Heap α} (hv : BlocksInv f.blocks h.nextBlock)
    (hroom : f.blocks.size < f.blocks.capacity) : Reserved f f h h true where
  size := rfl
  offset := rfl
  same := ⟨rfl, fun _ _ => rfl⟩
  inv := hv
  stale := fun j hj => ⟨by omega, by
    unfold Blocks.fromRight
    congr 1
    omega⟩
  cells := rfl
  nextBlock := rfl
  fails := rfl
  allocations := Nat.le_refl _
  room := fun _ => hroom
  failed := by simp

theorem tryReserveABlock_spec {f : BufferFifo} {h : Heap α}
    (hv : BlocksInv f.blocks h.nextBlock) :
    ∃ reserved f' h', tryReserveABlock f h = some (reserved, f', h') ∧
      Reserved f f' h h' reserved := by
  have hcap := hv.size_le_capacity
  have hpos := hv.size_pos
  unfold tryReserveABlock
  by_cases hfull : f.blocks.capacity = f.blocks.size
  · rw [if_pos hfull]
    by_cases hok : h.fails h.allocations = true
    · refine ⟨false, f, h.attempt.2, by simp [Heap.attempt, hok], ?_⟩
      refine
        { size := rfl
          offset := rfl
          same := ⟨rfl, fun _ _ => rfl⟩
          inv := hv
          stale := ?_
          cells := rfl
          nextBlock := rfl
          fails := rfl
          allocations := Nat.le_succ _
          room := by simp
          failed := fun _ => ⟨h.allocations, Nat.le_refl _, Nat.lt_succ_self _, hok⟩ }
      intro j hj
      refine ⟨by omega, ?_⟩
      unfold Blocks.fromRight
      congr 1
      omega
    · let v : Blocks := { f.blocks with capacity := 2 * f.blocks.size }
      obtain ⟨v', hloop, hsize, hcapacity, hslots⟩ :=
        blockShiftLoop_spec (v := v) (Nat.le_refl _) f.blocks.size (Nat.le_refl _)
      dsimp only [v] at hsize hcapacity hslots
      have hright : ∀ j, j < f.blocks.size → v'.fromRight j = f.blocks.fromRight j := by
        intro j hj
        unfold Blocks.fromRight
        rw [hcapacity, hslots _ (by omega), if_pos (by omega)]
        congr 1
        omega
      have hdouble := doubledCapacity hv.capacity_pow
      refine ⟨true, { f with blocks := v' }, h.attempt.2, ?_, ?_⟩
      · rw [hfull] at hdouble
        simp only [Heap.attempt, hok, Bool.not_false, if_true, hfull, hdouble]
        simp only [v] at hloop
        simp only [hloop, Option.bind_eq_bind, Option.bind_some]
      refine
        { size := rfl
          offset := rfl
          same := ⟨hsize, hright⟩
          inv :=
            { size_pos := by simp only [hsize]; exact hpos
              size_le_capacity := by simp only [hsize, hcapacity]; omega
              capacity_pow := ?_
              distinct := ?_
              allocated := ?_ }
          stale := ?_
          cells := rfl
          nextBlock := rfl
          fails := rfl
          allocations := Nat.le_succ _
          room := fun _ => by simp only [hcapacity]; omega
          failed := by simp }
      · obtain ⟨k, hk⟩ := hv.capacity_pow
        refine ⟨k + 1, ?_⟩
        simp only [hcapacity]
        rw [Nat.pow_succ, ← hk, hfull, Nat.mul_comm]
      · intro i j hi hj heq
        simp only [hsize] at hi hj
        simp only [hright i hi, hright j hj] at heq
        exact hv.distinct i j hi hj heq
      · intro i hi
        simp only [hsize] at hi
        simp only [hright i hi]
        exact hv.allocated i hi
      · intro j hj
        simp only [hcapacity]
        refine ⟨by omega, ?_⟩
        rw [hright _ (by omega), hslots _ (by omega), if_neg (by omega)]
        unfold Blocks.fromRight
        congr 1
        omega
  · rw [if_neg hfull]
    exact ⟨true, f, h, rfl, .refl hv (by omega)⟩

/-! ## Rotating the blocks -/

/-- After `k` iterations the `k` rightmost slots hold what stood one slot to
their left. -/
theorem rotateLoop_spec {v : Blocks} (k : Nat) (hk : k < v.capacity) :
    ∃ v', rotateLoop v v.capacity k = some v' ∧ v'.size = v.size ∧
      v'.capacity = v.capacity ∧
      ∀ i, i < v.capacity → v'.slots i =
        if v.capacity - k ≤ i then v.slots (i - 1) else v.slots i := by
  induction k with
  | zero => exact ⟨v, rfl, rfl, rfl, fun i hi => by rw [if_neg (by omega)]⟩
  | succ k ih =>
      obtain ⟨v₁, hloop, hsize, hcapacity, hslots⟩ := ih (by omega)
      refine ⟨v₁.put (v.capacity - (k + 1)) (v.slots (v.capacity - (k + 1) - 1)), ?_,
        hsize, hcapacity, ?_⟩
      · have hsource : v₁.slots (v.capacity - (k + 1) - 1) =
            v.slots (v.capacity - (k + 1) - 1) := by
          rw [hslots _ (by omega), if_neg (by omega)]
        simp only [rotateLoop, hloop, Option.bind_eq_bind, Option.bind_some, hcapacity,
          checkedSub_of_le (show k + 1 ≤ v.capacity by omega),
          checkedSub_of_le (show 1 ≤ v.capacity - (k + 1) by omega), Blocks.get, Blocks.set,
          if_pos (show v.capacity - (k + 1) - 1 < v.capacity by omega),
          if_pos (show v.capacity - (k + 1) < v.capacity by omega), hsource]
      · intro i hi
        by_cases hik : i = v.capacity - (k + 1)
        · subst hik
          rw [Blocks.put_slots_self, if_pos (Nat.le_refl _)]
        · rw [Blocks.put_slots_of_ne _ _ hik, hslots i hi]
          by_cases hle : v.capacity - k ≤ i
          · rw [if_pos hle, if_pos (by omega)]
          · rw [if_neg hle, if_neg (by omega)]

/-- Rotation counted from the right: the blocks `1 … moved` come one closer
to the right end and the last block takes the place of block `moved`. -/
theorem rotateBlocks_spec {c : Config} {f : BufferFifo}
    (hsize : f.blocks.size ≤ f.blocks.capacity) {moved : Nat}
    (hmoved : (f.firstElementOffset % c.blockSize + f.size) / c.blockSize = moved)
    (hlt : moved < f.blocks.size) :
    ∃ v', rotateBlocks c f f.blocks.capacity (f.blocks.fromRight 0) =
        some { f with
          blocks := v'
          firstElementOffset := f.firstElementOffset + c.blockSize } ∧
      v'.size = f.blocks.size ∧ v'.capacity = f.blocks.capacity ∧
      ∀ j, j < f.blocks.size → v'.fromRight j =
        if j < moved then f.blocks.fromRight (j + 1)
        else if j = moved then f.blocks.fromRight 0 else f.blocks.fromRight j := by
  obtain ⟨v₁, hloop, hsize₁, hcapacity₁, hslots₁⟩ :=
    rotateLoop_spec (v := f.blocks) moved (by omega)
  refine ⟨v₁.put (f.blocks.capacity - (moved + 1)) (f.blocks.fromRight 0), ?_,
    hsize₁, hcapacity₁, ?_⟩
  · simp only [rotateBlocks, hmoved, hloop, Option.bind_eq_bind, Option.bind_some,
      checkedSub_of_le (show moved + 1 ≤ f.blocks.capacity by omega), Blocks.set, hcapacity₁,
      if_pos (show f.blocks.capacity - (moved + 1) < f.blocks.capacity by omega)]
  · intro j hj
    unfold Blocks.fromRight
    rw [Blocks.put_capacity, hcapacity₁]
    by_cases hjm : j = moved
    · rw [if_neg (by omega), if_pos hjm, hjm,
        show f.blocks.capacity - 1 - moved = f.blocks.capacity - (moved + 1) by omega,
        Blocks.put_slots_self]
    · rw [Blocks.put_slots_of_ne _ _ (by omega), hslots₁ _ (by omega)]
      by_cases hlt : j < moved
      · rw [if_pos hlt, if_pos (by omega)]
        rfl
      · rw [if_neg hlt, if_neg hjm, if_neg (by omega)]

end Mtdp.Fifo
