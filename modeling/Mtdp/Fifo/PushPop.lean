import Mathlib.Tactic.Positivity
import Mathlib.Tactic.Linarith
import Mtdp.Fifo.RightShift

/-!
# Push and pop on the queued elements

`pushBack_spec` and `popFront_spec` say what the two entry points of the
FIFO do to the list of queued elements.  The push goes through the three
`if`s of `mtdp_buffer_fifo_shift_back_left` one at a time; `PushInv` is what
holds between them.
-/

namespace Mtdp.Fifo

variable {α : Type}

/-! ## Between the `if`s of a push -/

/-- The state between two `if`s of a push that started on heap `h₀` with
the elements `q` queued.  `left` covers the stale `capacity`: the slots the
third `if` may read name the live blocks, whether they stand at the right
end of the vector or in the left copy a doubling left behind. -/
structure PushInv (c : Config) (h₀ : Heap α) (q : List α) (s : PushState α) : Prop where
  inv : Inv c s.fifo s.heap
  contents : contents c s.fifo s.heap = q
  capacity : s.fifo.blocks.size ≤ s.capacity
  left : ∀ j, j < s.fifo.blocks.size →
    s.capacity - s.fifo.blocks.size + j < s.fifo.blocks.capacity ∧
    s.fifo.blocks.slots (s.capacity - s.fifo.blocks.size + j) =
      s.fifo.blocks.fromRight (s.fifo.blocks.size - 1 - j)
  flag : s.freeSpaceOnTheLeft = (s.fifo.firstElementOffset != 0)
  fails : s.heap.fails = h₀.fails
  allocations : h₀.allocations ≤ s.heap.allocations

/-- The slots an up-to-date capacity leads to. -/
theorem left_of_capacity {v : Blocks} {nextBlock : Nat} (hv : BlocksInv v nextBlock) :
    ∀ j, j < v.size → v.capacity - v.size + j < v.capacity ∧
      v.slots (v.capacity - v.size + j) = v.fromRight (v.size - 1 - j) := by
  intro j hj
  have hcap := hv.size_le_capacity
  refine ⟨by omega, ?_⟩
  unfold Blocks.fromRight
  congr 1
  omega

/-- A deque without elements never asks for memory. -/
theorem size_pos_of_wantsMoreMemory {c : Config} (hr : 0 < c.shiftFillingRatio)
    {f : BufferFifo} (hpos : 0 < f.blocks.size) (hwants : wantsMoreMemory c f = true) :
    0 < f.size := by
  have hB := c.blockSize_pos
  have hthreshold : (0 : ℚ) < (f.blocks.size * c.blockSize : ℚ) * c.shiftFillingRatio := by
    positivity
  have hle : (f.blocks.size * c.blockSize : ℚ) * c.shiftFillingRatio ≤ f.size := by
    simpa [wantsMoreMemory] using hwants
  have : (0 : ℚ) < f.size := lt_of_lt_of_le hthreshold hle
  exact_mod_cast this

/-- The allocator does not give the deque a block: the vector cannot grow, or
the block itself is refused. -/
def growthRefused (f : BufferFifo) (h : Heap α) : Bool :=
  if f.blocks.capacity = f.blocks.size then
    h.fails h.allocations || h.fails (h.allocations + 1)
  else h.fails h.allocations

/-- A push would give a block to a deque that has no elements. -/
def GrowsEmpty (c : Config) (f : BufferFifo) (h : Heap α) : Prop :=
  f.size = 0 ∧ f.firstElementOffset = 0 ∧ wantsMoreMemory c f = true ∧ growthRefused f h = false

theorem not_growsEmpty {c : Config} (hr : 0 < c.shiftFillingRatio) {f : BufferFifo}
    (h : Heap α) (hpos : 0 < f.blocks.size) : ¬ GrowsEmpty c f h := by
  rintro ⟨hsize, _, hwants, _⟩
  have := size_pos_of_wantsMoreMemory hr hpos hwants
  omega

/-- A block that was given was not refused. -/
theorem growthRefused_of_reserved {f f' : BufferFifo} {h h' : Heap α}
    (hrun : tryReserveABlock f h = some (true, f', h'))
    (hok : ¬ h'.fails h'.allocations = true) : growthRefused f h = false := by
  unfold tryReserveABlock at hrun
  unfold growthRefused
  split at hrun
  · next hfull =>
      rw [if_pos hfull]
      by_cases hvector : h.fails h.allocations = true
      · simp [Heap.attempt, hvector] at hrun
      · simp only [Heap.attempt, hvector, Bool.not_false, if_true, Option.bind_eq_bind,
          Option.bind_eq_some_iff, Option.some.injEq, Prod.mk.injEq, true_and] at hrun
        obtain ⟨blocks, _, _, rfl⟩ := hrun
        simpa [hvector] using hok
  · next hfull =>
      cases hrun
      rw [if_neg hfull]
      simpa using hok

/-- A full deque always asks for memory. -/
theorem wantsMoreMemory_of_full (c : Config) {f : BufferFifo}
    (hfull : f.size = f.blocks.size * c.blockSize) : wantsMoreMemory c f = true := by
  have hle : (f.blocks.size * c.blockSize : ℚ) * c.shiftFillingRatio ≤
      (f.blocks.size * c.blockSize : ℚ) * 1 :=
    mul_le_mul_of_nonneg_left c.ratio_le_one (by positivity)
  simp only [wantsMoreMemory, decide_eq_true_eq, hfull]
  push_cast
  linarith

/-- The vector after a fresh block was put left of the live ones. -/
theorem addBlock_fromRight {v : Blocks} (block : Nat) (hroom : v.size < v.capacity) :
    ∀ j, j < v.size + 1 → (v.put (v.capacity - (v.size + 1)) block).fromRight j =
      if j = v.size then block else v.fromRight j := by
  intro j hj
  unfold Blocks.fromRight
  rw [Blocks.put_capacity]
  by_cases hjs : j = v.size
  · rw [if_pos hjs, hjs, show v.capacity - 1 - v.size = v.capacity - (v.size + 1) by omega,
      Blocks.put_slots_self]
  · rw [if_neg hjs, Blocks.put_slots_of_ne _ _ (by omega)]

/-- Adding the freshly allocated block keeps the vector well formed. -/
theorem BlocksInv.addBlock {v : Blocks} {nextBlock : Nat} (hv : BlocksInv v nextBlock)
    (hroom : v.size < v.capacity) :
    BlocksInv { v.put (v.capacity - (v.size + 1)) nextBlock with size := v.size + 1 }
      (nextBlock + 1) := by
  have hright := addBlock_fromRight nextBlock hroom
  refine
    { size_pos := Nat.succ_pos _
      size_le_capacity := hroom
      capacity_pow := hv.capacity_pow
      distinct := ?_
      allocated := ?_ }
  · intro i j hi hj heq
    change Blocks.fromRight (v.put _ nextBlock) i = Blocks.fromRight (v.put _ nextBlock) j at heq
    dsimp only at hi hj
    rw [hright i hi, hright j hj] at heq
    by_cases his : i = v.size
    · by_cases hjs : j = v.size
      · omega
      · rw [if_pos his, if_neg hjs] at heq
        have := hv.allocated j (by omega)
        omega
    · by_cases hjs : j = v.size
      · rw [if_neg his, if_pos hjs] at heq
        have := hv.allocated i (by omega)
        omega
      · rw [if_neg his, if_neg hjs] at heq
        exact hv.distinct i j (by omega) (by omega) heq
  · intro i hi
    change Blocks.fromRight (v.put _ nextBlock) i < nextBlock + 1
    dsimp only at hi
    rw [hright i hi]
    by_cases his : i = v.size
    · rw [if_pos his]
      omega
    · rw [if_neg his]
      have := hv.allocated i (by omega)
      omega

/-- Reserving room in the vector changes neither elements nor offsets. -/
theorem PushInv.reserve {c : Config} {h₀ : Heap α} {q : List α} {s : PushState α}
    (hs : PushInv c h₀ q s) (hcap : s.capacity = s.fifo.blocks.capacity)
    {f' : BufferFifo} {h' : Heap α} {reserved : Bool}
    (hres : Reserved s.fifo f' s.heap h' reserved) :
    PushInv c h₀ q { s with fifo := f', heap := h' } := by
  have hsize := hres.same.size
  have hgap : gap c f' = gap c s.fifo := by
    unfold gap
    rw [hsize, hres.offset, hres.size]
  have hrow := hs.inv.gap_add_size
  refine
    { inv :=
        { blocks := by simpa only [hres.nextBlock] using hres.inv
          fits := by simpa only [hsize, hres.offset, hres.size] using hs.inv.fits
          lastBlock := by simpa only [hsize, hres.offset, hres.size] using hs.inv.lastBlock }
      contents := ?_
      capacity := by simpa only [hsize] using hs.capacity
      left := ?_
      flag := by simpa only [hres.offset] using hs.flag
      fails := hres.fails.trans hs.fails
      allocations := Nat.le_trans hs.allocations hres.allocations }
  · rw [← hs.contents]
    refine contents_congr hres.size ?_
    intro k hk
    rw [hgap, hres.same.cellAt h' (by omega)]
    unfold cellAt
    rw [hres.cells]
  · intro j hj
    simp only [hsize] at hj ⊢
    rw [hcap]
    exact hres.stale j hj

/-- The fresh block left of a deque whose offset is 0. -/
theorem PushInv.addBlock {c : Config} {h₀ : Heap α} {q : List α} {s : PushState α}
    (hs : PushInv c h₀ q s) (hoffset : s.fifo.firstElementOffset = 0) (hsize : 0 < s.fifo.size)
    (hroom : s.fifo.blocks.size < s.fifo.blocks.capacity) (h' : Heap α)
    (hcells : h'.cells = s.heap.cells) (hnext : h'.nextBlock = s.heap.nextBlock + 1)
    (hfails : h'.fails = s.heap.fails) (halloc : s.heap.allocations ≤ h'.allocations) :
    PushInv c h₀ q {
      fifo := { s.fifo with
        blocks := { s.fifo.blocks.put (s.fifo.blocks.capacity - (s.fifo.blocks.size + 1))
          s.heap.nextBlock with size := s.fifo.blocks.size + 1 }
        firstElementOffset := c.blockSize }
      heap := h'
      capacity := s.fifo.blocks.capacity
      freeSpaceOnTheLeft := true } := by
  have hv := hs.inv.blocks.addBlock hroom
  have hfits := hs.inv.fits
  have hlast := hs.inv.lastBlock
  have hpred := pred_mul_add c.blockSize hs.inv.blocks.size_pos
  have hrow : (s.fifo.blocks.size + 1) * c.blockSize =
      s.fifo.blocks.size * c.blockSize + c.blockSize := Nat.succ_mul _ _
  refine
    { inv :=
        { blocks := by simpa only [hnext] using hv
          fits := by simp only; omega
          lastBlock := by
            left
            simp only [Nat.add_sub_cancel]
            omega }
      contents := ?_
      capacity := hroom
      left := left_of_capacity hv
      flag := by simp; omega
      fails := hfails.trans hs.fails
      allocations := Nat.le_trans hs.allocations halloc }
  rw [← hs.contents]
  refine contents_congr (f := s.fifo) rfl ?_
  intro k hk
  have hgap : gap c { s.fifo with
      blocks := { s.fifo.blocks.put (s.fifo.blocks.capacity - (s.fifo.blocks.size + 1))
        s.heap.nextBlock with size := s.fifo.blocks.size + 1 }
      firstElementOffset := c.blockSize } = gap c s.fifo := by
    simp only [gap, hoffset]
    omega
  rw [hgap]
  have hrow' := hs.inv.gap_add_size
  have hcell : gap c s.fifo + k < s.fifo.blocks.size * c.blockSize := by omega
  have hdiv := cell_lt_blocks hcell
  have hright := addBlock_fromRight s.heap.nextBlock hroom
    ((gap c s.fifo + k) / c.blockSize) (by omega)
  rw [if_neg (by omega)] at hright
  simp only [cellAt, cellPtr, hcells]
  exact congrFun (congrArg s.heap.cells hright) _

/-- The first `if` of a push. -/
theorem allocateOnTheLeft_spec {c : Config} {h₀ : Heap α} {q : List α} {s : PushState α}
    (hempty : ¬ GrowsEmpty c s.fifo s.heap) (hs : PushInv c h₀ q s) (hheap : s.heap = h₀)
    (hcap : s.capacity = s.fifo.blocks.capacity) :
    ∃ s', allocateOnTheLeft c s = some s' ∧ PushInv c h₀ q s' ∧
      (s'.freeSpaceOnTheLeft = false →
        s'.fifo.size = s.fifo.size ∧ s'.fifo.blocks.size = s.fifo.blocks.size ∧
        (wantsMoreMemory c s.fifo = true → h₀.FailedSince s'.heap)) := by
  unfold allocateOnTheLeft
  by_cases hgrow : (!s.freeSpaceOnTheLeft && wantsMoreMemory c s.fifo) = true
  · rw [if_pos hgrow]
    simp only [Bool.and_eq_true, Bool.not_eq_true'] at hgrow
    obtain ⟨hfree, hwants⟩ := hgrow
    have hoffset : s.fifo.firstElementOffset = 0 := by
      have := hs.flag
      rw [hfree] at this
      simpa using this.symm
    obtain ⟨reserved, f', h', hrun, hres⟩ := tryReserveABlock_spec (h := s.heap) hs.inv.blocks
    have hs' := hs.reserve hcap hres
    simp only [hrun, Option.bind_eq_bind, Option.bind_some]
    cases reserved with
    | false =>
        refine ⟨_, rfl, hs', fun _ => ⟨hres.size, hres.same.size, fun _ => ?_⟩⟩
        rw [← hheap]
        exact hres.failed rfl
    | true =>
        simp only [if_true]
        have hroom : f'.blocks.size < f'.blocks.capacity := by
          rw [hres.same.size]
          exact hres.room rfl
        by_cases hok : h'.fails h'.allocations = true
        · -- the block allocation fails; the vector may have grown all the same
          simp only [blockAlloc, Heap.attempt, hok, Bool.not_true, Bool.false_eq_true, if_false]
          refine ⟨_, rfl, ?_, fun _ => ⟨hres.size, hres.same.size, fun _ => ?_⟩⟩
          · exact { hs' with
              inv := { hs'.inv with blocks := hs'.inv.blocks }
              allocations := Nat.le_succ_of_le hs'.allocations }
          · refine ⟨h'.allocations, ?_, Nat.lt_succ_self _, ?_⟩
            · rw [← hheap]
              exact hres.allocations
            · rw [← hheap, ← hres.fails]
              exact hok
        · have hsize : 0 < s.fifo.size := by
            apply Nat.pos_of_ne_zero
            intro hzero
            exact hempty ⟨hzero, hoffset, hwants, growthRefused_of_reserved hrun hok⟩
          simp only [blockAlloc, Heap.attempt, hok, Bool.not_false, if_true,
            checkedSub_of_le (show f'.blocks.size + 1 ≤ f'.blocks.capacity by omega),
            Option.bind_some, Blocks.set,
            if_pos (show f'.blocks.capacity - (f'.blocks.size + 1) < f'.blocks.capacity by omega)]
          refine ⟨_, rfl, ?_, by simp⟩
          exact hs'.addBlock (hres.offset.trans hoffset) (by simpa only [hres.size] using hsize)
            hroom
            { h' with
              allocations := h'.allocations + 1
              nextBlock := h'.nextBlock + 1 }
            rfl rfl rfl (Nat.le_succ _)
  · rw [if_neg hgrow]
    refine ⟨s, rfl, hs, fun hfree => ⟨rfl, rfl, fun hwants => ?_⟩⟩
    simp [hfree, hwants] at hgrow

/-- The second `if` of a push: without room on the left, the deque is full. -/
theorem shiftOnTheLeft_spec {c : Config} {h₀ : Heap α} {q : List α} {s : PushState α}
    (hs : PushInv c h₀ q s) :
    ∃ s', shiftOnTheLeft c s = some s' ∧ PushInv c h₀ q s' ∧
      (s'.freeSpaceOnTheLeft = false →
        s' = s ∧ s.fifo.size = s.fifo.blocks.size * c.blockSize) := by
  unfold shiftOnTheLeft
  by_cases hshift :
      (!s.freeSpaceOnTheLeft && s.fifo.size != s.fifo.blocks.size * c.blockSize) = true
  · rw [if_pos hshift]
    simp only [Bool.and_eq_true, Bool.not_eq_true', bne_iff_ne] at hshift
    obtain ⟨h', hrun, hsame, hcontents⟩ := rightshiftElements_spec hs.inv
    have hfits := hs.inv.fits
    have hpred := pred_mul_add c.blockSize hs.inv.blocks.size_pos
    have hB := c.blockSize_pos
    have hne : s.fifo.blocks.size * c.blockSize - s.fifo.size ≠ 0 := by omega
    simp only [hrun, Option.bind_eq_bind, Option.bind_some]
    refine ⟨_, rfl, ?_, by simp [hne]⟩
    exact
      { inv :=
          { blocks := by simpa only [hsame.nextBlock] using hs.inv.blocks
            fits := by simp only; omega
            lastBlock := by left; simp only; omega }
        contents := hcontents.trans hs.contents
        capacity := hs.capacity
        left := hs.left
        flag := rfl
        fails := hsame.fails.trans hs.fails
        allocations := by simpa only [hsame.allocations] using hs.allocations }
  · rw [if_neg hshift]
    refine ⟨s, rfl, hs, fun hfree => ⟨rfl, ?_⟩⟩
    simpa [hfree] using hshift

/-- The third `if` of a push: with room on the left, the C expression leads
to the cell left of the elements. -/
theorem claimOnTheLeft_spec {c : Config} {h₀ : Heap α} {q : List α} {s : PushState α}
    (hs : PushInv c h₀ q s) (hspace : s.freeSpaceOnTheLeft = true) :
    0 < s.fifo.firstElementOffset ∧
    claimOnTheLeft c s =
      some (some (cellPtr c s.fifo.blocks (gap c s.fifo + s.fifo.size)),
        { s.fifo with
          size := s.fifo.size + 1
          firstElementOffset := s.fifo.firstElementOffset - 1 }, s.heap) := by
  have hoffset : 0 < s.fifo.firstElementOffset := by
    have hflag := hs.flag
    rw [hspace] at hflag
    have : s.fifo.firstElementOffset ≠ 0 := by simpa using hflag.symm
    omega
  refine ⟨hoffset, ?_⟩
  have hrow := hs.inv.gap_add_size
  have hcell : gap c s.fifo + s.fifo.size < s.fifo.blocks.size * c.blockSize := by omega
  obtain ⟨hdiv, hmod⟩ := mirror_div_mod c.blockSize_pos hcell
  have hmirror : s.fifo.blocks.size * c.blockSize - 1 - (gap c s.fifo + s.fifo.size) =
      s.fifo.firstElementOffset - 1 := by omega
  rw [hmirror] at hdiv hmod
  have hlt := cell_lt_blocks hcell
  unfold cellPtr
  generalize (gap c s.fifo + s.fifo.size) / c.blockSize = j at hdiv hlt ⊢
  obtain ⟨hslot, hblock⟩ := hs.left (s.fifo.blocks.size - 1 - j) (by omega)
  rw [show s.fifo.blocks.size - 1 - (s.fifo.blocks.size - 1 - j) = j by omega] at hblock
  simp only [claimOnTheLeft, hspace, if_true, Option.bind_eq_bind, Option.bind_some,
    checkedSub_of_le (show 1 ≤ s.fifo.firstElementOffset by omega),
    checkedSub_of_le hs.capacity, hdiv, Blocks.get, if_pos hslot, hblock, hmod]

/-- Writing the cell left of the elements appends to the queue. -/
theorem contents_append {c : Config} {f f' : BufferFifo} {h h' : Heap α} {e : α}
    (hblocks : f'.blocks = f.blocks) (hsize : f'.size = f.size + 1) (hgap : gap c f' = gap c f)
    (hroom : gap c f + f.size < f.blocks.size * c.blockSize)
    (hcells : ∀ q, q < f.blocks.size * c.blockSize → cellAt c f.blocks h' q =
      if q = gap c f + f.size then e else cellAt c f.blocks h q) :
    contents c f' h' = contents c f h ++ [e] := by
  simp only [contents, hblocks, hsize, hgap, List.range_succ, List.map_append, List.map_cons,
    List.map_nil]
  congr 1
  · apply List.map_congr_left
    intro k hk
    have hk' := List.mem_range.mp hk
    rw [hcells _ (by omega), if_neg (by omega)]
  · rw [hcells _ hroom, if_pos rfl]

/-! ## Push -/

/-- **Push.**  An accepted element joins the queue at the back; a push is
rejected only when every cell is in use and an allocation of this very call
failed, and then nothing changes. -/
theorem pushBack_spec_of_not_growsEmpty {c : Config} {f : BufferFifo} {h : Heap α}
    (hempty : ¬ GrowsEmpty c f h) (hf : Inv c f h) (e : α) :
    ∃ ok f' h', pushBack c f h e = some (ok, f', h') ∧ Inv c f' h' ∧
      contents c f' h' = (if ok then contents c f h ++ [e] else contents c f h) ∧
      (ok = false → f.size = f.blocks.size * c.blockSize ∧ h.FailedSince h') ∧
      h'.fails = h.fails ∧ h.allocations ≤ h'.allocations := by
  have hs₀ : PushInv c h (contents c f h)
      ⟨f, h, f.blocks.capacity, f.firstElementOffset != 0⟩ :=
    { inv := hf
      contents := rfl
      capacity := hf.blocks.size_le_capacity
      left := left_of_capacity hf.blocks
      flag := rfl
      fails := rfl
      allocations := Nat.le_refl _ }
  obtain ⟨s₁, hrun₁, hs₁, hfree₁⟩ := allocateOnTheLeft_spec hempty hs₀ rfl rfl
  obtain ⟨s₂, hrun₂, hs₂, hfree₂⟩ := shiftOnTheLeft_spec hs₁
  cases hspace : s₂.freeSpaceOnTheLeft with
  | false =>
      obtain ⟨rfl, hfull⟩ := hfree₂ hspace
      obtain ⟨hsize, hblocks, hfailed⟩ := hfree₁ hspace
      dsimp only at hsize hblocks hfailed
      have hfull₀ : f.size = f.blocks.size * c.blockSize := by rw [← hsize, ← hblocks, hfull]
      refine ⟨false, s₂.fifo, s₂.heap, ?_, hs₂.inv, by simpa using hs₂.contents, ?_,
        hs₂.fails, hs₂.allocations⟩
      · simp only [pushBack, shiftBackLeft, hrun₁, hrun₂, Option.bind_eq_bind, Option.bind_some,
          claimOnTheLeft, hspace, Bool.false_eq_true, if_false]
      · exact fun _ => ⟨hfull₀, hfailed (wantsMoreMemory_of_full c hfull₀)⟩
  | true =>
      obtain ⟨hoffset, hclaim⟩ := claimOnTheLeft_spec hs₂ hspace
      have hrow := hs₂.inv.gap_add_size
      have hlast := hs₂.inv.lastBlock
      have hcell : gap c s₂.fifo + s₂.fifo.size < s₂.fifo.blocks.size * c.blockSize := by omega
      obtain ⟨h', hwrite, hsame, hcells⟩ := write_cellPtr hs₂.inv.blocks.separate hcell e
      refine ⟨true, { s₂.fifo with
          size := s₂.fifo.size + 1
          firstElementOffset := s₂.fifo.firstElementOffset - 1 }, h', ?_, ?_, ?_, by simp,
        hsame.fails.trans hs₂.fails, ?_⟩
      · simp only [pushBack, shiftBackLeft, hrun₁, hrun₂, Option.bind_eq_bind, Option.bind_some,
          hclaim, hwrite]
      · exact
          { blocks := by simpa only [hsame.nextBlock] using hs₂.inv.blocks
            fits := by simp only; omega
            lastBlock := by left; simp only; omega }
      · rw [if_pos rfl, ← hs₂.contents]
        exact contents_append rfl rfl (by simp only [gap]; omega) hcell hcells
      · simpa only [hsame.allocations] using hs₂.allocations

/-- With a positive filling ratio, no deque gets a block while it is empty. -/
theorem pushBack_spec {c : Config} (hr : 0 < c.shiftFillingRatio) {f : BufferFifo} {h : Heap α}
    (hf : Inv c f h) (e : α) :
    ∃ ok f' h', pushBack c f h e = some (ok, f', h') ∧ Inv c f' h' ∧
      contents c f' h' = (if ok then contents c f h ++ [e] else contents c f h) ∧
      (ok = false → f.size = f.blocks.size * c.blockSize ∧ h.FailedSince h') ∧
      h'.fails = h.fails ∧ h.allocations ≤ h'.allocations :=
  pushBack_spec_of_not_growsEmpty (not_growsEmpty hr h hf.blocks.size_pos) hf e

/-! ## Pop -/

/-- With the last block empty, the elements and the cells left of them in
their first block fill whole blocks. -/
theorem elements_eq_blocks {B n offset size : Nat}
    (hrow : offset + size = (n - 1) * B) :
    offset % B + size = (n - 1 - offset / B) * B := by
  have hdm := Nat.div_add_mod offset B
  rw [Nat.sub_mul, ← hrow, Nat.mul_comm (offset / B)]
  omega

/-- The loop bound of the rotation is the distance of the block the offset
lies in from the right. -/
theorem moved_eq {B n offset size : Nat} (hB : 0 < B) (hrow : offset + size = (n - 1) * B) :
    (offset % B + size) / B = n - 1 - offset / B := by
  rw [elements_eq_blocks hrow, Nat.mul_div_cancel _ hB]

/-- Rotation leaves every element where it is, seen from the queue. -/
theorem rotate_contents {c : Config} {f : BufferFifo} {h : Heap α} {v' : Blocks}
    (hblocks : 1 < f.blocks.size)
    (hrow : f.firstElementOffset + f.size = (f.blocks.size - 1) * c.blockSize)
    (hsize : v'.size = f.blocks.size)
    (hright : ∀ j, j < f.blocks.size - 1 - f.firstElementOffset / c.blockSize →
      v'.fromRight j = f.blocks.fromRight (j + 1)) :
    contents c { f with
      blocks := v'
      firstElementOffset := f.firstElementOffset + c.blockSize } h = contents c f h := by
  have hB := c.blockSize_pos
  have hpred := pred_mul_add c.blockSize (show 0 < f.blocks.size by omega)
  refine contents_congr (f := f) rfl ?_
  intro k hk
  have hgap : gap c f = c.blockSize := by
    simp only [gap]
    omega
  have hgap' : gap c { f with
      blocks := v'
      firstElementOffset := f.firstElementOffset + c.blockSize } = 0 := by
    simp only [gap, hsize]
    omega
  rw [hgap, hgap']
  have hdiv : (c.blockSize + k) / c.blockSize = k / c.blockSize + 1 := by
    rw [Nat.add_comm, Nat.add_div_right k hB]
  have hmod : (c.blockSize + k) % c.blockSize = k % c.blockSize := Nat.add_mod_left _ _
  have hk' : k / c.blockSize < f.blocks.size - 1 - f.firstElementOffset / c.blockSize := by
    have hsum := elements_eq_blocks hrow
    apply cell_lt_blocks
    omega
  simp only [cellAt, cellPtr, Nat.zero_add, hdiv, hmod]
  rw [hright _ hk']

/-- The rotated vector holds the same blocks in another order. -/
theorem BlocksInv.rotate {v v' : Blocks} {nextBlock moved : Nat} (hv : BlocksInv v nextBlock)
    (hmoved : moved < v.size) (hsize : v'.size = v.size) (hcapacity : v'.capacity = v.capacity)
    (hright : ∀ j, j < v.size → v'.fromRight j =
      if j < moved then v.fromRight (j + 1)
      else if j = moved then v.fromRight 0 else v.fromRight j) : BlocksInv v' nextBlock := by
  -- `source j` is the old position of the block now at position `j`
  let source : Nat → Nat := fun j => if j < moved then j + 1 else if j = moved then 0 else j
  have hsource : ∀ j, j < v.size → source j < v.size ∧ v'.fromRight j = v.fromRight (source j) := by
    intro j hj
    rw [hright j hj]
    simp only [source]
    split
    · exact ⟨by omega, rfl⟩
    · split
      · exact ⟨by omega, rfl⟩
      · exact ⟨hj, rfl⟩
  refine
    { size_pos := hsize ▸ hv.size_pos
      size_le_capacity := by rw [hsize, hcapacity]; exact hv.size_le_capacity
      capacity_pow := hcapacity ▸ hv.capacity_pow
      distinct := ?_
      allocated := ?_ }
  · intro i j hi hj heq
    rw [hsize] at hi hj
    rw [(hsource i hi).2, (hsource j hj).2] at heq
    have hinj := hv.distinct _ _ (hsource i hi).1 (hsource j hj).1 heq
    simp only [source] at hinj
    split at hinj <;> split at hinj <;> (try split at hinj) <;> (try split at hinj) <;> omega
  · intro i hi
    rw [hsize] at hi
    rw [(hsource i hi).2]
    exact hv.allocated _ (hsource i hi).1

/-- The deque with its oldest element taken out, before any rotation. -/
def dropOldest (f : BufferFifo) : BufferFifo := { f with size := f.size - 1 }

/-- Taking out the oldest element takes out the head of the queue. -/
theorem contents_dropOldest {c : Config} {f : BufferFifo} {h : Heap α} (hf : Inv c f h)
    (hne : f.size ≠ 0) :
    contents c f h = cellAt c f.blocks h (gap c f) :: contents c (dropOldest f) h := by
  have hfits := hf.fits
  have hgap : gap c (dropOldest f) = gap c f + 1 := by
    simp only [gap, dropOldest]
    omega
  simp only [contents, hgap]
  rw [show f.size = (f.size - 1) + 1 by omega, List.range_succ_eq_map]
  simp only [dropOldest, List.map_cons, List.map_map, Nat.add_zero]
  congr 1
  apply List.map_congr_left
  intro k _
  simp only [Function.comp_apply]
  congr 1
  omega

/-- The oldest element lies in the last block. -/
theorem gap_lt_blockSize {c : Config} {f : BufferFifo} {h : Heap α} (hf : Inv c f h)
    (hne : f.size ≠ 0) : gap c f < c.blockSize := by
  have hrow := hf.gap_add_size
  have hpred := pred_mul_add c.blockSize hf.blocks.size_pos
  rcases hf.lastBlock with hlast | ⟨_, _, hzero⟩
  · omega
  · exact absurd hzero hne

/-- A pop reads the oldest element; the last block is moved to the left when
nothing is left in it. -/
theorem popFront_eq {c : Config} {f : BufferFifo} {h : Heap α} (hf : Inv c f h)
    (hne : f.size ≠ 0) :
    popFront c f h false =
      if gap c f = c.blockSize - 1 ∧ f.blocks.size ≠ 1 then
        (rotateBlocks c (dropOldest f) f.blocks.capacity (f.blocks.fromRight 0)).map
          fun f' => (some (cellAt c f.blocks h (gap c f)), f')
      else some (some (cellAt c f.blocks h (gap c f)), dropOldest f) := by
  have hrow := hf.gap_add_size
  have hcap := hf.blocks.size_le_capacity
  have hpos := hf.blocks.size_pos
  have hgapB := gap_lt_blockSize hf hne
  have hread := read_cellPtr (c := c) hf.blocks.separate
    (show gap c f < f.blocks.size * c.blockSize by omega)
  have hptr : cellPtr c f.blocks (gap c f) =
      (f.blocks.fromRight 0, c.blockSize - gap c f - 1) := by
    simp only [cellPtr, Nat.div_eq_of_lt hgapB, Nat.mod_eq_of_lt hgapB]
    congr 1
    omega
  rw [hptr] at hread
  have hgap : f.blocks.size * c.blockSize - (f.size + f.firstElementOffset) = gap c f := by
    unfold gap
    omega
  have hget : f.blocks.get (f.blocks.capacity - 1) = some (f.blocks.fromRight 0) :=
    get_fromRight (v := f.blocks) (j := 0) (by omega)
  simp only [popFront, shiftFrontLeft, if_neg hne, Option.bind_eq_bind, Option.bind_some,
    checkedSub_of_le (show f.size + f.firstElementOffset ≤
      f.blocks.size * c.blockSize by omega), hgap,
    checkedSub_of_le (show 1 ≤ f.blocks.capacity by omega), hget,
    checkedSub_of_le (Nat.le_of_lt hgapB),
    checkedSub_of_le (show 1 ≤ c.blockSize - gap c f by omega)]
  by_cases hrotate : gap c f = c.blockSize - 1 ∧ f.blocks.size ≠ 1
  · rw [if_pos hrotate, if_pos hrotate]
    simp only [dropOldest]
    cases rotateBlocks c { f with size := f.size - 1 } f.blocks.capacity
        (f.blocks.fromRight 0) with
    | none => rfl
    | some f' => simp [hread]
  · rw [if_neg hrotate, if_neg hrotate]
    simp only [Option.bind_some, hread, dropOldest]
    rfl

/-- The rotation of a pop, once the last block has no element left: the blocks
`1 … moved` come one closer to the right end, the last one takes the place of
block `moved`. -/
theorem rotate_dropOldest {c : Config} {f : BufferFifo} {h : Heap α} (hf : Inv c f h)
    (hne : f.size ≠ 0) (hrotate : gap c f = c.blockSize - 1 ∧ f.blocks.size ≠ 1) :
    ∃ v' moved, rotateBlocks c (dropOldest f) f.blocks.capacity (f.blocks.fromRight 0) =
        some ⟨v', f.size - 1, f.firstElementOffset + c.blockSize⟩ ∧
      (dropOldest f).firstElementOffset + (dropOldest f).size =
        ((dropOldest f).blocks.size - 1) * c.blockSize ∧
      moved = f.blocks.size - 1 - f.firstElementOffset / c.blockSize ∧ moved < f.blocks.size ∧
      v'.size = f.blocks.size ∧ v'.capacity = f.blocks.capacity ∧
      ∀ j, j < f.blocks.size → v'.fromRight j =
        if j < moved then f.blocks.fromRight (j + 1)
        else if j = moved then f.blocks.fromRight 0 else f.blocks.fromRight j := by
  have hB := c.blockSize_pos
  have hpos := hf.blocks.size_pos
  have hgap := hf.gap_add_size
  have hpred := pred_mul_add c.blockSize hpos
  have hrow : (dropOldest f).firstElementOffset + (dropOldest f).size =
      ((dropOldest f).blocks.size - 1) * c.blockSize := by
    simp only [dropOldest]
    omega
  have hlt : f.blocks.size - 1 - f.firstElementOffset / c.blockSize < f.blocks.size :=
    Nat.lt_of_le_of_lt (Nat.sub_le _ _) (Nat.sub_lt hpos Nat.one_pos)
  obtain ⟨v', hrun, hsize, hcapacity, hright⟩ :=
    rotateBlocks_spec (f := dropOldest f) hf.blocks.size_le_capacity (moved_eq hB hrow) hlt
  exact ⟨v', _, hrun, hrow, rfl, hlt, hsize, hcapacity, hright⟩

/-- **Pop.**  An empty queue answers `false`; otherwise the oldest element
is stored through `ret` and leaves the queue. -/
theorem popFront_spec {c : Config} {f : BufferFifo} {h : Heap α} (hf : Inv c f h) :
    ∃ r f', popFront c f h false = some (r, f') ∧ Inv c f' h ∧
      ((r = none ∧ f' = f ∧ contents c f h = []) ∨
        ∃ e, r = some e ∧ contents c f h = e :: contents c f' h) := by
  by_cases hne : f.size = 0
  · refine ⟨none, f, ?_, hf, .inl ⟨rfl, rfl, ?_⟩⟩
    · simp [popFront, shiftFrontLeft, hne]
    · simp [contents, hne]
  have hrow := hf.gap_add_size
  have hpos := hf.blocks.size_pos
  have hpred := pred_mul_add c.blockSize hpos
  have hgapB := gap_lt_blockSize hf hne
  have heq := popFront_eq hf hne
  have hhead := contents_dropOldest hf hne
  by_cases hrotate : gap c f = c.blockSize - 1 ∧ f.blocks.size ≠ 1
  · obtain ⟨v', moved, hrun, hrow', hmoved, hlt, hsize, hcapacity, hright⟩ :=
      rotate_dropOldest hf hne hrotate
    rw [if_pos hrotate] at heq
    refine ⟨some (cellAt c f.blocks h (gap c f)),
      ⟨v', f.size - 1, f.firstElementOffset + c.blockSize⟩, ?_, ?_, .inr ⟨_, rfl, ?_⟩⟩
    · rw [heq]
      exact congrArg (Option.map _) hrun
    · simp only [dropOldest] at hrow'
      exact
        { blocks := hf.blocks.rotate hlt hsize hcapacity hright
          fits := by simp only [hsize]; omega
          lastBlock := by left; simp only [hsize]; omega }
    · subst hmoved
      rw [hhead, ← rotate_contents (f := dropOldest f) (by simp only [dropOldest]; omega) hrow'
        hsize fun j hj => (hright j (Nat.lt_trans hj hlt)).trans (if_pos hj)]
      rfl
  · rw [if_neg hrotate] at heq
    refine ⟨_, _, heq, ?_, .inr ⟨_, rfl, hhead⟩⟩
    refine { blocks := hf.blocks, fits := by simp only [dropOldest]; omega, lastBlock := ?_ }
    simp only [dropOldest]
    by_cases hone : f.blocks.size = 1
    · by_cases hzero : f.firstElementOffset = 0 ∧ f.size - 1 = 0
      · exact .inr ⟨hone, hzero.1, hzero.2⟩
      · left
        rw [hone]
        omega
    · have hne' : gap c f ≠ c.blockSize - 1 := fun heq => hrotate ⟨heq, hone⟩
      left
      omega

end Mtdp.Fifo
