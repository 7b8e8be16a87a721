import Mtdp.Fifo.Contiguous

/-!
# The right shift in both implementations

`mtdp_buffer_fifo_rightshift_elements` of `src/buffer.c`, once over the array
that is embedded in the FIFO and once over blocks behind a vector.  Both move
the last element first, so that source and destination may overlap.

## Main results

* `Contiguous.rightshiftElements_atRightEnd` — the shift in the array.
* `rightshift_in_place` — both shifts, from any offset and size, for any number
  of blocks and any number of slots to their left.
-/

namespace Mtdp.Fifo

open Lib.Move

variable {α : Type}

/-! ## The shift in the array -/

namespace Contiguous

/-- The cells that iteration `i` of the copy loop reads and writes. -/
def rightshiftCells (c : ContiguousConfig) (firstElementOffset size i : Nat) :
    Option (Nat × Nat) := do
  let target ← checkedSub c.cells (i + 1)
  let source ← checkedSub (firstElementOffset + size) (i + 1)
  some (source, target)

/-- An iteration is these index computations, a read and a write. -/
theorem rightshiftLoop_succ (c : ContiguousConfig) (f : ContiguousFifo α) (k : Nat) :
    rightshiftLoop c f (k + 1) =
      (rightshiftLoop c f k).bind fun f =>
        (rightshiftCells c f.firstElementOffset f.size k).bind fun cells =>
          (read c f cells.1).bind fun e => write c f cells.2 e := by
  simp only [rightshiftLoop, rightshiftCells, Option.bind_eq_bind, Option.bind_assoc,
    Option.bind_some]

theorem rightshiftCells_eq {c : ContiguousConfig} {offset size i : Nat}
    (hfits : offset + size ≤ c.cells) (hi : i < size) :
    rightshiftCells c offset size i = some (offset + size - 1 - i, c.cells - 1 - i) := by
  have hsource : offset + size - (i + 1) = offset + size - 1 - i := by omega
  have htarget : c.cells - (i + 1) = c.cells - 1 - i := by omega
  simp only [rightshiftCells, Option.bind_eq_bind, Option.bind_some,
    checkedSub_of_le (show i + 1 ≤ c.cells by omega),
    checkedSub_of_le (show i + 1 ≤ offset + size by omega), hsource, htarget]

theorem rightshiftLoop_spec {c : ContiguousConfig} {f : ContiguousFifo α}
    (hfits : f.firstElementOffset + f.size ≤ c.cells) (k : Nat) (hk : k ≤ f.size) :
    rightshiftLoop c f k =
      some { f with
        buf := moved (fun i => f.firstElementOffset + f.size - 1 - i)
          (fun i => c.cells - 1 - i) f.buf k } := by
  induction k with
  | zero => rfl
  | succ k ih =>
      have hsource : f.firstElementOffset + f.size - 1 - k < c.cells := by omega
      have htarget : c.cells - 1 - k < c.cells := by omega
      rw [rightshiftLoop_succ, ih (by omega), Option.bind_some, rightshiftCells_eq hfits hk]
      simp only [Option.bind_some, read, if_pos hsource, write, if_pos htarget]
      rfl

/-- **The shift in the array.** -/
theorem rightshiftElements_atRightEnd {c : ContiguousConfig} {f : ContiguousFifo α}
    (hfits : f.firstElementOffset + f.size ≤ c.cells) :
    ∃ f', rightshiftElements c f = some f' ∧ f'.size = f.size ∧
      f'.firstElementOffset = c.cells - f.size ∧
      AtRightEnd id c.cells f.firstElementOffset f.size f.buf f'.buf := by
  have hend : AtRightEnd id c.cells f.firstElementOffset f.size f.buf
      (moved (fun i => f.firstElementOffset + f.size - 1 - i) (fun i => c.cells - 1 - i)
        f.buf f.size) :=
    moved_row f.buf (fun p q _ _ heq => heq) hfits (fun i _ => rfl) (fun i _ => rfl)
  refine ⟨⟨_, f.size, c.cells - f.size⟩, ?_, rfl, rfl, hend⟩
  simp only [rightshiftElements, rightshiftLoop_spec hfits f.size (Nat.le_refl _),
    Option.bind_eq_bind, Option.bind_some, checkedSub_of_le (show f.size ≤ c.cells by omega)]

end Contiguous

/-! ## Both -/

/-- A shift of `size` elements from `offset` to the right end of a row.  The
iterations of its loop read and write the cells that `cells` computes, and none
of them writes a cell that a later one reads. -/
structure ShiftsInPlace {A : Type} (cell : Nat → A) (total offset size : Nat)
    (cells : Nat → Option (A × A)) (before after : A → α) : Prop
    extends AtRightEnd cell total offset size before after where
  readsFirst : ∃ source target, (∀ i, i < size → cells i = some (source i, target i)) ∧
    ReadsFirst source target size

/-- **The shift.**  In both implementations the elements come to occupy the last
cells, in the same order, and no cell is written before it has been read.  The
vector may have any number of slots left of its blocks. -/
theorem rightshift_in_place :
    (∀ (c : Config) (f : BufferFifo) (h : Heap α), Separate f.blocks h.nextBlock →
      0 < f.blocks.capacity → f.firstElementOffset + f.size ≤ f.blocks.size * c.blockSize →
      ∃ f' h', rightshiftElements c f h = some (f', h') ∧
        f'.blocks = f.blocks ∧ f'.size = f.size ∧
        f'.firstElementOffset = f.blocks.size * c.blockSize - f.size ∧
        ShiftsInPlace (leftCell c f.blocks) (f.blocks.size * c.blockSize)
          f.firstElementOffset f.size
          (rightshiftCells c f.blocks (f.blocks.capacity - 1)
            (f.blocks.size * c.blockSize - (f.firstElementOffset + f.size)))
          (memory h) (memory h')) ∧
    (∀ (c : ContiguousConfig) (f : ContiguousFifo α),
      f.firstElementOffset + f.size ≤ c.cells →
      ∃ f', Contiguous.rightshiftElements c f = some f' ∧ f'.size = f.size ∧
        f'.firstElementOffset = c.cells - f.size ∧
        ShiftsInPlace id c.cells f.firstElementOffset f.size
          (Contiguous.rightshiftCells c f.firstElementOffset f.size) f.buf f'.buf) := by
  constructor
  · intro c f h hv hpos hfits
    obtain ⟨h', hrun, _, hend⟩ := rightshiftElements_atRightEnd hv hpos hfits
    let delta := f.blocks.size * c.blockSize - (f.firstElementOffset + f.size)
    refine ⟨_, h', hrun, rfl, rfl, rfl, hend, fun i => cellPtr c f.blocks (i + delta),
      cellPtr c f.blocks, ?_, ?_⟩
    · intro i hi
      exact rightshiftCells_eq hv.size_le_capacity (by omega)
    · apply readsFirst_of_row (hv.leftCell_row c) hfits
      · intro i hi
        rw [leftCell_eq hv.size_le_capacity (by omega)]
        congr 1
        omega
      · intro i hi
        rw [leftCell_eq hv.size_le_capacity (by omega)]
        congr 1
        omega
  · intro c f hfits
    obtain ⟨f', hrun, hsize, hoffset, hend⟩ := Contiguous.rightshiftElements_atRightEnd hfits
    refine ⟨f', hrun, hsize, hoffset, hend, fun i => f.firstElementOffset + f.size - 1 - i,
      fun i => c.cells - 1 - i, ?_, ?_⟩
    · intro i hi
      exact Contiguous.rightshiftCells_eq hfits hi
    · have hrow : Row id c.cells := fun p q _ _ heq => heq
      exact readsFirst_of_row hrow hfits (fun i _ => rfl) (fun i _ => rfl)

/-- Two elements that move by one cell, from one block into the other; and three
in an array of four cells. -/
theorem rightshift_in_place_overlapping :
    (∃ f' h', rightshiftElements ⟨2, 1 / 2, by decide, by norm_num, by norm_num⟩
        ⟨⟨id, 2, 5⟩, 2, 1⟩ (⟨fun b i => 10 * b + i, id, 5, 0, fun _ => false⟩ : Heap Nat) =
          some (f', h') ∧
      f'.firstElementOffset = 2 ∧ memory h' (4, 0) = 31 ∧ memory h' (4, 1) = 40) ∧
    (∃ f', Contiguous.rightshiftElements ⟨2, 2, by decide, by decide⟩ ⟨fun i => i, 3, 0⟩ =
        some f' ∧ f'.firstElementOffset = 1 ∧ f'.buf 1 = 0 ∧ f'.buf 2 = 1 ∧ f'.buf 3 = 2) := by
  constructor
  · have hv : Separate ⟨id, 2, 5⟩ 5 := by
      constructor <;> simp only [Blocks.fromRight, id] <;> omega
    obtain ⟨f', h', hrun, _, _, hoffset, hshift⟩ := rightshift_in_place.1
      ⟨2, 1 / 2, by decide, by norm_num, by norm_num⟩ ⟨⟨id, 2, 5⟩, 2, 1⟩
      (⟨fun b i => 10 * b + i, id, 5, 0, fun _ => false⟩ : Heap Nat) hv (by decide) (by decide)
    exact ⟨f', h', hrun, hoffset, hshift.elements 0 (by decide), hshift.elements 1 (by decide)⟩
  · obtain ⟨f', hrun, _, hoffset, hshift⟩ := rightshift_in_place.2 ⟨2, 2, by decide, by decide⟩
      ⟨fun i => i, 3, 0⟩ (by decide)
    exact ⟨f', hrun, hoffset, hshift.elements 0 (by decide), hshift.elements 1 (by decide),
      hshift.elements 2 (by decide)⟩

end Mtdp.Fifo
