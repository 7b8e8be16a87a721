import Mtdp.Fifo.Refinement

/-!
# The contiguous buffer FIFO

`src/buffer.c` with `MTDP_BUFFER_FIFO_BLOCKS` set: the cells are one array
embedded in the FIFO, and neither the block vector nor the heap is involved.
It is a second implementation of the interface of `Mtdp.Fifo.Refinement`,
with its own offsets, shift and front index.

The push of this configuration moves the offset but never counts the element,
so `size` stays 0 for ever.  `contiguous_is_bounded_queue_iff` draws the
consequence: the FIFO behaves as the documented bounded queue on a sequence
of calls exactly when nothing is ever pushed.
-/

namespace Mtdp.Fifo

open Mtdp.Lib.Queue

variable {α : Type}

/-- The compile-time settings of the contiguous configuration. -/
structure ContiguousConfig where
  /-- `MTDP_BUFFER_FIFO_BLOCKS` -/
  blocks : Nat
  /-- `MTDP_BUFFER_FIFO_BLOCK_SIZE` -/
  blockSize : Nat
  blocks_pos : 0 < blocks
  blockSize_pos : 0 < blockSize

/-- `MTDP_BUFFER_FIFO_BLOCK_SIZE * MTDP_BUFFER_FIFO_BLOCKS` -/
def ContiguousConfig.cells (c : ContiguousConfig) : Nat := c.blockSize * c.blocks

theorem ContiguousConfig.blocks_le_cells (c : ContiguousConfig) : c.blocks ≤ c.cells :=
  Nat.le_mul_of_pos_left _ c.blockSize_pos

/-- `mtdp_buffer_fifo` with an embedded array of cells. -/
structure ContiguousFifo (α : Type) where
  buf : Nat → α
  size : Nat
  firstElementOffset : Nat

namespace Contiguous

/-- Read a cell of the array. -/
def read (c : ContiguousConfig) (f : ContiguousFifo α) (i : Nat) : Option α :=
  if i < c.cells then some (f.buf i) else none

/-- Write a cell of the array. -/
def write (c : ContiguousConfig) (f : ContiguousFifo α) (i : Nat) (e : α) :
    Option (ContiguousFifo α) :=
  if i < c.cells then some { f with buf := Function.update f.buf i e } else none

/-- `mtdp_buffer_fifo_init`: the cells keep what the memory held. -/
def init (c : ContiguousConfig) (memory : Nat → α) : ContiguousFifo α :=
  { buf := memory, size := 0, firstElementOffset := c.blocks }

/-- The first `k` iterations of the loop of
`mtdp_buffer_fifo_rightshift_elements`; the C counter starts at 1. -/
def rightshiftLoop (c : ContiguousConfig) (f : ContiguousFifo α) :
    Nat → Option (ContiguousFifo α)
  | 0 => some f
  | k + 1 => do
      let f ← rightshiftLoop c f k
      let target ← checkedSub c.cells (k + 1)
      let source ← checkedSub (f.firstElementOffset + f.size) (k + 1)
      let e ← read c f source
      write c f target e

/-- `mtdp_buffer_fifo_rightshift_elements` -/
def rightshiftElements (c : ContiguousConfig) (f : ContiguousFifo α) :
    Option (ContiguousFifo α) := do
  let f ← rightshiftLoop c f f.size
  let offset ← checkedSub c.cells f.size
  some { f with firstElementOffset := offset }

/-- `mtdp_buffer_fifo_shift_back_left`, `none` for `NULL`.  Unlike the block
vector version it leaves `size` alone. -/
def shiftBackLeft (c : ContiguousConfig) (f : ContiguousFifo α) :
    Option (Option Nat × ContiguousFifo α) := do
  let f ←
    if f.firstElementOffset = 0 ∧ f.size ≠ c.cells then rightshiftElements c f else some f
  if f.firstElementOffset ≠ 0 then do
    let offset ← checkedSub f.firstElementOffset 1
    some (some offset, { f with firstElementOffset := offset })
  else some (none, f)

/-- `mtdp_buffer_fifo_push_back` -/
def pushBack (c : ContiguousConfig) (f : ContiguousFifo α) (e : α) :
    Option (Bool × ContiguousFifo α) := do
  let (back, f) ← shiftBackLeft c f
  match back with
  | none => some (false, f)
  | some p =>
      let f ← write c f p e
      some (true, f)

/-- `mtdp_buffer_fifo_shift_front_left`, `none` for `NULL`. -/
def shiftFrontLeft (c : ContiguousConfig) (f : ContiguousFifo α) :
    Option (Option Nat × ContiguousFifo α) :=
  if f.size ≠ 0 then do
    let index ← checkedSub c.cells (f.firstElementOffset + f.size)
    let index ← checkedSub index 1
    let f := { f with size := f.size - 1 }
    let last ← checkedSub c.cells 1
    let f := if f.size = 0 then { f with firstElementOffset := last } else f
    some (some index, f)
  else some (none, f)

/-- `mtdp_buffer_fifo_pop_front` -/
def popFront (c : ContiguousConfig) (f : ContiguousFifo α) :
    Option (Option α × ContiguousFifo α) := do
  let (back, f) ← shiftFrontLeft c f
  match back with
  | none => some (none, f)
  | some p =>
      let e ← read c f p
      some (some e, f)

/-- One call with what the caller gets to see. -/
def fifoCall (c : ContiguousConfig) : ContiguousFifo α → FifoCall α →
    Option (Event α Unit × ContiguousFifo α)
  | f, .pushBack e => do
      let (ok, f) ← pushBack c f e
      some (.push e ok () f.size, f)
  | f, .popFront => do
      let (r, f) ← popFront c f
      some (.pop r f.size, f)

/-! ## What the calls really do -/

/-- The states a run can be in: nothing is ever counted. -/
structure Uncounted (c : ContiguousConfig) (f : ContiguousFifo α) : Prop where
  size : f.size = 0
  offset : f.firstElementOffset ≤ c.cells

theorem init_uncounted (c : ContiguousConfig) (memory : Nat → α) :
    Uncounted c (init c memory) :=
  ⟨rfl, c.blocks_le_cells⟩

/-- Every push is accepted, and none is counted. -/
theorem pushBack_uncounted {c : ContiguousConfig} {f : ContiguousFifo α} (hf : Uncounted c f)
    (e : α) : ∃ f', pushBack c f e = some (true, f') ∧ Uncounted c f' := by
  obtain ⟨buf, size, offset⟩ := f
  obtain ⟨rfl, hoffset⟩ := hf
  dsimp only at hoffset
  have hcells : 0 < c.cells := Nat.lt_of_lt_of_le c.blocks_pos c.blocks_le_cells
  by_cases hzero : offset = 0
  · -- with no element to move, the shift only resets the offset
    subst hzero
    have hne : (0 : Nat) ≠ c.cells := by omega
    have hne' : c.cells ≠ 0 := by omega
    refine ⟨⟨Function.update buf (c.cells - 1) e, 0, c.cells - 1⟩, ?_, rfl, Nat.sub_le _ _⟩
    simp only [pushBack, shiftBackLeft, rightshiftElements, rightshiftLoop, hne, ne_eq,
      not_false_eq_true, and_self, if_true, Option.bind_eq_bind, Option.bind_some,
      checkedSub_of_le (Nat.zero_le c.cells), Nat.sub_zero, hne',
      checkedSub_of_le (show 1 ≤ c.cells by omega), write,
      if_pos (show c.cells - 1 < c.cells by omega)]
  · refine ⟨⟨Function.update buf (offset - 1) e, 0, offset - 1⟩, ?_, rfl, ?_⟩
    · simp only [pushBack, shiftBackLeft, hzero, false_and, if_false, ne_eq, not_false_eq_true,
        if_true, Option.bind_eq_bind, Option.bind_some,
        checkedSub_of_le (show 1 ≤ offset by omega), write,
        if_pos (show offset - 1 < c.cells by omega)]
    · exact Nat.le_trans (Nat.sub_le _ _) hoffset

/-- Every pop finds the FIFO empty. -/
theorem popFront_uncounted {c : ContiguousConfig} {f : ContiguousFifo α} (hf : Uncounted c f) :
    popFront c f = some (none, f) := by
  simp [popFront, shiftFrontLeft, hf.size]

/-- The events such a FIFO produces: pushes succeed, pops fail, and the size
reads 0 throughout. -/
def forgetful : FifoCall α → Event α Unit
  | .pushBack e => .push e true () 0
  | .popFront => .pop none 0

theorem fifoCall_uncounted {c : ContiguousConfig} {f : ContiguousFifo α} (hf : Uncounted c f)
    (call : FifoCall α) :
    ∃ f', fifoCall c f call = some (forgetful call, f') ∧ Uncounted c f' := by
  cases call with
  | pushBack e =>
      obtain ⟨f', hrun, hf'⟩ := pushBack_uncounted hf e
      exact ⟨f', by simp [fifoCall, hrun, forgetful, hf'.size], hf'⟩
  | popFront => exact ⟨f, by simp [fifoCall, popFront_uncounted hf, forgetful, hf.size], hf⟩

/-- No run leaves the array, and its events are the forgetful ones. -/
theorem run_uncounted {c : ContiguousConfig} (calls : List (FifoCall α)) :
    ∀ f : ContiguousFifo α, Uncounted c f →
      ∃ f', run (fifoCall c) f calls = some (calls.map forgetful, f') ∧ Uncounted c f' := by
  induction calls with
  | nil => exact fun f hf => ⟨f, rfl, hf⟩
  | cons call calls ih =>
      intro f hf
      obtain ⟨f₁, hcall, hf₁⟩ := fifoCall_uncounted hf call
      obtain ⟨f₂, hrun, hf₂⟩ := ih f₁ hf₁
      exact ⟨f₂, by simp [run, hcall, hrun], hf₂⟩

/-! ## The bounded queue it was meant to be -/

/-- A push is accepted exactly while a cell is free. -/
def acceptsWhileFree (c : ContiguousConfig) : Policy α Unit := fun q ok _ =>
  ok = true ↔ q.length < c.cells

/-- On this sequence of calls the FIFO stays inside its array and shows its
caller what a queue bounded by the number of cells would show. -/
def IsBoundedQueue (c : ContiguousConfig) (memory : Nat → α) (calls : List (FifoCall α)) : Prop :=
  ∃ events f q, run (fifoCall c) (init c memory) calls = some (events, f) ∧
    Trace (acceptsWhileFree c) [] events q

/-- The call is a push. -/
def isPush : FifoCall α → Bool
  | .pushBack _ => true
  | .popFront => false

/-- A list queue explains forgetful events only when there is no push among
the calls. -/
theorem trace_forgetful_iff (c : ContiguousConfig) (calls : List (FifoCall α)) :
    (∃ q, Trace (acceptsWhileFree c) [] (calls.map forgetful) q) ↔
      ∀ call ∈ calls, isPush call = false := by
  induction calls with
  | nil => exact ⟨fun _ _ hcall => (List.not_mem_nil hcall).elim, fun _ => ⟨[], .nil []⟩⟩
  | cons call calls ih =>
      cases call with
      | pushBack e =>
          constructor
          · rintro ⟨q, htrace⟩
            cases htrace with
            | cons hstep _ => cases hstep
          · intro h
            have := h (.pushBack e) (by simp)
            simp [isPush] at this
      | popFront =>
          constructor
          · rintro ⟨q, htrace⟩
            cases htrace with
            | cons hstep hrest =>
                cases hstep
                intro call hcall
                rcases List.mem_cons.mp hcall with rfl | hmem
                · rfl
                · exact ih.mp ⟨q, hrest⟩ call hmem
          · intro h
            obtain ⟨q, htrace⟩ := ih.mpr fun call hcall => h call (by simp [hcall])
            exact ⟨q, .cons .empty htrace⟩

/-- **The contiguous FIFO is the documented bounded queue exactly on the
sequences of calls that push nothing.** -/
theorem contiguous_is_bounded_queue_iff (c : ContiguousConfig) (memory : Nat → α)
    (calls : List (FifoCall α)) :
    IsBoundedQueue c memory calls ↔ ∀ call ∈ calls, isPush call = false := by
  obtain ⟨f, hrun, _⟩ := run_uncounted calls (init c memory) (init_uncounted c memory)
  rw [← trace_forgetful_iff c calls]
  constructor
  · rintro ⟨events, f', q, hrun', htrace⟩
    rw [hrun, Option.some.injEq, Prod.mk.injEq] at hrun'
    obtain ⟨rfl, _⟩ := hrun'
    exact ⟨q, htrace⟩
  · rintro ⟨q, htrace⟩
    exact ⟨_, f, q, hrun, htrace⟩

/-- Four blocks of sixteen cells: the one element pushed is not counted and
never comes out. -/
theorem contiguous_loses_the_first_push :
    ¬ IsBoundedQueue ⟨4, 16, by decide, by decide⟩ (fun _ => 0) [.pushBack 7, .popFront] := by
  rintro ⟨events, f, q, hrun, htrace⟩
  have hevents : events = [.push 7 true () 0, .pop none 0] :=
    (congrArg Prod.fst (Option.some.inj hrun)).symm
  subst hevents
  cases htrace with
  | cons hstep _ => cases hstep

end Contiguous

end Mtdp.Fifo
