import Mathlib.Data.List.Perm.Subperm
import Mtdp.Fifo.Accesses

/-!
# Every block of the heap FIFO has one place

Doubling the vector leaves stale copies of the block pointers behind, and a
pop rotates the pointers.  The live slots name every block the FIFO was given
all the same, each of them once, and `mtdp_buffer_fifo_destroy` frees what
they name and then the vector.

## Main results

* `callStep_blocks` — a call reorders the live blocks or adds the block it has
  just allocated.
* `blocks_owned_once` — the live blocks and the calls of `free` after any run.
-/

namespace Mtdp.Fifo

open Lib.Transition

variable {α : Type}

/-! ## Freeing the blocks -/

/-- What a call of `free` is given. -/
inductive Freed where
  | block (b : Nat)
  | vector
  deriving DecidableEq, Repr

/-- The first `k` iterations of the loop of `mtdp_buffer_fifo_destroy`. -/
def deallocLoop (v : Blocks) : Nat → Option (List Freed)
  | 0 => some []
  | k + 1 => do
      let frees ← deallocLoop v k
      let left ← checkedSub v.capacity k
      let slot ← checkedSub left 1
      let block ← v.get slot
      some (frees ++ [.block block])

/-- `mtdp_buffer_fifo_destroy`, with the calls of `free` in their order. -/
def destroy (f : BufferFifo) : Option (List Freed × BufferFifo) := do
  let frees ← deallocLoop f.blocks f.blocks.size
  some (frees ++ [.vector], { f with blocks := { f.blocks with size := 0, capacity := 0 } })

/-- The blocks in the live slots, from the right end of the vector. -/
def liveBlocks (v : Blocks) : List Nat := (List.range v.size).map v.fromRight

@[simp] theorem liveBlocks_length (v : Blocks) : (liveBlocks v).length = v.size := by
  simp [liveBlocks]

theorem mem_liveBlocks {v : Blocks} {b : Nat} :
    b ∈ liveBlocks v ↔ ∃ j, j < v.size ∧ v.fromRight j = b := by
  simp [liveBlocks]

theorem BlocksInv.liveBlocks_nodup {v : Blocks} {nextBlock : Nat} (hv : BlocksInv v nextBlock) :
    (liveBlocks v).Nodup := by
  apply List.Nodup.map_on _ List.nodup_range
  intro i hi j hj heq
  exact hv.distinct i j (List.mem_range.mp hi) (List.mem_range.mp hj) heq

theorem SameBlocks.liveBlocks {v v' : Blocks} (hsame : SameBlocks v v') :
    Fifo.liveBlocks v' = Fifo.liveBlocks v := by
  unfold Fifo.liveBlocks
  rw [hsame.size]
  apply List.map_congr_left
  intro j hj
  exact hsame.fromRight j (List.mem_range.mp hj)

/-- The calls of `free` follow the live slots from the right. -/
theorem deallocLoop_spec {v : Blocks} (hle : v.size ≤ v.capacity) (k : Nat) (hk : k ≤ v.size) :
    deallocLoop v k = some ((List.range k).map fun j => .block (v.fromRight j)) := by
  induction k with
  | zero => rfl
  | succ k ih =>
      have hslot : v.capacity - k - 1 = v.capacity - 1 - k := by omega
      simp only [deallocLoop, ih (by omega), Option.bind_eq_bind, Option.bind_some,
        checkedSub_of_le (show k ≤ v.capacity by omega),
        checkedSub_of_le (show 1 ≤ v.capacity - k by omega), hslot,
        get_fromRight (show k < v.capacity by omega), List.range_succ, List.map_append,
        List.map_cons, List.map_nil]

theorem destroy_spec {f : BufferFifo} (hle : f.blocks.size ≤ f.blocks.capacity) :
    destroy f = some ((liveBlocks f.blocks).map Freed.block ++ [.vector],
      { f with blocks := { f.blocks with size := 0, capacity := 0 } }) := by
  simp only [destroy, deallocLoop_spec hle f.blocks.size (Nat.le_refl _), Option.bind_eq_bind,
    Option.bind_some, liveBlocks, List.map_map]
  rfl

/-! ## What a call does to the live blocks -/

/-- The live blocks `after` are those `before`, and the block numbered `next` if
one was allocated. -/
inductive BlocksStep (before after : List Nat) (next : Nat) : Nat → Prop where
  | moved (hperm : after.Perm before) : BlocksStep before after next next
  | added (hperm : after.Perm (before ++ [next])) : BlocksStep before after next (next + 1)

theorem BlocksStep.le {before after : List Nat} {next next' : Nat}
    (hstep : BlocksStep before after next next') : next ≤ next' := by
  cases hstep with
  | moved _ => exact Nat.le_refl _
  | added _ => exact Nat.le_succ _

theorem liveBlocks_addBlock {v : Blocks} (block : Nat) (hroom : v.size < v.capacity) :
    liveBlocks { v.put (v.capacity - (v.size + 1)) block with size := v.size + 1 } =
      liveBlocks v ++ [block] := by
  have hright := addBlock_fromRight block hroom
  simp only [liveBlocks, List.range_succ, List.map_append, List.map_cons, List.map_nil]
  congr 1
  · apply List.map_congr_left
    intro j hj
    have hj := List.mem_range.mp hj
    exact (hright j (by omega)).trans (if_neg (by omega))
  · exact congrArg (fun b => [b]) ((hright v.size (Nat.lt_succ_self _)).trans (if_pos rfl))

/-- The first `if` of a push is the only one that adds a block. -/
theorem allocateOnTheLeft_blocks {c : Config} {s s' : PushState α}
    (hv : BlocksInv s.fifo.blocks s.heap.nextBlock) (hrun : allocateOnTheLeft c s = some s') :
    BlocksStep (liveBlocks s.fifo.blocks) (liveBlocks s'.fifo.blocks) s.heap.nextBlock
      s'.heap.nextBlock := by
  unfold allocateOnTheLeft at hrun
  split at hrun
  · obtain ⟨reserved, f', h', hreserve, hres⟩ := tryReserveABlock_spec hv
    simp only [hreserve, Option.bind_eq_bind, Option.bind_some] at hrun
    rw [← hres.nextBlock, ← hres.same.liveBlocks]
    cases reserved with
    | false =>
        simp only [Bool.false_eq_true, if_false] at hrun
        cases hrun
        exact .moved (.refl _)
    | true =>
        have hroom : f'.blocks.size < f'.blocks.capacity := by
          rw [hres.same.size]
          exact hres.room rfl
        cases hblock : h'.fails h'.allocations with
        | true =>
            simp only [if_true, blockAlloc, Heap.attempt, hblock, Bool.not_true,
              Bool.false_eq_true, if_false] at hrun
            cases hrun
            exact .moved (.refl _)
        | false =>
            simp only [if_true, blockAlloc, Heap.attempt, hblock, Bool.not_false,
              checkedSub_of_le (show f'.blocks.size + 1 ≤ f'.blocks.capacity by omega),
              Option.bind_some, Blocks.set, if_pos (show
                f'.blocks.capacity - (f'.blocks.size + 1) < f'.blocks.capacity by omega)] at hrun
            cases hrun
            apply BlocksStep.added
            rw [liveBlocks_addBlock h'.nextBlock hroom]
  · cases hrun
    exact .moved (.refl _)

theorem shiftOnTheLeft_nextBlock {c : Config} {s s' : PushState α} (hs : Inv c s.fifo s.heap)
    (hrun : shiftOnTheLeft c s = some s') : s'.heap.nextBlock = s.heap.nextBlock := by
  unfold shiftOnTheLeft at hrun
  split at hrun
  · obtain ⟨h', hshift, hsame, _⟩ := rightshiftElements_spec hs
    simp only [hshift, Option.bind_eq_bind, Option.bind_some] at hrun
    cases hrun
    exact hsame.nextBlock
  · cases hrun
    rfl

theorem claimOnTheLeft_same {c : Config} {s : PushState α} {back : Option CellPtr}
    {f : BufferFifo} {h : Heap α} (hrun : claimOnTheLeft c s = some (back, f, h)) :
    f.blocks = s.fifo.blocks ∧ h = s.heap := by
  unfold claimOnTheLeft at hrun
  split at hrun
  · simp only [Option.bind_eq_bind, Option.bind_eq_some_iff] at hrun
    obtain ⟨offset, _, left, _, block, _, hdone⟩ := hrun
    cases hdone
    exact ⟨rfl, rfl⟩
  · cases hrun
    exact ⟨rfl, rfl⟩

theorem write_nextBlock {c : Config} {h h' : Heap α} {p : CellPtr} {e : α}
    (hrun : write c h p e = some h') : h'.nextBlock = h.nextBlock := by
  unfold write at hrun
  split at hrun
  · cases hrun
    rfl
  · cases hrun

/-- What a push leaves of the vector is what its first `if` has left. -/
theorem pushBack_parts {c : Config} {f f' : BufferFifo} {h h' : Heap α} {e : α} {ok : Bool}
    (hempty : ¬ GrowsEmpty c f h) (hf : Inv c f h)
    (hrun : pushBack c f h e = some (ok, f', h')) :
    ∃ s₁, allocateOnTheLeft c (pushStart f h) = some s₁ ∧ f'.blocks = s₁.fifo.blocks ∧
      h'.nextBlock = s₁.heap.nextBlock := by
  obtain ⟨s₁, hrun₁, hs₁, _⟩ := allocateOnTheLeft_spec hempty (pushStart_inv hf) rfl rfl
  obtain ⟨s₂, hrun₂, _⟩ := shiftOnTheLeft_spec hs₁
  have hblocks := (shiftOnTheLeft_same hrun₂).2
  have hnext := shiftOnTheLeft_nextBlock hs₁.inv hrun₂
  refine ⟨s₁, hrun₁, ?_⟩
  simp only [pushStart] at hrun₁
  simp only [pushBack, shiftBackLeft, hrun₁, hrun₂, Option.bind_eq_bind, Option.bind_some,
    Option.bind_eq_some_iff] at hrun
  obtain ⟨⟨back, f₃, h₃⟩, hclaim, hwrite⟩ := hrun
  obtain ⟨hblocks₃, rfl⟩ := claimOnTheLeft_same hclaim
  rw [← hblocks, ← hnext, ← hblocks₃]
  cases back with
  | none =>
      cases hwrite
      exact ⟨rfl, rfl⟩
  | some p =>
      obtain ⟨h₄, hwrite, hdone⟩ := Option.bind_eq_some_iff.mp hwrite
      cases hdone
      exact ⟨rfl, write_nextBlock hwrite⟩

theorem pushBack_blocks {c : Config} {f f' : BufferFifo} {h h' : Heap α} {e : α} {ok : Bool}
    (hempty : ¬ GrowsEmpty c f h) (hf : Inv c f h)
    (hrun : pushBack c f h e = some (ok, f', h')) :
    BlocksStep (liveBlocks f.blocks) (liveBlocks f'.blocks) h.nextBlock h'.nextBlock := by
  obtain ⟨s₁, hrun₁, hblocks, hnext⟩ := pushBack_parts hempty hf hrun
  rw [hblocks, hnext]
  exact allocateOnTheLeft_blocks hf.blocks hrun₁

/-- A pop reorders the blocks. -/
theorem popFront_blocks {c : Config} {f f' : BufferFifo} {h : Heap α} {r : Option α}
    (hf : Inv c f h) (hrun : popFront c f h false = some (r, f')) :
    (liveBlocks f'.blocks).Perm (liveBlocks f.blocks) := by
  by_cases hne : f.size = 0
  · simp only [popFront, shiftFrontLeft, hne, if_true, Option.bind_eq_bind,
      Option.bind_some] at hrun
    cases hrun
    exact .refl _
  rw [popFront_eq hf hne] at hrun
  split at hrun
  · next hrotate =>
      obtain ⟨v', moved, hrotated, _, _, hlt, hsize, hcapacity, hright⟩ :=
        rotate_dropOldest hf hne hrotate
      rw [hrotated] at hrun
      cases hrun
      have hv' := hf.blocks.rotate hlt hsize hcapacity hright
      apply List.Subperm.perm_of_length_le
      · apply hv'.liveBlocks_nodup.subperm
        intro b hb
        obtain ⟨j, hj, rfl⟩ := mem_liveBlocks.mp hb
        rw [hsize] at hj
        rw [hright j hj, mem_liveBlocks]
        split
        · exact ⟨j + 1, by omega, rfl⟩
        · split
          · exact ⟨0, hf.blocks.size_pos, rfl⟩
          · exact ⟨j, hj, rfl⟩
      · rw [liveBlocks_length, liveBlocks_length]
        exact Nat.le_of_eq hsize.symm
  · cases hrun
    exact .refl _

/-- **One call.**  The live blocks are reordered, or joined by the block that was
just allocated. -/
theorem callStep_blocks {c : Config} {s s' : BufferFifo × Heap α} {call : FifoCall α}
    (hs : Inv c s.1 s.2) (hcall : GrowsFilled c s call) (hstep : callStep c s call = some s') :
    BlocksStep (liveBlocks s.1.blocks) (liveBlocks s'.1.blocks) s.2.nextBlock
      s'.2.nextBlock := by
  obtain ⟨f, h⟩ := s
  cases call with
  | pushBack e =>
      rw [callStep_pushBack, Option.map_eq_some_iff] at hstep
      obtain ⟨⟨ok, f', h'⟩, hrun, rfl⟩ := hstep
      exact pushBack_blocks (hcall e rfl) hs hrun
  | popFront =>
      rw [callStep_popFront, Option.map_eq_some_iff] at hstep
      obtain ⟨⟨r, f'⟩, hrun, rfl⟩ := hstep
      exact .moved (popFront_blocks hs hrun)

/-! ## Ownership -/

/-- The live blocks are the blocks numbered from `base` on. -/
structure OwnsFrom (base : Nat) (v : Blocks) (next : Nat) : Prop where
  le : base ≤ next
  perm : (liveBlocks v).Perm (List.range' base (next - base))

theorem OwnsFrom.step {base next next' : Nat} {v v' : Blocks} (hv : OwnsFrom base v next)
    (hstep : BlocksStep (liveBlocks v) (liveBlocks v') next next') : OwnsFrom base v' next' := by
  have hle := hv.le
  cases hstep with
  | moved hperm => exact ⟨hle, hperm.trans hv.perm⟩
  | added hperm =>
      refine ⟨by omega, ?_⟩
      have hrange : List.range' base (next + 1 - base) =
          List.range' base (next - base) ++ [next] := by
        rw [show next + 1 - base = (next - base) + 1 by omega, List.range'_1_concat,
          show base + (next - base) = next by omega]
      rw [hrange]
      exact hperm.trans (hv.perm.append_right [next])

/-- `mtdp_buffer_fifo_init` allocates one block and puts it in the only slot. -/
theorem init_owns {c : Config} {h₀ h : Heap α} {f : BufferFifo}
    (hinit : init c h₀ = (some f, h)) : OwnsFrom h₀.nextBlock f.blocks h.nextBlock := by
  unfold init blocksInit blockAlloc Heap.attempt at hinit
  by_cases hvec : h₀.fails h₀.allocations = true
  · simp [hvec] at hinit
  by_cases hblock : h₀.fails (h₀.allocations + 1) = true
  · simp [hvec, hblock] at hinit
  simp only [hvec, hblock, Bool.not_false, if_true, Prod.mk.injEq, Option.some.injEq] at hinit
  obtain ⟨rfl, rfl⟩ := hinit
  refine ⟨Nat.le_succ _, ?_⟩
  simp [liveBlocks, Blocks.fromRight]

theorem run_owns {c : Config} {base : Nat} {s t : BufferFifo × Heap α}
    {calls : List (FifoCall α)} (hs : Inv c s.1 s.2)
    (howns : OwnsFrom base s.1.blocks s.2.nextBlock)
    (htakes : Takes (callStep c) (GrowsFilled c) s calls)
    (hrun : run (callStep c) s calls = some t) :
    Inv c t.1 t.2 ∧ OwnsFrom base t.1.blocks t.2.nextBlock := by
  apply run_invariant_of_takes
    (I := fun s => Inv c s.1 s.2 ∧ OwnsFrom base s.1.blocks s.2.nextBlock) _ ⟨hs, howns⟩
    htakes hrun
  rintro s call s' ⟨hs, howns⟩ hcall hstep
  exact ⟨callStep_inv hs hcall hstep, howns.step (callStep_blocks hs hcall hstep)⟩

/-- **Ownership.**  After any run from a successful `mtdp_buffer_fifo_init`, the
live slots hold the blocks allocated since, each of them once, and
`mtdp_buffer_fifo_destroy` frees these and the vector, each of them once. -/
theorem blocks_owned_once (c : Config) (hr : 0 < c.shiftFillingRatio) (h₀ h : Heap α)
    (f : BufferFifo) (hinit : init c h₀ = (some f, h)) (calls : List (FifoCall α)) :
    ∃ f' h', run (callStep c) (f, h) calls = some (f', h') ∧
      f'.blocks.size ≤ f'.blocks.capacity ∧
      (liveBlocks f'.blocks).Nodup ∧
      (liveBlocks f'.blocks).Perm (List.range' h₀.nextBlock (h'.nextBlock - h₀.nextBlock)) ∧
      ∃ frees f'', destroy f' = some (frees, f'') ∧ frees.Nodup ∧
        frees.Perm (((List.range' h₀.nextBlock (h'.nextBlock - h₀.nextBlock)).map Freed.block) ++
          [.vector]) := by
  have hinv : Inv c f h := (init_spec hinit).1
  have htakes : Takes (callStep c) (GrowsFilled c) (f, h) calls := takes_growsFilled hr hinv calls
  obtain ⟨⟨f', h'⟩, hrun⟩ := run_defined hinv htakes
  obtain ⟨hinv', howns⟩ := run_owns hinv (init_owns hinit) htakes hrun
  have hle := hinv'.blocks.size_le_capacity
  have hfrees : ((liveBlocks f'.blocks).map Freed.block ++ [Freed.vector]).Perm
      ((List.range' h₀.nextBlock (h'.nextBlock - h₀.nextBlock)).map Freed.block ++
        [Freed.vector]) :=
    (howns.perm.map Freed.block).append_right [Freed.vector]
  refine ⟨f', h', hrun, hle, hinv'.blocks.liveBlocks_nodup, howns.perm, _, _, destroy_spec hle,
    ?_, hfrees⟩
  rw [List.nodup_append]
  refine ⟨hinv'.blocks.liveBlocks_nodup.map fun b b' heq => by cases heq; rfl, by simp, ?_⟩
  simp

/-- A FIFO of blocks of two cells whose second block is refused at first. -/
theorem blocks_owned_once_rotated :
    ∃ f' h', run (callStep ⟨2, 1 / 2, by decide, by norm_num, by norm_num⟩)
        (⟨⟨Function.update (fun _ => 0) 0 0, 1, 1⟩, 0, 2⟩,
          (⟨fun _ _ => 0, fun _ => 0, 1, 2, fun k => k == 3⟩ : Heap Nat))
        [.pushBack 5, .pushBack 6, .pushBack 7, .popFront, .pushBack 8, .pushBack 9, .popFront]
          = some (f', h') ∧
      f'.blocks.size ≤ f'.blocks.capacity ∧
      (liveBlocks f'.blocks).Nodup ∧
      (liveBlocks f'.blocks).Perm (List.range' 0 (h'.nextBlock - 0)) ∧
      ∃ frees f'', destroy f' = some (frees, f'') ∧ frees.Nodup ∧
        frees.Perm ((List.range' 0 (h'.nextBlock - 0)).map Freed.block ++ [.vector]) :=
  blocks_owned_once ⟨2, 1 / 2, by decide, by norm_num, by norm_num⟩ (by norm_num)
    ⟨fun _ _ => 0, fun _ => 0, 0, 0, fun k => k == 3⟩
    ⟨fun _ _ => 0, fun _ => 0, 1, 2, fun k => k == 3⟩
    ⟨⟨Function.update (fun _ => 0) 0 0, 1, 1⟩, 0, 2⟩ rfl _

end Mtdp.Fifo
