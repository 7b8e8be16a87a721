import Mathlib.Tactic.Abel
import Mtdp.Lib.Ledger
import Mtdp.Fifo.Destroy
import Mtdp.Pipe.Model

/-!
# What a pipeline owns

Every object that the library acquires for a pipeline has a name, and a ledger
lists the calls that acquire and release it.  `realloc` hands an array on; it is
neither an acquisition nor a release, unless it is asked for no bytes.

## Main results

* `pipeDestroy_spec` — `mtdp_pipe_destroy` releases all that a pipe in good
  order holds.
-/

namespace Mtdp.Pipeline

open Lib.Ledger

/-- The objects behind a pipeline.  Pipe `k` is `pipes[k]`; the blocks of its
FIFO are numbered in the order of their allocation.  Unit `0` is the source,
unit `u` the stage `stage_impls[u - 1]`, the last one the sink.  A unit has a
new thread in every round, that is after every `mtdp_pipeline_enable`. -/
inductive Resource where
  | pipeline
  | stages
  | stageImpls
  | pipes
  | poolMutex (pipe : Nat)
  | fifoMutex (pipe : Nat)
  | poolArray (pipe : Nat)
  | blockVector (pipe : Nat)
  | block (pipe number : Nat)
  | semaphore (pipe : Nat)
  | workerCv (unit : Nat)
  | workerMutex (unit : Nat)
  | thread (unit round : Nat)
  deriving DecidableEq, Repr

abbrev Log := List (Event Resource)

/-! ## Destroying a pipe -/

/-- What a call of `free` in `mtdp_buffer_fifo_destroy` releases. -/
def freedResource (k : Nat) : Fifo.Freed → Resource
  | .block b => .block k b
  | .vector => .blockVector k

/-- `mtdp_buffer_fifo_destroy` -/
def fifoDestroy (k : Nat) (f : Fifo.BufferFifo) (log : Log) : Option Log := do
  let (frees, _) ← Fifo.destroy f
  some (log ++ (frees.map (freedResource k)).map Event.release)

/-- `mtdp_buffer_pool_destroy` -/
def poolDestroy (k : Nat) (p : BufferPool) (log : Log) : Log :=
  if p.capacity ≠ 0 then log ++ [.release (.poolArray k)] else log

/-- `mtdp_pipe_destroy` -/
def pipeDestroy (k : Nat) (p : Pipe) (log : Log) : Option Log := do
  let log := log ++ [.release (.poolMutex k)]
  let log := log ++ [.release (.fifoMutex k)]
  let log := poolDestroy k p.pool log
  let log ← fifoDestroy k p.fifo log
  some (log ++ [.release (.semaphore k)])

/-! ## What a pipe holds -/

/-- The array of the pool; there is none while the capacity is zero, and none
that `realloc` has freed. -/
def poolHeld (k : Nat) (p : BufferPool) : Multiset Resource :=
  if p.capacity = 0 ∨ p.freed = true then 0 else {.poolArray k}

/-- The blocks allocated so far, and the vector. -/
def fifoHeld (k nextBlock : Nat) : Multiset Resource :=
  ((List.range nextBlock).map (Resource.block k) : Multiset Resource) + {.blockVector k}

def pipeHeld (k : Nat) (p : Pipe) : Multiset Resource :=
  {.poolMutex k} + {.fifoMutex k} + poolHeld k p.pool + fifoHeld k p.heap.nextBlock +
    {.semaphore k}

/-- The FIFO is in good order and its live slots name every block allocated for
it; so is the pool, up to its array. -/
structure PipeOk (c : Fifo.Config) (p : Pipe) : Prop where
  inv : Fifo.Inv c p.fifo p.heap
  owns : Fifo.OwnsFrom 0 p.fifo.blocks p.heap.nextBlock
  pool : p.pool.Sound

/-- `mtdp_buffer_fifo_destroy` releases the blocks and the vector. -/
theorem fifoDestroy_spec {f : Fifo.BufferFifo} {nextBlock : Nat}
    (hle : f.blocks.size ≤ f.blocks.capacity) (howns : Fifo.OwnsFrom 0 f.blocks nextBlock)
    (k : Nat) (log : Log) :
    ∃ log', fifoDestroy k f log = some log' ∧ Drops log log' (fifoHeld k nextBlock) := by
  refine ⟨_, by simp only [fifoDestroy, Fifo.destroy_spec hle, Option.bind_eq_bind,
    Option.bind_some]; rfl, ?_⟩
  have hdrops := Drops.releases log (((Fifo.liveBlocks f.blocks).map Fifo.Freed.block ++
    [Fifo.Freed.vector]).map (freedResource k))
  have hperm : (((Fifo.liveBlocks f.blocks).map Fifo.Freed.block ++
      [Fifo.Freed.vector]).map (freedResource k)).Perm
        ((List.range nextBlock).map (Resource.block k) ++ [Resource.blockVector k]) := by
    rw [List.map_append, List.map_map, List.range_eq_range']
    exact (howns.perm.map (Resource.block k)).append_right _
  rwa [Multiset.coe_eq_coe.mpr hperm, ← Multiset.coe_add] at hdrops

theorem poolDestroy_spec (k : Nat) {p : BufferPool} (hthere : p.freed = false) (log : Log) :
    Drops log (poolDestroy k p log) (poolHeld k p) := by
  unfold poolDestroy poolHeld
  by_cases hcap : p.capacity = 0
  · rw [if_neg (not_not_intro hcap), if_pos (.inl hcap)]
    exact .refl log
  · rw [if_pos hcap, if_neg (by simp [hcap, hthere])]
    exact .release log _

/-- **Destroying a pipe** whose pool still has its array. -/
theorem pipeDestroy_spec {c : Fifo.Config} {p : Pipe} (hp : PipeOk c p)
    (hthere : p.pool.freed = false) (k : Nat) (log : Log) :
    ∃ log', pipeDestroy k p log = some log' ∧ Drops log log' (pipeHeld k p) := by
  have hpoolMutex := Drops.release log (Resource.poolMutex k)
  have hmutexes := hpoolMutex.trans (.release _ (Resource.fifoMutex k))
  have hpool := hmutexes.trans (poolDestroy_spec k hthere _)
  obtain ⟨log', hfifo, hdrops⟩ :=
    fifoDestroy_spec hp.inv.blocks.size_le_capacity hp.owns k
      (poolDestroy k p.pool (log ++ [.release (.poolMutex k)] ++ [.release (.fifoMutex k)]))
  have hall := (hpool.trans hdrops).trans (.release log' (Resource.semaphore k))
  refine ⟨_, by simp only [pipeDestroy, hfifo, Option.bind_eq_bind, Option.bind_some]; rfl, ?_⟩
  have hheld : pipeHeld k p = {.semaphore k} + (fifoHeld k p.heap.nextBlock +
      (poolHeld k p.pool + ({.fifoMutex k} + {.poolMutex k}))) := by
    unfold pipeHeld
    abel
  rwa [hheld]

end Mtdp.Pipeline
