import Mtdp.Fifo.Model
import Mtdp.Pool

/-!
# A pipe

`src/pipe.c`: a pool of empty buffers and a FIFO of full ones.  Every
function takes the mutexes it needs for the whole of its work, so a call is
one step.

As in the modules below, `none` means undefined behaviour.
-/

namespace Mtdp

open Lib.Word

/-- `enum mtdp_error` -/
inductive MtdpError where
  | ok
  | noMem
  | active
  | enabled
  | notEnabled
  | badPtr
  | thrdError
  | mtxError
  | cndError
  deriving DecidableEq, Repr

/-- What the functions for threads, mutexes and condition variables return. -/
inductive ThrdResult where
  | success
  | busy
  | error
  | nomem
  | timedout
  deriving DecidableEq, Repr

/-- `mtdp_pipe`, with the allocator behind it. -/
structure Pipe where
  totalBuffers : Nat
  pool : BufferPool
  fifo : Fifo.BufferFifo
  semaphore : Nat
  heap : Heap Buffer

namespace Pipe

/-- `mtdp_pipe_check_invariants` -/
def checkInvariants (p : Pipe) : Bool :=
  let total := p.fifo.size + p.pool.size
  p.totalBuffers == total || p.totalBuffers == total + 1 || p.totalBuffers == total + 2

/-- `mtdp_pipe_init`, `none` when it returns `false`.  The mutexes and the
semaphore are taken to be initialised without an error; `junk` is the memory
the pipe is built in. -/
def init (c : Fifo.Config) (junk : Pipe) : Option Pipe :=
  match Fifo.init c junk.heap with
  | (some fifo, heap) =>
      some { junk with pool := .init junk.pool.buffers, fifo, semaphore := 0, heap }
  | (none, _) => none

/-- What `mtdp_pipe_resize` reports: the error code, and whether the returned
pointer is the pool's array (`false` for `NULL`). -/
structure ResizeReport where
  error : MtdpError
  buffers : Bool
  deriving DecidableEq

/-- The loop of `mtdp_pipe_resize` that calls
`mtdp_buffer_fifo_pop_front(&self->fifo, NULL)`. -/
def popToNull (c : Fifo.Config) (h : Heap Buffer) : Nat → Fifo.BufferFifo → Option Fifo.BufferFifo
  | 0, f => some f
  | i + 1, f => do
      let (_, f) ← Fifo.popFront c f h true
      popToNull c h i f

/-- The branch of `mtdp_pipe_resize` for `delta < 0`. -/
def shrink (c : Fifo.Config) (p : Pipe) (empty total : Nat) (delta : Int) : Option Pipe := do
  let lost ← checkSigned (-delta)
  if wrap lost ≤ empty then do
    let (_, pool, heap) ← p.pool.resize p.heap (wrap (empty + delta))
    if wrap lost ≤ total then do
      let fifo ← popToNull c heap (wrap (total + delta)) p.fifo
      some { p with pool, heap, fifo }
    else some { p with pool, heap }
  else some p

/-- `mtdp_pipe_resize` -/
def resize (c : Fifo.Config) (p : Pipe) (nBuffers : UInt64) : Option (ResizeReport × Pipe) := do
  let empty := p.pool.size
  let nonempty := p.fifo.size
  let total := wrap (nonempty + empty)
  let delta ← checkSigned (toSigned nBuffers.toNat - toSigned total)
  if delta > 0 then do
    let (ok, pool, heap) ← p.pool.resize p.heap (wrap (empty + delta))
    let p := { p with pool, heap, totalBuffers := nBuffers.toNat }
    some (if ok then ⟨.ok, true⟩ else ⟨.noMem, false⟩, p)
  else if delta < 0 then do
    let p ← shrink c p empty total delta
    some (⟨.ok, true⟩, { p with totalBuffers := nBuffers.toNat })
  else some (⟨.ok, true⟩, { p with totalBuffers := nBuffers.toNat })

/-- `mtdp_pipe_get_empty_buffer` -/
def getEmptyBuffer (p : Pipe) : Option (Buffer × Pipe) := do
  let (out, pool) ← p.pool.popBack
  some (out, { p with pool })

/-- `mtdp_pipe_push_buffer` -/
def pushBuffer (c : Fifo.Config) (p : Pipe) (buf : Buffer) : Option (Bool × Pipe) := do
  let (out, fifo, heap) ← Fifo.pushBack c p.fifo p.heap buf
  some (out, { p with fifo, heap })

/-- `mtdp_pipe_get_full_buffer`; `out` stays `NULL` when the FIFO is empty. -/
def getFullBuffer (c : Fifo.Config) (p : Pipe) : Option (Buffer × Pipe) := do
  let (out, fifo) ← Fifo.popFront c p.fifo p.heap false
  some (out.getD none, { p with fifo })

/-- `mtdp_pipe_put_back` -/
def putBack (p : Pipe) (buf : Buffer) : Option (Bool × Pipe) := do
  let (out, pool, heap) ← p.pool.pushBack p.heap buf
  some (out, { p with pool, heap })

/-- The loop of `mtdp_pipe_clear`; what `push_back` answers is ignored. -/
def clearLoop (c : Fifo.Config) : Nat → Pipe → Option Pipe
  | 0, p => some p
  | i + 1, p => do
      let (tmp, fifo) ← Fifo.popFront c p.fifo p.heap false
      let (_, pool, heap) ← p.pool.pushBack p.heap (tmp.getD none)
      clearLoop c i { p with pool, fifo, heap }

/-- `mtdp_pipe_clear` -/
def clear (c : Fifo.Config) (p : Pipe) : Option Pipe := clearLoop c p.fifo.size p

end Pipe

end Mtdp
