import Mtdp.Lib.Transition
import Mtdp.Pipe.Resize
import Mtdp.Pool.Static

/-!
# A resize that runs out of memory

`mtdp_pipe_resize` of `src/pipe.c` over a pool of either configuration, with
the two mutexes it takes.  When the pool cannot grow the function reports
`MTDP_NO_MEM`, and still stores the number of buffers it was asked for; and an
array that was to grow to a size that wraps to no bytes has been freed.

## Main results

* `resize_ofPipe` — over a heap pool this is the resize of a pipe whose
  mutexes are free.
* `failed_resize_iff` — a resize that fails changes nothing exactly when it
  asks for the number of buffers that the pipe has counted already, and does not
  ask `realloc` for an array of no bytes.
-/

namespace Mtdp

open Lib.Word Lib.Transition

/-- `mtdp_pipe`, in either configuration of its pool, with the allocator
behind it.  A mutex is `true` while it is taken. -/
structure AnyPipe where
  totalBuffers : Nat
  pool : AnyPool
  fifo : Fifo.BufferFifo
  semaphore : Nat
  heap : Heap Buffer
  poolMutex : Bool
  fifoMutex : Bool

namespace AnyPipe

/-! ## The functions -/

/-- `mtdp_lock2(&pool_mutex, &fifo_mutex)`, `none` while it blocks. -/
def lock2 (p : AnyPipe) : Option AnyPipe :=
  if p.poolMutex || p.fifoMutex then none
  else some { p with poolMutex := true, fifoMutex := true }

/-- `mtx_unlock` on both. -/
def unlock2 (p : AnyPipe) : AnyPipe := { p with poolMutex := false, fifoMutex := false }

/-- `mtdp_pipe_check_invariants`, `none` while it blocks. -/
def checkInvariants (p : AnyPipe) : Option Bool := do
  let p ← p.lock2
  let total := p.fifo.size + p.pool.view.size
  some (p.totalBuffers == total || p.totalBuffers == total + 1 || p.totalBuffers == total + 2)

/-- The branch of `mtdp_pipe_resize` for `delta < 0`. -/
def shrink (c : Fifo.Config) (p : AnyPipe) (empty total : Nat) (delta : Int) :
    Option AnyPipe := do
  let lost ← checkSigned (-delta)
  if wrap lost ≤ empty then do
    let (_, pool, heap) ← p.pool.resize p.heap (wrap (empty + delta))
    if wrap lost ≤ total then do
      let fifo ← Pipe.popToNull c heap (wrap (total + delta)) p.fifo
      some { p with pool, heap, fifo }
    else some { p with pool, heap }
  else some p

/-- `mtdp_pipe_resize` -/
def resize (c : Fifo.Config) (p : AnyPipe) (nBuffers : UInt64) :
    Option (Pipe.ResizeReport × AnyPipe) := do
  let p ← p.lock2
  let empty := p.pool.view.size
  let nonempty := p.fifo.size
  let total := wrap (nonempty + empty)
  let delta ← checkSigned (toSigned nBuffers.toNat - toSigned total)
  if delta > 0 then do
    let (ok, pool, heap) ← p.pool.resize p.heap (wrap (empty + delta))
    let p := { p with pool, heap, totalBuffers := nBuffers.toNat }
    some (if ok then ⟨.ok, true⟩ else ⟨.noMem, false⟩, p.unlock2)
  else if delta < 0 then do
    let p ← p.shrink c empty total delta
    some (⟨.ok, true⟩, unlock2 { p with totalBuffers := nBuffers.toNat })
  else some (⟨.ok, true⟩, unlock2 { p with totalBuffers := nBuffers.toNat })

/-- The pipe after a call; the functions with one list in hand take its mutex. -/
def call (c : Fifo.Config) (p : AnyPipe) : Pipe.Call → Option AnyPipe
  | .resize nBuffers => (p.resize c nBuffers).map (·.2)
  | .getEmptyBuffer =>
      if p.poolMutex then none
      else p.pool.popBack.map fun (_, pool) => { p with pool }
  | .pushBuffer buf =>
      if p.fifoMutex then none
      else (Fifo.pushBack c p.fifo p.heap buf).map fun (_, fifo, heap) => { p with fifo, heap }
  | .getFullBuffer =>
      if p.fifoMutex then none
      else (Fifo.popFront c p.fifo p.heap false).map fun (_, fifo) => { p with fifo }
  | .putBack buf =>
      if p.poolMutex then none
      else (p.pool.pushBack p.heap buf).map fun (_, pool, heap) => { p with pool, heap }

/-! ## Heap pools -/

/-- A pipe between two calls. -/
def ofPipe (p : Pipe) : AnyPipe where
  totalBuffers := p.totalBuffers
  pool := .heap p.pool
  fifo := p.fifo
  semaphore := p.semaphore
  heap := p.heap
  poolMutex := false
  fifoMutex := false

theorem checkInvariants_ofPipe (p : Pipe) :
    (ofPipe p).checkInvariants = some p.checkInvariants := rfl

/-- The same pipe inside of a function that holds both mutexes. -/
def locked (p : Pipe) : AnyPipe := { ofPipe p with poolMutex := true, fifoMutex := true }

theorem lock2_ofPipe (p : Pipe) : (ofPipe p).lock2 = some (locked p) := rfl

theorem shrink_locked (c : Fifo.Config) (p : Pipe) (empty total : Nat) (delta : Int) :
    shrink c (locked p) empty total delta = (Pipe.shrink c p empty total delta).map locked := by
  unfold shrink Pipe.shrink
  cases checkSigned (-delta) with
  | none => rfl
  | some lost =>
      simp only [Option.bind_eq_bind, Option.bind_some]
      split
      · simp only [locked, ofPipe, AnyPool.resize]
        cases p.pool.resize p.heap (wrap (empty + delta)) with
        | none => rfl
        | some r =>
            simp only [Option.map_some, Option.bind_some]
            split
            · cases Pipe.popToNull c r.2.2 (wrap (total + delta)) p.fifo <;> rfl
            · rfl
      · rfl

theorem resize_ofPipe (c : Fifo.Config) (p : Pipe) (nBuffers : UInt64) :
    (ofPipe p).resize c nBuffers =
      (p.resize c nBuffers).map fun (report, p') => (report, ofPipe p') := by
  have hsize : (locked p).pool.view.size = p.pool.size := rfl
  have hfifo : (locked p).fifo.size = p.fifo.size := rfl
  unfold resize Pipe.resize
  simp only [lock2_ofPipe, hsize, hfifo, Option.bind_eq_bind, Option.bind_some]
  cases checkSigned (toSigned nBuffers.toNat - toSigned (wrap (p.fifo.size + p.pool.size))) with
  | none => rfl
  | some delta =>
      simp only [Option.bind_some]
      split
      · simp only [locked, ofPipe, AnyPool.resize]
        cases p.pool.resize p.heap (wrap (p.pool.size + delta)) <;> rfl
      · split
        · rw [shrink_locked]
          cases Pipe.shrink c p p.pool.size (wrap (p.fifo.size + p.pool.size)) delta <;> rfl
        · rfl

theorem call_ofPipe (c : Fifo.Config) (p : Pipe) (i : Pipe.Call) :
    (ofPipe p).call c i = (p.call c i).map ofPipe := by
  cases i with
  | resize nBuffers =>
      simp only [call, Pipe.call, resize_ofPipe, Option.map_map]
      rfl
  | getEmptyBuffer =>
      simp only [call, Pipe.call, Pipe.getEmptyBuffer, ofPipe, AnyPool.popBack]
      cases p.pool.popBack <;> rfl
  | pushBuffer buf =>
      simp only [call, Pipe.call, Pipe.pushBuffer, ofPipe]
      cases Fifo.pushBack c p.fifo p.heap buf <;> rfl
  | getFullBuffer =>
      simp only [call, Pipe.call, Pipe.getFullBuffer, ofPipe]
      cases Fifo.popFront c p.fifo p.heap false <;> rfl
  | putBack buf =>
      simp only [call, Pipe.call, Pipe.putBack, ofPipe, AnyPool.pushBack]
      cases p.pool.pushBack p.heap buf <;> rfl

/-! ## A refused resize -/

/-- Nothing has happened to the pipe, and nothing that happens later will be
judged differently by `mtdp_pipe_check_invariants`. -/
structure Untouched (c : Fifo.Config) (p p' : AnyPipe) : Prop where
  pool : p'.pool = p.pool
  fifo : p'.fifo = p.fifo
  cells : p'.heap.cells = p.heap.cells
  totalBuffers : p'.totalBuffers = p.totalBuffers
  semaphore : p'.semaphore = p.semaphore
  poolMutex : p'.poolMutex = false
  fifoMutex : p'.fifoMutex = false
  later : ∀ is, (run (call c) p' is).bind checkInvariants =
    (run (call c) { p with heap := p'.heap } is).bind checkInvariants

end AnyPipe

/-- A pool that could not be resized is as before, unless it was to have an
array of no bytes. -/
theorem BufferPool.resize_failed {p p' : BufferPool} {h h' : Heap Buffer} {size : Nat}
    (hrun : p.resize h size = some (false, p', h')) :
    h' = h.attempt.2 ∧ p.freed = false ∧ p' = { p with freed := p.frees size } := by
  simp only [BufferPool.resize, Option.bind_eq_bind, Option.bind_eq_some_iff] at hrun
  obtain ⟨delta, _, hrun⟩ := hrun
  split at hrun
  · cases hrun
  split at hrun
  · simp only [Option.bind_eq_some_iff] at hrun
    obtain ⟨⟨ret, q, g⟩, hrealloc, hrun⟩ := hrun
    obtain ⟨hthere, rfl, ⟨rfl, hfrees, rfl⟩ | ⟨rfl, hrefused, rfl⟩ | ⟨rfl, _⟩⟩ :=
      BufferPool.realloc_cases hrealloc
    · cases hrun
      exact ⟨rfl, hthere, by rw [hfrees]⟩
    · cases hrun
      refine ⟨rfl, hthere, ?_⟩
      rw [BufferPool.keeps_of_refused hrefused, ← hthere]
    · cases hrun
  · cases hrun

theorem AnyPool.resize_failed {p p' : AnyPool} {h h' : Heap Buffer} {size : Nat}
    (hrun : p.resize h size = some (false, p', h')) :
    h'.cells = h.cells ∧ (p' = p ↔ p.frees size = false) := by
  cases p with
  | heap p =>
      obtain ⟨⟨ok, q, g⟩, hpool, heq⟩ := Option.map_eq_some_iff.mp hrun
      cases heq
      obtain ⟨rfl, hthere, rfl⟩ := BufferPool.resize_failed hpool
      refine ⟨rfl, ?_⟩
      constructor
      · intro hsame
        have hfreed := congrArg (fun p => p.view.freed) hsame
        exact hfreed.trans hthere
      · intro hkeeps
        rw [AnyPool.frees] at hkeeps
        rw [hkeeps, ← hthere]
  | static p =>
      obtain ⟨⟨ok, q⟩, hpool, heq⟩ := Option.map_eq_some_iff.mp hrun
      cases heq
      simp only [StaticPool.resize, Option.bind_eq_bind, Option.bind_eq_some_iff] at hpool
      obtain ⟨delta, _, hpool⟩ := hpool
      split at hpool
      · cases hpool
      split at hpool <;> cases hpool
      exact ⟨rfl, iff_of_true rfl rfl⟩

namespace AnyPipe

/-- What `mtdp_pipe_resize` asks of the pool, as a word. -/
theorem wrap_request (n : UInt64) (empty nonempty : Nat) :
    wrap (empty + (toSigned n.toNat - toSigned (wrap (nonempty + empty)))) =
      wrap (n.toNat - nonempty) := by
  have hn := n.toNat_lt
  unfold wrap toSigned
  split <;> split <;> omega

/-- All that a failed resize does: the allocator has been asked, and the
number of buffers is stored. -/
theorem resize_noMem {c : Fifo.Config} {p p' : AnyPipe} {n : UInt64} {report : Pipe.ResizeReport}
    (hrun : p.resize c n = some (report, p')) (hno : report.error = .noMem) :
    p.poolMutex = false ∧ p.fifoMutex = false ∧ p'.heap.cells = p.heap.cells ∧
      (p'.pool = p.pool ↔ p.pool.frees (wrap (n.toNat - p.fifo.size)) = false) ∧
      p' = { p with pool := p'.pool, heap := p'.heap, totalBuffers := n.toNat } := by
  simp only [resize, Option.bind_eq_bind, Option.bind_eq_some_iff] at hrun
  obtain ⟨q, hlock, delta, hdelta, hrun⟩ := hrun
  unfold lock2 at hlock
  split at hlock
  · cases hlock
  next hfree =>
    simp only [Bool.or_eq_true, not_or, Bool.not_eq_true] at hfree
    cases hlock
    obtain ⟨rfl, _, _⟩ := eq_of_checkSigned hdelta
    split at hrun
    · simp only [Option.bind_eq_some_iff] at hrun
      obtain ⟨⟨ok, pool, heap⟩, hpool, hrun⟩ := hrun
      cases ok with
      | true =>
          cases hrun
          cases hno
      | false =>
          cases hrun
          obtain ⟨hcells, hsame⟩ := AnyPool.resize_failed hpool
          rw [wrap_request] at hsame
          refine ⟨hfree.1, hfree.2, hcells, hsame, ?_⟩
          simp only [unlock2, hfree]
    split at hrun
    · simp only [Option.bind_eq_some_iff] at hrun
      obtain ⟨r, _, hrun⟩ := hrun
      cases hrun
      cases hno
    · cases hrun
      cases hno

/-- **A failed resize.**  Over either pool: everything is as before exactly if
the requested number of buffers was the stored one, and `realloc` was not asked
for an array of no bytes. -/
theorem failed_resize_iff (c : Fifo.Config) (p p' : AnyPipe) (n : UInt64)
    (report : Pipe.ResizeReport) (hrun : p.resize c n = some (report, p'))
    (hno : report.error = .noMem) :
    Untouched c p p' ↔
      p.totalBuffers = n.toNat ∧ p.pool.frees (wrap (n.toNat - p.fifo.size)) = false := by
  obtain ⟨hpool, hfifo, hcells, hkept, heq⟩ := resize_noMem hrun hno
  constructor
  · intro huntouched
    refine ⟨?_, hkept.mp huntouched.pool⟩
    rw [← huntouched.totalBuffers, heq]
  · rintro ⟨htotal, hkeeps⟩
    have hsame : p' = { p with heap := p'.heap } := by
      rw [heq, hkept.mpr hkeeps, ← htotal]
    constructor
    · exact hkept.mpr hkeeps
    · rw [hsame]
    · exact hcells
    · rw [hsame]
    · rw [hsame]
    · rw [hsame, hpool]
    · rw [hsame, hfifo]
    · intro is
      rw [← hsame]

/-- A fresh pipe that counts `n` buffers; there is no memory left. -/
def starved (n : Nat) : AnyPipe := ofPipe
  { totalBuffers := n
    pool := ⟨fun _ => none, 0, 0, false⟩
    fifo := ⟨⟨fun _ => 0, 1, 1⟩, 0, 2⟩
    semaphore := 0
    heap := ⟨fun _ _ => none, fun _ => 0, 1, 2, fun k => decide (2 ≤ k)⟩ }

/-- The same after one more refusal. -/
def refusedOnce (n : Nat) : AnyPipe :=
  { starved n with heap := (starved n).heap.attempt.2 }

/-- Five buffers are asked for a second time. -/
theorem failed_resize_iff_starved :
    Untouched ⟨2, 1 / 2, by decide, by norm_num, by norm_num⟩ (starved 5) (refusedOnce 5) ↔
      (starved 5).totalBuffers = 5 ∧ (starved 5).pool.frees (wrap (5 - 0)) = false :=
  failed_resize_iff _ (starved 5) (refusedOnce 5) 5 ⟨.noMem, false⟩ rfl rfl

/-- The pipe has no buffers, and counts five. -/
theorem failed_resize_counts :
    ¬ ∀ (c : Fifo.Config) (p p' : AnyPipe) (n : UInt64) (report : Pipe.ResizeReport),
      p.resize c n = some (report, p') → report.error = .noMem → Untouched c p p' := by
  intro hall
  have huntouched := hall ⟨2, 1 / 2, by decide, by norm_num, by norm_num⟩ (starved 0)
    (refusedOnce 5) 5 ⟨.noMem, false⟩ rfl rfl
  exact absurd huntouched.totalBuffers (by decide)

end AnyPipe

end Mtdp
