import Mathlib.Tactic.NormNum
import Mtdp.Lib.Queue
import Mtdp.Fifo.PushPop

/-!
# The heap FIFO is a queue

A run of pushes and pops on a freshly initialised FIFO, under any pattern of
allocation failures, shows its caller what a list queue would show.  The
acceptance rule of the queue is the one thing the implementation adds: a
push may be turned down, but only when no cell is left and the allocator
has just said no.
-/

namespace Mtdp.Fifo

open Mtdp.Lib.Queue

variable {α : Type}

/-- The calls of the FIFO interface. -/
inductive FifoCall (α : Type) where
  | pushBack (e : α)
  | popFront

/-- What is recorded with a push besides its result. -/
structure PushInfo where
  /-- every cell was in use when the push began -/
  full : Bool
  /-- an allocation made during the push failed -/
  allocationFailed : Bool

/-- `mtdp_buffer_fifo_size` -/
def size (f : BufferFifo) : Nat := f.size

/-- Did one of the allocation calls between the two heaps fail? -/
def failedBetween (h h' : Heap α) : Bool :=
  (List.range' h.allocations (h'.allocations - h.allocations)).any h.fails

theorem failedBetween_of_failedSince {h h' : Heap α} (hfailed : h.FailedSince h') :
    failedBetween h h' = true := by
  obtain ⟨k, hlo, hhi, hfail⟩ := hfailed
  refine List.any_eq_true.mpr ⟨k, ?_, hfail⟩
  rw [List.mem_range'_1]
  omega

/-- One call on a FIFO and its heap, with what the caller gets to see. -/
def fifoCall (c : Config) : BufferFifo × Heap α → FifoCall α →
    Option (Event α PushInfo × (BufferFifo × Heap α))
  | (f, h), .pushBack e => do
      let (ok, f', h') ← pushBack c f h e
      let info := {
        full := f.size == f.blocks.size * c.blockSize
        allocationFailed := failedBetween h h' }
      some (.push e ok info (size f'), (f', h'))
  | (f, h), .popFront => do
      let (r, f') ← popFront c f h false
      some (.pop r (size f'), (f', h))

/-- A push may be rejected only on a full FIFO whose allocation failed. -/
def rejectsOnlyWhenFull : Policy α PushInfo := fun _ ok info =>
  ok = false → info.full = true ∧ info.allocationFailed = true

/-- A freshly initialised FIFO satisfies the invariant and is empty. -/
theorem init_spec {c : Config} {h₀ h : Heap α} {f : BufferFifo}
    (hinit : init c h₀ = (some f, h)) : Inv c f h ∧ contents c f h = [] := by
  have hB := c.blockSize_pos
  unfold init blocksInit blockAlloc Heap.attempt at hinit
  by_cases hvec : h₀.fails h₀.allocations = true
  · simp [hvec] at hinit
  by_cases hblock : h₀.fails (h₀.allocations + 1) = true
  · simp [hvec, hblock] at hinit
  simp only [hvec, hblock, Bool.not_false, if_true, Prod.mk.injEq, Option.some.injEq] at hinit
  obtain ⟨rfl, rfl⟩ := hinit
  refine ⟨⟨⟨by simp, by simp, ⟨0, rfl⟩, ?_, ?_⟩, by simp, .inl (by simpa using hB)⟩, rfl⟩
  · intro i j hi hj _
    simp only at hi hj
    omega
  · intro i hi
    simp [Blocks.fromRight]

/-- Every call is a step of the list queue. -/
theorem fifoCall_step {c : Config} (hr : 0 < c.shiftFillingRatio) (s : BufferFifo × Heap α)
    (call : FifoCall α) (hs : Inv c s.1 s.2) :
    ∃ ev s', fifoCall c s call = some (ev, s') ∧ Inv c s'.1 s'.2 ∧
      Step rejectsOnlyWhenFull (contents c s.1 s.2) ev (contents c s'.1 s'.2) := by
  obtain ⟨f, h⟩ := s
  cases call with
  | pushBack e =>
      obtain ⟨ok, f', h', hrun, hinv, hcontents, hreject, _, _⟩ := pushBack_spec hr hs e
      refine ⟨_, (f', h'),
        by simp only [fifoCall, hrun, Option.bind_eq_bind, Option.bind_some]; rfl, hinv, ?_⟩
      have hsize : size f' = (contents c f' h').length := (contents_length c f' h').symm
      rw [hsize]
      cases ok with
      | true =>
          simp only [if_true] at hcontents
          rw [hcontents, List.length_append]
          exact .accept (by simp [rejectsOnlyWhenFull])
      | false =>
          simp only [Bool.false_eq_true, if_false] at hcontents
          obtain ⟨hfull, hfailed⟩ := hreject rfl
          rw [hcontents]
          refine .reject fun _ => ⟨?_, failedBetween_of_failedSince hfailed⟩
          simpa using hfull
  | popFront =>
      obtain ⟨r, f', hrun, hinv, ⟨rfl, rfl, hnil⟩ | ⟨e, rfl, hcons⟩⟩ := popFront_spec hs
      · refine ⟨_, (f', h),
          by simp only [fifoCall, hrun, Option.bind_eq_bind, Option.bind_some]; rfl, hinv, ?_⟩
        have hsize : size f' = 0 := by
          have := contents_length c f' h
          rw [hnil] at this
          exact this.symm
        rw [hsize]
        dsimp only
        rw [hnil]
        exact .empty
      · refine ⟨_, (f', h),
          by simp only [fifoCall, hrun, Option.bind_eq_bind, Option.bind_some]; rfl, hinv, ?_⟩
        have hsize : size f' = (contents c f' h).length := (contents_length c f' h).symm
        rw [hsize]
        dsimp only
        rw [hcons]
        exact .front

/-- **The heap FIFO refines the list queue.**  After a successful `init`, no
sequence of pushes and pops leaves defined behaviour, and its events are
those of a list queue that turns a push down only when the storage is full
and an allocation of that push failed. -/
theorem heapFifo_is_queue (c : Config) (hr : 0 < c.shiftFillingRatio) (h₀ h : Heap α)
    (f : BufferFifo) (hinit : init c h₀ = (some f, h)) (calls : List (FifoCall α)) :
    ∃ events f' h', run (fifoCall c) (f, h) calls = some (events, (f', h')) ∧
      Trace rejectsOnlyWhenFull [] events (contents c f' h') := by
  obtain ⟨hinv, hempty⟩ := init_spec hinit
  obtain ⟨events, ⟨f', h'⟩, hrun, _, htrace⟩ :=
    run_trace (fun s => Inv c s.1 s.2) (fun s => contents c s.1 s.2)
      (fifoCall_step hr) calls (f, h) hinv
  refine ⟨events, f', h', hrun, ?_⟩
  simpa only [hempty] using htrace

/-- A FIFO of blocks of two cells whose third allocation call, the first
growth of the vector, fails. -/
theorem heapFifo_is_queue_failing_growth :
    ∃ events f' h', run (fifoCall ⟨2, 1 / 2, by decide, by norm_num, by norm_num⟩)
        (⟨⟨Function.update (fun _ => 0) 0 0, 1, 1⟩, 0, 2⟩,
          (⟨fun _ _ => 0, fun _ => 0, 1, 2, fun k => k == 2⟩ : Heap Nat))
        [.pushBack 5, .pushBack 6, .pushBack 7, .popFront, .pushBack 8, .pushBack 9, .popFront]
          = some (events, (f', h')) ∧
      Trace rejectsOnlyWhenFull [] events
        (contents ⟨2, 1 / 2, by decide, by norm_num, by norm_num⟩ f' h') :=
  heapFifo_is_queue ⟨2, 1 / 2, by decide, by norm_num, by norm_num⟩ (by norm_num)
    ⟨fun _ _ => 0, fun _ => 0, 0, 0, fun k => k == 2⟩
    ⟨fun _ _ => 0, fun _ => 0, 1, 2, fun k => k == 2⟩
    ⟨⟨Function.update (fun _ => 0) 0 0, 1, 1⟩, 0, 2⟩ rfl _

end Mtdp.Fifo
