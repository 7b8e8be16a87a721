import Mathlib.Tactic.NormNum
import Mtdp.Pipe.Channel
import Mtdp.Pipeline.Create

/-!
# Destroying a pipeline

The life of a pipeline in its ledger: the pipes are resized, the threads are
created and joined, and while there are threads they push and pop, so that FIFOs
and pools grow.  Whatever happens, `mtdp_pipeline_destroy` does not release the
condition variables and the mutexes of the workers.  Everything else it does,
and the array of a pool that `realloc` has freed it frees again.

## Main results

* `Grows` — what a call does to the objects behind a pipe.
* `step_ok` — the ledger keeps track of a pipeline in use.
* `teardown_leaks_workers` — the ledger after `mtdp_pipeline_destroy`.
-/

namespace Mtdp.Pipeline

open Lib.Ledger Lib.Transition

/-! ## A pipeline in use -/

/-- A pipeline with its ledger.  `round` counts how often its threads have been
joined. -/
structure Account where
  object : Object
  round : Nat
  log : Log

/-- What a call acquired that made pipe `p'` of pipe `p`. -/
def growth (k : Nat) (p p' : Pipe) : List Resource :=
  (if p.pool.capacity = 0 ∧ p'.pool.capacity ≠ 0 then [.poolArray k] else []) ++
    (List.range' p.heap.nextBlock (p'.heap.nextBlock - p.heap.nextBlock)).map (.block k)

/-- What a call released that made pipe `p'` of pipe `p`: the array of the pool,
if `realloc` was asked for no bytes. -/
def loss (k : Nat) (p p' : Pipe) : List Resource :=
  if p.pool.freed = false ∧ p'.pool.freed = true then [.poolArray k] else []

namespace Account

/-- Store pipe `k`, and write down what was acquired and released for it. -/
def setPipe (s : Account) (k : Nat) (p : Pipe) : Account :=
  { s with
    object := { s.object with pipes := Function.update s.object.pipes k p }
    log := s.log ++ (growth k (s.object.pipes k) p).map Event.acquire ++
      (loss k (s.object.pipes k) p).map Event.release }

/-- The threads of this round, from the source to the sink. -/
def threads (s : Account) : List Resource :=
  (List.range (s.object.nStages + 2)).map fun u => .thread u s.round

/-- The loop of `mtdp_pipeline_clear` over the pipes below `i`. -/
def clearPipes (c : Fifo.Config) (s : Account) : Nat → Option Account
  | 0 => some s
  | i + 1 => do
      let p ← (s.object.pipes i).clear c
      clearPipes c (s.setPipe i p) i

/-- The buffers that the units held go back to their pipes. -/
def putBacks (s : Account) : List (Nat × Buffer) → Option Account
  | [] => some s
  | (k, buf) :: held =>
      if k ≤ s.object.nStages then do
        let (_, p) ← (s.object.pipes k).putBack buf
        (s.setPipe k p).putBacks held
      else none

/-- `mtdp_pipeline_enable` -/
def enable (s : Account) : Account :=
  if !s.object.enabled then
    { s with
      object := { s.object with enabled := true, active := false }
      log := s.log ++ s.threads.reverse.map Event.acquire }
  else s

/-- `mtdp_pipeline_start` -/
def start (s : Account) : Account :=
  if s.object.enabled && !s.object.active then { s with object := { s.object with active := true } }
  else s

/-- `mtdp_pipeline_stop` -/
def stop (s : Account) : Account :=
  if s.object.enabled && s.object.active then { s with object := { s.object with active := false } }
  else s

/-- `mtdp_pipeline_disable`; `held` are the buffers in the contexts of the units
when their threads have been joined. -/
def disable (c : Fifo.Config) (s : Account) (held : List (Nat × Buffer)) : Option Account :=
  if s.object.enabled then do
    let s := { s with log := s.log ++ s.threads.map Event.release, round := s.round + 1 }
    let s ← s.clearPipes c (s.object.nStages + 1)
    let s ← s.putBacks held
    some { s with object := { s.object with active := false, enabled := false } }
  else some s

/-- `mtdp_pipeline_destroy`, with the ledger it leaves. -/
def destroy (c : Fifo.Config) (s : Account) (held : List (Nat × Buffer)) : Option Log := do
  let s ← s.disable c held
  let log ← destroyPipes s.object.pipes s.log (s.object.nStages + 1)
  let log := log ++ [.release .pipes]
  let log := log ++ [.release .stageImpls]
  let log := log ++ [.release .stages]
  some (log ++ [.release .pipeline])

end Account

/-- What happens to a pipeline between its creation and its destruction. -/
inductive Action where
  /-- `mtdp_pipe_resize` -/
  | resize (pipe : Nat) (nBuffers : UInt64)
  /-- a thread calls a function of a pipe -/
  | worker (pipe : Nat) (call : Pipe.Call)
  | enable
  | start
  | stop
  | disable (held : List (Nat × Buffer))

/-- One action. -/
def Account.step (c : Fifo.Config) (s : Account) : Action → Option Account
  | .resize k n =>
      if k ≤ s.object.nStages then
        ((s.object.pipes k).call c (.resize n)).map (s.setPipe k)
      else none
  | .worker k call =>
      if k ≤ s.object.nStages ∧ s.object.enabled = true then
        ((s.object.pipes k).call c call).map (s.setPipe k)
      else none
  | .enable => some s.enable
  | .start => some s.start
  | .stop => some s.stop
  | .disable held => s.disable c held

/-! ## How a pipe grows -/

/-- The pipe stays in good order and loses no blocks, and the capacity of its pool
stays positive even if the array is lost. -/
structure Grows (c : Fifo.Config) (p p' : Pipe) : Prop where
  ok : PipeOk c p'
  nextBlock : p.heap.nextBlock ≤ p'.heap.nextBlock
  capacity : p.pool.capacity ≠ 0 → p'.pool.capacity ≠ 0
  freed : p.pool.freed = true → p'.pool.freed = true

theorem Grows.refl {c : Fifo.Config} {p : Pipe} (hp : PipeOk c p) : Grows c p p :=
  ⟨hp, Nat.le_refl _, id, id⟩

theorem Grows.trans {c : Fifo.Config} {p p' p'' : Pipe} (h : Grows c p p') (h' : Grows c p' p'') :
    Grows c p p'' :=
  ⟨h'.ok, Nat.le_trans h.nextBlock h'.nextBlock, fun hne => h'.capacity (h.capacity hne),
    fun hfreed => h'.freed (h.freed hfreed)⟩

/-- A call that works on the pool alone. -/
theorem grows_of_pool {c : Fifo.Config} {p p' : Pipe} (hp : PipeOk c p) (hfifo : p'.fifo = p.fifo)
    (hstep : p.pool.ArrayStep p'.pool p.heap p'.heap) : Grows c p p' where
  ok :=
    { inv := by
        rw [hfifo]
        exact ⟨hstep.nextBlock ▸ hp.inv.blocks, hp.inv.fits, hp.inv.lastBlock⟩
      owns := by
        rw [hfifo, hstep.nextBlock]
        exact hp.owns
      pool := hstep.sound hp.pool }
  nextBlock := Nat.le_of_eq hstep.nextBlock.symm
  capacity := hstep.capacity_ne
  freed := hstep.freed

/-- A call that works on the FIFO alone. -/
theorem grows_of_fifo {c : Fifo.Config} (hr : 0 < c.shiftFillingRatio) {p p' : Pipe}
    (hp : PipeOk c p) (call : Fifo.FifoCall Buffer)
    (hstep : Fifo.callStep c (p.fifo, p.heap) call = some (p'.fifo, p'.heap))
    (hpool : p'.pool = p.pool) : Grows c p p' := by
  have hgrows := Fifo.growsFilled_of_ratio_pos hr (s := (p.fifo, p.heap)) hp.inv call
  have hblocks := Fifo.callStep_blocks hp.inv hgrows hstep
  refine ⟨⟨Fifo.callStep_inv hp.inv hgrows hstep, hp.owns.step hblocks, ?_⟩, ?_, ?_, ?_⟩
  · rw [hpool]
    exact hp.pool
  · have hnext := hblocks.le
    exact hnext
  · rw [hpool]
    exact id
  · rw [hpool]
    exact id

theorem resize_grows {c : Fifo.Config} {p p' : Pipe} {n : UInt64} {report : Pipe.ResizeReport}
    (hp : PipeOk c p) (hrun : p.resize c n = some (report, p')) : Grows c p p' := by
  obtain ⟨hfifo, ⟨hpool, hheap⟩ | ⟨size, ok, hword, hpool⟩⟩ := Pipe.resize_parts hrun
  · apply grows_of_pool hp hfifo
    rw [hpool, hheap]
    exact .keep rfl rfl rfl
  · exact grows_of_pool hp hfifo
      (BufferPool.resize_arrayStep hp.pool.capacity_lt hword hpool)

theorem getFullBuffer_grows {c : Fifo.Config} (hr : 0 < c.shiftFillingRatio) {p p' : Pipe}
    {out : Buffer} (hp : PipeOk c p) (hrun : p.getFullBuffer c = some (out, p')) :
    Grows c p p' := by
  simp only [Pipe.getFullBuffer, Option.bind_eq_bind, Option.bind_eq_some_iff] at hrun
  obtain ⟨⟨r, fifo⟩, hpop, hrun⟩ := hrun
  cases hrun
  apply grows_of_fifo hr hp .popFront
  · rw [Fifo.callStep_popFront, hpop]
    rfl
  · rfl

theorem putBack_grows {c : Fifo.Config} {p p' : Pipe} {buf : Buffer} {ok : Bool}
    (hp : PipeOk c p) (hrun : p.putBack buf = some (ok, p')) : Grows c p p' := by
  simp only [Pipe.putBack, Option.bind_eq_bind, Option.bind_eq_some_iff] at hrun
  obtain ⟨⟨out, pool, heap⟩, hpool, hrun⟩ := hrun
  cases hrun
  exact grows_of_pool hp rfl (BufferPool.pushBack_arrayStep hpool)

/-- **One call on a pipe.** -/
theorem call_grows {c : Fifo.Config} (hr : 0 < c.shiftFillingRatio) {p p' : Pipe}
    (hp : PipeOk c p) {call : Pipe.Call} (hrun : p.call c call = some p') : Grows c p p' := by
  cases call with
  | resize n =>
      obtain ⟨⟨report, q⟩, hresize, rfl⟩ := Option.map_eq_some_iff.mp hrun
      exact resize_grows hp hresize
  | getEmptyBuffer =>
      obtain ⟨⟨out, q⟩, hget, rfl⟩ := Option.map_eq_some_iff.mp hrun
      simp only [Pipe.getEmptyBuffer, Option.bind_eq_bind, Option.bind_eq_some_iff] at hget
      obtain ⟨⟨e, pool⟩, hpool, hget⟩ := hget
      cases hget
      exact grows_of_pool hp rfl (BufferPool.popBack_arrayStep hpool)
  | pushBuffer buf =>
      obtain ⟨⟨ok, q⟩, hpush, rfl⟩ := Option.map_eq_some_iff.mp hrun
      simp only [Pipe.pushBuffer, Option.bind_eq_bind, Option.bind_eq_some_iff] at hpush
      obtain ⟨⟨out, fifo, heap⟩, hfifo, hpush⟩ := hpush
      cases hpush
      apply grows_of_fifo hr hp (.pushBack buf)
      · rw [Fifo.callStep_pushBack, hfifo]
        rfl
      · rfl
  | getFullBuffer =>
      obtain ⟨⟨out, q⟩, hget, rfl⟩ := Option.map_eq_some_iff.mp hrun
      exact getFullBuffer_grows hr hp hget
  | putBack buf =>
      obtain ⟨⟨ok, q⟩, hput, rfl⟩ := Option.map_eq_some_iff.mp hrun
      exact putBack_grows hp hput

theorem clearLoop_grows {c : Fifo.Config} (hr : 0 < c.shiftFillingRatio) (i : Nat)
    {p p' : Pipe} (hp : PipeOk c p) (hrun : Pipe.clearLoop c i p = some p') : Grows c p p' := by
  induction i generalizing p with
  | zero =>
      cases hrun
      exact .refl hp
  | succ i ih =>
      rw [Pipe.clearLoop_succ, Option.bind_eq_some_iff] at hrun
      obtain ⟨⟨tmp, q⟩, hget, hrun⟩ := hrun
      obtain ⟨⟨ok, q'⟩, hput, hrun⟩ := Option.bind_eq_some_iff.mp hrun
      have hget := getFullBuffer_grows hr hp hget
      have hput := putBack_grows hget.ok hput
      exact (hget.trans hput).trans (ih hput.ok hrun)

/-- What was acquired for a pipe is what it holds more, and what it has lost. -/
theorem pipeHeld_growth {c : Fifo.Config} {p p' : Pipe} (hp : PipeOk c p) (hgrows : Grows c p p')
    (k : Nat) :
    pipeHeld k p' + (loss k p p' : Multiset Resource) =
      pipeHeld k p + (growth k p p' : Multiset Resource) := by
  have hpool : poolHeld k p'.pool + (loss k p p' : Multiset Resource) = poolHeld k p.pool +
      ((if p.pool.capacity = 0 ∧ p'.pool.capacity ≠ 0 then [.poolArray k] else [] :
        List Resource) : Multiset Resource) := by
    have hcap := hgrows.capacity
    have hlost := hgrows.ok.pool.freed
    unfold poolHeld loss
    cases hbefore : p.pool.freed with
    | true => simp [hp.pool.freed hbefore, hgrows.freed hbefore]
    | false =>
        cases hafter : p'.pool.freed with
        | true =>
            by_cases hzero : p.pool.capacity = 0
            · simp [hzero, hlost hafter]
            · simp [hzero]
        | false =>
            by_cases hzero : p.pool.capacity = 0
            · by_cases hzero' : p'.pool.capacity = 0
              · simp [hzero, hzero']
              · simp [hzero, hzero']
            · simp [hzero, hcap hzero]
  have hrange : List.range p'.heap.nextBlock = List.range p.heap.nextBlock ++
      List.range' p.heap.nextBlock (p'.heap.nextBlock - p.heap.nextBlock) := by
    have hle := hgrows.nextBlock
    rw [List.range_eq_range', List.range_eq_range']
    conv => lhs; rw [show p'.heap.nextBlock =
      p.heap.nextBlock + (p'.heap.nextBlock - p.heap.nextBlock) by omega]
    rw [← List.range'_append_1, Nat.zero_add]
  have hsplit : pipeHeld k p' + (loss k p p' : Multiset Resource) =
      {.poolMutex k} + {.fifoMutex k} + (poolHeld k p'.pool + (loss k p p' : Multiset Resource)) +
        fifoHeld k p'.heap.nextBlock + {.semaphore k} := by
    unfold pipeHeld
    abel
  rw [hsplit, hpool]
  unfold pipeHeld growth fifoHeld
  rw [hrange, List.map_append, ← Multiset.coe_add, ← Multiset.coe_add]
  abel

/-! ## The ledger of a pipeline in use -/

namespace Account

/-- The ledger is right, with `others` for what is held besides the object, its
vectors and its pipes; and the pipes are in good order.  The arrays that
`realloc` has freed are in the ledger. -/
structure Ok (c : Fifo.Config) (others : Multiset Resource) (s : Account) : Prop where
  holds : Holds s.log (setupHeld s.object.pipes s.object.nStages + others)
  pipes : ∀ k ≤ s.object.nStages, PipeOk c (s.object.pipes k)
  freed : ∀ k ≤ s.object.nStages, (s.object.pipes k).pool.freed = true →
    .poolArray k ∈ released s.log

/-- The threads, while there are any. -/
def threadsHeld (s : Account) : Multiset Resource := if s.object.enabled then s.threads else 0

variable {c : Fifo.Config} {others : Multiset Resource} {s s' : Account}

/-- One pipe among the others. -/
theorem pipesHeld_update (pipes : Nat → Pipe) {k n : Nat} (hk : k < n) :
    ∃ rest, ∀ p, pipesHeld (Function.update pipes k p) n = rest + pipeHeld k p := by
  induction n with
  | zero => omega
  | succ n ih =>
      by_cases hkn : k = n
      · subst hkn
        refine ⟨pipesHeld pipes k, fun p => ?_⟩
        have hsame : ∀ j < k, Function.update pipes k p j = pipes j := fun j hj =>
          Function.update_of_ne (Nat.ne_of_lt hj) _ _
        rw [pipesHeld, pipesHeld_congr hsame, Function.update_self]
      · obtain ⟨rest, hrest⟩ := ih (by omega)
        refine ⟨rest + pipeHeld n (pipes n), fun p => ?_⟩
        rw [pipesHeld, hrest p, Function.update_of_ne (Ne.symm hkn), add_right_comm]

/-- **One pipe grows.** -/
theorem Ok.setPipe (hs : s.Ok c others) {k : Nat} (hk : k ≤ s.object.nStages) {p : Pipe}
    (hgrows : Grows c (s.object.pipes k) p) : (s.setPipe k p).Ok c others where
  holds := by
    obtain ⟨rest, hrest⟩ :=
      pipesHeld_update s.object.pipes (Nat.lt_succ_of_le hk : k < s.object.nStages + 1)
    have hbefore := hrest (s.object.pipes k)
    rw [Function.update_eq_self] at hbefore
    have hheld := pipeHeld_growth (hs.pipes k hk) hgrows k
    have hholds := hs.holds.acquires (growth k (s.object.pipes k) p)
    apply (Drops.releases _ (loss k (s.object.pipes k) p)).holds
    have heq : setupHeld (s.setPipe k p).object.pipes (s.setPipe k p).object.nStages + others +
        (loss k (s.object.pipes k) p : Multiset Resource) =
        setupHeld s.object.pipes s.object.nStages + others +
          (growth k (s.object.pipes k) p : Multiset Resource) := by
      have hmove (front : Multiset Resource) :
          front + (rest + pipeHeld k p) + others + (loss k (s.object.pipes k) p) =
            front + rest + others + (pipeHeld k p + (loss k (s.object.pipes k) p)) := by
        abel
      simp only [setupHeld, Account.setPipe, hrest, hbefore]
      rw [hmove, hheld]
      abel
    rw [heq]
    exact hholds
  pipes := by
    intro j hj
    by_cases hjk : j = k
    · subst hjk
      simpa [Account.setPipe] using hgrows.ok
    · simpa [Account.setPipe, hjk] using hs.pipes j hj
  freed := by
    intro j hj hfreed
    have hold : (s.object.pipes j).pool.freed = true → .poolArray j ∈ released s.log :=
      hs.freed j hj
    simp only [Account.setPipe, released_append, released_map_acquire, released_map_release,
      List.append_nil, List.mem_append]
    by_cases hjk : j = k
    · subst hjk
      simp only [Account.setPipe, Function.update_self] at hfreed
      cases hbefore : (s.object.pipes j).pool.freed with
      | true => exact .inl (hold hbefore)
      | false => exact .inr (by simp [loss, hbefore, hfreed])
    · simp only [Account.setPipe, Function.update_of_ne hjk] at hfreed
      exact .inl (hold hfreed)

theorem clearPipes_ok (hr : 0 < c.shiftFillingRatio) (i : Nat) (hi : i ≤ s.object.nStages + 1)
    (hs : s.Ok c others) (hrun : s.clearPipes c i = some s') : s'.Ok c others := by
  induction i generalizing s with
  | zero =>
      cases hrun
      exact hs
  | succ i ih =>
      simp only [clearPipes, Option.bind_eq_bind, Option.bind_eq_some_iff] at hrun
      obtain ⟨p, hclear, hrun⟩ := hrun
      have hk : i ≤ s.object.nStages := by omega
      have hgrows := clearLoop_grows hr _ (hs.pipes i hk) hclear
      exact ih (s := s.setPipe i p) (Nat.le_of_succ_le hi) (hs.setPipe hk hgrows) hrun

theorem putBacks_ok (bufs : List (Nat × Buffer)) (hs : s.Ok c others)
    (hrun : s.putBacks bufs = some s') : s'.Ok c others := by
  induction bufs generalizing s with
  | nil =>
      cases hrun
      exact hs
  | cons b bufs ih =>
      obtain ⟨k, buf⟩ := b
      unfold putBacks at hrun
      split at hrun
      · next hk =>
          simp only [Option.bind_eq_bind, Option.bind_eq_some_iff] at hrun
          obtain ⟨⟨ok, p⟩, hput, hrun⟩ := hrun
          exact ih (s := s.setPipe k p) (hs.setPipe hk (putBack_grows (hs.pipes k hk) hput)) hrun
      · cases hrun

theorem enable_ok (hs : s.Ok c (others + s.threadsHeld)) :
    s.enable.Ok c (others + s.enable.threadsHeld) := by
  unfold enable
  cases henabled : s.object.enabled with
  | true => exact hs
  | false =>
      refine ⟨?_, hs.pipes, fun k hk hfreed => ?_⟩
      swap
      · have hgone := List.mem_append_left (released (s.threads.reverse.map Event.acquire))
          (hs.freed k hk hfreed)
        rw [← released_append] at hgone
        exact hgone
      have hholds := hs.holds.acquires s.threads.reverse
      rw [threadsHeld, henabled, Multiset.coe_reverse] at hholds
      simpa [threadsHeld, threads, add_assoc] using hholds

/-- The threads have been joined, and nothing else is released. -/
theorem disable_ok (hr : 0 < c.shiftFillingRatio) (bufs : List (Nat × Buffer))
    (hs : s.Ok c (others + s.threadsHeld)) (hrun : s.disable c bufs = some s') :
    s'.Ok c others ∧ s'.object.enabled = false := by
  unfold disable at hrun
  cases henabled : s.object.enabled with
  | true =>
      simp only [henabled, if_true, Option.bind_eq_bind, Option.bind_eq_some_iff] at hrun
      obtain ⟨s₂, hclear, s₃, hput, hdone⟩ := hrun
      cases hdone
      have hjoined := (Drops.releases s.log s.threads).holds
        (setupHeld s.object.pipes s.object.nStages + others)
      have hholds := hs.holds
      rw [threadsHeld, henabled, if_pos rfl, ← add_assoc] at hholds
      have hs₁ : Ok c others
          { s with log := s.log ++ s.threads.map Event.release, round := s.round + 1 } :=
        ⟨hjoined hholds, hs.pipes, fun k hk hfreed => by simp [hs.freed k hk hfreed]⟩
      have hs₃ := putBacks_ok bufs (clearPipes_ok hr _ (Nat.le_refl _) hs₁ hclear) hput
      exact ⟨⟨hs₃.holds, hs₃.pipes, hs₃.freed⟩, rfl⟩
  | false =>
      simp only [henabled, Bool.false_eq_true, if_false] at hrun
      cases hrun
      rw [threadsHeld, henabled, if_neg Bool.false_ne_true, add_zero] at hs
      exact ⟨hs, henabled⟩

/-- **One action.** -/
theorem step_ok (hr : 0 < c.shiftFillingRatio) {action : Action}
    (hs : s.Ok c (others + s.threadsHeld)) (hstep : s.step c action = some s') :
    s'.Ok c (others + s'.threadsHeld) := by
  cases action with
  | resize k n =>
      simp only [step] at hstep
      split at hstep
      · next hk =>
          obtain ⟨p, hcall, rfl⟩ := Option.map_eq_some_iff.mp hstep
          exact hs.setPipe hk (call_grows hr (hs.pipes k hk) hcall)
      · cases hstep
  | worker k call =>
      simp only [step] at hstep
      split at hstep
      · next hk =>
          obtain ⟨p, hcall, rfl⟩ := Option.map_eq_some_iff.mp hstep
          exact hs.setPipe hk.1 (call_grows hr (hs.pipes k hk.1) hcall)
      · cases hstep
  | enable =>
      cases hstep
      exact enable_ok hs
  | start =>
      cases hstep
      unfold start
      split
      · exact ⟨hs.holds, hs.pipes, hs.freed⟩
      · exact hs
  | stop =>
      cases hstep
      unfold stop
      split
      · exact ⟨hs.holds, hs.pipes, hs.freed⟩
      · exact hs
  | disable bufs =>
      obtain ⟨hok, hdisabled⟩ := disable_ok hr bufs hs hstep
      rw [threadsHeld, hdisabled, if_neg Bool.false_ne_true, add_zero]
      exact hok

end Account

/-! ## What is never released -/

/-- The array of a pool is freed a second time. -/
def FreedTwice (log : Log) : Prop := ∃ k, 2 ≤ (released log).count (Resource.poolArray k)

/-- The condition variable and the mutex of a worker. -/
def Resource.ofWorker : Resource → Bool
  | .workerCv _ => true
  | .workerMutex _ => true
  | _ => false

/-- The ledger goes on without a release of an object of a worker. -/
def Spares (log log' : Log) : Prop :=
  ∃ es, log' = log ++ es ∧ ∀ r ∈ released es, r.ofWorker = false

namespace Spares

theorem refl (log : Log) : Spares log log := ⟨[], (List.append_nil log).symm, by simp [released]⟩

theorem trans {log log' log'' : Log} (h : Spares log log') (h' : Spares log' log'') :
    Spares log log'' := by
  obtain ⟨es, rfl, hes⟩ := h
  obtain ⟨es', rfl, hes'⟩ := h'
  refine ⟨es ++ es', List.append_assoc log es es', ?_⟩
  intro r hr
  rw [released_append] at hr
  rcases List.mem_append.mp hr with hr | hr
  · exact hes r hr
  · exact hes' r hr

theorem acquires (log : Log) (l : List Resource) : Spares log (log ++ l.map Event.acquire) :=
  ⟨_, rfl, by simp⟩

theorem releases (log : Log) {l : List Resource} (hl : ∀ r ∈ l, r.ofWorker = false) :
    Spares log (log ++ l.map Event.release) :=
  ⟨_, rfl, by simpa using hl⟩

theorem release (log : Log) {r : Resource} (hr : r.ofWorker = false) :
    Spares log (log ++ [.release r]) := releases log (l := [r]) (by simpa using hr)

theorem count_le {log log' : Log} (h : Spares log log') (r : Resource) :
    (released log).count r ≤ (released log').count r := by
  obtain ⟨es, rfl, _⟩ := h
  rw [released_append, List.count_append]
  exact Nat.le_add_right _ _

end Spares

theorem pipeDestroy_spares {k : Nat} {p : Pipe} {log log' : Log}
    (hrun : pipeDestroy k p log = some log') : Spares log log' := by
  simp only [pipeDestroy, fifoDestroy, Option.bind_eq_bind, Option.bind_eq_some_iff] at hrun
  obtain ⟨log₁, ⟨⟨frees, f⟩, _, hfifo⟩, hdone⟩ := hrun
  cases hfifo
  cases hdone
  have hmutexes : Spares log
      (log ++ [.release (.poolMutex k)] ++ [.release (.fifoMutex k)]) :=
    (Spares.release log rfl).trans (.release _ rfl)
  have hpool (log : Log) : Spares log (poolDestroy k p.pool log) := by
    unfold poolDestroy
    split
    · exact .release log rfl
    · exact .refl log
  have hfrees : ∀ r ∈ frees.map (freedResource k), r.ofWorker = false := by
    intro r hr
    obtain ⟨freed, _, rfl⟩ := List.mem_map.mp hr
    cases freed <;> rfl
  exact ((hmutexes.trans (hpool _)).trans (.releases _ hfrees)).trans (.release _ rfl)

/-- Whether the array is still there does not matter. -/
theorem pipeDestroy_frees {k : Nat} {p : Pipe} {log log' : Log} (hcap : p.pool.capacity ≠ 0)
    (hrun : pipeDestroy k p log = some log') :
    (released log).count (.poolArray k) < (released log').count (.poolArray k) := by
  simp only [pipeDestroy, fifoDestroy, poolDestroy, if_pos hcap, Option.bind_eq_bind,
    Option.bind_eq_some_iff] at hrun
  obtain ⟨log₁, ⟨⟨frees, f⟩, _, hfifo⟩, hdone⟩ := hrun
  cases hfifo
  cases hdone
  have hone : (released [Event.release (Resource.poolArray k)]).count (.poolArray k) = 1 := by
    simp [released, Event.released]
  simp only [released_append, List.count_append, hone]
  omega

theorem destroyPipes_spares {pipes : Nat → Pipe} {log log' : Log} {n : Nat}
    (hrun : destroyPipes pipes log n = some log') : Spares log log' := by
  induction n generalizing log' with
  | zero =>
      cases hrun
      exact .refl log
  | succ n ih =>
      simp only [destroyPipes, Option.bind_eq_bind, Option.bind_eq_some_iff] at hrun
      obtain ⟨log₁, hloop, hdestroy⟩ := hrun
      exact (ih hloop).trans (pipeDestroy_spares hdestroy)

theorem destroyPipes_frees {pipes : Nat → Pipe} {log log' : Log} {n k : Nat} (hk : k < n)
    (hcap : (pipes k).pool.capacity ≠ 0) (hrun : destroyPipes pipes log n = some log') :
    (released log).count (.poolArray k) < (released log').count (.poolArray k) := by
  induction n generalizing log' with
  | zero => omega
  | succ n ih =>
      simp only [destroyPipes, Option.bind_eq_bind, Option.bind_eq_some_iff] at hrun
      obtain ⟨log₁, hloop, hdestroy⟩ := hrun
      rcases Nat.lt_succ_iff_lt_or_eq.mp hk with hlt | rfl
      · exact (ih hlt hloop).trans_le ((pipeDestroy_spares hdestroy).count_le _)
      · exact ((destroyPipes_spares hloop).count_le _).trans_lt (pipeDestroy_frees hcap hdestroy)

namespace Account

variable {c : Fifo.Config} {s s' : Account}

theorem setPipe_spares (s : Account) (k : Nat) (p : Pipe) : Spares s.log (s.setPipe k p).log := by
  apply (Spares.acquires s.log _).trans
  apply Spares.releases
  intro r hr
  unfold loss at hr
  split at hr
  · rw [List.mem_singleton.mp hr]
    rfl
  · cases hr

theorem clearPipes_spares {i : Nat} (hrun : s.clearPipes c i = some s') :
    Spares s.log s'.log := by
  induction i generalizing s with
  | zero =>
      cases hrun
      exact .refl _
  | succ i ih =>
      simp only [clearPipes, Option.bind_eq_bind, Option.bind_eq_some_iff] at hrun
      obtain ⟨p, _, hrun⟩ := hrun
      exact (setPipe_spares s i p).trans (ih hrun)

theorem putBacks_spares {bufs : List (Nat × Buffer)} (hrun : s.putBacks bufs = some s') :
    Spares s.log s'.log := by
  induction bufs generalizing s with
  | nil =>
      cases hrun
      exact .refl _
  | cons b bufs ih =>
      obtain ⟨k, buf⟩ := b
      unfold putBacks at hrun
      split at hrun
      · simp only [Option.bind_eq_bind, Option.bind_eq_some_iff] at hrun
        obtain ⟨⟨ok, p⟩, _, hrun⟩ := hrun
        exact (setPipe_spares s k p).trans (ih hrun)
      · cases hrun

theorem disable_spares {bufs : List (Nat × Buffer)} (hrun : s.disable c bufs = some s') :
    Spares s.log s'.log := by
  unfold disable at hrun
  split at hrun
  · simp only [Option.bind_eq_bind, Option.bind_eq_some_iff] at hrun
    obtain ⟨s₂, hclear, s₃, hput, hdone⟩ := hrun
    cases hdone
    have hthreads : ∀ r ∈ s.threads, r.ofWorker = false := by
      intro r hr
      obtain ⟨u, _, rfl⟩ := List.mem_map.mp hr
      rfl
    have hput := putBacks_spares hput
    exact ((Spares.releases s.log hthreads).trans (clearPipes_spares hclear)).trans hput
  · cases hrun
    exact .refl _

theorem step_spares {action : Action} (hstep : s.step c action = some s') :
    Spares s.log s'.log := by
  cases action with
  | resize k n =>
      simp only [step] at hstep
      split at hstep
      · obtain ⟨p, _, rfl⟩ := Option.map_eq_some_iff.mp hstep
        exact setPipe_spares s k p
      · cases hstep
  | worker k call =>
      simp only [step] at hstep
      split at hstep
      · obtain ⟨p, _, rfl⟩ := Option.map_eq_some_iff.mp hstep
        exact setPipe_spares s k p
      · cases hstep
  | enable =>
      cases hstep
      unfold enable
      split
      · exact .acquires _ _
      · exact .refl _
  | start =>
      cases hstep
      unfold start
      split <;> exact .refl _
  | stop =>
      cases hstep
      unfold stop
      split <;> exact .refl _
  | disable bufs => exact disable_spares hstep

theorem destroy_spares {bufs : List (Nat × Buffer)} {log : Log}
    (hrun : s.destroy c bufs = some log) : Spares s.log log := by
  simp only [destroy, Option.bind_eq_bind, Option.bind_eq_some_iff] at hrun
  obtain ⟨s₁, hdisable, log₁, hpipes, hdone⟩ := hrun
  cases hdone
  exact ((((disable_spares hdisable).trans (destroyPipes_spares hpipes)).trans
    (.release _ rfl)).trans (.release _ rfl)).trans ((Spares.release _ rfl).trans (.release _ rfl))

variable {others : Multiset Resource}

/-- **Destroying.**  All that is left is what is held besides the object, its
vectors, its pipes and its threads, unless an array that is gone is freed again. -/
theorem destroy_holds (hr : 0 < c.shiftFillingRatio) (bufs : List (Nat × Buffer))
    (hs : s.Ok c (others + s.threadsHeld)) {log : Log} (hrun : s.destroy c bufs = some log) :
    Holds log others ∨ FreedTwice log := by
  simp only [destroy, Option.bind_eq_bind, Option.bind_eq_some_iff] at hrun
  obtain ⟨s₁, hdisable, log₁, hpipes, hdone⟩ := hrun
  cases hdone
  obtain ⟨hok, _⟩ := disable_ok hr bufs hs hdisable
  by_cases hthere : ∀ k < s₁.object.nStages + 1, (s₁.object.pipes k).pool.freed = false
  · left
    obtain ⟨log₂, hdestroy, hdrops⟩ := destroyPipes_spec (n := s₁.object.nStages + 1)
      (fun k hk => hok.pipes k (Nat.le_of_lt_succ hk)) hthere s₁.log
    rw [hpipes, Option.some.injEq] at hdestroy
    subst hdestroy
    have hvectors := (((hdrops.trans (.release log₁ Resource.pipes)).trans
      (.release _ Resource.stageImpls)).trans (.release _ Resource.stages)).trans
        (.release _ Resource.pipeline)
    apply hvectors.holds
    have heq : others + ({Resource.pipeline} + ({Resource.stages} + ({Resource.stageImpls} +
        ({Resource.pipes} + pipesHeld s₁.object.pipes (s₁.object.nStages + 1))))) =
        setupHeld s₁.object.pipes s₁.object.nStages + others := by
      unfold setupHeld
      abel
    rw [heq]
    exact hok.holds
  · right
    obtain ⟨k, hk, hfreed⟩ : ∃ k < s₁.object.nStages + 1,
        (s₁.object.pipes k).pool.freed = true := by simpa using hthere
    have hgone := List.count_pos_iff.mpr (hok.freed k (Nat.le_of_lt_succ hk) hfreed)
    have hagain := destroyPipes_frees hk ((hok.pipes k (Nat.le_of_lt_succ hk)).pool.freed hfreed)
      hpipes
    refine ⟨k, ?_⟩
    simp only [released_append, List.count_append]
    omega

end Account

/-! ## From creation to destruction -/

theorem workersHeld_eq {env : Env} {n : Nat}
    (hall : ∀ r ∈ (List.range n).flatMap workerSites, env.succeeds r = true) :
    workersHeld env n = ((List.range n).flatMap workerSites : List Resource) := by
  induction n with
  | zero => rfl
  | succ n ih =>
      rw [flatMap_workerSites_succ] at hall ⊢
      have hcv := hall (.workerCv n) (by simp [workerSites])
      have hmutex := hall (.workerMutex n) (by simp [workerSites])
      simp only [Env.succeeds, Bool.not_eq_true'] at hcv hmutex
      rw [workersHeld, ih fun r hr => hall r (List.mem_append_left _ hr), workerHeld, hcv, hmutex,
        ← Multiset.coe_add]
      rfl

theorem sites_nodup (nStages : Nat) : (setupSites nStages ++ workersSites nStages).Nodup := by
  apply List.Nodup.append (setupSites_nodup nStages)
  · apply List.nodup_flatMap.mpr
    constructor
    · intro u _
      simp [workerSites]
    · apply List.nodup_range.imp
      intro u v hne
      simp [workerSites, List.disjoint_left, hne]
  · intro r hsetup hworker
    have hno : r.ofWorker = false := by
      simp only [setupSites, pipesSites, pipeSites, List.mem_append, List.mem_cons,
        List.not_mem_nil, or_false, List.mem_flatMap] at hsetup
      rcases hsetup with (rfl | rfl | rfl | rfl) | ⟨k, _, rfl | rfl | rfl | rfl | rfl⟩ <;> rfl
    have hyes : r.ofWorker = true := by
      simp only [workersSites, workerSites, List.mem_cons, List.not_mem_nil, or_false,
        List.mem_flatMap] at hworker
      obtain ⟨u, _, rfl | rfl⟩ := hworker <;> rfl
    rw [hno] at hyes
    cases hyes

/-- **Teardown.**  Whatever happens to a pipeline that was created without any
failure, not everything is released by `mtdp_pipeline_destroy`; with a positive
filling ratio, what is left are the condition variables and the mutexes of the
workers, and everything else has been released as often as acquired, unless the
array of a pool was freed by `realloc` and then once more. -/
theorem teardown_leaks_workers (c : Fifo.Config) (env : Env) (nStages : Nat) (errno : MtdpError)
    (object : Object) (w : World)
    (hcreate : pipelineCreate c env nStages ⟨[], errno⟩ = some (some object, w))
    (hall : ∀ r ∈ setupSites nStages ++ workersSites nStages, env.succeeds r = true)
    (actions : List Action) (s : Account)
    (hrun : run (Account.step c) ⟨object, 0, w.log⟩ actions = some s)
    (bufs : List (Nat × Buffer)) (log : Log) (hdestroy : s.destroy c bufs = some log) :
    ¬ Settled log ∧
      (0 < c.shiftFillingRatio →
        Holds log (workersSites nStages : Multiset Resource) ∨ FreedTwice log) := by
  rcases pipelineCreate_spec c env nStages ⟨[], errno⟩ with ⟨w', hnull, _, _⟩ |
    ⟨pipes, w', hcreated, _, hgains, hpipes⟩
  · rw [hcreate] at hnull
    cases hnull
  rw [hcreate] at hcreated
  cases hcreated
  have hworkers : workersHeld env (nStages + 2) = (workersSites nStages : List Resource) :=
    workersHeld_eq fun r hr => hall r (List.mem_append_right _ hr)
  rw [hworkers] at hgains
  constructor
  · have hspares : Spares w.log log := by
      have hsteps : Spares w.log s.log :=
        run_invariant (I := fun s => Spares w.log s.log)
          (fun s action s' hs hstep => hs.trans (Account.step_spares hstep)) (.refl _) hrun
      exact hsteps.trans (Account.destroy_spares hdestroy)
    have hsource : Resource.workerCv 0 ∈ workersSites nStages := by
      simp [workersSites, workerSites]
    obtain ⟨hacquired, hkept⟩ := hgains.not_released (sites_nodup nStages)
      (Multiset.mem_add.mpr (.inr hsource))
    obtain ⟨es, rfl, hes⟩ := hspares
    apply not_settled_of_kept (r := .workerCv 0)
    · rw [acquired_append]
      exact List.mem_append_left _ hacquired
    · intro hreleased
      rw [released_append] at hreleased
      rcases List.mem_append.mp hreleased with hreleased | hreleased
      · exact hkept hreleased
      · exact absurd (hes _ hreleased) (by decide)
  · intro hr
    have hnone : Account.threadsHeld ⟨⟨nStages, pipes, false, false⟩, 0, w.log⟩ = 0 := by
      simp [Account.threadsHeld]
    have hstart : Account.Ok c ((workersSites nStages : List Resource) +
        Account.threadsHeld ⟨⟨nStages, pipes, false, false⟩, 0, w.log⟩)
        ⟨⟨nStages, pipes, false, false⟩, 0, w.log⟩ := by
      rw [hnone, add_zero]
      refine ⟨?_, fun k hk => (hpipes k hk).2, fun k hk hfreed => ?_⟩
      swap
      · rw [pipe_init_pool (hpipes k hk).1] at hfreed
        cases hfreed
      have hholds := hgains.holds 0 holds_nil
      rw [zero_add] at hholds
      exact hholds
    have hend := run_invariant
      (I := fun s => Account.Ok c ((workersSites nStages : List Resource) + s.threadsHeld) s)
      (fun s action s' hs hstep => Account.step_ok hr hs hstep) hstart hrun
    exact Account.destroy_holds hr bufs hend hdestroy

/-- Blocks of two cells. -/
def plainConfig : Fifo.Config := ⟨2, 1 / 2, by decide, by norm_num, by norm_num⟩

/-- Nothing fails. -/
def plainEnv : Env where
  result := fun _ => .success
  junk := fun _ => ⟨0, ⟨fun _ => none, 0, 0, false⟩, ⟨⟨fun _ => 0, 0, 0⟩, 0, 0⟩, 0,
    ⟨fun _ _ => none, fun _ => 0, 0, 0, fun _ => false⟩⟩
  fresh := fun _ => rfl

/-- A pipeline without internal stages that is destroyed in its second session. -/
theorem teardown_leaks_workers_smallest :
    ∃ object w s log,
      pipelineCreate plainConfig plainEnv 0 ⟨[], .ok⟩ = some (some object, w) ∧
      run (Account.step plainConfig) ⟨object, 0, w.log⟩
        [.resize 0 2, .enable, .start, .worker 0 .getEmptyBuffer, .worker 0 (.pushBuffer none),
          .stop, .disable [], .enable] = some s ∧
      s.destroy plainConfig [] = some log ∧ ¬ Settled log ∧
      (0 < plainConfig.shiftFillingRatio →
        Holds log (workersSites 0 : Multiset Resource) ∨ FreedTwice log) :=
  ⟨_, _, _, _, rfl, rfl, rfl, teardown_leaks_workers plainConfig plainEnv 0 .ok _ _ rfl (by decide)
    [.resize 0 2, .enable, .start, .worker 0 .getEmptyBuffer, .worker 0 (.pushBuffer none),
      .stop, .disable [], .enable] _ rfl [] _ rfl⟩

/-- Created and destroyed at once. -/
theorem source_cv_leaked :
    ¬ ∀ (c : Fifo.Config) (env : Env) (nStages : Nat) (errno : MtdpError) (object : Object)
      (w : World), pipelineCreate c env nStages ⟨[], errno⟩ = some (some object, w) →
      (∀ r ∈ setupSites nStages ++ workersSites nStages, env.succeeds r = true) →
      ∀ (actions : List Action) (s : Account),
        run (Account.step c) ⟨object, 0, w.log⟩ actions = some s →
        ∀ (bufs : List (Nat × Buffer)) (log : Log), s.destroy c bufs = some log → Settled log := by
  intro hclaim
  have hsettled := hclaim plainConfig plainEnv 0 .ok _ _ rfl (by decide) [] _ rfl [] _ rfl
  exact not_settled_of_kept (r := .workerCv 0) (by decide) (by decide) hsettled

end Mtdp.Pipeline
