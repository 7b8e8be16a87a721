import Mathlib.Data.List.Nodup
import Mathlib.Tactic.NormNum
import Mtdp.Pipeline.Resources

/-!
# Creating a pipeline

`mtdp_pipeline_create` of `src/pipeline.c` with all that it calls, as a writer
of the ledger.  Every level undoes its own work when an acquisition fails, up to
the call of `mtdp_pipeline_configure`: what `mtdp_worker_init` answers there is
thrown away.

## Main results

* `pipeInit_spec`, `initPipes_spec` — the levels below either keep everything or
  nothing.
* `create_atomic_iff` — when the creation of a pipeline is atomic.
-/

namespace Mtdp.Pipeline

open Lib.Ledger

/-! ## The environment -/

/-- How the system answers.  `result` is for the allocations of the pipeline and
its vectors and for the initialisations of mutexes, condition variables and
semaphores.  The pipes are built in arbitrary memory; the heap of each decides
about the allocations of its FIFO. -/
structure Env where
  result : Resource → ThrdResult
  junk : Nat → Pipe
  fresh : ∀ k, (junk k).heap.nextBlock = 0

/-- An allocation returns `NULL`, or an initialisation an error. -/
def Env.fails (env : Env) (r : Resource) : Bool := env.result r ≠ .success

/-- The acquisition succeeds. -/
def Env.succeeds (env : Env) : Resource → Bool
  | .blockVector k => !(env.junk k).heap.fails (env.junk k).heap.allocations
  | .block k _ => !(env.junk k).heap.fails ((env.junk k).heap.allocations + 1)
  | r => !env.fails r

/-- The ledger and the error code of the calling thread. -/
structure World where
  log : Log
  errno : MtdpError

def World.acquire (w : World) (r : Resource) : World := { w with log := w.log ++ [.acquire r] }

def World.release (w : World) (r : Resource) : World := { w with log := w.log ++ [.release r] }

@[simp] theorem World.acquire_log (w : World) (r : Resource) :
    (w.acquire r).log = w.log ++ [.acquire r] := rfl

@[simp] theorem World.release_log (w : World) (r : Resource) :
    (w.release r).log = w.log ++ [.release r] := rfl

/-! ## Pipes -/

/-- The calls of `mtdp_buffer_fifo_blocks_init`. -/
def blocksInitLog (k : Nat) (h : Heap Buffer) : Log :=
  let (ok, h) := h.attempt
  if ok then
    match Fifo.blockAlloc h with
    | (some tmp, _) => [.acquire (.blockVector k), .acquire (.block k tmp)]
    | (none, _) => [.acquire (.blockVector k), .release (.blockVector k)]
  else []

/-- `mtdp_pipe_init`; `none` for a return value of `false`. -/
def pipeInit (c : Fifo.Config) (env : Env) (k : Nat) (log : Log) : Option (Option Pipe × Log) :=
  let junk := env.junk k
  let pool := BufferPool.init junk.pool.buffers
  if env.fails (.poolMutex k) then some (none, log)
  else
    let log := log ++ [.acquire (.poolMutex k)]
    if env.fails (.fifoMutex k) then some (none, log ++ [.release (.poolMutex k)])
    else
      let log := log ++ [.acquire (.fifoMutex k)]
      match Fifo.init c junk.heap with
      | (none, _) =>
          let log := log ++ blocksInitLog k junk.heap
          some (none, log ++ [.release (.poolMutex k)] ++ [.release (.fifoMutex k)])
      | (some fifo, heap) =>
          let log := log ++ blocksInitLog k junk.heap
          if env.fails (.semaphore k) then do
            let log ← fifoDestroy k fifo
              (log ++ [.release (.poolMutex k)] ++ [.release (.fifoMutex k)])
            some (none, log)
          else
            some (some { junk with pool, fifo, semaphore := 0, heap },
              log ++ [.acquire (.semaphore k)])

/-- The first `j` iterations of the loop that destroys pipes. -/
def destroyPipes (pipes : Nat → Pipe) (log : Log) : Nat → Option Log
  | 0 => some log
  | j + 1 => do
      let log ← destroyPipes pipes log j
      pipeDestroy j (pipes j) log

/-- The first `i` iterations of the loop of `mtdp_pipeline_create`; `none` once a
pipe could not be initialised and those before it have been destroyed. -/
def initPipes (c : Fifo.Config) (env : Env) (log : Log) :
    Nat → Option (Option (Nat → Pipe) × Log)
  | 0 => some (some env.junk, log)
  | i + 1 => do
      let (pipes, log) ← initPipes c env log i
      match pipes with
      | none => some (none, log)
      | some pipes => do
          let (pipe, log) ← pipeInit c env i log
          match pipe with
          | some pipe => some (some (Function.update pipes i pipe), log)
          | none => do
              let log ← destroyPipes pipes log i
              some (none, log)

/-! ## Workers -/

/-- `mtdp_worker_init`, for unit `u`. -/
def workerInit (env : Env) (u : Nat) (w : World) : Bool × World :=
  let ret := env.result (.workerCv u)
  if ret ≠ .success then
    (false, { w with errno := if ret = .nomem then .noMem else .cndError })
  else
    let w := w.acquire (.workerCv u)
    let out := env.result (.workerMutex u)
    if out ≠ .success then
      (false, { w.release (.workerCv u) with
        errno := if out = .nomem then .noMem else .mtxError })
    else (true, w.acquire (.workerMutex u))

/-- The first `i` iterations of the loop of `mtdp_pipeline_configure`. -/
def configureStages (env : Env) (w : World) : Nat → World
  | 0 => w
  | i + 1 => (workerInit env (i + 1) (configureStages env w i)).2

/-- `mtdp_pipeline_configure`, as far as the workers go. -/
def pipelineConfigure (env : Env) (nStages : Nat) (w : World) : World :=
  let w := (workerInit env 0 w).2
  let w := configureStages env w nStages
  (workerInit env (nStages + 1) w).2

/-! ## The pipeline -/

/-- `mtdp_pipeline`, as far as its resources go. -/
structure Object where
  nStages : Nat
  pipes : Nat → Pipe
  enabled : Bool
  active : Bool

/-- `mtdp_pipeline_create`; `none` for `NULL`. -/
def pipelineCreate (c : Fifo.Config) (env : Env) (internalStages : Nat) (w : World) :
    Option (Option Object × World) :=
  if env.fails .pipeline then some (none, { w with errno := .badPtr })
  else
    let w := w.acquire .pipeline
    if env.fails .stages then
      some (none, { w.release .pipeline with errno := .noMem })
    else
      let w := w.acquire .stages
      if env.fails .stageImpls then
        some (none, { (w.release .stages).release .pipeline with errno := .noMem })
      else
        let w := w.acquire .stageImpls
        if env.fails .pipes then
          some (none, { ((w.release .stageImpls).release .stages).release .pipeline with
            errno := .noMem })
        else do
          let w := w.acquire .pipes
          let (pipes, log) ← initPipes c env w.log (internalStages + 1)
          let w := { w with log }
          match pipes with
          | none =>
              some (none,
                { (((w.release .pipes).release .stageImpls).release .stages).release .pipeline with
                  errno := .noMem })
          | some pipes =>
              some (some { nStages := internalStages, pipes, enabled := false, active := false },
                { pipelineConfigure env internalStages w with errno := .ok })

/-! ## What is acquired -/

/-- The acquisitions of `mtdp_pipe_init`. -/
def pipeSites (k : Nat) : List Resource :=
  [.poolMutex k, .fifoMutex k, .blockVector k, .block k 0, .semaphore k]

/-- The acquisitions of the loop over the pipes. -/
def pipesSites (n : Nat) : List Resource := (List.range n).flatMap pipeSites

/-- The acquisitions before the call of `mtdp_pipeline_configure`. -/
def setupSites (nStages : Nat) : List Resource :=
  [.pipeline, .stages, .stageImpls, .pipes] ++ pipesSites (nStages + 1)

/-- The acquisitions of `mtdp_worker_init`. -/
def workerSites (u : Nat) : List Resource := [.workerCv u, .workerMutex u]

/-- The acquisitions of `mtdp_pipeline_configure`. -/
def workersSites (nStages : Nat) : List Resource := (List.range (nStages + 2)).flatMap workerSites

/-- All or nothing: `NULL`, and everything acquired has been released once, or a
pipeline for which every acquisition succeeded. -/
def Atomic (env : Env) (nStages : Nat) (out : Option Object × World) : Prop :=
  (out.1 = none ∧ Settled out.2.log) ∨
    (out.1 ≠ none ∧ ∀ r ∈ setupSites nStages ++ workersSites nStages, env.succeeds r = true)

theorem pipesSites_succ (n : Nat) : pipesSites (n + 1) = pipesSites n ++ pipeSites n := by
  simp [pipesSites, List.range_succ, List.flatMap_append]

theorem pipesSites_nodup (n : Nat) : (pipesSites n).Nodup := by
  apply List.nodup_flatMap.mpr
  constructor
  · intro k _
    simp [pipeSites]
  · apply List.nodup_range.imp
    intro k j hne
    simp [pipeSites, List.disjoint_left, hne]

theorem setupSites_nodup (nStages : Nat) : (setupSites nStages).Nodup := by
  apply List.Nodup.append
  · simp
  · exact pipesSites_nodup _
  · simp [List.disjoint_left, pipesSites, pipeSites]

/-! ## One pipe -/

/-- A freshly initialised FIFO and the calls that went into it. -/
theorem fifoInit_spec (c : Fifo.Config) (env : Env) (k : Nat) (log : Log) :
    (∃ heap, Fifo.init c (env.junk k).heap = (none, heap) ∧
      (∃ r ∈ [Resource.blockVector k, .block k 0], env.succeeds r = false) ∧
      Gains log (log ++ blocksInitLog k (env.junk k).heap) [.blockVector k, .block k 0] 0) ∨
    (∃ fifo heap, Fifo.init c (env.junk k).heap = (some fifo, heap) ∧
      (∀ r ∈ [Resource.blockVector k, .block k 0], env.succeeds r = true) ∧
      Gains log (log ++ blocksInitLog k (env.junk k).heap) [.blockVector k, .block k 0]
        (fifoHeld k heap.nextBlock)) := by
  have hvector := Gains.acquire log (Resource.blockVector k)
  have hfresh := env.fresh k
  unfold Fifo.init Fifo.blocksInit blocksInitLog Fifo.blockAlloc Heap.attempt
  cases hvec : (env.junk k).heap.fails (env.junk k).heap.allocations with
  | true =>
      left
      simp only [Bool.not_true, Bool.false_eq_true, if_false, List.append_nil]
      refine ⟨_, rfl, ⟨.blockVector k, by simp, by simp [Env.succeeds, hvec]⟩, ?_⟩
      exact Gains.none log _
  | false =>
      simp only [Bool.not_false, if_true]
      cases hblock : (env.junk k).heap.fails ((env.junk k).heap.allocations + 1) with
      | true =>
          left
          simp only [Bool.not_true, Bool.false_eq_true, if_false]
          refine ⟨_, rfl, ⟨.block k 0, by simp, by simp [Env.succeeds, hblock]⟩, ?_⟩
          have hfreed := hvector.drop_all (.release _ _)
          rw [List.append_assoc] at hfreed
          exact hfreed.mono (by simp)
      | false =>
          right
          simp only [Bool.not_false, if_true]
          refine ⟨_, _, rfl, by simp [Env.succeeds, hvec, hblock], ?_⟩
          have hboth := hvector.trans (.acquire _ (Resource.block k 0))
          rw [List.append_assoc] at hboth
          have hheld : fifoHeld k ((env.junk k).heap.nextBlock + 1) =
              {Resource.blockVector k} + {Resource.block k 0} := by
            rw [hfresh, fifoHeld, add_comm]
            rfl
          rw [hheld, hfresh]
          exact hboth

/-- A FIFO just initialised is in good order. -/
theorem fifoInit_ok {c : Fifo.Config} {h₀ h : Heap Buffer} {f : Fifo.BufferFifo}
    (hfresh : h₀.nextBlock = 0) (hinit : Fifo.init c h₀ = (some f, h)) :
    Fifo.Inv c f h ∧ Fifo.OwnsFrom 0 f.blocks h.nextBlock := by
  have howns := Fifo.init_owns hinit
  rw [hfresh] at howns
  exact ⟨(Fifo.init_spec hinit).1, howns⟩

theorem pipe_init_pool {c : Fifo.Config} {junk p : Pipe} (hinit : Pipe.init c junk = some p) :
    p.pool = .init junk.pool.buffers := by
  unfold Pipe.init at hinit
  split at hinit <;> cases hinit
  rfl

/-- **`mtdp_pipe_init`** keeps everything or nothing. -/
theorem pipeInit_spec (c : Fifo.Config) (env : Env) (k : Nat) (log : Log) :
    (∃ log', pipeInit c env k log = some (none, log') ∧
      (∃ r ∈ pipeSites k, env.succeeds r = false) ∧ Gains log log' (pipeSites k) 0) ∨
    (∃ p log', pipeInit c env k log = some (some p, log') ∧ Pipe.init c (env.junk k) = some p ∧
      (∀ r ∈ pipeSites k, env.succeeds r = true) ∧ Gains log log' (pipeSites k) (pipeHeld k p) ∧
      PipeOk c p) := by
  have hpool := Gains.acquire log (Resource.poolMutex k)
  have hmutexes := hpool.trans (.acquire _ (Resource.fifoMutex k))
  unfold pipeInit
  cases hpoolMutex : env.fails (.poolMutex k) with
  | true =>
      left
      refine ⟨log, rfl, ⟨.poolMutex k, by simp [pipeSites], by simp [Env.succeeds, hpoolMutex]⟩, ?_⟩
      exact Gains.none log _
  | false =>
  cases hfifoMutex : env.fails (.fifoMutex k) with
  | true =>
      left
      refine ⟨_, rfl, ⟨.fifoMutex k, by simp [pipeSites], by simp [Env.succeeds, hfifoMutex]⟩, ?_⟩
      exact (hpool.drop_all (.release _ _)).mono (by simp [pipeSites])
  | false =>
  have hmutexesGone (log : Log) : Drops log
      (log ++ [.release (.poolMutex k)] ++ [.release (.fifoMutex k)])
      ({.fifoMutex k} + {.poolMutex k}) := (Drops.release log _).trans (.release _ _)
  rcases fifoInit_spec c env k (log ++ [.acquire (.poolMutex k)] ++ [.acquire (.fifoMutex k)]) with
    ⟨heap, hinit, ⟨r, hr, hfailed⟩, hgains⟩ | ⟨fifo, heap, hinit, hok, hgains⟩
  · left
    simp only [hinit, Bool.false_eq_true, if_false]
    refine ⟨_, rfl, ⟨r, ?_, hfailed⟩, ?_⟩
    · simp only [pipeSites, List.mem_cons, List.not_mem_nil, or_false] at hr ⊢
      tauto
    · have hboth := hmutexes.trans hgains
      rw [add_zero, add_comm] at hboth
      exact (hboth.drop_all (hmutexesGone _)).mono (by simp [pipeSites])
  · obtain ⟨hinv, howns⟩ := fifoInit_ok (env.fresh k) hinit
    have hall := hmutexes.trans hgains
    simp only [hinit, Bool.false_eq_true, if_false]
    cases hsemaphore : env.fails (.semaphore k) with
    | true =>
        left
        simp only [if_true, Option.bind_eq_bind]
        obtain ⟨log', hdestroy, hdrops⟩ := fifoDestroy_spec hinv.blocks.size_le_capacity howns k
          (log ++ [.acquire (.poolMutex k)] ++ [.acquire (.fifoMutex k)] ++
            blocksInitLog k (env.junk k).heap ++ [.release (.poolMutex k)] ++
              [.release (.fifoMutex k)])
        simp only [hdestroy, Option.bind_some]
        refine ⟨log', rfl, ⟨.semaphore k, by simp [pipeSites], by simp [Env.succeeds, hsemaphore]⟩,
          ?_⟩
        have hgone := (hmutexesGone _).trans hdrops
        rw [add_comm (fifoHeld _ _), add_comm {Resource.fifoMutex k}] at hgone
        exact (hall.drop_all hgone).mono (by simp [pipeSites])
    | false =>
        right
        simp only [Bool.false_eq_true, if_false]
        refine ⟨_, _, rfl, ?_, ?_, ?_, ⟨hinv, howns, BufferPool.init_sound _⟩⟩
        · simp only [Pipe.init, hinit]
        · intro r hr
          simp only [pipeSites, List.mem_cons, List.not_mem_nil, or_false] at hr
          rcases hr with rfl | rfl | rfl | rfl | rfl
          · simp [Env.succeeds, hpoolMutex]
          · simp [Env.succeeds, hfifoMutex]
          · exact hok _ (by simp)
          · exact hok _ (by simp)
          · simp [Env.succeeds, hsemaphore]
        · have heverything := hall.trans (.acquire _ (Resource.semaphore k))
          have hheld : pipeHeld k
              { env.junk k with
                pool := BufferPool.init (env.junk k).pool.buffers, fifo, semaphore := 0, heap } =
              {Resource.poolMutex k} + {Resource.fifoMutex k} + fifoHeld k heap.nextBlock +
                {Resource.semaphore k} := by
            simp [pipeHeld, poolHeld, BufferPool.init]
          rw [hheld]
          exact heverything

/-! ## All pipes -/

/-- What the pipes below `n` hold. -/
def pipesHeld (pipes : Nat → Pipe) : Nat → Multiset Resource
  | 0 => 0
  | n + 1 => pipesHeld pipes n + pipeHeld n (pipes n)

theorem pipesHeld_congr {pipes pipes' : Nat → Pipe} {n : Nat}
    (hsame : ∀ k < n, pipes' k = pipes k) : pipesHeld pipes' n = pipesHeld pipes n := by
  induction n with
  | zero => rfl
  | succ n ih =>
      rw [pipesHeld, pipesHeld, hsame n (Nat.lt_succ_self n),
        ih fun k hk => hsame k (Nat.lt_succ_of_lt hk)]

theorem destroyPipes_spec {c : Fifo.Config} {pipes : Nat → Pipe} {n : Nat}
    (hpipes : ∀ k < n, PipeOk c (pipes k)) (hthere : ∀ k < n, (pipes k).pool.freed = false)
    (log : Log) :
    ∃ log', destroyPipes pipes log n = some log' ∧ Drops log log' (pipesHeld pipes n) := by
  induction n with
  | zero => exact ⟨log, rfl, .refl log⟩
  | succ n ih =>
      obtain ⟨log₁, hloop, hdrops₁⟩ := ih (fun k hk => hpipes k (Nat.lt_succ_of_lt hk))
        (fun k hk => hthere k (Nat.lt_succ_of_lt hk))
      obtain ⟨log₂, hdestroy, hdrops₂⟩ := pipeDestroy_spec (hpipes n (Nat.lt_succ_self n))
        (hthere n (Nat.lt_succ_self n)) n log₁
      refine ⟨log₂, ?_, ?_⟩
      · simp only [destroyPipes, hloop, hdestroy, Option.bind_eq_bind, Option.bind_some]
      · rw [pipesHeld, add_comm]
        exact hdrops₁.trans hdrops₂

/-- **The loop over the pipes** keeps everything or nothing. -/
theorem initPipes_spec (c : Fifo.Config) (env : Env) (log : Log) (n : Nat) :
    (∃ log', initPipes c env log n = some (none, log') ∧
      (∃ r ∈ pipesSites n, env.succeeds r = false) ∧ Gains log log' (pipesSites n) 0) ∨
    (∃ pipes log', initPipes c env log n = some (some pipes, log') ∧
      (∀ r ∈ pipesSites n, env.succeeds r = true) ∧
      Gains log log' (pipesSites n) (pipesHeld pipes n) ∧
      (∀ k < n, Pipe.init c (env.junk k) = some (pipes k) ∧ PipeOk c (pipes k))) := by
  induction n with
  | zero =>
      right
      exact ⟨env.junk, log, rfl, by simp [pipesSites], .refl log, fun k hk => by omega⟩
  | succ n ih =>
      rw [pipesSites_succ]
      rcases ih with ⟨log₁, hloop, ⟨r, hr, hfailed⟩, hgains₁⟩ |
        ⟨pipes, log₁, hloop, hok, hgains₁, hpipes⟩
      · left
        refine ⟨log₁, ?_, ⟨r, List.mem_append_left _ hr, hfailed⟩,
          hgains₁.mono (List.sublist_append_left _ _)⟩
        simp only [initPipes, hloop, Option.bind_eq_bind, Option.bind_some]
      · rcases pipeInit_spec c env n log₁ with ⟨log₂, hinit, ⟨r, hr, hfailed⟩, hgains₂⟩ |
          ⟨p, log₂, hinit, hpipe, hok', hgains₂, hp⟩
        · left
          have hthere : ∀ k < n, (pipes k).pool.freed = false := fun k hk => by
            rw [pipe_init_pool (hpipes k hk).1]
            rfl
          obtain ⟨log₃, hdestroy, hdrops⟩ :=
            destroyPipes_spec (fun k hk => (hpipes k hk).2) hthere log₂
          refine ⟨log₃, ?_, ⟨r, List.mem_append_right _ hr, hfailed⟩, ?_⟩
          · simp only [initPipes, hloop, hinit, hdestroy, Option.bind_eq_bind, Option.bind_some]
          · have hboth := hgains₁.trans hgains₂
            rw [add_zero] at hboth
            exact hboth.drop_all hdrops
        · right
          have hsame : ∀ k < n, Function.update pipes n p k = pipes k := fun k hk =>
            Function.update_of_ne (Nat.ne_of_lt hk) _ _
          refine ⟨Function.update pipes n p, log₂, ?_, ?_, ?_, ?_⟩
          · simp only [initPipes, hloop, hinit, Option.bind_eq_bind, Option.bind_some]
          · intro r hr
            rcases List.mem_append.mp hr with hr | hr
            · exact hok r hr
            · exact hok' r hr
          · rw [pipesHeld, pipesHeld_congr hsame, Function.update_self]
            exact hgains₁.trans hgains₂
          · intro k hk
            by_cases hkn : k = n
            · subst hkn
              rw [Function.update_self]
              exact ⟨hpipe, hp⟩
            · rw [hsame k (by omega)]
              exact hpipes k (by omega)

/-! ## Workers -/

/-- What `mtdp_worker_init` leaves behind. -/
def workerHeld (env : Env) (u : Nat) : Multiset Resource :=
  if env.fails (.workerCv u) || env.fails (.workerMutex u) then 0
  else {.workerCv u} + {.workerMutex u}

theorem workerInit_spec (env : Env) (u : Nat) (w : World) :
    Gains w.log (workerInit env u w).2.log (workerSites u) (workerHeld env u) := by
  have hcv := Gains.acquire w.log (Resource.workerCv u)
  unfold workerInit workerHeld Env.fails
  by_cases hcvResult : env.result (.workerCv u) = .success
  · by_cases hmutexResult : env.result (.workerMutex u) = .success
    · simp only [hcvResult, hmutexResult, ne_eq, not_true_eq_false, if_false, decide_false,
        Bool.or_self, Bool.false_eq_true]
      exact hcv.trans (.acquire _ (Resource.workerMutex u))
    · simp only [hcvResult, hmutexResult, ne_eq, not_true_eq_false, not_false_eq_true, if_false,
        if_true, decide_true, Bool.or_true]
      exact (hcv.drop_all (.release _ _)).mono (by simp [workerSites])
  · simp only [hcvResult, ne_eq, not_false_eq_true, if_true, decide_true, Bool.true_or]
    exact Gains.none _ _

/-- What the workers of the units below `n` hold. -/
def workersHeld (env : Env) : Nat → Multiset Resource
  | 0 => 0
  | n + 1 => workersHeld env n + workerHeld env n

theorem flatMap_workerSites_succ (n : Nat) :
    (List.range (n + 1)).flatMap workerSites =
      (List.range n).flatMap workerSites ++ workerSites n := by
  simp [List.range_succ, List.flatMap_append]

theorem pipelineConfigure_spec (env : Env) (nStages : Nat) (w : World) :
    Gains w.log (pipelineConfigure env nStages w).log (workersSites nStages)
      (workersHeld env (nStages + 2)) := by
  have hstages (n : Nat) :
      Gains w.log (configureStages env (workerInit env 0 w).2 n).log
        ((List.range (n + 1)).flatMap workerSites) (workersHeld env (n + 1)) := by
    induction n with
    | zero =>
        have hsource := workerInit_spec env 0 w
        rw [← zero_add (workerHeld env 0)] at hsource
        exact hsource
    | succ n ih =>
        rw [workersHeld, flatMap_workerSites_succ]
        exact ih.trans (workerInit_spec env (n + 1) _)
  rw [workersHeld, workersSites, flatMap_workerSites_succ]
  exact (hstages nStages).trans (workerInit_spec env (nStages + 1) _)

/-! ## Atomicity -/

/-- What the pipeline object, its vectors and its pipes hold. -/
def setupHeld (pipes : Nat → Pipe) (nStages : Nat) : Multiset Resource :=
  {.pipeline} + {.stages} + {.stageImpls} + {.pipes} + pipesHeld pipes (nStages + 1)

/-- **`mtdp_pipeline_create`.**  If an acquisition before the workers fails, all
is undone; if none does, a pipeline is returned whatever the workers were
given. -/
theorem pipelineCreate_spec (c : Fifo.Config) (env : Env) (nStages : Nat) (w : World) :
    (∃ w', pipelineCreate c env nStages w = some (none, w') ∧
      (∃ r ∈ setupSites nStages, env.succeeds r = false) ∧
      Gains w.log w'.log (setupSites nStages) 0) ∨
    (∃ pipes w',
      pipelineCreate c env nStages w =
        some (some { nStages, pipes, enabled := false, active := false }, w') ∧
      (∀ r ∈ setupSites nStages, env.succeeds r = true) ∧
      Gains w.log w'.log (setupSites nStages ++ workersSites nStages)
        (setupHeld pipes nStages + workersHeld env (nStages + 2)) ∧
      (∀ k ≤ nStages, Pipe.init c (env.junk k) = some (pipes k) ∧ PipeOk c (pipes k))) := by
  have h₁ := Gains.acquire w.log Resource.pipeline
  have h₂ := h₁.trans (.acquire _ Resource.stages)
  have h₃ := h₂.trans (.acquire _ Resource.stageImpls)
  have h₄ := h₃.trans (.acquire _ Resource.pipes)
  have d₁ (log : Log) := Drops.release log Resource.pipeline
  have d₂ (log : Log) := (Drops.release log Resource.stages).trans (d₁ _)
  have d₃ (log : Log) := (Drops.release log Resource.stageImpls).trans (d₂ _)
  have d₄ (log : Log) := (Drops.release log Resource.pipes).trans (d₃ _)
  unfold pipelineCreate
  cases hpipeline : env.fails .pipeline with
  | true =>
      left
      refine ⟨_, rfl, ⟨.pipeline, by simp [setupSites], by simp [Env.succeeds, hpipeline]⟩, ?_⟩
      exact Gains.none _ _
  | false =>
  cases hstages : env.fails .stages with
  | true =>
      left
      refine ⟨_, rfl, ⟨.stages, by simp [setupSites], by simp [Env.succeeds, hstages]⟩, ?_⟩
      exact (h₁.drop_all (d₁ _)).mono (by simp [setupSites])
  | false =>
  cases hstageImpls : env.fails .stageImpls with
  | true =>
      left
      refine ⟨_, rfl, ⟨.stageImpls, by simp [setupSites], by simp [Env.succeeds, hstageImpls]⟩, ?_⟩
      exact (h₂.drop_all (d₂ _)).mono (by simp [setupSites])
  | false =>
  cases hpipes : env.fails .pipes with
  | true =>
      left
      refine ⟨_, rfl, ⟨.pipes, by simp [setupSites], by simp [Env.succeeds, hpipes]⟩, ?_⟩
      exact (h₃.drop_all (d₃ _)).mono (by simp [setupSites])
  | false =>
  rcases initPipes_spec c env
      ((((w.acquire .pipeline).acquire .stages).acquire .stageImpls).acquire .pipes).log
      (nStages + 1) with ⟨log', hinit, ⟨r, hr, hfailed⟩, hgains⟩ |
        ⟨pipes, log', hinit, hok, hgains, hp⟩
  · left
    simp only [Bool.false_eq_true, if_false, hinit, Option.bind_eq_bind, Option.bind_some]
    refine ⟨_, rfl, ⟨r, List.mem_append_right _ hr, hfailed⟩, ?_⟩
    have hboth := h₄.trans hgains
    rw [add_zero] at hboth
    exact hboth.drop_all (d₄ log')
  · right
    simp only [Bool.false_eq_true, if_false, hinit, Option.bind_eq_bind, Option.bind_some]
    refine ⟨pipes, _, rfl, ?_, ?_, fun k hk => hp k (Nat.lt_succ_of_le hk)⟩
    · intro r hr
      rcases List.mem_append.mp hr with hr | hr
      · simp only [List.mem_cons, List.not_mem_nil, or_false] at hr
        rcases hr with rfl | rfl | rfl | rfl
        · simp [Env.succeeds, hpipeline]
        · simp [Env.succeeds, hstages]
        · simp [Env.succeeds, hstageImpls]
        · simp [Env.succeeds, hpipes]
      · exact hok r hr
    · exact (h₄.trans hgains).trans (pipelineConfigure_spec env nStages ⟨log', w.errno⟩)

/-- **Atomicity.**  For every number of internal stages and every pattern of
failures, the creation of a pipeline is atomic exactly if an acquisition before
the workers fails or none of the workers' fails. -/
theorem create_atomic_iff (c : Fifo.Config) (env : Env) (nStages : Nat) (errno : MtdpError) :
    (∃ out, pipelineCreate c env nStages ⟨[], errno⟩ = some out ∧ Atomic env nStages out) ↔
      (∃ r ∈ setupSites nStages, env.succeeds r = false) ∨
        ∀ r ∈ workersSites nStages, env.succeeds r = true := by
  rcases pipelineCreate_spec c env nStages ⟨[], errno⟩ with ⟨w', hrun, hfailed, hgains⟩ |
    ⟨pipes, w', hrun, hok, _, _⟩
  · apply iff_of_true
    · exact ⟨_, hrun, .inl ⟨rfl, hgains.settled (setupSites_nodup nStages)⟩⟩
    · exact .inl hfailed
  · constructor
    · rintro ⟨out, hout, hatomic⟩
      rw [hrun, Option.some.injEq] at hout
      subst hout
      rcases hatomic with ⟨hnull, _⟩ | ⟨_, hall⟩
      · cases hnull
      · exact .inr fun r hr => hall r (List.mem_append_right _ hr)
    · rintro (⟨r, hr, hfailed⟩ | hworkers)
      · rw [hok r hr] at hfailed
        cases hfailed
      · refine ⟨_, hrun, .inr ⟨nofun, ?_⟩⟩
        intro r hr
        rcases List.mem_append.mp hr with hr | hr
        · exact hok r hr
        · exact hworkers r hr

/-- A source without a condition variable. -/
theorem worker_failure_ignored :
    ¬ ∀ (c : Fifo.Config) (env : Env) (nStages : Nat) (errno : MtdpError),
      ∃ out, pipelineCreate c env nStages ⟨[], errno⟩ = some out ∧ Atomic env nStages out := by
  intro hclaim
  let heap : Heap Buffer := ⟨fun _ _ => none, fun _ => 0, 0, 0, fun _ => false⟩
  let fifo : Fifo.BufferFifo := ⟨⟨fun _ => 0, 0, 0⟩, 0, 0⟩
  let env : Env :=
    { result := fun r => if r = .workerCv 0 then .nomem else .success
      junk := fun _ => ⟨0, ⟨fun _ => none, 0, 0, false⟩, fifo, 0, heap⟩
      fresh := fun _ => rfl }
  let c : Fifo.Config := ⟨1, 1, by decide, by norm_num, by norm_num⟩
  obtain ⟨out, hrun, hatomic⟩ := hclaim c env 0 .ok
  rcases pipelineCreate_spec c env 0 ⟨[], .ok⟩ with ⟨_, _, ⟨r, hr, hfailed⟩, _⟩ |
    ⟨pipes, w', hcreate, _⟩
  · have hok : ∀ r ∈ setupSites 0, env.succeeds r = true := by decide
    rw [hok r hr] at hfailed
    cases hfailed
  · rw [hcreate, Option.some.injEq] at hrun
    subst hrun
    rcases hatomic with ⟨hnull, _⟩ | ⟨_, hall⟩
    · cases hnull
    · have hsource := hall (.workerCv 0) (by decide)
      cases hsource

end Mtdp.Pipeline
