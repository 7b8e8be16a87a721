import Mtdp.Pipeline.Control

/-!
# A pipeline over the pipes of `src/pipe.c`

The threads, calls and waiters of `Mtdp.Pipeline.Routine` and
`Mtdp.Pipeline.Control` once more, this time over the pools and FIFOs that
`src/buffer.c` makes: arrays, vectors of blocks, and an allocator that may turn
down any request.  Whether a push or a put back succeeds is no longer an answer of
the environment but what this code computes; `Answer.ok` says whether a timed
acquire gets its token, and nothing else.

A step can leave the memory that the program owns.
-/

namespace Mtdp.Pipeline.Concrete

variable {V σ α β : Type}

/-- How a step ends. -/
inductive Outcome (α : Type) where
  /-- the party that was to move cannot -/
  | blocked
  /-- an access out of range or through `NULL` -/
  | undefined
  | next (a : α)
  deriving DecidableEq

namespace Outcome

/-- The outcome of a function of `src/pipe.c`. -/
def ofOption : Option α → Outcome α
  | none => .undefined
  | some a => .next a

def map (f : α → β) : Outcome α → Outcome β
  | .blocked => .blocked
  | .undefined => .undefined
  | .next a => .next (f a)

/-- The state after a step that has been made. -/
def toOption : Outcome α → Option α
  | .next a => some a
  | _ => none

end Outcome

/-- `mtdp_pipe`, with what its buffers contain. -/
structure Conduit (V : Type) extends Pipe where
  memory : Nat → V

namespace Conduit

/-- A function of `src/pipe.c` has been called. -/
def onPipe (p : Conduit V) (pipe : Pipe) : Conduit V := { p with toPipe := pipe }

def release (p : Conduit V) : Conduit V := { p with semaphore := p.semaphore + 1 }

def acquire (p : Conduit V) : Conduit V := { p with semaphore := p.semaphore - 1 }

/-- The producer fills a buffer. -/
def write (p : Conduit V) (buf : Nat) (x : V) : Conduit V :=
  { p with memory := Function.update p.memory buf x }

end Conduit

/-- What a thread works on. -/
structure View (V σ : Type) where
  impl : Impl V σ
  inputPipe : Conduit V
  outputPipe : Conduit V

/-! ## The worker threads -/

namespace View

/-- Go to another program point. -/
def goto (v : View V σ) (pc : Pc) : View V σ := { v with impl := { v.impl with pc } }

/-- `mtdp_set_done(&self->done)` or `mtdp_unset_done(&self->done)` -/
def storeDone (v : View V σ) (done : Bool) (pc : Pc) : View V σ :=
  { v with impl := { v.impl with done, pc } }

/-- The first `if` of the source and the stage routine. -/
def pushOutput (c : Fifo.Config) (v : View V σ) (next : Pc) : Outcome (View V σ) :=
  if v.impl.readyToPush then
    .ofOption ((v.outputPipe.pushBuffer c v.impl.output).map fun (ok, pipe) =>
      { v with
        outputPipe := v.outputPipe.onPipe pipe
        impl := { v.impl with pc := if ok then .release else .pushFailed } })
  else .next (v.goto next)

/-- What follows a successful push. -/
def releaseOutput (v : View V σ) (next : Pc) : View V σ :=
  { v with
    outputPipe := v.outputPipe.release
    impl := { v.impl with output := none, readyToPush := false, pc := next } }

/-- `if(ready_to_pull)` and the timed acquire. -/
def acquireInput (v : View V σ) (ok : Bool) (next : Pc) : Outcome (View V σ) :=
  if v.impl.readyToPull then
    if ok then
      if 0 < v.inputPipe.semaphore then
        .next { v with inputPipe := v.inputPipe.acquire, impl := { v.impl with pc := .acquired } }
      else .blocked
    else .next (v.goto .timedOut)
  else .next (v.goto next)

/-- `context.input = mtdp_pipe_get_full_buffer(input_pipe)` -/
def getInput (c : Fifo.Config) (v : View V σ) (next : Pc) : Outcome (View V σ) :=
  .ofOption ((v.inputPipe.getFullBuffer c).map fun (input, pipe) =>
    { v with
      inputPipe := v.inputPipe.onPipe pipe
      impl :=
        if input.isSome then { v.impl with input, readyToPull := false, pc := next }
        else { v.impl with input, pc := .emptyGet } })

/-- The release that makes up for an empty get. -/
def releaseInput (v : View V σ) : View V σ :=
  { v with inputPipe := v.inputPipe.release, impl := { v.impl with pc := .test } }

/-- `if(!context.output) context.output = mtdp_pipe_get_empty_buffer(output_pipe)` -/
def getOutput (v : View V σ) (next : Pc) : Outcome (View V σ) :=
  match v.impl.output with
  | some _ => .next (v.goto next)
  | none =>
      .ofOption (v.outputPipe.getEmptyBuffer.map fun (output, pipe) =>
        { v with
          outputPipe := v.outputPipe.onPipe pipe
          impl := { v.impl with output, written := none, pc := next } })

/-- `context.ready_to_pull = true` -/
def askInput (v : View V σ) : View V σ :=
  { v with impl := { v.impl with readyToPull := true, pc := .test } }

/-- The `init` callback, unless it has run before, and the call of `process`. -/
def invoke (v : View V σ) (init : σ) : View V σ :=
  { v with impl := { v.impl with
      self := if v.impl.initialized then v.impl.self else init
      initialized := true
      pc := .callback } }

/-- The `process` callback returns. -/
def returns (v : View V σ) (r : Return V σ) (next : Pc) : View V σ :=
  { v with
    outputPipe :=
      match r.write, v.impl.output with
      | some x, some buf => v.outputPipe.write buf x
      | _, _ => v.outputPipe
    impl := { v.impl with
      self := r.self
      written := r.write.or v.impl.written
      readyToPush := r.readyToPush
      readyToPull := r.readyToPull
      pc := next } }

/-- The end of the stage routine; what `mtdp_pipe_put_back` answers is ignored. -/
def recycleInput (v : View V σ) : Outcome (View V σ) :=
  if v.impl.readyToPull then
    .ofOption ((v.inputPipe.putBack v.impl.input).map fun (_, pipe) =>
      { v with
        inputPipe := v.inputPipe.onPipe pipe
        impl := { v.impl with input := none, pc := .test } })
  else .next (v.goto .test)

/-- The start of the sink routine. -/
def putBackInput (v : View V σ) : Outcome (View V σ) :=
  if v.impl.readyToPull then
    if v.impl.input.isSome then
      .ofOption ((v.inputPipe.putBack v.impl.input).map fun (ok, pipe) =>
        { v with
          inputPipe := v.inputPipe.onPipe pipe
          impl :=
            if ok then { v.impl with input := none, pc := .acquire }
            else { v.impl with pc := .putBackFailed } })
    else .next (v.goto .acquire)
  else .next (v.goto .process)

end View

/-- `mtdp_source_routine` -/
def sourceRoutine (c : Fifo.Config) (v : View V σ) (a : Answer V σ) : Pc → Outcome (View V σ)
  | .push => v.pushOutput c .getEmpty
  | .release => .next (v.releaseOutput .getEmpty)
  | .pushFailed => .next (v.storeDone true .test)
  | .getEmpty => v.getOutput .process
  | .process => if v.impl.output.isSome then .next (v.invoke a.init) else .next (v.goto .test)
  | .callback =>
      match a.callback with
      | .finish => .next (v.storeDone true .finishing)
      | .ret r => .next (v.returns { r with readyToPull := false } .test)
  | .finishing => .next { v with impl := { v.impl with destroyed := true, pc := .callback } }
  | _ => .blocked

/-- `mtdp_stage_routine` -/
def stageRoutine (c : Fifo.Config) (v : View V σ) (a : Answer V σ) : Pc → Outcome (View V σ)
  | .push => v.pushOutput c .acquire
  | .release => .next (v.releaseOutput .acquire)
  | .pushFailed => .next (v.storeDone true .test)
  | .acquire => v.acquireInput a.ok .getEmpty
  | .timedOut => .next (v.storeDone true .test)
  | .acquired => .next (v.storeDone false .getFull)
  | .getFull => v.getInput c .getEmpty
  | .emptyGet => .next v.releaseInput
  | .getEmpty => if v.impl.input.isSome then v.getOutput .process else .next v.askInput
  | .process => if v.impl.output.isSome then .next (v.invoke a.init) else .next (v.goto .test)
  | .callback =>
      match a.callback with
      | .finish => .blocked
      | .ret r => .next (v.returns r .recycle)
  | .recycle => v.recycleInput
  | _ => .blocked

/-- `mtdp_sink_routine` -/
def sinkRoutine (c : Fifo.Config) (v : View V σ) (a : Answer V σ) : Pc → Outcome (View V σ)
  | .putBack => v.putBackInput
  | .putBackFailed => .next (v.storeDone true .test)
  | .acquire => v.acquireInput a.ok .process
  | .timedOut => .next (v.storeDone true .test)
  | .acquired => .next (v.storeDone false .getFull)
  | .getFull => v.getInput c .process
  | .emptyGet => .next v.releaseInput
  | .process => if v.impl.input.isSome then .next (v.invoke a.init) else .next v.askInput
  | .callback =>
      match a.callback with
      | .finish => .blocked
      | .ret r => .next (v.returns { r with write := none, readyToPush := false } .test)
  | _ => .blocked

/-- `worker->cb(worker->args)` -/
def routine (c : Fifo.Config) : Role → View V σ → Answer V σ → Pc → Outcome (View V σ)
  | .source => sourceRoutine c
  | .stage => stageRoutine c
  | .sink => sinkRoutine c

/-- `mtdp_worker_routine`: one step of the thread of a unit. -/
def workerRoutine (c : Fifo.Config) (role : Role) (v : View V σ) (a : Answer V σ) :
    Outcome (View V σ) :=
  match v.impl.pc with
  | .absent => .blocked
  | .exited => .blocked
  | .test => .next (v.goto (if v.impl.destroyed then .exited else .gate))
  | .gate => if v.impl.enabled || v.impl.destroyed then .next (v.goto .recheck) else .blocked
  | .recheck => .next (v.goto (if v.impl.destroyed then .exited else role.entry))
  | pc => routine c role v a pc

/-! ## Controller and waiter -/

/-- `mtdp_pipeline_clear` for `context.input` of a stage or the sink. -/
def View.returnInput (v : View V σ) : Option (View V σ) :=
  if v.impl.input.isSome then
    (v.inputPipe.putBack v.impl.input).map fun (_, pipe) =>
      { v with
        inputPipe := v.inputPipe.onPipe pipe
        impl := { v.impl with input := none } }
  else some v

/-- `mtdp_pipeline_clear` for `context.output` of the source or a stage. -/
def View.returnOutput (v : View V σ) : Option (View V σ) :=
  if v.impl.output.isSome then
    (v.outputPipe.putBack v.impl.output).map fun (_, pipe) =>
      { v with
        outputPipe := v.outputPipe.onPipe pipe
        impl := { v.impl with output := none } }
  else some v

/-- The buffers a unit holds go back to their pipes. -/
def returnBuffers : Role → View V σ → Option (View V σ)
  | .source, v => v.returnOutput
  | .stage, v => v.returnInput.bind View.returnOutput
  | .sink, v => v.returnInput

/-- `mtdp_pipeline`, its threads and its callers. -/
structure State (V σ : Type) where
  nStages : Nat
  impls : Nat → Impl V σ
  pipes : Nat → Conduit V
  enabled : Bool
  active : Bool
  destroying : Bool
  controller : Controller
  returned : List (Call × MtdpError)
  waiter : Waiter

namespace State

def setImpl (s : State V σ) (u : Nat) (i : Impl V σ) : State V σ :=
  { s with impls := Function.update s.impls u i }

def setPipe (s : State V σ) (k : Nat) (p : Conduit V) : State V σ :=
  { s with pipes := Function.update s.pipes k p }

/-- The view of unit `u`. -/
def view (s : State V σ) (u : Nat) : View V σ := ⟨s.impls u, s.pipes u, s.pipes (u + 1)⟩

/-- Store a view back. -/
def putView (s : State V σ) (u : Nat) (v : View V σ) : State V σ :=
  { s with
    impls := Function.update s.impls u v.impl
    pipes := Function.update (Function.update s.pipes u v.inputPipe) (u + 1) v.outputPipe }

/-- The role of unit `u`. -/
def role (s : State V σ) (u : Nat) : Role :=
  if u = 0 then .source else if u ≤ s.nStages then .stage else .sink

/-- A call comes back with an error code. -/
def report (s : State V σ) (c : Call) (e : MtdpError) : State V σ :=
  { s with controller := .idle, returned := (c, e) :: s.returned }

/-- The tests at the start of `mtdp_pipeline_enable`, `mtdp_pipeline_start`,
`mtdp_pipeline_stop` and `mtdp_pipeline_disable`. -/
def beginCall (s : State V σ) : Call → State V σ
  | .enable =>
      if !s.enabled then { s with controller := .enabling (s.nStages + 2) }
      else s.report .enable .enabled
  | .start =>
      if s.enabled then
        if s.active then s.report .start .active
        else { s with controller := .starting (s.nStages + 2) }
      else s.report .start .notEnabled
  | .stop =>
      if s.enabled then
        if !s.active then s.report .stop .enabled
        else { s with controller := .stopping 0 }
      else s.report .stop .notEnabled
  | .disable =>
      if s.enabled then { s with controller := .disabling }
      else s.report .disable .notEnabled

/-- One step of the call in progress. -/
def controllerStep (c : Fifo.Config) (s : State V σ) : Outcome (State V σ) :=
  match s.controller with
  | .idle => .blocked
  | .enabling (left + 1) =>
      .next { s.setImpl left ((s.role left).createThread (s.impls left)) with
        controller := .enabling left }
  | .enabling 0 => .next ({ s with enabled := true, active := false }.report .enable .ok)
  | .starting (left + 1) =>
      .next { s.setImpl left (workerEnable (s.impls left)) with controller := .starting left }
  | .starting 0 => .next ({ s with active := true }.report .start .ok)
  | .stopping u =>
      if u ≤ s.nStages + 1 then
        .next { s.setImpl u (workerDisable (s.impls u)) with controller := .stopping (u + 1) }
      else .next ({ s with active := false }.report .stop .ok)
  | .disabling => .next { s with destroying := true, controller := .destroying 0 }
  | .destroying u =>
      if u ≤ s.nStages + 1 then
        .next { s.setImpl u ((s.role u).destroyFirst (s.impls u)) with controller := .destroyed u }
      else .next { s with controller := .joining 0 }
  | .destroyed u =>
      .next { s.setImpl u ((s.role u).destroySecond (s.impls u)) with
        controller := .destroying (u + 1) }
  | .joining u =>
      if u ≤ s.nStages + 1 then
        if (s.impls u).pc = .exited then .next { s with controller := .joining (u + 1) }
        else .blocked
      else .next { s with controller := .clearing (s.nStages + 1) }
  | .clearing (left + 1) =>
      .ofOption (((s.pipes (left + 1)).clear c).map fun pipe =>
        { s.setPipe (left + 1) ((s.pipes (left + 1)).onPipe pipe) with
          controller := .clearing left })
  | .clearing 0 => .next { s with controller := .returning (s.nStages + 2) }
  | .returning (left + 1) =>
      .ofOption ((returnBuffers (s.role left) (s.view left)).map fun v =>
        { s.putView left v with controller := .returning left })
  | .returning 0 => .next { s with controller := .marking 1 }
  | .marking u =>
      if u ≤ s.nStages then
        .next { s.setImpl u (setDone (s.impls u)) with controller := .marking (u + 1) }
      else
        .next ({ s with active := false, enabled := false, destroying := false }.report
          .disable .ok)

/-- One step of a thread in `mtdp_pipeline_wait`. -/
def waiterStep (s : State V σ) : State V σ :=
  { s with waiter :=
      match s.waiter with
      | .outside => .atDestroying
      | .atDestroying => .atEnabled
      | .atEnabled => if s.enabled then .waiting 0 else .returned .notEnabled
      | .waiting u => if u ≤ s.nStages then .waiting (u + 1) else .loading 0
      | .loading u =>
          if (s.impls u).done then
            if u ≤ s.nStages then .loading (u + 1) else .returned .ok
          else .waiting 0
      | .returned _ => .atDestroying }

end State

/-- One step of the system. -/
def step (c : Fifo.Config) (s : State V σ) : Label V σ → Outcome (State V σ)
  | .worker u a =>
      if u ≤ s.nStages + 1 then (workerRoutine c (s.role u) (s.view u) a).map (s.putView u)
      else .blocked
  | .call call => if s.controller = .idle then .next (s.beginCall call) else .blocked
  | .controller _ => s.controllerStep c
  | .waiter => .next s.waiterStep

/-- A pipe fresh from `mtdp_pipe_init` that was resized with success, and whose
array has been filled with buffers. -/
structure Sized (c : Fifo.Config) (p : Conduit V) : Prop where
  exists_fill : ∃ (junk sized : Pipe) (n : UInt64) (fresh : Pipe) (bufs : List Nat),
    Pipe.init c junk = some fresh ∧ fresh.resize c n = some (⟨.ok, true⟩, sized) ∧
      bufs.Nodup ∧ bufs.length = n.toNat ∧ n.toNat < 2 ^ 60 ∧
      p.toPipe = { sized with pool := { sized.pool with buffers := fun i => bufs[i]? } }

/-- A pipeline fresh from `mtdp_pipeline_create` whose pipes have been sized and
filled with distinct buffers. -/
structure Created (c : Fifo.Config) (s : State V σ) : Prop where
  enabled : s.enabled = false
  active : s.active = false
  destroying : s.destroying = false
  controller : s.controller = .idle
  returned : s.returned = []
  waiter : s.waiter = .outside
  pc : ∀ u, (s.impls u).pc = .absent
  workerEnabled : ∀ u, (s.impls u).enabled = false
  workerDestroyed : ∀ u, (s.impls u).destroyed = false
  initialized : ∀ u, (s.impls u).initialized = false
  pipes : ∀ u ≤ s.nStages, Sized c (s.pipes (u + 1))

end Mtdp.Pipeline.Concrete
