import Mtdp.Pipeline.State

/-!
# The worker threads

`mtdp_worker_routine` of `src/worker.c` and the routines it calls:
`mtdp_source_routine`, `mtdp_stage_routine` and `mtdp_sink_routine`.  The
source and the stages push in the same way, the stages and the sink pull in
the same way; these parts are written once, with the place the routine goes
on at as an argument.

A result of `none` means that the thread cannot move: it is asleep or not
running, the semaphore is zero, or the callback has broken its contract by
asking for a buffer it does not have to be pushed or put back.
-/

namespace Mtdp.Pipeline

variable {V σ : Type}

/-- What a `process` callback leaves behind when it returns. -/
structure Return (V σ : Type) where
  /-- its private state -/
  self : σ
  /-- new contents of the output buffer, if it wrote them -/
  write : Option V
  readyToPush : Bool
  readyToPull : Bool
  deriving DecidableEq

/-- What a running callback does next. -/
inductive CallbackStep (V σ : Type) where
  /-- call `mtdp_source_finished` -/
  | finish
  | ret (r : Return V σ)

/-- How the environment answers a thread: whether an operation that may fail
succeeds, what the `init` callback makes of the private state, and what the
`process` callback does. -/
structure Answer (V σ : Type) where
  ok : Bool
  init : σ
  callback : CallbackStep V σ

namespace View

/-- Go to another program point. -/
def goto (v : View V σ) (pc : Pc) : View V σ := { v with impl := { v.impl with pc } }

/-- `mtdp_set_done(&self->done)` or `mtdp_unset_done(&self->done)` -/
def storeDone (v : View V σ) (done : Bool) (pc : Pc) : View V σ :=
  { v with impl := { v.impl with done, pc } }

/-- The first `if` of the source and the stage routine. -/
def pushOutput (v : View V σ) (ok : Bool) (next : Pc) : Option (View V σ) :=
  if v.impl.readyToPush then
    v.impl.output.map fun buf =>
      { v with
        outputPipe := v.outputPipe.pushBuffer ok buf
        impl := { v.impl with pc := if ok then .release else .pushFailed } }
  else some (v.goto next)

/-- What follows a successful push. -/
def releaseOutput (v : View V σ) (next : Pc) : View V σ :=
  { v with
    outputPipe := v.outputPipe.release
    impl := { v.impl with output := none, readyToPush := false, pc := next } }

/-- `if(ready_to_pull)` and the timed acquire. -/
def acquireInput (v : View V σ) (ok : Bool) (next : Pc) : Option (View V σ) :=
  if v.impl.readyToPull then
    if ok then
      if 0 < v.inputPipe.semaphore then
        some { v with inputPipe := v.inputPipe.acquire, impl := { v.impl with pc := .acquired } }
      else none
    else some (v.goto .timedOut)
  else some (v.goto next)

/-- `context.input = mtdp_pipe_get_full_buffer(input_pipe)` -/
def getInput (v : View V σ) (next : Pc) : View V σ :=
  match v.inputPipe.getFullBuffer with
  | (none, inputPipe) =>
      { v with inputPipe, impl := { v.impl with input := none, pc := .emptyGet } }
  | (some buf, inputPipe) =>
      { v with
        inputPipe
        impl := { v.impl with input := some buf, readyToPull := false, pc := next } }

/-- The release that makes up for an empty get. -/
def releaseInput (v : View V σ) : View V σ :=
  { v with inputPipe := v.inputPipe.release, impl := { v.impl with pc := .test } }

/-- `if(!context.output) context.output = mtdp_pipe_get_empty_buffer(output_pipe)` -/
def getOutput (v : View V σ) (next : Pc) : View V σ :=
  match v.impl.output with
  | some _ => v.goto next
  | none =>
      { v with
        outputPipe := v.outputPipe.getEmptyBuffer.2
        impl := { v.impl with
          output := v.outputPipe.getEmptyBuffer.1, written := none, pc := next } }

/-- `context.ready_to_pull = true` -/
def askInput (v : View V σ) : View V σ :=
  { v with impl := { v.impl with readyToPull := true, pc := .test } }

/-- The `init` callback, unless it has run before, and the call of `process`. -/
def invoke (v : View V σ) (init : σ) : View V σ :=
  { v with impl := { v.impl with
      self := if v.impl.initialized then v.impl.self else init
      initialized := true
      pc := .callback } }

/-- The `process` callback returns. -/
def returns (v : View V σ) (r : Return V σ) (next : Pc) : View V σ :=
  { v with
    outputPipe :=
      match r.write, v.impl.output with
      | some x, some buf => v.outputPipe.write buf x
      | _, _ => v.outputPipe
    impl := { v.impl with
      self := r.self
      written := r.write.or v.impl.written
      readyToPush := r.readyToPush
      readyToPull := r.readyToPull
      pc := next } }

@[simp] theorem returns_pc (v : View V σ) (r : Return V σ) (next : Pc) :
    (v.returns r next).impl.pc = next := rfl

/-- A callback fills a buffer; the lists of the pipe stay. -/
theorem returns_queue (v : View V σ) (r : Return V σ) (next : Pc) :
    (v.returns r next).outputPipe.fifo = v.outputPipe.fifo ∧
      (v.returns r next).outputPipe.semaphore = v.outputPipe.semaphore := by
  unfold returns
  dsimp only
  split <;> exact ⟨rfl, rfl⟩

/-- The end of the stage routine; what `mtdp_pipe_put_back` answers is
ignored. -/
def recycleInput (v : View V σ) (ok : Bool) : Option (View V σ) :=
  if v.impl.readyToPull then
    v.impl.input.map fun buf =>
      { v with
        inputPipe := (v.inputPipe.putBack ok buf).2
        impl := { v.impl with input := none, pc := .test } }
  else some (v.goto .test)

/-- The start of the sink routine. -/
def putBackInput (v : View V σ) (ok : Bool) : View V σ :=
  if v.impl.readyToPull then
    match v.impl.input with
    | some buf =>
        match v.inputPipe.putBack ok buf with
        | (true, inputPipe) =>
            { v with inputPipe, impl := { v.impl with input := none, pc := .acquire } }
        | (false, inputPipe) =>
            { v with inputPipe, impl := { v.impl with pc := .putBackFailed } }
    | none => v.goto .acquire
  else v.goto .process

end View

/-- `mtdp_source_routine` -/
def sourceRoutine (v : View V σ) (a : Answer V σ) : Pc → Option (View V σ)
  | .push => v.pushOutput a.ok .getEmpty
  | .release => some (v.releaseOutput .getEmpty)
  | .pushFailed => some (v.storeDone true .test)
  | .getEmpty => some (v.getOutput .process)
  | .process => if v.impl.output.isSome then some (v.invoke a.init) else some (v.goto .test)
  | .callback =>
      match a.callback with
      | .finish => some (v.storeDone true .finishing)
      | .ret r => some (v.returns { r with readyToPull := false } .test)
  | .finishing => some { v with impl := { v.impl with destroyed := true, pc := .callback } }
  | _ => none

/-- `mtdp_stage_routine` -/
def stageRoutine (v : View V σ) (a : Answer V σ) : Pc → Option (View V σ)
  | .push => v.pushOutput a.ok .acquire
  | .release => some (v.releaseOutput .acquire)
  | .pushFailed => some (v.storeDone true .test)
  | .acquire => v.acquireInput a.ok .getEmpty
  | .timedOut => some (v.storeDone true .test)
  | .acquired => some (v.storeDone false .getFull)
  | .getFull => some (v.getInput .getEmpty)
  | .emptyGet => some v.releaseInput
  | .getEmpty => if v.impl.input.isSome then some (v.getOutput .process) else some v.askInput
  | .process => if v.impl.output.isSome then some (v.invoke a.init) else some (v.goto .test)
  | .callback =>
      match a.callback with
      | .finish => none
      | .ret r => some (v.returns r .recycle)
  | .recycle => v.recycleInput a.ok
  | _ => none

/-- `mtdp_sink_routine` -/
def sinkRoutine (v : View V σ) (a : Answer V σ) : Pc → Option (View V σ)
  | .putBack => some (v.putBackInput a.ok)
  | .putBackFailed => some (v.storeDone true .test)
  | .acquire => v.acquireInput a.ok .process
  | .timedOut => some (v.storeDone true .test)
  | .acquired => some (v.storeDone false .getFull)
  | .getFull => some (v.getInput .process)
  | .emptyGet => some v.releaseInput
  | .process => if v.impl.input.isSome then some (v.invoke a.init) else some v.askInput
  | .callback =>
      match a.callback with
      | .finish => none
      | .ret r => some (v.returns { r with write := none, readyToPush := false } .test)
  | _ => none

/-- What a unit is. -/
inductive Role where
  | source
  | stage
  | sink
  deriving DecidableEq, Repr

/-- Where the routine of a unit starts. -/
def Role.entry : Role → Pc
  | .source => .push
  | .stage => .push
  | .sink => .putBack

/-- `worker->cb(worker->args)` -/
def Role.routine : Role → View V σ → Answer V σ → Pc → Option (View V σ)
  | .source => sourceRoutine
  | .stage => stageRoutine
  | .sink => sinkRoutine

/-- `mtdp_worker_routine`: one step of the thread of a unit. -/
def workerRoutine (role : Role) (v : View V σ) (a : Answer V σ) : Option (View V σ) :=
  match v.impl.pc with
  | .absent => none
  | .exited => none
  | .test => some (v.goto (if v.impl.destroyed then .exited else .gate))
  | .gate => if v.impl.enabled || v.impl.destroyed then some (v.goto .recheck) else none
  | .recheck => some (v.goto (if v.impl.destroyed then .exited else role.entry))
  | pc => role.routine v a pc

end Mtdp.Pipeline
