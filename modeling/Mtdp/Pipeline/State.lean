import Mtdp.Pipe.Channel

/-!
# The state of a pipeline

`src/impl/source.h`, `src/impl/stage.h`, `src/impl/sink.h`,
`src/worker.h` and `src/impl/pipeline.h`.  A pipeline with `n` internal
stages has `n + 2` units: unit `0` is the source, units `1` to `n` are the
stages (`stage_impls[u - 1]`), unit `n + 1` is the sink.  Pipe `u` is the one
that feeds unit `u` (`pipes[u - 1]`), so unit `u` reads pipe `u` and writes
pipe `u + 1`.

Every unit runs in a thread of its own.  The steps of a thread are its
accesses to shared data: mutex sections, semaphore operations, loads and
stores of the flags, and its callbacks.  Buffers of different pipes are
different objects, so each pipe carries the memory of its own buffers.
-/

namespace Mtdp.Pipeline

/-- Program points of a worker thread. -/
inductive Pc where
  /-- there is no thread yet -/
  | absent
  /-- `while(!worker->destroyed)` -/
  | test
  /-- the mutex section with `cnd_wait` -/
  | gate
  /-- `if(worker->destroyed) break;` -/
  | recheck
  /-- start of the source and stage routines -/
  | push
  /-- after a successful push, before `mtdp_semaphore_release` -/
  | release
  /-- after a failed push, before `mtdp_set_done` -/
  | pushFailed
  /-- start of the sink routine -/
  | putBack
  /-- after a failed put back, before `mtdp_set_done` -/
  | putBackFailed
  /-- `mtdp_semaphore_try_acquire_for` -/
  | acquire
  /-- after a failed acquire, before `mtdp_set_done` -/
  | timedOut
  /-- after a successful acquire, before `mtdp_unset_done` -/
  | acquired
  /-- `mtdp_pipe_get_full_buffer` -/
  | getFull
  /-- after an empty get, before the compensating release -/
  | emptyGet
  /-- `mtdp_pipe_get_empty_buffer` -/
  | getEmpty
  /-- before the callbacks -/
  | process
  /-- inside the `process` callback -/
  | callback
  /-- inside `mtdp_source_finished`, between its two calls -/
  | finishing
  /-- after the `process` callback of a stage -/
  | recycle
  /-- the thread has left its loop -/
  | exited
  deriving DecidableEq, Repr

/-- `mtdp_source_impl`, `mtdp_stage_impl` and `mtdp_sink_impl`.  The source
has no input and the sink no output. -/
structure Impl (V σ : Type) where
  /-- what `context.self` points to: the private state of the callbacks -/
  self : σ
  input : Option Nat
  output : Option Nat
  readyToPull : Bool
  readyToPush : Bool
  /-- `worker.enabled` -/
  enabled : Bool
  /-- `worker.destroyed` -/
  destroyed : Bool
  /-- where `worker.thread` is -/
  pc : Pc
  /-- the futex `done`, which is `0` or `1` -/
  done : Bool
  initialized : Bool
  /-- what the callbacks have stored in `output` since it was obtained -/
  written : Option V

/-- `mtdp_pipeline` functions that a controller calls. -/
inductive Call where
  | enable
  | start
  | stop
  | disable
  deriving DecidableEq, Repr

/-- Where the controller is.  A counter of `disabling` and the phases after
it goes up through the units, one of `enabling` and `starting` goes down and
counts the units that are left. -/
inductive Controller where
  | idle
  /-- `mtdp_pipeline_enable`: the threads of units below `left` are missing -/
  | enabling (left : Nat)
  | starting (left : Nat)
  | stopping (unit : Nat)
  /-- `mtdp_pipeline_disable`, before `mtdp_set_done(&pipeline->destroying)` -/
  | disabling
  /-- the first call of `mtdp_*_destroy` for this unit -/
  | destroying (unit : Nat)
  /-- the second call -/
  | destroyed (unit : Nat)
  | joining (unit : Nat)
  /-- `mtdp_pipeline_clear`: pipes `1` to `left` have not been cleared -/
  | clearing (left : Nat)
  /-- buffers held by units below `left` have not been put back -/
  | returning (left : Nat)
  /-- the loop over `mtdp_set_done(&pipeline->stage_impls[i].done)` -/
  | marking (unit : Nat)
  deriving DecidableEq, Repr

/-- A thread in `mtdp_pipeline_wait`. -/
inductive Waiter where
  /-- not called yet -/
  | outside
  /-- `mtdp_futex_wait(&pipeline->destroying, 1)` -/
  | atDestroying
  /-- `if(pipeline->enabled)` -/
  | atEnabled
  /-- `mtdp_futex_wait` on the flag of this unit -/
  | waiting (unit : Nat)
  /-- `atomic_load` of the flag of this unit, all before having been `1` -/
  | loading (unit : Nat)
  | returned (error : MtdpError)
  deriving DecidableEq, Repr

/-- `mtdp_pipeline`, its threads and its callers. -/
structure State (V σ : Type) where
  nStages : Nat
  impls : Nat → Impl V σ
  pipes : Nat → Channel V
  enabled : Bool
  active : Bool
  destroying : Bool
  controller : Controller
  /-- the calls that have returned, the latest first -/
  returned : List (Call × MtdpError)
  waiter : Waiter

variable {V σ : Type}

namespace State

/-- Replace the record of a unit. -/
def setImpl (s : State V σ) (u : Nat) (i : Impl V σ) : State V σ :=
  { s with impls := Function.update s.impls u i }

/-- Replace a pipe. -/
def setPipe (s : State V σ) (k : Nat) (c : Channel V) : State V σ :=
  { s with pipes := Function.update s.pipes k c }

@[simp] theorem setImpl_impls_self (s : State V σ) (u : Nat) (i : Impl V σ) :
    (s.setImpl u i).impls u = i := by
  simp [setImpl]

@[simp] theorem setImpl_impls_of_ne (s : State V σ) {u w : Nat} (i : Impl V σ) (hne : w ≠ u) :
    (s.setImpl u i).impls w = s.impls w := by
  simp [setImpl, hne]

@[simp] theorem setImpl_pipes (s : State V σ) (u : Nat) (i : Impl V σ) :
    (s.setImpl u i).pipes = s.pipes := rfl

@[simp] theorem setPipe_pipes_self (s : State V σ) (k : Nat) (c : Channel V) :
    (s.setPipe k c).pipes k = c := by
  simp [setPipe]

@[simp] theorem setPipe_pipes_of_ne (s : State V σ) {k j : Nat} (c : Channel V) (hne : j ≠ k) :
    (s.setPipe k c).pipes j = s.pipes j := by
  simp [setPipe, hne]

@[simp] theorem setPipe_impls (s : State V σ) (k : Nat) (c : Channel V) :
    (s.setPipe k c).impls = s.impls := rfl

end State

/-- What a thread works on: its unit and the two pipes of the unit. -/
structure View (V σ : Type) where
  impl : Impl V σ
  inputPipe : Channel V
  outputPipe : Channel V

namespace State

/-- The view of unit `u`. -/
def view (s : State V σ) (u : Nat) : View V σ := ⟨s.impls u, s.pipes u, s.pipes (u + 1)⟩

/-- Store a view back. -/
def putView (s : State V σ) (u : Nat) (v : View V σ) : State V σ :=
  { s with
    impls := Function.update s.impls u v.impl
    pipes := Function.update (Function.update s.pipes u v.inputPipe) (u + 1) v.outputPipe }

variable (s : State V σ) (u : Nat) (v : View V σ)

@[simp] theorem view_impl : (s.view u).impl = s.impls u := rfl
@[simp] theorem view_inputPipe : (s.view u).inputPipe = s.pipes u := rfl
@[simp] theorem view_outputPipe : (s.view u).outputPipe = s.pipes (u + 1) := rfl

@[simp] theorem putView_impls_self : (s.putView u v).impls u = v.impl := by
  simp [putView]

@[simp] theorem putView_impls_of_ne {w : Nat} (hne : w ≠ u) :
    (s.putView u v).impls w = s.impls w := by
  simp [putView, hne]

@[simp] theorem putView_pipes_self : (s.putView u v).pipes u = v.inputPipe := by
  simp [putView]

@[simp] theorem putView_pipes_succ : (s.putView u v).pipes (u + 1) = v.outputPipe := by
  simp [putView]

theorem putView_pipes_of_ne {k : Nat} (hne : k ≠ u) (hne' : k ≠ u + 1) :
    (s.putView u v).pipes k = s.pipes k := by
  simp [putView, hne, hne']

@[simp] theorem putView_nStages : (s.putView u v).nStages = s.nStages := rfl
@[simp] theorem putView_enabled : (s.putView u v).enabled = s.enabled := rfl
@[simp] theorem putView_active : (s.putView u v).active = s.active := rfl
@[simp] theorem putView_destroying : (s.putView u v).destroying = s.destroying := rfl
@[simp] theorem putView_controller : (s.putView u v).controller = s.controller := rfl
@[simp] theorem putView_returned : (s.putView u v).returned = s.returned := rfl
@[simp] theorem putView_waiter : (s.putView u v).waiter = s.waiter := rfl

end State

end Mtdp.Pipeline
