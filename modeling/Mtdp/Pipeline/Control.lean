import Mtdp.Pipeline.Routine

/-!
# Controller and waiter

`src/pipeline.c`: the calls that move a pipeline between its three states
(disabled, enabled, active), one access to shared data after the other, and
`mtdp_pipeline_wait`.  Thread, mutex and condition variable calls succeed.
-/

namespace Mtdp.Pipeline

variable {V σ : Type}

/-! ## What the calls do to one unit -/

/-- `mtdp_source_create_thread` -/
def sourceCreateThread (i : Impl V σ) : Impl V σ :=
  { i with readyToPush := false, output := none, done := false, pc := .test }

/-- `mtdp_stage_create_thread` -/
def stageCreateThread (i : Impl V σ) : Impl V σ :=
  { i with
    readyToPull := true, readyToPush := false, input := none, output := none, done := false
    pc := .test }

/-- `mtdp_sink_create_thread` -/
def sinkCreateThread (i : Impl V σ) : Impl V σ :=
  { i with readyToPull := true, input := none, done := false, pc := .test }

def Role.createThread : Role → Impl V σ → Impl V σ
  | .source => sourceCreateThread
  | .stage => stageCreateThread
  | .sink => sinkCreateThread

/-- `mtdp_worker_enable` -/
def workerEnable (i : Impl V σ) : Impl V σ := { i with enabled := true }

/-- `mtdp_worker_disable` -/
def workerDisable (i : Impl V σ) : Impl V σ := { i with enabled := false }

/-- `mtdp_worker_destroy` -/
def workerDestroy (i : Impl V σ) : Impl V σ := { i with destroyed := true }

/-- `mtdp_set_done(&self->done)` -/
def setDone (i : Impl V σ) : Impl V σ := { i with done := true }

/-- The first call in `mtdp_source_destroy`, `mtdp_stage_destroy` and
`mtdp_sink_destroy`; the source does it in the other order. -/
def Role.destroyFirst : Role → Impl V σ → Impl V σ
  | .source => setDone
  | .stage => workerDestroy
  | .sink => workerDestroy

/-- The second call in these functions. -/
def Role.destroySecond : Role → Impl V σ → Impl V σ
  | .source => workerDestroy
  | .stage => setDone
  | .sink => setDone

/-- `mtdp_pipeline_clear` for `context.input` of a stage or the sink. -/
def View.returnInput (v : View V σ) (allocated : Bool) : View V σ :=
  match v.impl.input with
  | some buf =>
      { v with
        inputPipe := (v.inputPipe.putBack allocated buf).2
        impl := { v.impl with input := none } }
  | none => v

/-- `mtdp_pipeline_clear` for `context.output` of the source or a stage. -/
def View.returnOutput (v : View V σ) (allocated : Bool) : View V σ :=
  match v.impl.output with
  | some buf =>
      { v with
        outputPipe := (v.outputPipe.putBack allocated buf).2
        impl := { v.impl with output := none } }
  | none => v

/-- The buffers a unit holds go back to their pipes. -/
def Role.returnBuffers (allocated : Nat → Bool) : Role → View V σ → View V σ
  | .source, v => v.returnOutput (allocated 1)
  | .stage, v => (v.returnInput (allocated 0)).returnOutput (allocated 1)
  | .sink, v => v.returnInput (allocated 0)

namespace State

/-- The role of unit `u`. -/
def role (s : State V σ) (u : Nat) : Role :=
  if u = 0 then .source else if u ≤ s.nStages then .stage else .sink

theorem role_zero (s : State V σ) : s.role 0 = .source := rfl

theorem role_sink (s : State V σ) : s.role (s.nStages + 1) = .sink := by
  simp [role]

theorem role_eq_source {s : State V σ} {u : Nat} : s.role u = .source ↔ u = 0 := by
  unfold role
  split <;> (try split) <;> simp_all

theorem role_ne_sink (s : State V σ) {u : Nat} (hu : u ≤ s.nStages) : s.role u ≠ .sink := by
  unfold role
  split <;> simp

theorem le_of_role_ne_sink (s : State V σ) {u : Nat} (hrole : s.role u ≠ .sink) :
    u ≤ s.nStages := by
  unfold role at hrole
  split at hrole
  · omega
  · by_contra hlt
    rw [if_neg hlt] at hrole
    exact hrole rfl

/-- A call comes back with an error code. -/
def report (s : State V σ) (c : Call) (e : MtdpError) : State V σ :=
  { s with controller := .idle, returned := (c, e) :: s.returned }

/-- The tests at the start of `mtdp_pipeline_enable`, `mtdp_pipeline_start`,
`mtdp_pipeline_stop` and `mtdp_pipeline_disable`. -/
def beginCall (s : State V σ) : Call → State V σ
  | .enable =>
      if !s.enabled then { s with controller := .enabling (s.nStages + 2) }
      else s.report .enable .enabled
  | .start =>
      if s.enabled then
        if s.active then s.report .start .active
        else { s with controller := .starting (s.nStages + 2) }
      else s.report .start .notEnabled
  | .stop =>
      if s.enabled then
        if !s.active then s.report .stop .enabled
        else { s with controller := .stopping 0 }
      else s.report .stop .notEnabled
  | .disable =>
      if s.enabled then { s with controller := .disabling }
      else s.report .disable .notEnabled

/-- One step of the call in progress.  `allocated` is what the allocator
answers when a pool has to grow. -/
def controllerStep (s : State V σ) (allocated : Nat → Bool) : Option (State V σ) :=
  match s.controller with
  | .idle => none
  | .enabling (left + 1) =>
      some { s.setImpl left ((s.role left).createThread (s.impls left)) with
        controller := .enabling left }
  | .enabling 0 => some ({ s with enabled := true, active := false }.report .enable .ok)
  | .starting (left + 1) =>
      some { s.setImpl left (workerEnable (s.impls left)) with controller := .starting left }
  | .starting 0 => some ({ s with active := true }.report .start .ok)
  | .stopping u =>
      if u ≤ s.nStages + 1 then
        some { s.setImpl u (workerDisable (s.impls u)) with controller := .stopping (u + 1) }
      else some ({ s with active := false }.report .stop .ok)
  | .disabling => some { s with destroying := true, controller := .destroying 0 }
  | .destroying u =>
      if u ≤ s.nStages + 1 then
        some { s.setImpl u ((s.role u).destroyFirst (s.impls u)) with controller := .destroyed u }
      else some { s with controller := .joining 0 }
  | .destroyed u =>
      some { s.setImpl u ((s.role u).destroySecond (s.impls u)) with
        controller := .destroying (u + 1) }
  | .joining u =>
      if u ≤ s.nStages + 1 then
        if (s.impls u).pc = .exited then some { s with controller := .joining (u + 1) } else none
      else some { s with controller := .clearing (s.nStages + 1) }
  | .clearing (left + 1) =>
      some { s.setPipe (left + 1) ((s.pipes (left + 1)).clear allocated) with
        controller := .clearing left }
  | .clearing 0 => some { s with controller := .returning (s.nStages + 2) }
  | .returning (left + 1) =>
      some { s.putView left ((s.role left).returnBuffers allocated (s.view left)) with
        controller := .returning left }
  | .returning 0 => some { s with controller := .marking 1 }
  | .marking u =>
      if u ≤ s.nStages then
        some { s.setImpl u (setDone (s.impls u)) with controller := .marking (u + 1) }
      else
        some ({ s with active := false, enabled := false, destroying := false }.report .disable .ok)

/-- One step of a thread in `mtdp_pipeline_wait`.  A wait on a futex may
return at any time. -/
def waiterStep (s : State V σ) : State V σ :=
  { s with waiter :=
      match s.waiter with
      | .outside => .atDestroying
      | .atDestroying => .atEnabled
      | .atEnabled => if s.enabled then .waiting 0 else .returned .notEnabled
      | .waiting u => if u ≤ s.nStages then .waiting (u + 1) else .loading 0
      | .loading u =>
          if (s.impls u).done then
            if u ≤ s.nStages then .loading (u + 1) else .returned .ok
          else .waiting 0
      | .returned _ => .atDestroying }

end State

/-- Who moves, and how the environment answers. -/
inductive Label (V σ : Type) where
  | worker (unit : Nat) (answer : Answer V σ)
  | call (c : Call)
  | controller (allocated : Nat → Bool)
  | waiter

/-- One step of the system. -/
def step (s : State V σ) : Label V σ → Option (State V σ)
  | .worker u a =>
      if u ≤ s.nStages + 1 then (workerRoutine (s.role u) (s.view u) a).map (s.putView u) else none
  | .call c => if s.controller = .idle then some (s.beginCall c) else none
  | .controller allocated => s.controllerStep allocated
  | .waiter => some s.waiterStep

/-- A pipeline fresh from `mtdp_pipeline_create`; its pipes may have been
resized, nothing has been queued.  What `mtdp_*_configure` does not set is
arbitrary. -/
structure Created (s : State V σ) : Prop where
  enabled : s.enabled = false
  active : s.active = false
  destroying : s.destroying = false
  controller : s.controller = .idle
  returned : s.returned = []
  waiter : s.waiter = .outside
  pc : ∀ u, (s.impls u).pc = .absent
  workerEnabled : ∀ u, (s.impls u).enabled = false
  workerDestroyed : ∀ u, (s.impls u).destroyed = false
  initialized : ∀ u, (s.impls u).initialized = false
  fifo : ∀ k, (s.pipes k).fifo = []
  semaphore : ∀ k, (s.pipes k).semaphore = 0

/-! ## The smallest pipeline -/

/-- A fresh pipeline without internal stages: a source, a sink, and between
them a pipe with two buffers that contain `x`. -/
def smallestOf (self : σ) (x : V) : State V σ where
  nStages := 0
  impls := fun _ =>
    { self, input := none, output := none, readyToPull := false, readyToPush := false
      enabled := false, destroyed := false, pc := .absent, done := false, initialized := false
      written := none }
  pipes := fun _ =>
    { pool := [1, 2], fifo := [], capacity := 2, semaphore := 0, totalBuffers := 2
      memory := fun _ => x }
  enabled := false
  active := false
  destroying := false
  controller := .idle
  returned := []
  waiter := .outside

theorem smallestOf_created (self : σ) (x : V) : Created (smallestOf self x) := by
  constructor <;> intros <;> rfl

/-- The one to which contents do not matter. -/
def smallest : State Unit Unit := smallestOf () ()

theorem smallest_created : Created smallest := smallestOf_created () ()

/-- The same with one internal stage, and so with two pipes. -/
def staged : State Unit Unit := { smallest with nStages := 1 }

theorem staged_created : Created staged := by
  constructor <;> intros <;> rfl

/-- A thread makes `steps` steps, all answered in the same way; a callback
that returns sets the given flags. -/
def threadSteps (unit steps : Nat) (ok readyToPush readyToPull : Bool) :
    List (Label Unit Unit) :=
  List.replicate steps
    (.worker unit ⟨ok, (), .ret ⟨(), some (), readyToPush, readyToPull⟩⟩)

/-- The controller makes `steps` steps; no allocation fails. -/
def controllerSteps (steps : Nat) : List (Label V σ) :=
  List.replicate steps (.controller fun _ => true)

/-- The controller enables and starts the smallest pipeline. -/
def enableAndStart : List (Label V σ) :=
  [.call .enable] ++ controllerSteps 3 ++ [.call .start] ++ controllerSteps 3

/-- The same for `staged`, which has one thread more. -/
def enableAndStartStaged : List (Label V σ) :=
  [.call .enable] ++ controllerSteps 4 ++ [.call .start] ++ controllerSteps 4

end Mtdp.Pipeline
