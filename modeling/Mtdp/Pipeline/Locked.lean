import Mtdp.Pipe.Calls
import Mtdp.Pipeline.Moves

/-!
# A pipeline with the mutexes of its pipes

The threads of `Mtdp.Pipeline.Routine` do what a function of `src/pipe.c` does in one
step.  Here they call it: they wait for the mutexes, go through its statements while
the others move, unlock, and go on in their routine with what it has returned.  In a
build with assertions each of these calls is made between two calls of
`mtdp_pipe_check_invariants`, and an assertion that fails ends the program.

The controller clears the pipes and returns the buffers when all threads have been
joined, so it finds the mutexes free; it still does this at once.

## Main results

* `workerRoutine_of_call` — a routine that calls a function does what the function
  does, and goes on with its answer.
* `workerRoutine_outside` — one that does not touches nothing that a mutex guards.
-/

namespace Mtdp.Pipeline

open Lib.Critical Calls

variable {V σ : Type}

/-! ## The calls of the routines -/

/-- A pipe of a unit. -/
inductive Side where
  | input
  | output
  deriving DecidableEq, Repr

def Side.pipe (u : Nat) : Side → Nat
  | .input => u
  | .output => u + 1

/-- A call: the pipe, and the function for each answer of the allocator. -/
abbrev PipeCall := Side × (Bool → Operation)

/-- `mtdp_pipe_push_buffer(output_pipe, context.output)` -/
def Impl.pushCall (i : Impl V σ) : Option PipeCall :=
  if i.readyToPush then i.output.map fun buf => (.output, fun ok => .pushBuffer ok buf) else none

/-- `mtdp_pipe_put_back(input_pipe, context.input)` -/
def Impl.putBackCall (i : Impl V σ) : Option PipeCall :=
  if i.readyToPull then i.input.map fun buf => (.input, fun ok => .putBack ok buf) else none

/-- `mtdp_pipe_get_empty_buffer(output_pipe)` -/
def Impl.getEmptyCall (i : Impl V σ) : Option PipeCall :=
  if i.output.isNone then some (.output, fun _ => .getEmptyBuffer) else none

/-- The call that `mtdp_source_routine` makes here, if it makes one. -/
def sourceCall (i : Impl V σ) : Option PipeCall :=
  match i.pc with
  | .push => i.pushCall
  | .getEmpty => i.getEmptyCall
  | _ => none

/-- The same for `mtdp_stage_routine`. -/
def stageCall (i : Impl V σ) : Option PipeCall :=
  match i.pc with
  | .push => i.pushCall
  | .getFull => some (.input, fun _ => .getFullBuffer)
  | .getEmpty => if i.input.isSome then i.getEmptyCall else none
  | .recycle => i.putBackCall
  | _ => none

/-- The same for `mtdp_sink_routine`. -/
def sinkCall (i : Impl V σ) : Option PipeCall :=
  match i.pc with
  | .putBack => i.putBackCall
  | .getFull => some (.input, fun _ => .getFullBuffer)
  | _ => none

def Role.call : Role → Impl V σ → Option PipeCall
  | .source => sourceCall
  | .stage => stageCall
  | .sink => sinkCall

/-- The routine goes on with what the function has returned. -/
def Impl.resume (role : Role) (i : Impl V σ) (r : Result) : Impl V σ :=
  match i.pc, r with
  | .push, .bool ok => { i with pc := if ok then .release else .pushFailed }
  | .getFull, .buffer none => { i with input := none, pc := .emptyGet }
  | .getFull, .buffer (some buf) =>
      { i with input := some buf, readyToPull := false, pc := role.afterPull }
  | .getEmpty, .buffer buf => { i with output := buf, written := none, pc := .process }
  | .recycle, .bool _ => { i with input := none, pc := .test }
  | .putBack, .bool true => { i with input := none, pc := .acquire }
  | .putBack, .bool false => { i with pc := .putBackFailed }
  | _, _ => i

/-- A call, all at once. -/
def View.called (v : View V σ) (role : Role) (f : Operation) : Side → View V σ
  | .input =>
      { v with
        inputPipe := (f.run v.inputPipe).1
        impl := v.impl.resume role (f.run v.inputPipe).2 }
  | .output =>
      { v with
        outputPipe := (f.run v.outputPipe).1
        impl := v.impl.resume role (f.run v.outputPipe).2 }

/-- What the allocator answers in this call. -/
def answered : Operation → Bool
  | .pushBuffer accepted _ => accepted
  | .putBack allocated _ => allocated
  | _ => true

/-! ## The system -/

/-- How the library was built. -/
structure Build where
  platform : Lock2.Platform
  /-- `NDEBUG` is not defined -/
  assertions : Bool

/-- Where a thread is in a function of `src/pipe.c`. -/
inductive CallPhase where
  /-- the first assertion -/
  | before
  | call
  /-- the second assertion; the function is going to return `r` -/
  | after (r : Result)
  deriving DecidableEq

/-- Where a function starts. -/
def Build.first (b : Build) : CallPhase := if b.assertions then .before else .call

namespace Locked

/-- A pipeline and the calls under way in its pipes; the threads are numbered like
their units. -/
structure State (V σ : Type) where
  now : Pipeline.State V σ
  calls : Nat → Progress V Nat
  phase : Nat → CallPhase
  /-- an assertion has failed -/
  aborted : Bool

namespace State

/-- A pipe and the calls under way in it. -/
def pipe (s : State V σ) (k : Nat) : Calls.State V Nat :=
  { s.calls k with channel := s.now.pipes k }

/-- Store a pipe back. -/
def putPipe (s : State V σ) (k : Nat) (c : Calls.State V Nat) : State V σ :=
  { s with
    now := s.now.setPipe k c.channel
    calls := Function.update s.calls k c.toProgress }

def setPhase (s : State V σ) (u : Nat) (phase : CallPhase) : State V σ :=
  { s with phase := Function.update s.phase u phase }

/-- A function of `src/pipe.c` returns. -/
def resume (s : State V σ) (u : Nat) (r : Result) : State V σ :=
  { s with now := s.now.setImpl u ((s.now.impls u).resume (s.now.role u) r) }

/-- The thread has unlocked its mutexes. -/
def unlocked (b : Build) (s : State V σ) (u : Nat) (r : Option Result) : State V σ :=
  match s.phase u, r with
  | .before, some (.bool true) => s.setPhase u .call
  | .call, some r => if b.assertions then s.setPhase u (.after r) else s.resume u r
  | .after r, some (.bool true) => (s.resume u r).setPhase u .before
  | _, _ => { s with aborted := true }

/-- What the thread calls next: the function, or an assertion about its pipe. -/
def operation (s : State V σ) (u : Nat) (f : Operation) : Operation :=
  if s.phase u = .call then f else .checkInvariants

/-- One step of a thread on its way through a function of `src/pipe.c`. -/
def callStep (b : Build) (s : State V σ) (u k : Nat) (f : Operation) : Option (State V σ) :=
  (Calls.step b.platform (s.pipe k) ⟨u, s.operation u f⟩).map fun c =>
    if c.locks.pc u = .idle then (s.putPipe k c).unlocked b u (c.result u) else s.putPipe k c

end State

/-- The pipes whose functions this step of the controller calls. -/
def pipesCalled (s : Pipeline.State V σ) : List Nat :=
  match s.controller with
  | .clearing (left + 1) => [left + 1]
  | .returning (left + 1) =>
      (if s.role left ≠ .source ∧ (s.impls left).input.isSome then [left] else []) ++
        if s.role left ≠ .sink ∧ (s.impls left).output.isSome then [left + 1] else []
  | _ => []

/-- The assertions in the functions that this step of the controller calls. -/
def asserted (s now : Pipeline.State V σ) : Bool :=
  (pipesCalled s).all fun k => (s.pipes k).checkInvariants && (now.pipes k).checkInvariants

/-- One step of the system. -/
def step (b : Build) (s : State V σ) (l : Label V σ) : Option (State V σ) :=
  if s.aborted then none
  else
    match l with
    | .worker u a =>
        match (s.now.role u).call (s.now.impls u) with
        | some (side, f) =>
            if u ≤ s.now.nStages + 1 then s.callStep b u (side.pipe u) (f a.ok) else none
        | none => (Pipeline.step s.now l).map fun now => { s with now }
    | .controller allocated =>
        (s.now.controllerStep allocated).map fun now =>
          { s with now, aborted := b.assertions && !asserted s.now now }
    | _ => (Pipeline.step s.now l).map fun now => { s with now }

/-- A pipeline in whose pipes nobody has called anything. -/
def start (b : Build) (s : Pipeline.State V σ) : State V σ where
  now := s
  calls := fun _ => Progress.start
  phase := fun _ => b.first
  aborted := false

end Locked

/-! ## Calls at once -/

theorem Impl.pushCall_eq_some {i : Impl V σ} {side : Side} {f : Bool → Operation}
    (hcall : i.pushCall = some (side, f)) : i.readyToPush = true ∧ ∃ buf, i.output = some buf ∧
      side = .output ∧ f = fun ok => .pushBuffer ok buf := by
  unfold pushCall at hcall
  split at hcall
  · obtain ⟨buf, hbuf, heq⟩ := Option.map_eq_some_iff.mp hcall
    cases heq
    exact ⟨‹_›, buf, hbuf, rfl, rfl⟩
  · cases hcall

theorem Impl.putBackCall_eq_some {i : Impl V σ} {side : Side} {f : Bool → Operation}
    (hcall : i.putBackCall = some (side, f)) : i.readyToPull = true ∧ ∃ buf, i.input = some buf ∧
      side = .input ∧ f = fun ok => .putBack ok buf := by
  unfold putBackCall at hcall
  split at hcall
  · obtain ⟨buf, hbuf, heq⟩ := Option.map_eq_some_iff.mp hcall
    cases heq
    exact ⟨‹_›, buf, hbuf, rfl, rfl⟩
  · cases hcall

theorem Impl.getEmptyCall_eq_some {i : Impl V σ} {side : Side} {f : Bool → Operation}
    (hcall : i.getEmptyCall = some (side, f)) :
    i.output = none ∧ side = .output ∧ f = fun _ => .getEmptyBuffer := by
  unfold getEmptyCall at hcall
  split at hcall
  · cases hcall
    exact ⟨Option.isNone_iff_eq_none.mp ‹_›, rfl, rfl⟩
  · cases hcall

/-- The calls of the routines. -/
inductive CallsPipe (role : Role) (i : Impl V σ) : Side → (Bool → Operation) → Prop
  | push {buf : Nat} : role ≠ .sink → i.pc = .push → i.readyToPush = true →
      i.output = some buf → CallsPipe role i .output fun ok => .pushBuffer ok buf
  | getFull : role ≠ .source → i.pc = .getFull → CallsPipe role i .input fun _ => .getFullBuffer
  | getEmpty : role ≠ .sink → i.pc = .getEmpty → (role = .stage → i.input.isSome) →
      i.output = none → CallsPipe role i .output fun _ => .getEmptyBuffer
  | recycle {buf : Nat} : role = .stage → i.pc = .recycle → i.readyToPull = true →
      i.input = some buf → CallsPipe role i .input fun ok => .putBack ok buf
  | putBack {buf : Nat} : role = .sink → i.pc = .putBack → i.readyToPull = true →
      i.input = some buf → CallsPipe role i .input fun ok => .putBack ok buf

theorem Role.call_cases {role : Role} {i : Impl V σ} {side : Side} {f : Bool → Operation}
    (hcall : role.call i = some (side, f)) : CallsPipe role i side f := by
  cases role
  case source =>
    simp only [Role.call, sourceCall] at hcall
    split at hcall
    · obtain ⟨hready, buf, hbuf, rfl, rfl⟩ := Impl.pushCall_eq_some hcall
      exact .push (by decide) ‹_› hready hbuf
    · obtain ⟨houtput, rfl, rfl⟩ := Impl.getEmptyCall_eq_some hcall
      exact .getEmpty (by decide) ‹_› (by rintro ⟨⟩) houtput
    · cases hcall
  case stage =>
    simp only [Role.call, stageCall] at hcall
    split at hcall
    · obtain ⟨hready, buf, hbuf, rfl, rfl⟩ := Impl.pushCall_eq_some hcall
      exact .push (by decide) ‹_› hready hbuf
    · cases hcall
      exact .getFull (by decide) ‹_›
    · split at hcall
      · obtain ⟨houtput, rfl, rfl⟩ := Impl.getEmptyCall_eq_some hcall
        exact .getEmpty (by decide) ‹_› (fun _ => ‹_›) houtput
      · cases hcall
    · obtain ⟨hready, buf, hbuf, rfl, rfl⟩ := Impl.putBackCall_eq_some hcall
      exact .recycle rfl ‹_› hready hbuf
    · cases hcall
  case sink =>
    simp only [Role.call, sinkCall] at hcall
    split at hcall
    · obtain ⟨hready, buf, hbuf, rfl, rfl⟩ := Impl.putBackCall_eq_some hcall
      exact .putBack rfl ‹_› hready hbuf
    · cases hcall
      exact .getFull (by decide) ‹_›
    · cases hcall

/-- **A routine that calls a function** does what the function does, and goes on with
its answer. -/
theorem workerRoutine_of_call {role : Role} {v : View V σ} {side : Side} {f : Bool → Operation}
    (hcall : role.call v.impl = some (side, f)) (a : Answer V σ) :
    workerRoutine role v a = some (v.called role (f a.ok) side) := by
  cases Role.call_cases hcall
  case push hrole hpc hready hbuf =>
    cases role
    case sink => exact absurd rfl hrole
    all_goals
      simp [workerRoutine, hpc, Role.routine, sourceRoutine, stageRoutine, View.pushOutput, hready,
        hbuf, View.called, Impl.resume, Operation.run]
  case getFull hrole hpc =>
    have hget : v.getInput role.afterPull = v.called role .getFullBuffer .input := by
      unfold View.getInput
      cases hfifo : v.inputPipe.fifo <;>
        simp [View.called, Impl.resume, hpc, Operation.run, Channel.getFullBuffer, hfifo]
    cases role
    case source => exact absurd rfl hrole
    case stage =>
      simp only [workerRoutine, hpc, Role.routine, stageRoutine]
      exact congrArg some hget
    case sink =>
      simp only [workerRoutine, hpc, Role.routine, sinkRoutine]
      exact congrArg some hget
  case getEmpty hrole hpc hinput houtput =>
    have hget : v.getOutput .process = v.called role .getEmptyBuffer .output := by
      simp [View.getOutput, houtput, View.called, Impl.resume, hpc, Operation.run]
    cases role
    case source => simp [workerRoutine, hpc, Role.routine, sourceRoutine, hget]
    case stage => simp [workerRoutine, hpc, Role.routine, stageRoutine, hget, hinput rfl]
    case sink => exact absurd rfl hrole
  case recycle buf hrole hpc hready hinput =>
    subst hrole
    simp [workerRoutine, hpc, Role.routine, stageRoutine, View.recycleInput, hready, hinput,
      View.called, Impl.resume, Operation.run]
  case putBack buf hrole hpc hready hinput =>
    subst hrole
    rcases hput : v.inputPipe.putBack a.ok buf with ⟨_ | _, inputPipe⟩ <;>
      simp [workerRoutine, hpc, Role.routine, sinkRoutine, View.putBackInput, hready, hinput,
        View.called, Impl.resume, Operation.run, hput]

/-! ## Steps without a call -/

/-- The step goes the same way whatever is in the parts of the pipes that the mutexes
guard, and leaves them alone. -/
def StepsOutside (routine : View V σ → Option (View V σ)) (v v' : View V σ) : Prop :=
  ∃ f g : Channel V → Channel V, Outside f ∧ Outside g ∧
    v' = ⟨v'.impl, f v.inputPipe, g v.outputPipe⟩ ∧
    ∀ c d, c.semaphore = v.inputPipe.semaphore →
      routine ⟨v.impl, c, d⟩ = some ⟨v'.impl, f c, g d⟩

/-- The step does not look at the pipes. -/
theorem StepsOutside.same {routine : View V σ → Option (View V σ)} {v v' : View V σ}
    (hrun : routine v = some v')
    (hsame : ∀ c d, routine ⟨v.impl, c, d⟩ = (routine v).map fun w => ⟨w.impl, c, d⟩) :
    StepsOutside routine v v' := by
  simp only [hrun, Option.map_some] at hsame
  refine ⟨id, id, .id, .id, ?_, fun c d _ => hsame c d⟩
  exact Option.some.inj (hrun.symm.trans (hsame v.inputPipe v.outputPipe))

theorem Impl.pushCall_eq_none {i : Impl V σ} (hcall : i.pushCall = none) :
    i.readyToPush = false ∨ i.output = none := by
  cases hready : i.readyToPush <;> simp_all [pushCall]

theorem Impl.putBackCall_eq_none {i : Impl V σ} (hcall : i.putBackCall = none) :
    i.readyToPull = false ∨ i.input = none := by
  cases hready : i.readyToPull <;> simp_all [putBackCall]

theorem Impl.getEmptyCall_eq_none {i : Impl V σ} (hcall : i.getEmptyCall = none) :
    ∃ buf, i.output = some buf := by
  cases houtput : i.output <;> simp_all [getEmptyCall]

/-- At these program points a thread accesses a pipe without a mutex. -/
def Pc.accesses : Pc → Bool
  | .release | .acquire | .emptyGet | .callback => true
  | _ => false

/-- At the others it does not, if it calls nothing. -/
theorem workerRoutine_same {role : Role} {i : Impl V σ} (hcall : role.call i = none)
    (hpc : i.pc.accesses = false) (a : Answer V σ) (c d c' d' : Channel V) :
    workerRoutine role ⟨i, c, d⟩ a =
      (workerRoutine role ⟨i, c', d'⟩ a).map fun w => ⟨w.impl, c, d⟩ := by
  cases hat : i.pc
  case release | acquire | emptyGet | callback => simp [hat, Pc.accesses] at hpc
  case absent | exited => simp [workerRoutine, hat]
  case push =>
    have hnone : role ≠ .sink → i.readyToPush = false ∨ i.output = none := by
      intro hrole
      apply Impl.pushCall_eq_none
      cases role <;> simp_all [Role.call, sourceCall, stageCall]
    cases role
    case sink => simp [workerRoutine, hat, Role.routine, sinkRoutine]
    all_goals
      rcases hnone (by decide) with h | h <;>
        simp [workerRoutine, hat, Role.routine, sourceRoutine, stageRoutine, View.pushOutput, h,
          View.goto]
      all_goals split <;> rfl
  case putBack =>
    cases role
    case sink =>
      have hnone : i.putBackCall = none := by simpa [Role.call, sinkCall, hat] using hcall
      rcases Impl.putBackCall_eq_none hnone with h | h <;>
        simp [workerRoutine, hat, Role.routine, sinkRoutine, View.putBackInput, h, View.goto]
      split <;> rfl
    all_goals simp [workerRoutine, hat, Role.routine, sourceRoutine, stageRoutine]
  case recycle =>
    cases role
    case stage =>
      have hnone : i.putBackCall = none := by simpa [Role.call, stageCall, hat] using hcall
      rcases Impl.putBackCall_eq_none hnone with h | h <;>
        simp [workerRoutine, hat, Role.routine, stageRoutine, View.recycleInput, h, View.goto]
      split <;> rfl
    all_goals simp [workerRoutine, hat, Role.routine, sourceRoutine, sinkRoutine]
  case getFull =>
    cases role
    case source => simp [workerRoutine, hat, Role.routine, sourceRoutine]
    all_goals simp [Role.call, stageCall, sinkCall, hat] at hcall
  case getEmpty =>
    cases role
    case source =>
      have hnone : i.getEmptyCall = none := by simpa [Role.call, sourceCall, hat] using hcall
      obtain ⟨buf, hbuf⟩ := Impl.getEmptyCall_eq_none hnone
      simp [workerRoutine, hat, Role.routine, sourceRoutine, View.getOutput, hbuf, View.goto]
    case stage =>
      cases hinput : i.input with
      | none => simp [workerRoutine, hat, Role.routine, stageRoutine, hinput, View.askInput]
      | some _ =>
          obtain ⟨buf, hbuf⟩ :=
            Impl.getEmptyCall_eq_none (by simpa [Role.call, stageCall, hat, hinput] using hcall)
          simp [workerRoutine, hat, Role.routine, stageRoutine, hinput, View.getOutput, hbuf,
            View.goto]
    case sink => simp [workerRoutine, hat, Role.routine, sinkRoutine]
  all_goals
    cases role <;>
      simp only [workerRoutine, hat, Role.routine, sourceRoutine, stageRoutine, sinkRoutine] <;>
      (repeat' split) <;> rfl

section Accesses

variable {role : Role} {v v' : View V σ} {a : Answer V σ}

/-- `mtdp_semaphore_release` -/
theorem workerRoutine_release (hpc : v.impl.pc = .release ∨ v.impl.pc = .emptyGet)
    (hrun : workerRoutine role v a = some v') :
    StepsOutside (fun v => workerRoutine role v a) v v' := by
  obtain ⟨i, inputPipe, outputPipe⟩ := v
  rcases hpc with hpc | hpc <;> simp only at hpc
  · cases role <;>
      simp [workerRoutine, hpc, Role.routine, sourceRoutine, stageRoutine, sinkRoutine] at hrun
    all_goals
      subst hrun
      refine ⟨id, Channel.release, .id, .release, rfl, fun c d _ => ?_⟩
      simp [workerRoutine, hpc, Role.routine, sourceRoutine, stageRoutine, View.releaseOutput]
  · cases role <;>
      simp [workerRoutine, hpc, Role.routine, sourceRoutine, stageRoutine, sinkRoutine] at hrun
    all_goals
      subst hrun
      refine ⟨Channel.release, id, .release, .id, rfl, fun c d _ => ?_⟩
      simp [workerRoutine, hpc, Role.routine, stageRoutine, sinkRoutine, View.releaseInput]

/-- `mtdp_semaphore_try_acquire_for` looks at the semaphore, which no mutex guards. -/
theorem workerRoutine_acquire (hpc : v.impl.pc = .acquire)
    (hrun : workerRoutine role v a = some v') :
    StepsOutside (fun v => workerRoutine role v a) v v' := by
  obtain ⟨i, inputPipe, outputPipe⟩ := v
  simp only at hpc
  by_cases htaken : i.readyToPull = true ∧ a.ok = true
  · cases role <;>
      simp [workerRoutine, hpc, Role.routine, sourceRoutine, stageRoutine, sinkRoutine,
        View.acquireInput, htaken] at hrun
    all_goals
      obtain ⟨hpos, rfl⟩ := hrun
      refine ⟨Channel.acquire, id, .acquire, .id, rfl, fun c d hc => ?_⟩
      simp [workerRoutine, hpc, Role.routine, stageRoutine, sinkRoutine, View.acquireInput,
        htaken, show 0 < c.semaphore from hc ▸ hpos]
  · refine .same hrun fun c d => ?_
    cases role <;>
      simp only [workerRoutine, hpc, Role.routine, sourceRoutine, stageRoutine, sinkRoutine,
        View.acquireInput]
    case source => rfl
    all_goals
      split
      · rw [if_neg fun h => htaken ⟨‹_›, h⟩, if_neg fun h => htaken ⟨‹_›, h⟩]
        rfl
      · rfl

/-- A callback that returns has at most written to its buffer. -/
theorem returns_outside (v : View V σ) (r : Return V σ) (next : Pc) :
    ∃ g : Channel V → Channel V, Outside g ∧ ∀ c d,
      View.returns ⟨v.impl, c, d⟩ r next = ⟨(v.returns r next).impl, c, g d⟩ := by
  cases hwrite : r.write with
  | none => exact ⟨id, .id, fun c d => by simp [View.returns, hwrite]⟩
  | some x =>
      cases houtput : v.impl.output with
      | none => exact ⟨id, .id, fun c d => by simp [View.returns, hwrite, houtput]⟩
      | some buf => exact ⟨_, .write buf x, fun c d => by simp [View.returns, hwrite, houtput]⟩

/-- A callback has its buffers to itself. -/
theorem workerRoutine_callback (hpc : v.impl.pc = .callback)
    (hrun : workerRoutine role v a = some v') :
    StepsOutside (fun v => workerRoutine role v a) v v' := by
  cases hcallback : a.callback with
  | finish =>
      refine .same hrun fun c d => ?_
      cases role <;>
        simp [workerRoutine, hpc, Role.routine, sourceRoutine, stageRoutine, sinkRoutine,
          hcallback, View.storeDone]
  | ret r =>
      cases role <;>
        simp only [workerRoutine, hpc, Role.routine, sourceRoutine, stageRoutine, sinkRoutine,
          hcallback] at hrun
      all_goals
        obtain rfl := Option.some.inj hrun
        obtain ⟨g, hg, hreturns⟩ := returns_outside v _ _
        refine ⟨id, g, .id, hg, hreturns v.inputPipe v.outputPipe, fun c d _ => ?_⟩
        simp only [workerRoutine, hpc, Role.routine, sourceRoutine, stageRoutine, sinkRoutine,
          hcallback]
        exact congrArg some (hreturns c d)

end Accesses

/-- **A routine that calls nothing** touches nothing that a mutex guards. -/
theorem workerRoutine_outside {role : Role} {v v' : View V σ} {a : Answer V σ}
    (hcall : role.call v.impl = none) (hrun : workerRoutine role v a = some v') :
    StepsOutside (fun v => workerRoutine role v a) v v' := by
  cases hpc : v.impl.pc
  case release => exact workerRoutine_release (.inl hpc) hrun
  case emptyGet => exact workerRoutine_release (.inr hpc) hrun
  case acquire => exact workerRoutine_acquire hpc hrun
  case callback => exact workerRoutine_callback hpc hrun
  all_goals exact .same hrun fun c d => workerRoutine_same hcall (by rw [hpc]; rfl) a ..

end Mtdp.Pipeline
