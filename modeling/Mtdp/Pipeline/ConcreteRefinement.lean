import Mathlib.Tactic.NormNum
import Mtdp.Pipeline.Concrete
import Mtdp.Pipeline.Ownership

/-!
# The code refines the pipeline over channels

What is proved about `Mtdp.Pipeline.step`, where a pipe is two lists and a counter,
holds of the pipeline whose pipes are the arrays and blocks of `src/buffer.c`: every
run of the code is a run over channels, in which the environment has answered the
way the allocators have.  No step of the code leaves the memory it owns.

## Main results

* `workerRoutine_matches`, `controllerStep_matches` — one step.
* `code_refines_channels` — whole runs.
-/

namespace Mtdp.Pipeline.Concrete

open Lib.Transition

variable {V σ α β : Type}

/-! ## Views -/

/-- The pipe `p` stores the channel `ch`. -/
structure Stores (c : Fifo.Config) (p : Conduit V) (ch : Channel V) : Prop where
  refines : Refines c p.toPipe ch
  memory : p.memory = ch.memory

/-- The source has no input pipe and the sink no output pipe. -/
structure StoresView (c : Fifo.Config) (role : Role) (v : View V σ) (w : Pipeline.View V σ) :
    Prop where
  impl : v.impl = w.impl
  input : role ≠ .source → Stores c v.inputPipe w.inputPipe
  output : role ≠ .sink → Stores c v.outputPipe w.outputPipe

/-- A step of the code is defined, and possible if it is possible over channels. -/
def Outcome.Matches (R : α → β → Prop) : Outcome α → Option β → Prop
  | .blocked, none => True
  | .next a, some b => R a b
  | _, _ => False

section Blocks

variable {c : Fifo.Config} {role : Role} {v : View V σ} {w : Pipeline.View V σ}

theorem pushOutput_matches (hratio : 0 < c.shiftFillingRatio) (hv : StoresView c role v w)
    (hrole : role ≠ .sink) (hready : w.impl.readyToPush = true → w.impl.output.isSome)
    (next : Pc) :
    ∃ ok, (v.pushOutput c next).Matches (StoresView c role) (w.pushOutput ok next) := by
  obtain ⟨i, vin, vout⟩ := v
  obtain ⟨i', win, wout⟩ := w
  obtain ⟨rfl, hin, hout⟩ := hv
  cases hpush : i.readyToPush with
  | false =>
      refine ⟨true, ?_⟩
      simp only [View.pushOutput, Pipeline.View.pushOutput, hpush]
      exact ⟨rfl, hin, hout⟩
  | true =>
      obtain ⟨buf, hbuf⟩ := Option.isSome_iff_exists.mp (hready hpush)
      simp only at hbuf
      obtain ⟨ok, p, hrun, hp⟩ := (hout hrole).refines.pushBuffer hratio buf
      refine ⟨ok, ?_⟩
      simp only [View.pushOutput, Pipeline.View.pushOutput, hpush, hbuf, hrun, if_true,
        Option.map_some, Outcome.ofOption]
      refine ⟨rfl, hin, fun _ => ⟨hp, ?_⟩⟩
      have := (hout hrole).memory
      cases ok <;> exact this

theorem acquireInput_matches (hv : StoresView c role v w) (hrole : role ≠ .source) (ok : Bool)
    (next : Pc) :
    (v.acquireInput ok next).Matches (StoresView c role) (w.acquireInput ok next) := by
  obtain ⟨i, vin, vout⟩ := v
  obtain ⟨i', win, wout⟩ := w
  obtain ⟨rfl, hin, hout⟩ := hv
  have hsemaphore := (hin hrole).refines.semaphore
  simp only at hsemaphore
  simp only [View.acquireInput, Pipeline.View.acquireInput, hsemaphore]
  split
  · split
    · split
      · refine ⟨rfl, fun _ => ⟨?_, (hin hrole).memory⟩, hout⟩
        have hp := (hin hrole).refines
        exact { hp with semaphore := congrArg (· - 1) hsemaphore }
      · trivial
    · exact ⟨rfl, hin, hout⟩
  · exact ⟨rfl, hin, hout⟩

theorem getInput_matches (hv : StoresView c role v w) (hrole : role ≠ .source) (next : Pc) :
    (v.getInput c next).Matches (StoresView c role) (some (w.getInput next)) := by
  obtain ⟨i, vin, vout⟩ := v
  obtain ⟨i', win, wout⟩ := w
  obtain ⟨rfl, hin, hout⟩ := hv
  obtain ⟨p, hrun, hp⟩ := (hin hrole).refines.getFullBuffer
  simp only [View.getInput, Pipeline.View.getInput, hrun, Option.map_some, Outcome.ofOption]
  cases hget : win.getFullBuffer with
  | mk input pipe =>
      simp only [hget] at hp ⊢
      have hmemory : vin.memory = pipe.memory := by
        have := (hin hrole).memory
        rw [Channel.getFullBuffer, Prod.mk.injEq] at hget
        rw [← hget.2]
        exact this
      cases input <;> exact ⟨rfl, fun _ => ⟨hp, hmemory⟩, hout⟩

theorem getOutput_matches (hv : StoresView c role v w) (hrole : role ≠ .sink) (next : Pc) :
    (v.getOutput next).Matches (StoresView c role) (some (w.getOutput next)) := by
  obtain ⟨i, vin, vout⟩ := v
  obtain ⟨i', win, wout⟩ := w
  obtain ⟨rfl, hin, hout⟩ := hv
  unfold View.getOutput Pipeline.View.getOutput
  cases houtput : i.output with
  | some buf => exact ⟨rfl, hin, hout⟩
  | none =>
      obtain ⟨p, hrun, hp⟩ := (hout hrole).refines.getEmptyBuffer
      simp only [hrun, Option.map_some, Outcome.ofOption]
      exact ⟨rfl, hin, fun _ => ⟨hp, (hout hrole).memory⟩⟩

theorem returns_matches (hv : StoresView c role v w) (r : Return V σ) (next : Pc) :
    StoresView c role (v.returns r next) (w.returns r next) := by
  obtain ⟨i, vin, vout⟩ := v
  obtain ⟨i', win, wout⟩ := w
  obtain ⟨rfl, hin, hout⟩ := hv
  refine ⟨rfl, hin, fun hrole => ?_⟩
  cases hwrite : r.write with
  | none => simpa only [View.returns, Pipeline.View.returns, hwrite] using hout hrole
  | some x =>
      cases hbuf : i.output with
      | none => simpa only [View.returns, Pipeline.View.returns, hwrite, hbuf] using hout hrole
      | some buf =>
          have hmemory := (hout hrole).memory
          simp only at hmemory
          simp only [View.returns, Pipeline.View.returns, hwrite, hbuf]
          exact ⟨{ (hout hrole).refines with },
            by simp only [Conduit.write, Channel.write, hmemory]⟩

/-- What `mtdp_pipe_put_back` does to a pipe that stores a channel. -/
theorem Stores.putBack {p : Conduit V} {ch : Channel V} (hp : Stores c p ch)
    (hroom : ch.pool.length < 2 ^ 60) (buf : Nat) :
    ∃ allocated pipe, p.putBack (some buf) = some ((ch.putBack allocated buf).1, pipe) ∧
      Stores c (p.onPipe pipe) (ch.putBack allocated buf).2 := by
  obtain ⟨allocated, pipe, hrun, hpipe⟩ := hp.refines.putBack hroom buf
  exact ⟨allocated, pipe, hrun, hpipe, hp.memory.trans (ch.putBack_memory allocated buf).symm⟩

theorem recycleInput_matches (hv : StoresView c role v w) (hrole : role ≠ .source)
    (hroom : w.inputPipe.pool.length < 2 ^ 60) (hinput : w.impl.input.isSome) :
    ∃ ok, v.recycleInput.Matches (StoresView c role) (w.recycleInput ok) := by
  obtain ⟨i, vin, vout⟩ := v
  obtain ⟨i', win, wout⟩ := w
  obtain ⟨rfl, hin, hout⟩ := hv
  obtain ⟨buf, hbuf⟩ := Option.isSome_iff_exists.mp hinput
  simp only at hbuf
  obtain ⟨ok, pipe, hrun, hpipe⟩ := (hin hrole).putBack hroom buf
  refine ⟨ok, ?_⟩
  unfold View.recycleInput Pipeline.View.recycleInput
  split
  · simp only [hbuf, hrun, Option.map_some, Outcome.ofOption]
    exact ⟨rfl, fun _ => hpipe, hout⟩
  · exact ⟨rfl, hin, hout⟩

theorem putBackInput_matches (hv : StoresView c role v w) (hrole : role ≠ .source)
    (hroom : w.inputPipe.pool.length < 2 ^ 60) :
    ∃ ok, v.putBackInput.Matches (StoresView c role) (some (w.putBackInput ok)) := by
  obtain ⟨i, vin, vout⟩ := v
  obtain ⟨i', win, wout⟩ := w
  obtain ⟨rfl, hin, hout⟩ := hv
  unfold View.putBackInput Pipeline.View.putBackInput
  cases hbuf : i.input with
  | none =>
      refine ⟨true, ?_⟩
      simp only [hbuf]
      split <;> exact ⟨rfl, hin, hout⟩
  | some buf =>
      obtain ⟨ok, pipe, hrun, hpipe⟩ := (hin hrole).putBack hroom buf
      refine ⟨ok, ?_⟩
      cases hput : win.putBack ok buf with
      | mk accepted inputPipe =>
          rw [hput] at hrun hpipe
          simp only [hbuf, hput, Option.isSome_some, if_true, hrun, Option.map_some,
            Outcome.ofOption]
          split
          · cases accepted <;> exact ⟨rfl, fun _ => hpipe, hout⟩
          · exact ⟨rfl, hin, hout⟩

end Blocks

/-! ## The threads -/

/-- What the code relies on when a thread moves. -/
structure Sound (role : Role) (w : Pipeline.View V σ) : Prop where
  consistent : w.impl.Consistent role
  room : role ≠ .source → w.inputPipe.pool.length < 2 ^ 60

section Routines

variable {c : Fifo.Config} {role : Role} {v : View V σ} {w : Pipeline.View V σ}

/-- A step that touches no pipe. -/
theorem StoresView.keep (hv : StoresView c role v w) {i i' : Impl V σ} (hi : i = i') :
    StoresView c role { v with impl := i } { w with impl := i' } := ⟨hi, hv.input, hv.output⟩

theorem releaseOutput_matches (hv : StoresView c role v w) (next : Pc) :
    StoresView c role (v.releaseOutput next) (w.releaseOutput next) := by
  refine ⟨by simp [View.releaseOutput, Pipeline.View.releaseOutput, hv.impl], hv.input,
    fun hrole => ⟨?_, (hv.output hrole).memory⟩⟩
  have hp := (hv.output hrole).refines
  exact { hp with semaphore := congrArg (· + 1) hp.semaphore }

theorem releaseInput_matches (hv : StoresView c role v w) :
    StoresView c role v.releaseInput w.releaseInput := by
  refine ⟨by simp [View.releaseInput, Pipeline.View.releaseInput, hv.impl],
    fun hrole => ⟨?_, (hv.input hrole).memory⟩, hv.output⟩
  have hp := (hv.input hrole).refines
  exact { hp with semaphore := congrArg (· + 1) hp.semaphore }

/-- The steps of the routines that touch no pipe, and the callbacks. -/
theorem storeDone_matches (hv : StoresView c role v w) (done : Bool) (pc : Pc) :
    StoresView c role (v.storeDone done pc) (w.storeDone done pc) :=
  hv.keep (by rw [hv.impl])

theorem goto_matches (hv : StoresView c role v w) (pc : Pc) :
    StoresView c role (v.goto pc) (w.goto pc) :=
  hv.keep (by rw [hv.impl])

theorem invoke_matches (hv : StoresView c role v w) (init : σ) :
    StoresView c role (v.invoke init) (w.invoke init) :=
  hv.keep (by rw [hv.impl])

theorem askInput_matches (hv : StoresView c role v w) :
    StoresView c role v.askInput w.askInput :=
  hv.keep (by rw [hv.impl])

theorem sourceRoutine_matches (hratio : 0 < c.shiftFillingRatio) (hv : StoresView c .source v w)
    (hw : Sound .source w) (a : Answer V σ) :
    ∃ ok, (sourceRoutine c v a w.impl.pc).Matches (StoresView c .source)
      (Pipeline.sourceRoutine w { a with ok } w.impl.pc) := by
  cases w.impl.pc
  case push =>
    exact pushOutput_matches hratio hv (by rintro ⟨⟩) (hw.consistent.1 (by rintro ⟨⟩)) _
  case release => exact ⟨true, releaseOutput_matches hv _⟩
  case pushFailed => exact ⟨true, storeDone_matches hv _ _⟩
  case getEmpty => exact ⟨true, getOutput_matches hv (by rintro ⟨⟩) _⟩
  case process =>
    refine ⟨true, ?_⟩
    simp only [sourceRoutine, Pipeline.sourceRoutine, hv.impl]
    split
    · exact invoke_matches hv _
    · exact goto_matches hv _
  case callback =>
    refine ⟨true, ?_⟩
    cases hcallback : a.callback with
    | finish =>
        simp only [sourceRoutine, Pipeline.sourceRoutine, hcallback]
        exact storeDone_matches hv _ _
    | ret r =>
        simp only [sourceRoutine, Pipeline.sourceRoutine, hcallback]
        exact returns_matches hv _ _
  case finishing => exact ⟨true, hv.keep (by rw [hv.impl])⟩
  all_goals exact ⟨true, trivial⟩

theorem stageRoutine_matches (hratio : 0 < c.shiftFillingRatio) (hv : StoresView c .stage v w)
    (hw : Sound .stage w) (a : Answer V σ) :
    ∃ ok, (stageRoutine c v a w.impl.pc).Matches (StoresView c .stage)
      (Pipeline.stageRoutine w { a with ok } w.impl.pc) := by
  have hconsistent := hw.consistent
  cases hat : w.impl.pc
  case push =>
    exact pushOutput_matches hratio hv (by rintro ⟨⟩) (hconsistent.1 (by rintro ⟨⟩)) _
  case release => exact ⟨true, releaseOutput_matches hv _⟩
  case pushFailed | timedOut => exact ⟨true, storeDone_matches hv _ _⟩
  case acquired => exact ⟨true, storeDone_matches hv _ _⟩
  case acquire => exact ⟨a.ok, acquireInput_matches hv (by rintro ⟨⟩) _ _⟩
  case getFull => exact ⟨true, getInput_matches hv (by rintro ⟨⟩) _⟩
  case emptyGet => exact ⟨true, releaseInput_matches hv⟩
  case getEmpty =>
    refine ⟨true, ?_⟩
    simp only [stageRoutine, Pipeline.stageRoutine, hv.impl]
    split
    · exact getOutput_matches hv (by rintro ⟨⟩) _
    · exact askInput_matches hv
  case process =>
    refine ⟨true, ?_⟩
    simp only [stageRoutine, Pipeline.stageRoutine, hv.impl]
    split
    · exact invoke_matches hv _
    · exact goto_matches hv _
  case callback =>
    refine ⟨true, ?_⟩
    cases hcallback : a.callback with
    | finish => simp only [stageRoutine, Pipeline.stageRoutine, hcallback, Outcome.Matches]
    | ret r =>
        simp only [stageRoutine, Pipeline.stageRoutine, hcallback]
        exact returns_matches hv _ _
  case recycle =>
    have hinput := hconsistent.2
    rw [hat] at hinput
    exact recycleInput_matches hv (by rintro ⟨⟩) (hw.room (by rintro ⟨⟩)) (hinput rfl)
  all_goals exact ⟨true, trivial⟩

theorem sinkRoutine_matches (hv : StoresView c .sink v w) (hw : Sound .sink w) (a : Answer V σ) :
    ∃ ok, (sinkRoutine c v a w.impl.pc).Matches (StoresView c .sink)
      (Pipeline.sinkRoutine w { a with ok } w.impl.pc) := by
  cases w.impl.pc
  case putBack => exact putBackInput_matches hv (by rintro ⟨⟩) (hw.room (by rintro ⟨⟩))
  case putBackFailed | timedOut | acquired => exact ⟨true, storeDone_matches hv _ _⟩
  case acquire => exact ⟨a.ok, acquireInput_matches hv (by rintro ⟨⟩) _ _⟩
  case getFull => exact ⟨true, getInput_matches hv (by rintro ⟨⟩) _⟩
  case emptyGet => exact ⟨true, releaseInput_matches hv⟩
  case process =>
    refine ⟨true, ?_⟩
    simp only [sinkRoutine, Pipeline.sinkRoutine, hv.impl]
    split
    · exact invoke_matches hv _
    · exact askInput_matches hv
  case callback =>
    refine ⟨true, ?_⟩
    cases hcallback : a.callback with
    | finish => simp only [sinkRoutine, Pipeline.sinkRoutine, hcallback, Outcome.Matches]
    | ret r =>
        simp only [sinkRoutine, Pipeline.sinkRoutine, hcallback]
        exact returns_matches hv _ _
  all_goals exact ⟨true, trivial⟩

/-- **A thread.**  A step of the code is defined, and one over channels for some
answer of the allocator. -/
theorem workerRoutine_matches (hratio : 0 < c.shiftFillingRatio) (hv : StoresView c role v w)
    (hw : ¬ w.impl.pc.Resting → Sound role w) (a : Answer V σ) :
    ∃ ok, (workerRoutine c role v a).Matches (StoresView c role)
      (Pipeline.workerRoutine role w { a with ok }) := by
  have hroutine (hrest : ¬ w.impl.pc.Resting) :
      ∃ ok, (routine c role v a w.impl.pc).Matches (StoresView c role)
        (role.routine w { a with ok } w.impl.pc) := by
    cases role with
    | source => exact sourceRoutine_matches hratio hv (hw hrest) a
    | stage => exact stageRoutine_matches hratio hv (hw hrest) a
    | sink => exact sinkRoutine_matches hv (hw hrest) a
  simp only [workerRoutine, Pipeline.workerRoutine, hv.impl]
  cases hpc : w.impl.pc <;> rw [hpc] at hroutine
  case absent | exited => exact ⟨true, trivial⟩
  case test | recheck => exact ⟨true, goto_matches hv _⟩
  case gate =>
    refine ⟨true, ?_⟩
    cases hopen : w.impl.enabled || w.impl.destroyed with
    | true => exact goto_matches hv _
    | false => trivial
  all_goals exact hroutine (by simp [Pc.Resting])

end Routines

/-! ## The system -/

/-- A state of the code and one over channels. -/
structure StoresState (c : Fifo.Config) (s : State V σ) (t : Pipeline.State V σ) : Prop where
  nStages : s.nStages = t.nStages
  impls : s.impls = t.impls
  enabled : s.enabled = t.enabled
  active : s.active = t.active
  destroying : s.destroying = t.destroying
  controller : s.controller = t.controller
  returned : s.returned = t.returned
  waiter : s.waiter = t.waiter
  pipes : ∀ u ≤ t.nStages, Stores c (s.pipes (u + 1)) (t.pipes (u + 1))

/-- What the code relies on. -/
structure SoundState (t : Pipeline.State V σ) : Prop where
  consistent : ∀ u ≤ t.nStages + 1, ¬ (t.impls u).pc.Resting → (t.impls u).Consistent (t.role u)
  shape : Shape t
  room : ∀ u ≤ t.nStages, (t.pipes (u + 1)).pool.length + (t.pipes (u + 1)).fifo.length < 2 ^ 60

/-- The same party moves; what the allocators answer may differ. -/
inductive SameParty : Label V σ → Label V σ → Prop
  | worker (u : Nat) (a : Answer V σ) (ok : Bool) :
      SameParty (.worker u a) (.worker u { a with ok })
  | call (call : Call) : SameParty (.call call) (.call call)
  | controller (allocated allocated' : Nat → Bool) :
      SameParty (.controller allocated) (.controller allocated')
  | waiter : SameParty .waiter .waiter

section System

variable {c : Fifo.Config} {s : State V σ} {t : Pipeline.State V σ}

theorem StoresState.role (hs : StoresState c s t) (u : Nat) : s.role u = t.role u := by
  simp [State.role, Pipeline.State.role, hs.nStages]

theorem StoresState.view (hs : StoresState c s t) {u : Nat} (hu : u ≤ t.nStages + 1) :
    StoresView c (t.role u) (s.view u) (t.view u) where
  impl := by rw [State.view, hs.impls]; rfl
  input := by
    intro hrole
    obtain ⟨w, rfl⟩ := Nat.exists_eq_add_one_of_ne_zero (mt Pipeline.State.role_eq_source.mpr hrole)
    exact hs.pipes w (Nat.le_of_succ_le_succ hu)
  output := fun hrole => hs.pipes u (t.le_of_role_ne_sink hrole)

theorem StoresState.putView (hs : StoresState c s t) {u : Nat} {v : View V σ}
    {w : Pipeline.View V σ} (hv : StoresView c (t.role u) v w) :
    StoresState c (s.putView u v) (t.putView u w) :=
  { hs with
    impls := by simp only [State.putView, Pipeline.State.putView, hs.impls, hv.impl]
    pipes := by
      intro k hk
      by_cases hproducer : k = u
      · subst hproducer
        simpa [State.putView] using hv.output (t.role_ne_sink hk)
      by_cases hconsumer : k + 1 = u
      · subst hconsumer
        simpa [State.putView] using
          hv.input (mt Pipeline.State.role_eq_source.mp (Nat.succ_ne_zero k))
      · rw [Pipeline.State.putView_pipes_of_ne _ _ _ hconsumer (by omega)]
        simpa [State.putView, hconsumer, show ¬ k = u from hproducer] using hs.pipes k hk }

theorem StoresState.setImpl (hs : StoresState c s t) (u : Nat) {i i' : Impl V σ} (hi : i = i') :
    StoresState c (s.setImpl u i) (t.setImpl u i') :=
  { hs with impls := by simp only [State.setImpl, Pipeline.State.setImpl, hs.impls, hi] }

theorem SoundState.view_room (ht : SoundState t) {u : Nat} (hu : u ≤ t.nStages + 1) :
    (t.role u ≠ .source → (t.view u).inputPipe.pool.length < 2 ^ 60) ∧
      (t.role u ≠ .sink → (t.view u).outputPipe.pool.length < 2 ^ 60) := by
  constructor
  · intro hrole
    obtain ⟨w, rfl⟩ := Nat.exists_eq_add_one_of_ne_zero (mt Pipeline.State.role_eq_source.mpr hrole)
    exact Nat.lt_of_le_of_lt (Nat.le_add_right _ _) (ht.room w (Nat.le_of_succ_le_succ hu))
  · intro hrole
    exact Nat.lt_of_le_of_lt (Nat.le_add_right _ _) (ht.room u (t.le_of_role_ne_sink hrole))

theorem SoundState.view (ht : SoundState t) {u : Nat} (hu : u ≤ t.nStages + 1)
    (hrest : ¬ (t.impls u).pc.Resting) : Sound (t.role u) (t.view u) :=
  ⟨ht.consistent u hu hrest, (ht.view_room hu).1⟩

theorem worker_matches (hratio : 0 < c.shiftFillingRatio) (hs : StoresState c s t)
    (ht : SoundState t) (u : Nat) (a : Answer V σ) :
    ∃ ok, (step c s (.worker u a)).Matches (StoresState c)
      (Pipeline.step t (.worker u { a with ok })) := by
  by_cases hu : u ≤ t.nStages + 1
  · obtain ⟨ok, hmatches⟩ := workerRoutine_matches hratio (hs.view hu) (ht.view hu) a
    refine ⟨ok, ?_⟩
    simp only [step, Pipeline.step, hs.nStages, hu, if_true, hs.role]
    cases hcode : workerRoutine c (t.role u) (s.view u) a <;>
      cases hchannel : Pipeline.workerRoutine (t.role u) (t.view u) { a with ok } <;>
      rw [hcode, hchannel] at hmatches
    case next.some => exact hs.putView hmatches
    all_goals exact hmatches
  · refine ⟨true, ?_⟩
    simp [step, Pipeline.step, hs.nStages, hu, Outcome.Matches]

theorem beginCall_matches (hs : StoresState c s t) (call : Call) :
    StoresState c (s.beginCall call) (t.beginCall call) := by
  obtain ⟨n, impls, pipes, enabled, active, destroying, controller, returned, waiter⟩ := s
  obtain ⟨n', impls', pipes', enabled', active', destroying', controller', returned', waiter'⟩ := t
  obtain ⟨rfl, rfl, rfl, rfl, rfl, rfl, rfl, rfl, hpipes⟩ := hs
  cases call <;> cases enabled <;> cases active <;>
    exact ⟨rfl, rfl, rfl, rfl, rfl, rfl, rfl, rfl, hpipes⟩

theorem waiterStep_matches (hs : StoresState c s t) :
    StoresState c s.waiterStep t.waiterStep := by
  obtain ⟨n, impls, pipes, enabled, active, destroying, controller, returned, waiter⟩ := s
  obtain ⟨n', impls', pipes', enabled', active', destroying', controller', returned', waiter'⟩ := t
  obtain ⟨rfl, rfl, rfl, rfl, rfl, rfl, rfl, rfl, hpipes⟩ := hs
  cases waiter <;> exact ⟨rfl, rfl, rfl, rfl, rfl, rfl, rfl, rfl, hpipes⟩

/-- Giving an input back. -/
theorem returnInput_matches {role : Role} {v : View V σ} {w : Pipeline.View V σ}
    (hv : StoresView c role v w) (hrole : role ≠ .source)
    (hroom : w.inputPipe.pool.length < 2 ^ 60) :
    ∃ ok v', v.returnInput = some v' ∧ StoresView c role v' (w.returnInput ok) := by
  obtain ⟨i, vin, vout⟩ := v
  obtain ⟨i', win, wout⟩ := w
  obtain ⟨rfl, hin, hout⟩ := hv
  unfold View.returnInput Pipeline.View.returnInput
  cases hbuf : i.input with
  | none => exact ⟨true, ⟨i, vin, vout⟩, by simp, rfl, hin, hout⟩
  | some buf =>
      obtain ⟨ok, pipe, hrun, hpipe⟩ := (hin hrole).putBack hroom buf
      exact ⟨ok, ⟨{ i with input := none }, vin.onPipe pipe, vout⟩, by simp [hrun], rfl,
        fun _ => hpipe, hout⟩

/-- Giving an output back. -/
theorem returnOutput_matches {role : Role} {v : View V σ} {w : Pipeline.View V σ}
    (hv : StoresView c role v w) (hrole : role ≠ .sink)
    (hroom : w.outputPipe.pool.length < 2 ^ 60) :
    ∃ ok v', v.returnOutput = some v' ∧ StoresView c role v' (w.returnOutput ok) := by
  obtain ⟨i, vin, vout⟩ := v
  obtain ⟨i', win, wout⟩ := w
  obtain ⟨rfl, hin, hout⟩ := hv
  unfold View.returnOutput Pipeline.View.returnOutput
  cases hbuf : i.output with
  | none => exact ⟨true, ⟨i, vin, vout⟩, by simp, rfl, hin, hout⟩
  | some buf =>
      obtain ⟨ok, pipe, hrun, hpipe⟩ := (hout hrole).putBack hroom buf
      exact ⟨ok, ⟨{ i with output := none }, vin, vout.onPipe pipe⟩, by simp [hrun], rfl,
        hin, fun _ => hpipe⟩

theorem returnBuffers_matches {role : Role} {v : View V σ} {w : Pipeline.View V σ}
    (hv : StoresView c role v w)
    (hinput : role ≠ .source → w.inputPipe.pool.length < 2 ^ 60)
    (houtput : role ≠ .sink → w.outputPipe.pool.length < 2 ^ 60) :
    ∃ allocated v', returnBuffers role v = some v' ∧
      StoresView c role v' (role.returnBuffers allocated w) := by
  cases role with
  | source =>
      obtain ⟨ok, v', hrun, hv'⟩ := returnOutput_matches hv (by rintro ⟨⟩) (houtput (by rintro ⟨⟩))
      exact ⟨fun _ => ok, v', hrun, hv'⟩
  | sink =>
      obtain ⟨ok, v', hrun, hv'⟩ := returnInput_matches hv (by rintro ⟨⟩) (hinput (by rintro ⟨⟩))
      exact ⟨fun _ => ok, v', hrun, hv'⟩
  | stage =>
      obtain ⟨ok, v₁, hrun, hv₁⟩ := returnInput_matches hv (by rintro ⟨⟩) (hinput (by rintro ⟨⟩))
      have hkeep : (w.returnInput ok).outputPipe = w.outputPipe := by
        unfold Pipeline.View.returnInput
        split <;> rfl
      obtain ⟨ok', v₂, hrun', hv₂⟩ := returnOutput_matches hv₁ (by rintro ⟨⟩)
        (hkeep ▸ houtput (by rintro ⟨⟩))
      refine ⟨fun i => if i = 0 then ok else ok', v₂, ?_, by simpa [Role.returnBuffers] using hv₂⟩
      simp [returnBuffers, hrun, hrun']

/-- **A call.** -/
theorem controllerStep_matches (hs : StoresState c s t) (ht : SoundState t) :
    ∃ allocated, (s.controllerStep c).Matches (StoresState c) (t.controllerStep allocated) := by
  have hshape := ht.shape
  have hrole := hs.role
  have hview (u : Nat) (hu : u ≤ t.nStages + 1) := hs.view hu
  have hputView (u : Nat) (v : View V σ) (w : Pipeline.View V σ)
      (hv : StoresView c (t.role u) v w) := hs.putView hv
  obtain ⟨n, impls, pipes, enabled, active, destroying, controller, returned, waiter⟩ := s
  obtain ⟨n', impls', pipes', enabled', active', destroying', controller', returned', waiter'⟩ := t
  obtain ⟨rfl, rfl, rfl, rfl, rfl, rfl, rfl, rfl, hpipes⟩ := hs
  simp only [State.controllerStep, Pipeline.State.controllerStep]
  cases controller
  case idle => exact ⟨fun _ => true, trivial⟩
  case clearing left =>
    cases left with
    | zero => exact ⟨fun _ => true, rfl, rfl, rfl, rfl, rfl, rfl, rfl, rfl, hpipes⟩
    | succ left =>
        have hle : left ≤ n := Nat.le_of_succ_le_succ hshape.2.1
        obtain ⟨allocated, pipe, hrun, hpipe⟩ := (hpipes left hle).refines.clear (ht.room left hle)
        refine ⟨allocated, ?_⟩
        simp only [hrun, Option.map_some, Outcome.ofOption]
        refine ⟨rfl, rfl, rfl, rfl, rfl, rfl, rfl, rfl, fun k hk => ?_⟩
        by_cases hne : k = left
        · subst hne
          simpa [State.setPipe] using
            ⟨hpipe, (hpipes k hle).memory.trans (Channel.clear_memory _ _).symm⟩
        · simpa [State.setPipe, hne] using hpipes k hk
  case returning left =>
    cases left with
    | zero => exact ⟨fun _ => true, rfl, rfl, rfl, rfl, rfl, rfl, rfl, rfl, hpipes⟩
    | succ left =>
        have hle : left ≤ n + 1 := Nat.le_of_succ_le_succ hshape.2.1
        obtain ⟨allocated, v, hrun, hv⟩ := returnBuffers_matches (hview left hle)
          (ht.view_room hle).1 (ht.view_room hle).2
        refine ⟨allocated, ?_⟩
        have hstep := hputView left v _ hv
        simp only [hrun, hrole, Option.map_some, Outcome.ofOption]
        exact { hstep with controller := rfl }
  case enabling left | starting left =>
    cases left <;>
      exact ⟨fun _ => true, rfl, rfl, rfl, rfl, rfl, rfl, rfl, rfl, hpipes⟩
  case joining u =>
    refine ⟨fun _ => true, ?_⟩
    simp only
    split
    · split
      · exact ⟨rfl, rfl, rfl, rfl, rfl, rfl, rfl, rfl, hpipes⟩
      · trivial
    · exact ⟨rfl, rfl, rfl, rfl, rfl, rfl, rfl, rfl, hpipes⟩
  case stopping u | destroying u | marking u =>
    refine ⟨fun _ => true, ?_⟩
    simp only
    split <;> exact ⟨rfl, rfl, rfl, rfl, rfl, rfl, rfl, rfl, hpipes⟩
  all_goals exact ⟨fun _ => true, rfl, rfl, rfl, rfl, rfl, rfl, rfl, rfl, hpipes⟩

/-- **One step.**  It is defined, and one over channels. -/
theorem step_matches (hratio : 0 < c.shiftFillingRatio) (hs : StoresState c s t)
    (ht : SoundState t) (l : Label V σ) :
    ∃ l', SameParty l l' ∧ (step c s l).Matches (StoresState c) (Pipeline.step t l') := by
  cases l with
  | worker u a =>
      obtain ⟨ok, hmatches⟩ := worker_matches hratio hs ht u a
      exact ⟨_, .worker u a ok, hmatches⟩
  | call call =>
      refine ⟨_, .call call, ?_⟩
      simp only [step, Pipeline.step, hs.controller]
      split
      · exact beginCall_matches hs call
      · trivial
  | controller allocated =>
      obtain ⟨allocated', hmatches⟩ := controllerStep_matches hs ht
      exact ⟨_, .controller allocated allocated', hmatches⟩
  | waiter => exact ⟨_, .waiter, waiterStep_matches hs⟩

end System

/-! ## Whole runs -/

/-- A pipe that has been sized stores a channel as the user supplies it. -/
theorem Sized.exists_channel {c : Fifo.Config} {p : Conduit V} (hp : Sized c p) :
    ∃ ch : Channel V, Filled ch ∧ ch.fifo = [] ∧ ch.semaphore = 0 ∧ ch.pool.length < 2 ^ 60 ∧
      Stores c p ch := by
  obtain ⟨junk, sized, n, fresh, bufs, hinit, hresize, hdistinct, hlength, hsmall, hpipe⟩ :=
    hp.exists_fill
  refine
    ⟨{ pool := bufs, fifo := [], capacity := n.toNat, semaphore := 0, totalBuffers := n.toNat
       memory := p.memory },
      ⟨hdistinct, hlength, Nat.le_of_eq hlength⟩, rfl, rfl, hlength ▸ hsmall, ?_, rfl⟩
  rw [hpipe]
  exact sized_refines hinit (Nat.le_of_lt hsmall) hresize bufs hlength p.memory

/-- The channels of a fresh pipeline. -/
theorem Created.exists_channels {c : Fifo.Config} {s : State V σ} (hs : Created c s) :
    ∃ t : Pipeline.State V σ, Pipeline.Created t ∧ StoresState c s t ∧
      (∀ u ≤ t.nStages, Filled (t.pipes (u + 1))) ∧
      ∀ u ≤ t.nStages, (t.pipes (u + 1)).pool.length < 2 ^ 60 := by
  have hchannel (u : Nat) : ∃ ch : Channel V, ch.fifo = [] ∧ ch.semaphore = 0 ∧
      (u ≤ s.nStages → Filled ch ∧ ch.pool.length < 2 ^ 60 ∧ Stores c (s.pipes (u + 1)) ch) := by
    by_cases hu : u ≤ s.nStages
    · obtain ⟨ch, hfilled, hfifo, hsemaphore, hsmall, hstores⟩ := (hs.pipes u hu).exists_channel
      exact ⟨ch, hfifo, hsemaphore, fun _ => ⟨hfilled, hsmall, hstores⟩⟩
    · exact ⟨⟨[], [], 0, 0, 0, (s.pipes 0).memory⟩, rfl, rfl, fun h => absurd h hu⟩
  choose channels hfifo hsemaphore hchannels using hchannel
  refine
    ⟨{ nStages := s.nStages, impls := s.impls, pipes := fun k => channels (k - 1)
       enabled := s.enabled, active := s.active, destroying := s.destroying
       controller := s.controller, returned := s.returned, waiter := s.waiter },
      ⟨hs.enabled, hs.active, hs.destroying, hs.controller, hs.returned, hs.waiter, hs.pc,
        hs.workerEnabled, hs.workerDestroyed, hs.initialized, fun k => hfifo _,
        fun k => hsemaphore _⟩,
      ⟨rfl, rfl, rfl, rfl, rfl, rfl, rfl, rfl, fun u hu => (hchannels u hu).2.2⟩,
      fun u hu => (hchannels u hu).1, fun u hu => (hchannels u hu).2.1⟩

/-- The invariant over channels is what the code relies on. -/
theorem soundState_of_ownInv {t₀ t : Pipeline.State V σ} (ht : OwnInv t₀ t)
    (hsmall : ∀ u ≤ t₀.nStages, (t₀.pipes (u + 1)).pool.length < 2 ^ 60) : SoundState t where
  consistent := ht.consistent
  shape := ht.shape
  room := by
    intro u hu
    have hlength := ht.length hu
    have := hsmall u (ht.nStages ▸ hu)
    omega

/-- A defined step of the code is a step. -/
theorem Outcome.Matches.of_toOption {R : α → β → Prop} {o : Outcome α} {b : Option β}
    (h : o.Matches R b) {a : α} (ha : o.toOption = some a) : ∃ b', b = some b' ∧ R a b' := by
  cases o <;> cases ha
  cases b with
  | none => exact h.elim
  | some b' => exact ⟨b', rfl, h⟩

theorem Outcome.Matches.defined {R : α → β → Prop} {o : Outcome α} {b : Option β}
    (h : o.Matches R b) : o ≠ .undefined := by
  rintro rfl
  cases b <;> exact h

/-- The steps of the code. -/
def next (c : Fifo.Config) (s : State V σ) (l : Label V σ) : Option (State V σ) :=
  (step c s l).toOption

/-- **The code refines the channels.**  Take any run of a pipeline over the pipes of
`src/pipe.c`, with any allocations failing.  No step that is due leaves the memory
the program owns, the assertions of `src/pipe.c` hold, and the same parties make a
run over channels to a state that the pipes store. -/
theorem code_refines_channels {c : Fifo.Config} (hratio : 0 < c.shiftFillingRatio)
    {s₀ s : State V σ} {ls : List (Label V σ)} (hs₀ : Created c s₀)
    (hrun : run (next c) s₀ ls = some s) :
    (∀ l, step c s l ≠ .undefined) ∧
      (∀ u ≤ s.nStages, (s.pipes (u + 1)).checkInvariants = true) ∧
      ∃ t₀ t ls', Pipeline.Created t₀ ∧ (∀ u ≤ t₀.nStages, Filled (t₀.pipes (u + 1))) ∧
        StoresState c s₀ t₀ ∧ List.Forall₂ SameParty ls ls' ∧
        run Pipeline.step t₀ ls' = some t ∧ StoresState c s t := by
  obtain ⟨t₀, ht₀, hstores₀, hfilled, hsmall⟩ := hs₀.exists_channels
  have hstep (s : State V σ) (t : Pipeline.State V σ) (l : Label V σ) (s' : State V σ)
      (hst : StoresState c s t ∧ OwnInv t₀ t) (hnext : next c s l = some s') :
      ∃ l' t', SameParty l l' ∧ Pipeline.step t l' = some t' ∧
        StoresState c s' t' ∧ OwnInv t₀ t' := by
    obtain ⟨l', hsame, hmatches⟩ :=
      step_matches hratio hst.1 (soundState_of_ownInv hst.2 hsmall) l
    obtain ⟨t', ht', hstores⟩ := hmatches.of_toOption hnext
    exact ⟨l', t', hsame, ht', hstores, step_ownInv hst.2 hfilled ht'⟩
  obtain ⟨ls', t, hsame, hrun', hstores, hown⟩ :=
    run_forward hstep ⟨hstores₀, ht₀.ownInv⟩ hrun
  refine ⟨fun l => ?_, fun u hu => ?_, t₀, t, ls', ht₀, hfilled, hstores₀, hsame, hrun', hstores⟩
  · obtain ⟨l', _, hmatches⟩ := step_matches hratio hstores (soundState_of_ownInv hown hsmall) l
    exact hmatches.defined
  · have hle : u ≤ t.nStages := hstores.nStages ▸ hu
    rw [(hstores.pipes u hle).refines.checkInvariants]
    exact hown.checkInvariants hfilled hle

/-! ## The smallest pipeline -/

/-- Blocks of one cell. -/
def smallBlocks : Fifo.Config := ⟨1, 1 / 3, Nat.one_pos, by norm_num, by norm_num⟩

/-- The memory a pipe is built in; the fifth allocation, the second block, is going
to fail. -/
def unsetPipe : Pipe where
  totalBuffers := 0
  pool := ⟨fun _ => none, 0, 0, false⟩
  fifo := ⟨⟨fun _ => 0, 0, 0⟩, 0, 0⟩
  semaphore := 0
  heap := ⟨fun _ _ => none, fun _ => 0, 0, 0, fun k => k == 4⟩

def freshPipe : Pipe := (Pipe.init smallBlocks unsetPipe).get (by rfl)

/-- The same pipe after a resize to two buffers. -/
def sizedPipe : Pipe := ((freshPipe.resize smallBlocks 2).get (by rfl)).2

/-- A fresh pipeline without internal stages. -/
def smallest : State Unit Unit where
  nStages := 0
  impls := Pipeline.smallest.impls
  pipes := fun _ =>
    ⟨{ sizedPipe with pool := { sizedPipe.pool with buffers := fun i => [1, 2][i]? } },
      fun _ => ()⟩
  enabled := false
  active := false
  destroying := false
  controller := .idle
  returned := []
  waiter := .outside

theorem smallest_created : Created smallBlocks smallest := by
  have hsized (u : Nat) : Sized smallBlocks (smallest.pipes u) := by
    exact ⟨unsetPipe, sizedPipe, 2, freshPipe, [1, 2], rfl, rfl, by decide, rfl, by decide, rfl⟩
  constructor <;> intros <;> first | rfl | exact hsized _

/-- The source pushes a buffer and fails to push the other one; the sink takes the
first, and the source tries again. -/
def pushedAgain : List (Label Unit Unit) :=
  enableAndStart ++ threadSteps 0 19 true true false ++ threadSteps 1 12 true false true ++
    threadSteps 0 12 true true false

theorem code_refines_channels_pushedAgain :
    let s := (run (next smallBlocks) smallest pushedAgain).get (by decide +kernel)
    (∀ l, step smallBlocks s l ≠ .undefined) ∧
      ∀ u ≤ s.nStages, (s.pipes (u + 1)).checkInvariants = true :=
  have h := code_refines_channels (c := smallBlocks) (by decide +kernel) smallest_created
    (s := (run (next smallBlocks) smallest pushedAgain).get (by decide +kernel))
    (Option.some_get _).symm
  ⟨h.1, h.2.1⟩

end Mtdp.Pipeline.Concrete
