import Mtdp.Pipeline.Control

/-!
# What a thread or a call can do in one step

The routines of the source, the stages and the sink, turned inside out: a
step of a thread is one of the `Move`s below, each with the condition it is
made under and the view it leads to.  A step of a call is one of the
`ControllerMove`s.  The invariants of the pipeline are proved move by move.
-/

namespace Mtdp.Pipeline

variable {V σ : Type}

namespace Role

/-- Where the routine goes on once nothing is left to be pushed. -/
def afterPush : Role → Pc
  | .source => .getEmpty
  | _ => .acquire

/-- Where the routine goes on once it has its input. -/
def afterPull : Role → Pc
  | .sink => .process
  | _ => .getEmpty

/-- Where the routine goes on after the `process` callback. -/
def afterCallback : Role → Pc
  | .stage => .recycle
  | _ => .test

/-- The part of a callback's result that the unit has a field for. -/
def keep (r : Return V σ) : Role → Return V σ
  | .source => { r with readyToPull := false }
  | .stage => r
  | .sink => { r with write := none, readyToPush := false }

end Role

/-- The steps that change the program point only. -/
inductive Goto (role : Role) (a : Answer V σ) (v : View V σ) : Pc → Prop
  | leave : v.impl.pc = .test ∨ v.impl.pc = .recheck → v.impl.destroyed = true →
      Goto role a v .exited
  | toGate : v.impl.pc = .test → v.impl.destroyed = false → Goto role a v .gate
  | wake : v.impl.pc = .gate → v.impl.enabled = true ∨ v.impl.destroyed = true →
      Goto role a v .recheck
  | enter : v.impl.pc = .recheck → v.impl.destroyed = false → Goto role a v role.entry
  | pushRefused {buf : Nat} : role ≠ .sink → v.impl.pc = .push → v.impl.readyToPush = true →
      v.impl.output = some buf → a.ok = false → Goto role a v .pushFailed
  | skipPush : role ≠ .sink → v.impl.pc = .push → v.impl.readyToPush = false →
      Goto role a v role.afterPush
  | putBackRefused {buf : Nat} : role = .sink → v.impl.pc = .putBack →
      v.impl.readyToPull = true → v.impl.input = some buf →
      v.inputPipe.capacity ≤ v.inputPipe.pool.length → Goto role a v .putBackFailed
  | nothingToPutBack : role = .sink → v.impl.pc = .putBack → v.impl.readyToPull = true →
      v.impl.input = none → Goto role a v .acquire
  | notReadyToPull : role = .sink → v.impl.pc = .putBack → v.impl.readyToPull = false →
      Goto role a v .process
  | timeout : role ≠ .source → v.impl.pc = .acquire → v.impl.readyToPull = true →
      a.ok = false → Goto role a v .timedOut
  | skipPull : role ≠ .source → v.impl.pc = .acquire → v.impl.readyToPull = false →
      Goto role a v role.afterPull
  | hasOutput : role ≠ .sink → v.impl.pc = .getEmpty →
      (role = .stage → v.impl.input.isSome) → v.impl.output.isSome → Goto role a v .process
  | starve : role ≠ .sink → v.impl.pc = .process → v.impl.output = none → Goto role a v .test
  | keepInput : role = .stage → v.impl.pc = .recycle → v.impl.readyToPull = false →
      Goto role a v .test

/-- The steps of a thread. -/
inductive Move (role : Role) (a : Answer V σ) (v : View V σ) : View V σ → Prop
  | goto {pc : Pc} : Goto role a v pc → Move role a v (v.goto pc)
  | pushed {buf : Nat} : role ≠ .sink → v.impl.pc = .push → v.impl.readyToPush = true →
      v.impl.output = some buf → a.ok = true →
      Move role a v
        ⟨{ v.impl with pc := .release }, v.inputPipe, v.outputPipe.pushBuffer true buf⟩
  | released : role ≠ .sink → v.impl.pc = .release →
      Move role a v (v.releaseOutput role.afterPush)
  | flagged : v.impl.pc = .pushFailed ∨ v.impl.pc = .putBackFailed ∨ v.impl.pc = .timedOut →
      Move role a v (v.storeDone true .test)
  | acquired : role ≠ .source → v.impl.pc = .acquire → v.impl.readyToPull = true →
      0 < v.inputPipe.semaphore →
      Move role a v ⟨{ v.impl with pc := .acquired }, v.inputPipe.acquire, v.outputPipe⟩
  | unflagged : role ≠ .source → v.impl.pc = .acquired →
      Move role a v (v.storeDone false .getFull)
  | gotFull {buf : Nat} {bufs : List Nat} : role ≠ .source → v.impl.pc = .getFull →
      v.inputPipe.fifo = buf :: bufs →
      Move role a v
        ⟨{ v.impl with input := some buf, readyToPull := false, pc := role.afterPull },
          { v.inputPipe with fifo := bufs }, v.outputPipe⟩
  | gotNone : role ≠ .source → v.impl.pc = .getFull → v.inputPipe.fifo = [] →
      Move role a v ⟨{ v.impl with input := none, pc := .emptyGet }, v.inputPipe, v.outputPipe⟩
  | compensated : role ≠ .source → v.impl.pc = .emptyGet → Move role a v v.releaseInput
  | asked : (role = .stage ∧ v.impl.pc = .getEmpty) ∨ (role = .sink ∧ v.impl.pc = .process) →
      v.impl.input = none → Move role a v v.askInput
  | gotOutput {buf : Nat} {bufs : List Nat} : role ≠ .sink → v.impl.pc = .getEmpty →
      (role = .stage → v.impl.input.isSome) → v.impl.output = none →
      v.outputPipe.pool = bufs ++ [buf] →
      Move role a v
        ⟨{ v.impl with output := some buf, written := none, pc := .process }, v.inputPipe,
          { v.outputPipe with pool := bufs }⟩
  | noOutput : role ≠ .sink → v.impl.pc = .getEmpty →
      (role = .stage → v.impl.input.isSome) → v.impl.output = none → v.outputPipe.pool = [] →
      Move role a v ⟨{ v.impl with written := none, pc := .process }, v.inputPipe, v.outputPipe⟩
  | invoked : v.impl.pc = .process → (role ≠ .sink → v.impl.output.isSome) →
      (role = .sink → v.impl.input.isSome) → Move role a v (v.invoke a.init)
  | finishing : role = .source → v.impl.pc = .callback → a.callback = .finish →
      Move role a v (v.storeDone true .finishing)
  | finished : role = .source → v.impl.pc = .finishing →
      Move role a v ⟨{ v.impl with destroyed := true, pc := .callback }, v.inputPipe, v.outputPipe⟩
  | returned {r : Return V σ} : v.impl.pc = .callback → a.callback = .ret r →
      Move role a v (v.returns (role.keep r) role.afterCallback)
  | recycled {buf : Nat} : role = .stage → v.impl.pc = .recycle → v.impl.readyToPull = true →
      v.impl.input = some buf →
      Move role a v
        ⟨{ v.impl with input := none, pc := .test }, (v.inputPipe.putBack a.ok buf).2, v.outputPipe⟩
  | putBack {buf : Nat} : role = .sink → v.impl.pc = .putBack → v.impl.readyToPull = true →
      v.impl.input = some buf → (v.inputPipe.putBack a.ok buf).1 = true →
      Move role a v
        ⟨{ v.impl with input := none, pc := .acquire }, (v.inputPipe.putBack a.ok buf).2,
          v.outputPipe⟩

section Blocks

variable (role : Role) {a : Answer V σ} {v v' : View V σ}

theorem pushOutput_move (hrole : role ≠ .sink) (hpc : v.impl.pc = .push)
    (hrun : v.pushOutput a.ok role.afterPush = some v') : Move role a v v' := by
  unfold View.pushOutput at hrun
  split at hrun
  · rename_i hready
    obtain ⟨buf, hbuf, rfl⟩ := Option.map_eq_some_iff.mp hrun
    cases hok : a.ok with
    | true => exact .pushed hrole hpc hready hbuf hok
    | false => exact .goto (.pushRefused hrole hpc hready hbuf hok)
  · rename_i hready
    cases hrun
    exact .goto (.skipPush hrole hpc (Bool.eq_false_iff.mpr hready))

theorem acquireInput_move (hrole : role ≠ .source) (hpc : v.impl.pc = .acquire)
    (hrun : v.acquireInput a.ok role.afterPull = some v') : Move role a v v' := by
  unfold View.acquireInput at hrun
  split at hrun
  · rename_i hready
    cases hok : a.ok with
    | true =>
        rw [hok, if_pos rfl] at hrun
        split at hrun <;> cases hrun
        exact .acquired hrole hpc hready ‹_›
    | false =>
        rw [hok, if_neg Bool.false_ne_true] at hrun
        cases hrun
        exact .goto (.timeout hrole hpc hready hok)
  · rename_i hready
    cases hrun
    exact .goto (.skipPull hrole hpc (Bool.eq_false_iff.mpr hready))

theorem getInput_move (hrole : role ≠ .source) (hpc : v.impl.pc = .getFull) :
    Move role a v (v.getInput role.afterPull) := by
  unfold View.getInput
  cases hfifo : v.inputPipe.fifo with
  | nil =>
      rw [Channel.getFullBuffer_of_nil hfifo]
      exact .gotNone hrole hpc hfifo
  | cons buf bufs =>
      simp only [Channel.getFullBuffer, hfifo, List.head?_cons, List.tail_cons]
      exact .gotFull hrole hpc hfifo

theorem getOutput_move (hrole : role ≠ .sink) (hpc : v.impl.pc = .getEmpty)
    (hinput : role = .stage → v.impl.input.isSome) : Move role a v (v.getOutput .process) := by
  unfold View.getOutput
  cases houtput : v.impl.output with
  | some buf => exact .goto (.hasOutput hrole hpc hinput (by simp [houtput]))
  | none =>
      rcases List.eq_nil_or_concat v.outputPipe.pool with hnil | ⟨bufs, buf, hcons⟩
      · have hmove : Move role a v _ := .noOutput hrole hpc hinput houtput hnil
        simpa [Channel.getEmptyBuffer_of_nil hnil, houtput] using hmove
      · rw [List.concat_eq_append] at hcons
        have hmove : Move role a v _ := .gotOutput hrole hpc hinput houtput hcons
        simpa [Channel.getEmptyBuffer, hcons] using hmove

theorem recycleInput_move (hrole : role = .stage) (hpc : v.impl.pc = .recycle)
    (hrun : v.recycleInput a.ok = some v') : Move role a v v' := by
  unfold View.recycleInput at hrun
  split at hrun
  · rename_i hready
    obtain ⟨buf, hbuf, rfl⟩ := Option.map_eq_some_iff.mp hrun
    exact .recycled hrole hpc hready hbuf
  · rename_i hready
    cases hrun
    exact .goto (.keepInput hrole hpc (Bool.eq_false_iff.mpr hready))

theorem putBackInput_move (hrole : role = .sink) (hpc : v.impl.pc = .putBack) :
    Move role a v (v.putBackInput a.ok) := by
  unfold View.putBackInput
  split
  · rename_i hready
    cases hinput : v.impl.input with
    | none => exact .goto (.nothingToPutBack hrole hpc hready hinput)
    | some buf =>
        rcases hput : v.inputPipe.putBack a.ok buf with ⟨_ | _, inputPipe⟩
        · obtain ⟨hfull, rfl⟩ := Channel.of_putBack_refused hput
          simp only [hput]
          exact .goto (.putBackRefused hrole hpc hready hinput hfull)
        · have hmove := Move.putBack hrole hpc hready hinput
            (show (v.inputPipe.putBack a.ok buf).1 = true by rw [hput])
          simpa only [hput] using hmove
  · rename_i hready
    exact .goto (.notReadyToPull hrole hpc (Bool.eq_false_iff.mpr hready))

end Blocks

theorem sourceRoutine_move {a : Answer V σ} {v v' : View V σ}
    (hrun : sourceRoutine v a v.impl.pc = some v') : Move .source a v v' := by
  unfold sourceRoutine at hrun
  split at hrun
  · exact pushOutput_move .source (by decide) ‹_› hrun
  · cases hrun
    exact .released (by decide) ‹_›
  · cases hrun
    exact .flagged (.inl ‹_›)
  · cases hrun
    exact getOutput_move .source (by decide) ‹_› nofun
  · split at hrun
    · cases hrun
      exact .invoked ‹_› (fun _ => ‹_›) nofun
    · rename_i houtput
      cases hrun
      exact .goto (.starve (by decide) ‹_› (by simpa using houtput))
  · split at hrun
    · cases hrun
      exact .finishing rfl ‹_› ‹_›
    · cases hrun
      exact .returned ‹_› ‹_›
  · cases hrun
    exact .finished rfl ‹_›
  · cases hrun

theorem stageRoutine_move {a : Answer V σ} {v v' : View V σ}
    (hrun : stageRoutine v a v.impl.pc = some v') : Move .stage a v v' := by
  unfold stageRoutine at hrun
  split at hrun
  · exact pushOutput_move .stage (by decide) ‹_› hrun
  · cases hrun
    exact .released (by decide) ‹_›
  · cases hrun
    exact .flagged (.inl ‹_›)
  · exact acquireInput_move .stage (by decide) ‹_› hrun
  · cases hrun
    exact .flagged (.inr (.inr ‹_›))
  · cases hrun
    exact .unflagged (by decide) ‹_›
  · cases hrun
    exact getInput_move .stage (by decide) ‹_›
  · cases hrun
    exact .compensated (by decide) ‹_›
  · split at hrun
    · cases hrun
      exact getOutput_move .stage (by decide) ‹_› (fun _ => ‹_›)
    · rename_i hinput
      cases hrun
      exact .asked (.inl ⟨rfl, ‹_›⟩) (by simpa using hinput)
  · split at hrun
    · cases hrun
      exact .invoked ‹_› (fun _ => ‹_›) nofun
    · rename_i houtput
      cases hrun
      exact .goto (.starve (by decide) ‹_› (by simpa using houtput))
  · split at hrun
    · cases hrun
    · cases hrun
      exact .returned ‹_› ‹_›
  · exact recycleInput_move .stage rfl ‹_› hrun
  · cases hrun

theorem sinkRoutine_move {a : Answer V σ} {v v' : View V σ}
    (hrun : sinkRoutine v a v.impl.pc = some v') : Move .sink a v v' := by
  unfold sinkRoutine at hrun
  split at hrun
  · cases hrun
    exact putBackInput_move .sink rfl ‹_›
  · cases hrun
    exact .flagged (.inr (.inl ‹_›))
  · exact acquireInput_move .sink (by decide) ‹_› hrun
  · cases hrun
    exact .flagged (.inr (.inr ‹_›))
  · cases hrun
    exact .unflagged (by decide) ‹_›
  · cases hrun
    exact getInput_move .sink (by decide) ‹_›
  · cases hrun
    exact .compensated (by decide) ‹_›
  · split at hrun
    · cases hrun
      exact .invoked ‹_› (fun h => absurd rfl h) (fun _ => ‹_›)
    · rename_i hinput
      cases hrun
      exact .asked (.inr ⟨rfl, ‹_›⟩) (by simpa using hinput)
  · split at hrun
    · cases hrun
    · cases hrun
      exact .returned ‹_› ‹_›
  · cases hrun

/-- Every step of a worker thread is a move. -/
theorem workerRoutine_move {role : Role} {a : Answer V σ} {v v' : View V σ}
    (hrun : workerRoutine role v a = some v') : Move role a v v' := by
  unfold workerRoutine at hrun
  split at hrun
  · cases hrun
  · cases hrun
  · rename_i hpc
    cases hrun
    cases hdestroyed : v.impl.destroyed with
    | true => exact .goto (.leave (.inl hpc) hdestroyed)
    | false => exact .goto (.toGate hpc hdestroyed)
  · rename_i hpc
    split at hrun <;> cases hrun
    rename_i hflags
    exact .goto (.wake hpc (by simpa using hflags))
  · rename_i hpc
    cases hrun
    cases hdestroyed : v.impl.destroyed with
    | true => exact .goto (.leave (.inr hpc) hdestroyed)
    | false => exact .goto (.enter hpc hdestroyed)
  · cases role with
    | source => exact sourceRoutine_move hrun
    | stage => exact stageRoutine_move hrun
    | sink => exact sinkRoutine_move hrun

/-! ## Flags -/

/-- A thread never touches `worker.enabled`. -/
theorem Move.enabled_eq {role : Role} {a : Answer V σ} {v v' : View V σ}
    (hmove : Move role a v v') : v'.impl.enabled = v.impl.enabled := by
  cases hmove <;> rfl

/-- The only thread to set `worker.destroyed` is that of a finishing source. -/
theorem Move.destroyed_cases {role : Role} {a : Answer V σ} {v v' : View V σ}
    (hmove : Move role a v v') : v'.impl.destroyed = v.impl.destroyed ∨
      (role = .source ∧ v.impl.pc = .finishing ∧ v'.impl.destroyed = true) := by
  cases hmove
  case finished hrole hpc => exact .inr ⟨hrole, hpc, rfl⟩
  all_goals exact .inl rfl

/-- A thread stores its flag after a failure, in `mtdp_source_finished`, and
after a successful acquire. -/
theorem Move.done_cases {role : Role} {a : Answer V σ} {v v' : View V σ}
    (hmove : Move role a v v') :
    (v.impl.pc ≠ .acquired ∧ v'.impl.done = v.impl.done) ∨
      ((v.impl.pc = .pushFailed ∨ v.impl.pc = .putBackFailed ∨ v.impl.pc = .timedOut ∨
        (role = .source ∧ v.impl.pc = .callback)) ∧ v'.impl.done = true) ∨
      (role ≠ .source ∧ v.impl.pc = .acquired ∧ v' = v.storeDone false .getFull) := by
  cases hmove
  case goto hgoto =>
    refine .inl ⟨?_, rfl⟩
    cases hgoto
    case leave h _ => rcases h with h | h <;> simp [h]
    all_goals simp [*]
  case flagged h =>
    refine .inr (.inl ⟨?_, rfl⟩)
    rcases h with h | h | h <;> simp [h]
  case unflagged hrole hpc => exact .inr (.inr ⟨hrole, hpc, rfl⟩)
  case finishing hrole hpc _ => exact .inr (.inl ⟨.inr (.inr (.inr ⟨hrole, hpc⟩)), rfl⟩)
  case asked h _ => exact .inl ⟨by rcases h with ⟨_, h⟩ | ⟨_, h⟩ <;> simp [h], rfl⟩
  all_goals exact .inl ⟨by simp [*], rfl⟩

/-! ## The controller -/

/-- A call is turned down at once, or its first step is due. -/
theorem State.beginCall_cases (s : State V σ) (c : Call) :
    (∃ e, e ≠ .ok ∧ (c = .enable → s.enabled = true) ∧ s.beginCall c = s.report c e) ∨
      (c = .enable ∧ s.enabled = false ∧
        s.beginCall c = { s with controller := .enabling (s.nStages + 2) }) ∨
      (c = .start ∧ s.enabled = true ∧ s.active = false ∧
        s.beginCall c = { s with controller := .starting (s.nStages + 2) }) ∨
      (c = .stop ∧ s.enabled = true ∧ s.active = true ∧
        s.beginCall c = { s with controller := .stopping 0 }) ∨
      (c = .disable ∧ s.enabled = true ∧ s.beginCall c = { s with controller := .disabling }) := by
  cases c <;> cases henabled : s.enabled <;> cases hactive : s.active <;>
    simp [State.beginCall, henabled, hactive]
  all_goals exact ⟨_, by decide, rfl⟩

/-- The steps of a call. -/
inductive ControllerMove (s : State V σ) (allocated : Nat → Bool) : State V σ → Prop
  | create {left : Nat} : s.controller = .enabling (left + 1) → ControllerMove s allocated
      { s.setImpl left ((s.role left).createThread (s.impls left)) with
        controller := .enabling left }
  | enabled : s.controller = .enabling 0 → ControllerMove s allocated
      ({ s with enabled := true, active := false }.report .enable .ok)
  | start {left : Nat} : s.controller = .starting (left + 1) → ControllerMove s allocated
      { s.setImpl left (workerEnable (s.impls left)) with controller := .starting left }
  | started : s.controller = .starting 0 → ControllerMove s allocated
      ({ s with active := true }.report .start .ok)
  | stop {u : Nat} : u ≤ s.nStages + 1 → s.controller = .stopping u → ControllerMove s allocated
      { s.setImpl u (workerDisable (s.impls u)) with controller := .stopping (u + 1) }
  | stopped {u : Nat} : ¬ u ≤ s.nStages + 1 → s.controller = .stopping u →
      ControllerMove s allocated ({ s with active := false }.report .stop .ok)
  | disabling : s.controller = .disabling → ControllerMove s allocated
      { s with destroying := true, controller := .destroying 0 }
  | destroyFirst {u : Nat} : u ≤ s.nStages + 1 → s.controller = .destroying u →
      ControllerMove s allocated
        { s.setImpl u ((s.role u).destroyFirst (s.impls u)) with controller := .destroyed u }
  | destroySecond {u : Nat} : s.controller = .destroyed u → ControllerMove s allocated
      { s.setImpl u ((s.role u).destroySecond (s.impls u)) with controller := .destroying (u + 1) }
  | destroyed {u : Nat} : ¬ u ≤ s.nStages + 1 → s.controller = .destroying u →
      ControllerMove s allocated { s with controller := .joining 0 }
  | join {u : Nat} : u ≤ s.nStages + 1 → (s.impls u).pc = .exited → s.controller = .joining u →
      ControllerMove s allocated { s with controller := .joining (u + 1) }
  | joined {u : Nat} : ¬ u ≤ s.nStages + 1 → s.controller = .joining u →
      ControllerMove s allocated { s with controller := .clearing (s.nStages + 1) }
  | clear {left : Nat} : s.controller = .clearing (left + 1) → ControllerMove s allocated
      { s.setPipe (left + 1) ((s.pipes (left + 1)).clear allocated) with
        controller := .clearing left }
  | cleared : s.controller = .clearing 0 → ControllerMove s allocated
      { s with controller := .returning (s.nStages + 2) }
  | giveBack {left : Nat} : s.controller = .returning (left + 1) → ControllerMove s allocated
      { s.putView left ((s.role left).returnBuffers allocated (s.view left)) with
        controller := .returning left }
  | gaveBack : s.controller = .returning 0 → ControllerMove s allocated
      { s with controller := .marking 1 }
  | mark {u : Nat} : u ≤ s.nStages → s.controller = .marking u → ControllerMove s allocated
      { s.setImpl u (setDone (s.impls u)) with controller := .marking (u + 1) }
  | disabled {u : Nat} : ¬ u ≤ s.nStages → s.controller = .marking u → ControllerMove s allocated
      ({ s with active := false, enabled := false, destroying := false }.report .disable .ok)

/-- Every step of a call is one of these. -/
theorem controllerStep_move {s s' : State V σ} {allocated : Nat → Bool}
    (hstep : s.controllerStep allocated = some s') : ControllerMove s allocated s' := by
  unfold State.controllerStep at hstep
  split at hstep <;> rename_i hcontroller
  case h_1 => cases hstep
  case h_2 =>
    cases hstep
    exact .create hcontroller
  case h_3 =>
    cases hstep
    exact .enabled hcontroller
  case h_4 =>
    cases hstep
    exact .start hcontroller
  case h_5 =>
    cases hstep
    exact .started hcontroller
  case h_6 =>
    split at hstep <;> cases hstep
    · exact .stop ‹_› hcontroller
    · exact .stopped ‹_› hcontroller
  case h_7 =>
    cases hstep
    exact .disabling hcontroller
  case h_8 =>
    split at hstep <;> cases hstep
    · exact .destroyFirst ‹_› hcontroller
    · exact .destroyed ‹_› hcontroller
  case h_9 =>
    cases hstep
    exact .destroySecond hcontroller
  case h_10 =>
    split at hstep
    · split at hstep <;> cases hstep
      exact .join ‹_› ‹_› hcontroller
    · cases hstep
      exact .joined ‹_› hcontroller
  case h_11 =>
    cases hstep
    exact .clear hcontroller
  case h_12 =>
    cases hstep
    exact .cleared hcontroller
  case h_13 =>
    cases hstep
    exact .giveBack hcontroller
  case h_14 =>
    cases hstep
    exact .gaveBack hcontroller
  case h_15 =>
    split at hstep <;> cases hstep
    · exact .mark ‹_› hcontroller
    · exact .disabled ‹_› hcontroller

/-- Each of these is a step of a call. -/
theorem ControllerMove.step {s s' : State V σ} {allocated : Nat → Bool}
    (hmove : ControllerMove s allocated s') : s.controllerStep allocated = some s' := by
  cases hmove <;> simp [State.controllerStep, *]

/-- A step of a worker of the pipeline, as a move. -/
theorem step_worker {s s' : State V σ} {u : Nat} {a : Answer V σ}
    (hstep : step s (.worker u a) = some s') :
    u ≤ s.nStages + 1 ∧ ∃ v, Move (s.role u) a (s.view u) v ∧ s' = s.putView u v := by
  simp only [step] at hstep
  split at hstep
  · obtain ⟨v, hrun, rfl⟩ := Option.map_eq_some_iff.mp hstep
    exact ⟨‹_›, v, workerRoutine_move hrun, rfl⟩
  · cases hstep

end Mtdp.Pipeline
