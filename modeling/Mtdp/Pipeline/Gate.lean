import Mtdp.Pipeline.Lifecycle
import Mtdp.Worker.Gate

/-!
# The threads of a pipeline at their gates

In the pipeline the mutex section with `cnd_wait` is one step, and so are the calls
of `mtdp_worker_enable`, `mtdp_worker_disable` and `mtdp_worker_destroy`.  That is
what the handshake of `src/worker.c` looks like from outside: a thread of the
pipeline moves as the gate of `Mtdp.Worker.Gate` does.

## Main results

* `workerRoutine_gate` — outside its routine a thread makes the steps of the gate.
* `Move.gate_run` — inside its routine it makes no others.
* `pipeline_refines_gates` — a run of the pipeline is seen as a run of every gate.
-/

namespace Mtdp.Pipeline

open Worker (Gate GateEvent Phase)

variable {V σ : Type}

/-- Where a thread of the pipeline is at its gate. -/
def Pc.phase : Pc → Phase
  | .test => .test
  | .gate => .gate
  | .recheck => .recheck
  | .exited => .exited
  | .absent => .exited
  | _ => .running

def Impl.gate (i : Impl V σ) : Gate := ⟨i.enabled, i.destroyed, i.pc.phase⟩

/-- **The steps of the gate.** -/
theorem workerRoutine_gate {role : Role} {v : View V σ} {a : Answer V σ}
    (hphase : v.impl.pc.phase ≠ .running) :
    (workerRoutine role v a).map (fun v => v.impl.gate) = v.impl.gate.step .thread := by
  unfold workerRoutine
  cases hpc : v.impl.pc
  case test =>
    cases hdestroyed : v.impl.destroyed <;>
      simp [Impl.gate, Gate.step, View.goto, Pc.phase, hpc, hdestroyed]
  case recheck =>
    cases hdestroyed : v.impl.destroyed
    · cases role <;> simp [Impl.gate, Gate.step, View.goto, Pc.phase, hpc, hdestroyed, Role.entry]
    · simp [Impl.gate, Gate.step, View.goto, Pc.phase, hpc, hdestroyed]
  case gate =>
    cases henabled : v.impl.enabled <;> cases hdestroyed : v.impl.destroyed <;>
      simp [Impl.gate, Gate.step, View.goto, Pc.phase, hpc, henabled, hdestroyed]
  case absent | exited => simp [Impl.gate, Gate.step, Pc.phase, hpc]
  all_goals simp [hpc, Pc.phase] at hphase

theorem Goto.phase {role : Role} {a : Answer V σ} {v : View V σ} {pc : Pc}
    (hgoto : Goto role a v pc) (hphase : v.impl.pc.phase = .running) :
    pc.phase = .running ∨ pc.phase = .test := by
  cases hgoto
  case leave h _ => rcases h with h | h <;> simp [h, Pc.phase] at hphase
  case toGate h _ | wake h _ | enter h _ => simp [h, Pc.phase] at hphase
  case skipPush | skipPull => cases role <;> exact .inl rfl
  case starve | keepInput => exact .inr rfl
  all_goals exact .inl rfl

/-- From its routine a thread returns to the test. -/
theorem Move.phase {role : Role} {a : Answer V σ} {v v' : View V σ} (hmove : Move role a v v')
    (hphase : v.impl.pc.phase = .running) :
    v'.impl.pc.phase = .running ∨ v'.impl.pc.phase = .test := by
  cases hmove
  case goto hgoto => exact hgoto.phase hphase
  case released | gotFull => cases role <;> exact .inl rfl
  case returned => cases role <;> first | exact .inl rfl | exact .inr rfl
  case flagged | compensated | asked | recycled => exact .inr rfl
  all_goals exact .inl rfl

/-! ## Whole runs -/

open Lib.Transition

/-- What an observer of the gate of unit `u` sees of a step. -/
def gateEvents (u : Nat) (s : State V σ) (l : Label V σ) : List GateEvent :=
  match l with
  | .worker w _ =>
      if w = u then
        match (s.impls u).pc with
        | .test | .gate | .recheck => [.thread]
        | .finishing => [.store .destroy]
        | _ => if (step s l).any fun s' => (s'.impls u).pc = .test then [.thread] else []
      else []
  | .controller _ =>
      match s.controller with
      | .starting (left + 1) => if left = u then [.store .enable] else []
      | .stopping w => if w = u ∧ w ≤ s.nStages + 1 then [.store .disable] else []
      | .destroying w =>
          if w = u ∧ w ≤ s.nStages + 1 ∧ s.role w ≠ .source then [.store .destroy] else []
      | .destroyed w => if w = u ∧ s.role w = .source then [.store .destroy] else []
      | _ => []
  | _ => []

/-- No thread is being created. -/
def NotEnabling (s : State V σ) : Prop := ∀ left, s.controller ≠ .enabling left

/-- Inside its routine a thread stores `destroyed`, returns to the test, or is not
seen. -/
theorem Move.gate_run {role : Role} {a : Answer V σ} {v v' : View V σ} (hmove : Move role a v v')
    (hphase : v.impl.pc.phase = .running) :
    run Gate.step v.impl.gate (if v.impl.pc = .finishing then [.store .destroy]
      else if v'.impl.pc = .test then [.thread] else []) = some v'.impl.gate := by
  by_cases hfinishing : v.impl.pc = .finishing
  · rw [if_pos hfinishing]
    cases hmove
    case finished => simp [run, Impl.gate, Gate.step, Gate.store, hfinishing, Pc.phase]
    case goto hgoto => cases hgoto <;> simp_all
    all_goals simp_all
  · have hdestroyed : v'.impl.destroyed = v.impl.destroyed := by
      rcases hmove.destroyed_cases with h | ⟨_, h, _⟩
      · exact h
      · exact absurd h hfinishing
    rw [if_neg hfinishing]
    by_cases htest : v'.impl.pc = .test
    · have hback : v'.impl.pc.phase = .test := by rw [htest]; rfl
      rw [if_pos htest]
      simp [run, Impl.gate, Gate.step, hphase, hback, hmove.enabled_eq, hdestroyed]
    · have hrunning : v'.impl.pc.phase = .running := by
        rcases hmove.phase hphase with h | h
        · exact h
        · cases hpc : v'.impl.pc <;> rw [hpc] at h htest <;>
            first | exact absurd rfl htest | cases h
      simp [run, Impl.gate, htest, hphase, hrunning, hmove.enabled_eq, hdestroyed]

theorem worker_gateEvents {s s' : State V σ} {u w : Nat} {a : Answer V σ}
    (hstep : step s (.worker w a) = some s') :
    run Gate.step (s.impls u).gate (gateEvents u s (.worker w a)) = some (s'.impls u).gate := by
  by_cases hne : w = u
  · subst hne
    obtain ⟨_, hmoves⟩ := Option.ite_none_right_eq_some.mp hstep
    obtain ⟨v, hrun, rfl⟩ := Option.map_eq_some_iff.mp hmoves
    rw [State.putView_impls_self]
    by_cases hphase : (s.impls w).pc.phase = .running
    · rw [← (workerRoutine_move hrun).gate_run hphase]
      cases hpc : (s.impls w).pc <;> rw [hpc] at hphase <;>
        first | exact absurd hphase (by decide) | simp [gateEvents, hpc, hstep]
    · have hgate : (workerRoutine (s.role w) (s.view w) a).map (fun v => v.impl.gate) =
          (s.impls w).gate.step .thread := workerRoutine_gate hphase
      rw [hrun] at hgate
      have hevents : gateEvents w s (.worker w a) = [.thread] := by
        have hmoves := (workerRoutine_move hrun).not_resting
        cases hpc : (s.impls w).pc <;> simp_all [gateEvents, Pc.phase, Pc.Resting]
      rw [hevents]
      simp [run, ← hgate]
  · obtain ⟨_, v, _, rfl⟩ := step_worker hstep
    rw [State.putView_impls_of_ne _ _ _ (Ne.symm hne)]
    simp [gateEvents, hne, run]

theorem controller_gateEvents {s s' : State V σ} {u : Nat} {allocated : Nat → Bool}
    (hs : NotEnabling s) (hstep : s.controllerStep allocated = some s') :
    NotEnabling s' ∧
      run Gate.step (s.impls u).gate (gateEvents u s (.controller allocated)) =
        some (s'.impls u).gate := by
  have hother (w : Nat) (i : Impl V σ) (hne : w ≠ u) : (s.setImpl w i).impls u = s.impls u :=
    s.setImpl_impls_of_ne i (Ne.symm hne)
  cases controllerStep_move hstep <;> rename_i hcontroller
  case create => exact absurd hcontroller (hs _)
  all_goals
    refine ⟨by rintro _ ⟨⟩, ?_⟩
  case start left =>
    by_cases hne : left = u
    · subst hne
      simp [gateEvents, hcontroller, run, Gate.step, Gate.store, Impl.gate, workerEnable]
    · simp [gateEvents, hcontroller, run, hne, hother]
  case stop w hw =>
    by_cases hne : w = u
    · subst hne
      simp [gateEvents, hcontroller, run, Gate.step, Gate.store, Impl.gate, workerDisable, hw]
    · simp [gateEvents, hcontroller, run, hne, hother]
  case destroyFirst w hw =>
    by_cases hne : w = u
    · subst hne
      cases hrole : s.role w <;>
        simp [gateEvents, hcontroller, run, Gate.step, Gate.store, Impl.gate, hw, hrole,
          Role.destroyFirst, setDone, workerDestroy]
    · simp [gateEvents, hcontroller, run, hne, hother]
  case destroySecond w =>
    by_cases hne : w = u
    · subst hne
      cases hrole : s.role w <;>
        simp [gateEvents, hcontroller, run, Gate.step, Gate.store, Impl.gate, hrole,
          Role.destroySecond, setDone, workerDestroy]
    · simp [gateEvents, hcontroller, run, hne, hother]
  case giveBack left =>
    by_cases hne : u = left
    · subst hne
      simp [gateEvents, hcontroller, run, Impl.gate, Role.returnBuffers_flags]
    · simp [gateEvents, hcontroller, run, hne]
  case mark w hw =>
    by_cases hne : w = u
    · subst hne
      simp [gateEvents, hcontroller, run, Impl.gate, setDone]
    · simp [gateEvents, hcontroller, run, hother w _ hne]
  case stopped hw => simp [gateEvents, hcontroller, run, hw, State.report]
  case destroyed hw => simp [gateEvents, hcontroller, run, hw]
  all_goals simp [gateEvents, hcontroller, run, State.report, State.setPipe]

/-- **Refinement.**  While no new threads are created, what any unit of the pipeline
does in a run is a run of its gate. -/
theorem pipeline_refines_gates {s t : State V σ} {ls : List (Label V σ)}
    (hidle : s.controller = .idle) (hcalls : .call .enable ∉ ls) (hrun : run step s ls = some t)
    (u : Nat) :
    run Gate.step (s.impls u).gate (observe step (gateEvents u) s ls) =
      some (t.impls u).gate := by
  have hs : NotEnabling s := by simp [NotEnabling, hidle]
  have hlabels : Takes step (fun _ l => l ≠ .call .enable) s ls :=
    takes_of_mem fun l hl _ heq => hcalls (heq ▸ hl)
  apply run_simulates_of_takes (I := NotEnabling) (f := fun s => (s.impls u).gate) _ hs hlabels hrun
  intro s l s' hs hl hstep
  cases l with
  | worker w a =>
      refine ⟨fun left h => hs left ?_, worker_gateEvents hstep⟩
      rwa [(step_worker_frame hstep).2.1] at h
  | call c =>
      simp only [step] at hstep
      split at hstep <;> cases hstep
      rename_i hidle
      rcases s.beginCall_cases c with ⟨e, _, _, heq⟩ | ⟨rfl, _⟩ | ⟨_, _, _, heq⟩ |
        ⟨_, _, _, heq⟩ | ⟨_, _, heq⟩
      case inr.inl => exact absurd rfl hl
      all_goals
        rw [heq]
        exact ⟨by rintro _ ⟨⟩, rfl⟩
  | controller allocated => exact controller_gateEvents hs hstep
  | waiter =>
      cases hstep
      exact ⟨hs, rfl⟩

/-- The sink is in its routine and the source at its gate when the pipeline is
stopped, started again and disabled. -/
def stopStartDisable : List (Label Unit Unit) :=
  threadSteps 1 4 true false true ++ threadSteps 0 1 true false false ++ [.call .stop] ++
    controllerSteps 3 ++ threadSteps 1 3 false false true ++ [.call .start] ++ controllerSteps 3 ++
    threadSteps 0 2 true false false ++ [.call .disable] ++ controllerSteps 6 ++
    threadSteps 1 1 true false true ++ threadSteps 0 4 true false false

theorem pipeline_refines_gates_stopStartDisable :
    let s := (run step smallest enableAndStart).get (by decide)
    let t := (run step s stopStartDisable).get (by decide)
    run Gate.step (s.impls 1).gate (observe step (gateEvents 1) s stopStartDisable) =
      some (t.impls 1).gate :=
  pipeline_refines_gates (by decide)
    (by simp [stopStartDisable, controllerSteps, threadSteps]) (Option.some_get _).symm 1

end Mtdp.Pipeline
