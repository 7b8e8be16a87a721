import Mtdp.Lib.Transition
import Mtdp.Pipeline.Lifecycle

/-!
# A stopped pipeline goes quiet

`mtdp_pipeline_stop` clears `worker.enabled` unit by unit and does not wait for
the threads.  One that has passed its gate goes through its routine once more
and may call `process` on the way; it is then caught at the gate.  That no unit
starts a second callback holds for any calls that follow but
`mtdp_pipeline_start`, also if they disable the pipeline and enable it again.

## Main results

* `Move.invoked_add_le` — a thread at a closed gate does not get another
  callback.
* `stopped_pipeline_quiet` — the callbacks that start after a stop are those of
  different units.
-/

namespace Mtdp.Pipeline

open Lib.Transition

variable {V σ : Type}

/-! ## Callbacks that start -/

/-- The buffer is there that `process` is called for. -/
def Role.ready : Role → Impl V σ → Bool
  | .sink, i => i.input.isSome
  | _, i => i.output.isSome

/-- The unit whose `process` callback starts in this step. -/
def State.invoked (s : State V σ) : Label V σ → List Nat
  | .worker u _ =>
      if (s.impls u).pc = .process ∧ (s.role u).ready (s.impls u) then [u] else []
  | _ => []

/-- The thread may still start a callback without passing its gate. -/
def Impl.mayInvoke (i : Impl V σ) : Bool :=
  match i.pc with
  | .recheck => !i.destroyed
  | .push | .release | .putBack | .acquire | .acquired | .getFull | .getEmpty | .process => true
  | _ => false

/-- The callbacks that a unit may still start. -/
def Impl.budget (i : Impl V σ) : Nat := if i.mayInvoke then 1 else 0

theorem Impl.budget_le_one (i : Impl V σ) : i.budget ≤ 1 := by
  unfold budget
  split <;> omega

theorem Goto.budget_le {role : Role} {a : Answer V σ} {v : View V σ} {pc : Pc}
    (hgoto : Goto role a v pc) (hclosed : v.impl.enabled = false) :
    (v.goto pc).impl.budget ≤ v.impl.budget := by
  cases hgoto
  case leave h _ => simp [View.goto, Impl.budget, Impl.mayInvoke]
  case wake h hflag =>
    have hdestroyed : v.impl.destroyed = true := by simpa [hclosed] using hflag
    simp [View.goto, Impl.budget, Impl.mayInvoke, hdestroyed]
  case enter h hdestroyed =>
    simpa [Impl.budget, Impl.mayInvoke, h, hdestroyed] using Impl.budget_le_one _
  case toGate | pushRefused | putBackRefused | timeout | starve | keepInput =>
    simp [View.goto, Impl.budget, Impl.mayInvoke]
  case skipPush h _ | skipPull h _ | nothingToPutBack h _ _ | notReadyToPull h _ |
      hasOutput h _ _ =>
    simpa [Impl.budget, Impl.mayInvoke, h] using Impl.budget_le_one _

/-- A thread at a closed gate does not get another callback. -/
theorem Move.budget_le {role : Role} {a : Answer V σ} {v v' : View V σ} (hmove : Move role a v v')
    (hclosed : v.impl.enabled = false) : v'.impl.budget ≤ v.impl.budget := by
  have hmay (h : v.impl.mayInvoke = true) : v'.impl.budget ≤ v.impl.budget := by
    have hone : v.impl.budget = 1 := by simp [Impl.budget, h]
    exact hone ▸ v'.impl.budget_le_one
  cases hmove
  case goto hgoto => exact hgoto.budget_le hclosed
  case pushed h _ _ _ | released h | acquired h _ _ | unflagged h | gotFull h _ |
      gotOutput h _ _ _ | noOutput h _ _ _ | putBack h _ _ _ =>
    exact hmay (by simp [Impl.mayInvoke, h])
  case returned =>
    cases role <;> simp [Impl.budget, Impl.mayInvoke, View.returns, Role.afterCallback]
  all_goals
    simp [Impl.budget, Impl.mayInvoke, View.storeDone, View.releaseInput, View.askInput,
      View.invoke]

/-- The step at which a callback starts, or does not for want of a buffer. -/
theorem Move.budget_of_process {role : Role} {a : Answer V σ} {v v' : View V σ}
    (hmove : Move role a v v') (hpc : v.impl.pc = .process) : v'.impl.budget = 0 := by
  cases hmove
  case goto hgoto =>
    cases hgoto <;> simp_all [View.goto, Impl.budget, Impl.mayInvoke]
  all_goals simp_all [Impl.budget, Impl.mayInvoke, View.askInput, View.invoke]

/-- A thread behind its gate pays for the callback that it starts. -/
theorem Move.invoked_add_le {s : State V σ} {u : Nat} {a : Answer V σ} {v : View V σ}
    (hmove : Move (s.role u) a (s.view u) v) (hclosed : (s.impls u).enabled = false) :
    (s.invoked (.worker u a)).length + v.impl.budget ≤ (s.impls u).budget := by
  by_cases hpc : (s.impls u).pc = .process
  · have hone : (s.impls u).budget = 1 := by simp [Impl.budget, Impl.mayInvoke, hpc]
    have hlength : (s.invoked (.worker u a)).length ≤ 1 := by
      simp only [State.invoked]
      split <;> simp
    rw [hmove.budget_of_process hpc, hone]
    exact hlength
  · have hnone : s.invoked (.worker u a) = [] := by simp [State.invoked, hpc]
    rw [hnone, List.length_nil, Nat.zero_add]
    exact hmove.budget_le hclosed

theorem Impl.budget_mono {i i' : Impl V σ} (hpc : i'.pc = i.pc ∨ i'.pc = .test)
    (hdestroyed : i.destroyed = true → i'.destroyed = true) : i'.budget ≤ i.budget := by
  rcases hpc with hpc | hpc
  · cases hdown : i.destroyed with
    | false =>
        have hmay (h : i'.mayInvoke = true) : i.mayInvoke = true := by
          unfold mayInvoke at h ⊢
          rw [hpc] at h
          cases hat : i.pc <;> simp_all
        unfold budget
        split
        · next h => simp [hmay h]
        · exact Nat.zero_le _
    | true => exact Nat.le_of_eq (by simp [budget, mayInvoke, hpc, hdown, hdestroyed hdown])
  · simp [budget, mayInvoke, hpc]

/-! ## Closed gates -/

/-- All workers are disabled and no call enables one. -/
structure Stopped (s : State V σ) : Prop where
  gates : ∀ u ≤ s.nStages + 1, (s.impls u).enabled = false
  starting : ∀ left, s.controller ≠ .starting left

/-- Only `mtdp_pipeline_start` enables a worker. -/
theorem controllerStep_gates {s s' : State V σ} {allocated : Nat → Bool} (hs : Stopped s)
    (hstep : s.controllerStep allocated = some s') : Stopped s' := by
  -- the record of unit `w` has been replaced
  have hset (w : Nat) (i : Impl V σ) (hi : i.enabled = (s.impls w).enabled ∨ i.enabled = false) :
      ∀ u ≤ s.nStages + 1, ((s.setImpl w i).impls u).enabled = false := by
    intro u hu
    by_cases hne : u = w
    · subst hne
      rw [State.setImpl_impls_self]
      exact hi.elim (fun h => h.trans (hs.gates u hu)) id
    · rw [State.setImpl_impls_of_ne _ _ hne]
      exact hs.gates u hu
  cases controllerStep_move hstep
  case start hcontroller => exact absurd hcontroller (hs.starting _)
  case started hcontroller => exact absurd hcontroller (hs.starting _)
  case create left _ =>
    exact ⟨hset left _ (.inl (by cases s.role left <;> rfl)), fun _ => by simp⟩
  case stop u _ _ => exact ⟨hset u (workerDisable (s.impls u)) (.inr rfl), fun _ => by simp⟩
  case destroyFirst u _ _ =>
    exact ⟨hset u _ (.inl (by cases s.role u <;> rfl)), fun _ => by simp⟩
  case destroySecond u _ =>
    exact ⟨hset u _ (.inl (by cases s.role u <;> rfl)), fun _ => by simp⟩
  case mark u _ _ => exact ⟨hset u (setDone (s.impls u)) (.inl rfl), fun _ => by simp⟩
  case giveBack left _ =>
    refine ⟨fun u hu => ?_, fun _ => by simp⟩
    by_cases hne : u = left
    · subst hne
      simpa [Role.returnBuffers_flags] using hs.gates u hu
    · simpa [hne] using hs.gates u hu
  all_goals exact ⟨hs.gates, fun _ => by simp [State.report]⟩

theorem step_stopped {s s' : State V σ} {l : Label V σ} (hs : Stopped s)
    (hl : l ≠ .call .start) (hstep : step s l = some s') : Stopped s' := by
  cases l with
  | worker u a =>
      obtain ⟨_, v, hmove, rfl⟩ := step_worker hstep
      refine ⟨fun w hw => ?_, hs.starting⟩
      by_cases hne : w = u
      · subst hne
        rw [State.putView_impls_self, hmove.enabled_eq]
        exact hs.gates w hw
      · rw [State.putView_impls_of_ne _ _ _ hne]
        exact hs.gates w hw
  | call c =>
      simp only [step] at hstep
      split at hstep <;> cases hstep
      rename_i hidle
      rcases s.beginCall_cases c with ⟨e, _, _, heq⟩ | ⟨_, _, heq⟩ | ⟨rfl, _⟩ | ⟨_, _, _, heq⟩ |
        ⟨_, _, heq⟩
      · rw [heq]
        exact ⟨hs.gates, fun _ => by simp [State.report]⟩
      · rw [heq]
        exact ⟨hs.gates, fun _ => by simp⟩
      · exact absurd rfl hl
      · rw [heq]
        exact ⟨hs.gates, fun _ => by simp⟩
      · rw [heq]
        exact ⟨hs.gates, fun _ => by simp⟩
  | controller allocated => exact controllerStep_gates hs hstep
  | waiter =>
      cases hstep
      exact ⟨hs.gates, hs.starting⟩

/-- **One step of a stopped pipeline**, for one unit. -/
theorem step_budget {s s' : State V σ} {l : Label V σ} (hs : Stopped s)
    (hstep : step s l = some s') (u : Nat) :
    ((s.invoked l).filter (· == u)).length + (s'.impls u).budget ≤ (s.impls u).budget := by
  cases l with
  | worker w a =>
      obtain ⟨hw, v, hmove, rfl⟩ := step_worker hstep
      by_cases hne : u = w
      · subst hne
        rw [State.putView_impls_self]
        exact le_trans (Nat.add_le_add_right (List.length_filter_le _ _) _)
          (hmove.invoked_add_le (hs.gates u hw))
      · have hnone : (s.invoked (.worker w a)).filter (· == u) = [] := by
          simp only [State.invoked]
          split <;> simp [Ne.symm hne]
        rw [hnone, State.putView_impls_of_ne _ _ _ hne, List.length_nil, Nat.zero_add]
  | call c =>
      simp only [step] at hstep
      split at hstep <;> cases hstep
      rcases s.beginCall_cases c with ⟨e, _, _, heq⟩ | ⟨_, _, heq⟩ | ⟨_, _, _, heq⟩ |
        ⟨_, _, _, heq⟩ | ⟨_, _, heq⟩ <;> rw [heq] <;> exact Nat.le_of_eq (Nat.zero_add _)
  | controller allocated =>
      obtain ⟨hdestroyed, hpc⟩ := controllerStep_impl hstep u
      rw [show s.invoked (.controller allocated) = [] from rfl, List.filter_nil, List.length_nil,
        Nat.zero_add]
      exact Impl.budget_mono hpc hdestroyed
  | waiter =>
      cases hstep
      exact Nat.le_of_eq (Nat.zero_add _)

/-! ## A stop -/

/-- What `mtdp_pipeline_stop` has done so far, and what it leaves behind. -/
def StopsWorkers (s : State V σ) : Prop :=
  match s.controller with
  | .idle => s.returned.head? = some (.stop, .ok) →
      ∀ u ≤ s.nStages + 1, (s.impls u).enabled = false
  | .stopping left => ∀ u < left, (s.impls u).enabled = false
  | _ => True

theorem Created.stopsWorkers {s : State V σ} (hs : Created s) : StopsWorkers s := by
  rw [StopsWorkers, hs.controller, hs.returned]
  rintro ⟨⟩

theorem step_stopsWorkers {s s' : State V σ} {l : Label V σ} (hs : StopsWorkers s)
    (hstep : step s l = some s') : StopsWorkers s' := by
  unfold StopsWorkers at hs
  cases l with
  | worker u a =>
      obtain ⟨_, v, hmove, rfl⟩ := step_worker hstep
      have hsame (w : Nat) : ((s.putView u v).impls w).enabled = (s.impls w).enabled := by
        by_cases hne : w = u
        · subst hne
          rw [State.putView_impls_self, hmove.enabled_eq]
          rfl
        · rw [State.putView_impls_of_ne _ _ _ hne]
      simpa only [StopsWorkers, hsame, State.putView_controller, State.putView_returned,
        State.putView_nStages] using hs
  | call c =>
      simp only [step] at hstep
      split at hstep <;> cases hstep
      rcases s.beginCall_cases c with ⟨e, hne, _, heq⟩ | ⟨_, _, heq⟩ | ⟨_, _, _, heq⟩ |
        ⟨_, _, _, heq⟩ | ⟨_, _, heq⟩ <;> rw [heq]
      · exact fun h => absurd (by simpa [State.report] using h : c = .stop ∧ e = .ok).2 hne
      all_goals simp [StopsWorkers]
  | controller allocated =>
      cases controllerStep_move hstep <;> rename_i hcontroller <;> rw [hcontroller] at hs
      case stop u hunit =>
        intro w hw
        by_cases hne : w = u
        · subst hne
          simp [workerDisable]
        · simpa [hne] using hs w (by omega)
      case stopped u hlast =>
        intro _ w hw
        have hle : w ≤ s.nStages + 1 := hw
        exact hs w (by omega)
      all_goals simp [StopsWorkers, State.report]
  | waiter =>
      cases hstep
      exact hs

/-- **A stopped pipeline goes quiet.**  Let the last call that has returned be
an `mtdp_pipeline_stop` that returned `MTDP_OK`, in any run of a freshly
created pipeline.  In any run from there without an `mtdp_pipeline_start`, no
two of the `process` callbacks that start belong to the same unit. -/
theorem stopped_pipeline_quiet {s₀ s t : State V σ} {ls₀ ls : List (Label V σ)}
    (hs₀ : Created s₀) (hrun₀ : run step s₀ ls₀ = some s) (hidle : s.controller = .idle)
    (hlast : s.returned.head? = some (.stop, .ok)) (hcalls : .call .start ∉ ls)
    (hrun : run step s ls = some t) : (observe step State.invoked s ls).Nodup := by
  have hstops : StopsWorkers s :=
    run_invariant (fun _ _ _ => step_stopsWorkers) hs₀.stopsWorkers hrun₀
  rw [StopsWorkers, hidle] at hstops
  have hstopped : Stopped s := ⟨hstops hlast, fun _ => by simp [hidle]⟩
  have hlabels : Takes step (fun _ l => l ≠ .call .start) s ls :=
    takes_of_mem fun l hl _ heq => hcalls (heq ▸ hl)
  rw [List.nodup_iff_count_le_one]
  intro u
  have hstep (s : State V σ) (l : Label V σ) (s' : State V σ) (hs : Stopped s)
      (hl : l ≠ .call .start) (hstep : step s l = some s') :
      Stopped s' ∧ ((s.invoked l).filter (· == u)).length + (s'.impls u).budget ≤
        (s.impls u).budget :=
    ⟨step_stopped hs hl hstep, step_budget hs hstep u⟩
  have hpaid := observe_length_le hstep hstopped hlabels hrun
  rw [observe_filter, ← List.count_eq_length_filter] at hpaid
  have hone := (s.impls u).budget_le_one
  omega

/-- Both threads have passed their gates when the pipeline is stopped. -/
def stoppedUnderway : List (Label Unit Unit) :=
  enableAndStart ++ threadSteps 0 3 true true false ++ threadSteps 1 3 true false true ++
    [.call .stop] ++ controllerSteps 3

/-- The source calls `process` once more, the sink finds nothing. -/
def afterStop : List (Label Unit Unit) :=
  threadSteps 0 5 true true false ++ threadSteps 1 3 false false true ++ [.call .enable]

theorem stopped_pipeline_quiet_underway :
    (observe step State.invoked
      ((run step smallest stoppedUnderway).get (by decide)) afterStop).Nodup :=
  stopped_pipeline_quiet smallest_created (Option.some_get _).symm (by decide) (by decide)
    (by simp [afterStop, threadSteps])
    (t := (run step ((run step smallest stoppedUnderway).get (by decide)) afterStop).get
      (by decide))
    (Option.some_get _).symm

end Mtdp.Pipeline
