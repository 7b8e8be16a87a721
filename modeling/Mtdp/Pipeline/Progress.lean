import Mtdp.Pipeline.Held

/-!
# Threads that can move

A thread of a pipeline never gets stuck inside its routine: it is at a program
point of its role, the buffer that it is going to push or to put back is there,
and every operation it waits for answers in the end.  What can hold it up is
its gate, a semaphore that is zero while the timeout has not passed, and a
callback.

## Main results

* `step_threadsInv` — where the threads are, and what they have with them.
* `ThreadsInv.moves` — a thread that has been created and has not left its loop
  makes a step, however the environment answers it.
-/

namespace Mtdp.Pipeline

variable {V σ : Type}

/-! ## The program points of a role -/

/-- The thread of a unit of this role comes to this program point. -/
def Role.comesTo : Role → Pc → Bool
  | _, .absent | _, .test | _, .gate | _, .recheck | _, .exited => true
  | _, .process | _, .callback => true
  | .source, .push | .source, .release | .source, .pushFailed | .source, .getEmpty => true
  | .source, .finishing => true
  | .stage, .push | .stage, .release | .stage, .pushFailed | .stage, .getEmpty => true
  | .stage, .recycle => true
  | .stage, .acquire | .stage, .timedOut | .stage, .acquired => true
  | .stage, .getFull | .stage, .emptyGet => true
  | .sink, .putBack | .sink, .putBackFailed => true
  | .sink, .acquire | .sink, .timedOut | .sink, .acquired => true
  | .sink, .getFull | .sink, .emptyGet => true
  | _, _ => false

theorem Goto.comesTo {role : Role} {a : Answer V σ} {v : View V σ} {pc : Pc}
    (hgoto : Goto role a v pc) : role.comesTo pc := by
  cases hgoto <;> cases role <;> first | rfl | contradiction

theorem Move.comesTo {role : Role} {a : Answer V σ} {v v' : View V σ}
    (hmove : Move role a v v') : role.comesTo v'.impl.pc := by
  cases hmove
  case goto hgoto => exact hgoto.comesTo
  all_goals cases role <;> first | rfl | contradiction

/-! ## Threads that move -/

/-- The environment does not hold the thread up: an acquire succeeds only if
there is a token, and only a source calls `mtdp_source_finished`. -/
structure Answered (role : Role) (v : View V σ) (a : Answer V σ) : Prop where
  acquire : v.impl.pc = .acquire → v.impl.readyToPull = true → a.ok = true →
    0 < v.inputPipe.semaphore
  callback : a.callback = .finish → role = .source

theorem pushOutput_isSome {v : View V σ} {ok : Bool} {next : Pc}
    (hpush : v.impl.readyToPush = true → v.impl.output.isSome) :
    (v.pushOutput ok next).isSome := by
  unfold View.pushOutput
  split
  · next hready => simpa using hpush hready
  · rfl

theorem acquireInput_isSome {v : View V σ} {ok : Bool} {next : Pc}
    (htoken : v.impl.readyToPull = true → ok = true → 0 < v.inputPipe.semaphore) :
    (v.acquireInput ok next).isSome := by
  unfold View.acquireInput
  split
  · next hready =>
    cases ok with
    | false => rfl
    | true => simp [htoken hready rfl]
  · rfl

theorem recycleInput_isSome {v : View V σ} {ok : Bool} (hinput : v.impl.input.isSome) :
    (v.recycleInput ok).isSome := by
  unfold View.recycleInput
  split
  · simpa using hinput
  · rfl

/-- **A thread moves.** -/
theorem workerRoutine_isSome {role : Role} {v : View V σ} {a : Answer V σ}
    (hcomes : role.comesTo v.impl.pc) (hv : v.impl.Consistent role)
    (hrest : ¬ v.impl.pc.Resting)
    (hgate : v.impl.pc = .gate → v.impl.enabled = true ∨ v.impl.destroyed = true)
    (ha : Answered role v a) : (workerRoutine role v a).isSome := by
  obtain ⟨hpush, hpc⟩ := hv
  unfold workerRoutine
  cases hat : v.impl.pc <;> rw [hat] at hcomes hrest hpc
  case absent | exited => simp [Pc.Resting] at hrest
  case test | recheck => rfl
  case gate => simp [hgate hat]
  case push =>
    cases role
    case source | stage => exact pushOutput_isSome (hpush (by decide))
    case sink => cases hcomes
  case acquire =>
    cases role
    case source => cases hcomes
    case stage | sink => exact acquireInput_isSome (ha.acquire hat)
  case callback =>
    cases hcallback : a.callback with
    | finish =>
        obtain rfl := ha.callback hcallback
        simp [Role.routine, sourceRoutine, hcallback]
    | ret r =>
        cases role <;> simp [Role.routine, sourceRoutine, stageRoutine, sinkRoutine, hcallback]
  case recycle =>
    cases role
    case stage => exact recycleInput_isSome (hpc rfl)
    case source | sink => cases hcomes
  all_goals
    cases role <;> first
      | exact absurd hcomes (by decide)
      | rfl
      | (simp only [Role.routine, sourceRoutine, stageRoutine, sinkRoutine]; split <;> rfl)

/-! ## What holds of every unit -/

/-- **Units.**  What the steps of a thread keep, whatever the controller makes of
the flags of the unit, and what holds of a new thread and of one that does not
run, is kept by every step of the system. -/
theorem step_units {P : Role → Impl V σ → Prop}
    (hrest : ∀ role i, i.pc.Resting → P role i)
    (hmoves : ∀ role a v v', Move role a v v' → P role v.impl → P role v'.impl)
    (hcreate : ∀ role i, P role (role.createThread i))
    (hflags : ∀ role i enabled destroyed done, P role i →
      P role { i with enabled, destroyed, done })
    {s s' : State V σ} {l : Label V σ} (hshape : Shape s)
    (hs : ∀ u ≤ s.nStages + 1, P (s.role u) (s.impls u)) (hstep : step s l = some s') :
    ∀ u ≤ s.nStages + 1, P (s.role u) (s'.impls u) := by
  intro u hu
  cases step_effect hstep with
  | @worker w a v _ hmove =>
      by_cases hne : u = w
      · subst hne
        rw [State.putView_impls_self]
        exact hmoves _ _ _ _ hmove (hs u hu)
      · rw [State.putView_impls_of_ne _ _ _ hne]
        exact hs u hu
  | @create _ left _ =>
      by_cases hne : u = left
      · subst hne
        simpa using hcreate _ _
      · simpa [hne] using hs u hu
  | clear => exact hs u hu
  | @giveBack allocated left hcontroller =>
      by_cases hne : u = left
      · subst hne
        apply hrest
        simp only [Shape, hcontroller] at hshape
        simpa [Role.returnBuffers_flags] using hshape.2.2 u hu
      · simpa [hne] using hs u hu
  | flags _ _ hsame =>
      rw [hsame.impls u]
      exact hflags _ _ _ _ _ (hs u hu)

/-- Where a thread is, and what it has with it. -/
structure Impl.Fit (role : Role) (i : Impl V σ) : Prop where
  comesTo : role.comesTo i.pc
  consistent : ¬ i.pc.Resting → i.Consistent role

theorem Impl.fit_of_resting {role : Role} {i : Impl V σ} (hrest : i.pc.Resting) :
    i.Fit role := by
  refine ⟨?_, fun h => absurd hrest h⟩
  rcases hrest with h | h <;> rw [h] <;> cases role <;> rfl

/-- Which threads there are, and where. -/
structure ThreadsInv (s : State V σ) : Prop where
  shape : Shape s
  existing : Existing s
  fit : ∀ u ≤ s.nStages + 1, (s.impls u).Fit (s.role u)

theorem Created.threadsInv {s : State V σ} (hs : Created s) : ThreadsInv s where
  shape := hs.shape
  existing := hs.existing
  fit := fun u _ => Impl.fit_of_resting (.inl (hs.pc u))

/-- **One step.** -/
theorem step_threadsInv {s s' : State V σ} {l : Label V σ} (hs : ThreadsInv s)
    (hstep : step s l = some s') : ThreadsInv s' := by
  refine ⟨step_shape hs.shape hstep, step_existing hs.shape hs.existing hstep, ?_⟩
  have hn := step_nStages hstep
  have hunits := step_units (P := Impl.Fit) (fun _ _ => Impl.fit_of_resting)
    (fun role a v v' hmove hv => ⟨hmove.comesTo, fun _ =>
      hmove.consistent (hv.consistent hmove.not_resting)⟩)
    (fun role i => ⟨by cases role <;> rfl, fun _ => role.createThread_consistent i⟩)
    (fun role i _ _ _ hi => ⟨hi.comesTo, hi.consistent⟩) hs.shape hs.fit hstep
  intro u hu
  rw [State.role, hn]
  exact hunits u (hn ▸ hu)

/-- **A thread that runs makes a step**, unless it is at a closed gate. -/
theorem ThreadsInv.moves {s : State V σ} (hs : ThreadsInv s) {u : Nat} (hu : u ≤ s.nStages + 1)
    (hrest : ¬ (s.impls u).pc.Resting)
    (hgate : (s.impls u).pc = .gate → (s.impls u).enabled = true ∨ (s.impls u).destroyed = true)
    {a : Answer V σ} (ha : Answered (s.role u) (s.view u) a) :
    ∃ s', step s (.worker u a) = some s' := by
  have hfit := hs.fit u hu
  obtain ⟨v, hv⟩ := Option.isSome_iff_exists.mp
    (workerRoutine_isSome hfit.comesTo (hfit.consistent hrest) hrest hgate ha)
  exact ⟨s.putView u v, by simp [step, hu, hv]⟩

end Mtdp.Pipeline
