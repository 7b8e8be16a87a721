import Mtdp.Lib.Futex
import Mtdp.Lib.Transition
import Mtdp.Pipe.Lock
import Mtdp.Pipeline.Shape

/-!
# The futexes of a pipeline

`src/futex.h` and `src/bell.h`: `mtdp_futex_wait` as `mtdp_pipeline_wait` of
`src/pipeline.c` calls it, and the two halves of `mtdp_set_done` and
`mtdp_unset_done`, the store and the notification.  Any number of threads
wait.  A thread sleeps if the futex still contains the value it waits on when
it enters the system call; it wakes up when it is notified, without a reason,
or, on Linux, because of a signal.  On Linux a woken thread tests the futex
again, on Windows `WaitOnAddress` answers `TRUE` and the loop ends.

The pipeline moves as in `Mtdp.Pipeline.Control`, with one more rule: a thread
that has stored to a futex notifies the waiters before it does anything else.

## Main results

* `waitStep_noWakeLost`, `no_wake_lost` — who sleeps on a futex that has
  changed has a notification to come.
-/

namespace Mtdp.Pipeline

open Lib.Futex Lib.Transition Lock2

variable {V σ : Type}

/-! ## Futexes -/

/-- `&pipeline->destroying`, and `&self->done` of a unit. -/
inductive Futex where
  | destroying
  | done (unit : Nat)
  deriving DecidableEq, Repr

/-- The value that `mtdp_pipeline_wait` waits on. -/
def Futex.val : Futex → Bool
  | .destroying => true
  | .done _ => false

/-- Where a thread in `mtdp_futex_wait` is, for `Mtdp.Pipeline.Control`. -/
def Futex.waiter : Futex → Waiter
  | .destroying => .atDestroying
  | .done u => .waiting u

/-- `atomic_load` -/
def State.load (s : State V σ) : Futex → Bool
  | .destroying => s.destroying
  | .done u => (s.impls u).done

/-- The futex that a step stores to in `mtdp_set_done` or `mtdp_unset_done`. -/
def State.stores (s : State V σ) : Label V σ → Option Futex
  | .worker u a =>
      match (s.impls u).pc with
      | .pushFailed | .putBackFailed | .timedOut | .acquired => some (.done u)
      | .callback =>
          match a.callback with
          | .finish => some (.done u)
          | .ret _ => none
      | _ => none
  | .controller _ =>
      match s.controller with
      | .disabling => some .destroying
      | .destroying u => if s.role u = .source then some (.done u) else none
      | .destroyed u => if s.role u = .source then none else some (.done u)
      | .marking u => some (if u ≤ s.nStages then .done u else .destroying)
      | _ => none
  | _ => none

/-! ## Waiting threads -/

/-- Program points of a thread in `mtdp_pipeline_wait`. -/
inductive WaitPc where
  /-- not called yet -/
  | outside
  /-- `atomic_load(ftx) == val` in `mtdp_futex_wait` -/
  | test (ftx : Futex)
  /-- the system call -/
  | enter (ftx : Futex)
  /-- asleep in the system call -/
  | asleep (ftx : Futex)
  /-- `if(pipeline->enabled)` -/
  | ifEnabled
  /-- `atomic_load` of the flag of this unit, all before having been `1` -/
  | loading (unit : Nat)
  | returned (error : MtdpError)
  deriving DecidableEq, Repr

namespace WaitPc

/-- What follows a call of `mtdp_futex_wait`. -/
def after (nStages : Nat) : Futex → WaitPc
  | .destroying => .ifEnabled
  | .done u => if u ≤ nStages then .test (.done (u + 1)) else .loading 0

/-- The system call has put the thread to sleep and comes back. -/
def woken (p : Platform) (nStages : Nat) (ftx : Futex) : WaitPc :=
  match p with
  | .c11 => .test ftx
  | .windows => after nStages ftx

/-- One step of a thread in `mtdp_pipeline_wait`. -/
def step (s : State V σ) : WaitPc → Option WaitPc
  | .outside => some (.test .destroying)
  | .test ftx => some (if s.load ftx = ftx.val then .enter ftx else after s.nStages ftx)
  | .enter ftx => some (if s.load ftx = ftx.val then .asleep ftx else after s.nStages ftx)
  | .asleep _ => none
  | .ifEnabled => some (if s.enabled then .test (.done 0) else .returned .notEnabled)
  | .loading u =>
      some (if (s.impls u).done then
        if u ≤ s.nStages then .loading (u + 1) else .returned .ok
      else .test (.done 0))
  | .returned _ => some (.test .destroying)

/-- `mtdp_futex_notify_all` -/
def notify (p : Platform) (nStages : Nat) (ftx : Futex) (pc : WaitPc) : WaitPc :=
  if pc = .asleep ftx then woken p nStages ftx else pc

/-- Where a thread sleeps, and on which value. -/
def sleepsOn : WaitPc → Option (Futex × Bool)
  | .asleep ftx => some (ftx, ftx.val)
  | _ => none

/-- The thread as `Mtdp.Pipeline.Control` sees it. -/
def waiter : WaitPc → Waiter
  | .outside => .outside
  | .test ftx | .enter ftx | .asleep ftx => ftx.waiter
  | .ifEnabled => .atEnabled
  | .loading u => .loading u
  | .returned e => .returned e

end WaitPc

/-- The threads that store to futexes. -/
inductive Notifier where
  | worker (unit : Nat)
  | controller
  deriving DecidableEq, Repr

/-- The thread that makes a step. -/
def Label.notifier : Label V σ → Option Notifier
  | .worker u _ => some (.worker u)
  | .call _ => some .controller
  | .controller _ => some .controller
  | .waiter => none

/-- A pipeline, the threads that wait for it, and which futex a thread has
stored to without having notified the waiters. -/
structure WaitState (V σ : Type) where
  pipeline : State V σ
  owes : Notifier → Option Futex
  waiters : Nat → WaitPc

/-- Who moves. -/
inductive WaitLabel (V σ : Type) where
  /-- a thread of the pipeline or the controller -/
  | pipeline (l : Label V σ)
  /-- `mtdp_futex_notify_all` -/
  | notify (who : Notifier)
  /-- a thread in `mtdp_pipeline_wait` goes on -/
  | thread (t : Nat)
  /-- it wakes up without a reason -/
  | wakeUp (t : Nat)
  /-- it wakes up because of a signal -/
  | signal (t : Nat)

/-- One step of the pipeline and the waiting threads. -/
def waitStep (p : Platform) (w : WaitState V σ) : WaitLabel V σ → Option (WaitState V σ)
  | .pipeline l =>
      l.notifier.bind fun who =>
        if w.owes who = none then
          (step w.pipeline l).map fun s =>
            { w with pipeline := s, owes := Function.update w.owes who (w.pipeline.stores l) }
        else none
  | .notify who =>
      (w.owes who).map fun ftx =>
        { w with
          owes := Function.update w.owes who none
          waiters := fun t => (w.waiters t).notify p w.pipeline.nStages ftx }
  | .thread t =>
      ((w.waiters t).step w.pipeline).map fun pc =>
        { w with waiters := Function.update w.waiters t pc }
  | .wakeUp t =>
      match w.waiters t with
      | .asleep ftx =>
          some { w with
            waiters := Function.update w.waiters t (.woken p w.pipeline.nStages ftx) }
      | _ => none
  | .signal t =>
      match p, w.waiters t with
      | .c11, .asleep ftx =>
          some { w with
            waiters := Function.update w.waiters t (.after w.pipeline.nStages ftx) }
      | _, _ => none

/-- Nobody waits yet. -/
def WaitState.init (s : State V σ) : WaitState V σ := ⟨s, fun _ => none, fun _ => .outside⟩

/-! ## No wake-up is lost -/

/-- A thread of the pipeline stores to its flag where `stores` says so. -/
theorem Move.done_stored {s : State V σ} {u : Nat} {a : Answer V σ} {v : View V σ}
    (hmove : Move (s.role u) a (s.view u) v) :
    v.impl.done = (s.impls u).done ∨ s.stores (.worker u a) = some (.done u) := by
  cases hmove
  case flagged h =>
    right
    rcases h with h | h | h <;> rw [State.view_impl] at h <;> simp [State.stores, h]
  case unflagged _ h =>
    right
    rw [State.view_impl] at h
    simp [State.stores, h]
  case finishing _ h hfinish =>
    right
    rw [State.view_impl] at h
    simp [State.stores, h, hfinish]
  all_goals exact .inl rfl

/-- The flag of a unit that is not the one replaced. -/
theorem State.setImpl_load (s : State V σ) (u : Nat) (i : Impl V σ) (ftx : Futex) :
    (s.setImpl u i).load ftx = if ftx = .done u then i.done else s.load ftx := by
  cases ftx with
  | destroying => rfl
  | done w =>
      by_cases hne : w = u
      · subst hne
        simp [load]
      · simp [load, hne]

theorem controllerStep_load {s s' : State V σ} {allocated : Nat → Bool}
    (hstep : s.controllerStep allocated = some s') (ftx : Futex) :
    s'.load ftx = s.load ftx ∨ s.stores (.controller allocated) = some ftx ∨
      s'.load ftx = ftx.val := by
  -- the record of a unit has been replaced
  have hset (u : Nat) (i : Impl V σ) (hload : s'.load ftx = (s.setImpl u i).load ftx)
      (hi : i.done = (s.impls u).done ∨ s.stores (.controller allocated) = some (.done u) ∨
        i.done = false) :
      s'.load ftx = s.load ftx ∨ s.stores (.controller allocated) = some ftx ∨
        s'.load ftx = ftx.val := by
    rw [State.setImpl_load] at hload
    split at hload
    · next heq =>
        subst heq
        rw [hload]
        exact hi
    · exact .inl hload
  cases controllerStep_move hstep
  case create left _ =>
    refine hset _ _ (by cases ftx <;> rfl) (.inr (.inr ?_))
    cases s.role left <;> rfl
  case start left _ =>
    exact hset left (workerEnable (s.impls left)) (by cases ftx <;> rfl) (.inl rfl)
  case stop u _ _ =>
    exact hset u (workerDisable (s.impls u)) (by cases ftx <;> rfl) (.inl rfl)
  case disabling hcontroller =>
    cases ftx with
    | destroying => exact .inr (.inl (by simp [State.stores, hcontroller]))
    | done u => exact .inl rfl
  case destroyFirst u _ hcontroller =>
    refine hset _ _ (by cases ftx <;> rfl) ?_
    cases hrole : s.role u
    · exact .inr (.inl (by simp [State.stores, hcontroller, hrole]))
    · exact .inl rfl
    · exact .inl rfl
  case destroySecond u hcontroller =>
    refine hset _ _ (by cases ftx <;> rfl) ?_
    cases hrole : s.role u
    · exact .inl rfl
    · exact .inr (.inl (by simp [State.stores, hcontroller, hrole]))
    · exact .inr (.inl (by simp [State.stores, hcontroller, hrole]))
  case giveBack left _ =>
    cases ftx with
    | destroying => exact .inl rfl
    | done u =>
        left
        by_cases hne : u = left
        · subst hne
          simp [State.load, Role.returnBuffers_flags]
        · simp [State.load, hne]
  case mark u hstage hcontroller =>
    refine hset _ _ (by cases ftx <;> rfl) (.inr (.inl ?_))
    simp [State.stores, hcontroller, hstage]
  case disabled u hlast hcontroller =>
    cases ftx with
    | destroying => exact .inr (.inl (by simp [State.stores, hcontroller, hlast]))
    | done u => exact .inl rfl
  all_goals exact .inl (by cases ftx <;> rfl)

/-- A step stores to the futex that `stores` names, or it stores the value
that a thread asleep there waits on. -/
theorem step_load {s s' : State V σ} {l : Label V σ} (hstep : step s l = some s') (ftx : Futex) :
    s'.load ftx = s.load ftx ∨ s.stores l = some ftx ∨ s'.load ftx = ftx.val := by
  cases l with
  | worker u a =>
      obtain ⟨_, v, hmove, rfl⟩ := step_worker hstep
      cases ftx with
      | destroying => exact .inl rfl
      | done w =>
          by_cases hne : w = u
          · subst hne
            simp only [State.load, State.putView_impls_self]
            rcases hmove.done_stored with heq | hstores
            · exact .inl heq
            · exact .inr (.inl hstores)
          · exact .inl (by simp only [State.load, State.putView_impls_of_ne _ _ _ hne])
  | call c =>
      simp only [step] at hstep
      split at hstep <;> cases hstep
      left
      rcases s.beginCall_cases c with ⟨e, _, _, heq⟩ | ⟨_, _, heq⟩ | ⟨_, _, _, heq⟩ |
        ⟨_, _, _, heq⟩ | ⟨_, _, heq⟩ <;> rw [heq] <;> cases ftx <;> rfl
  | controller allocated => exact controllerStep_load hstep ftx
  | waiter =>
      cases hstep
      exact .inl (by cases ftx <;> rfl)

namespace WaitPc

@[simp] theorem after_sleepsOn (n : Nat) (ftx : Futex) : (after n ftx).sleepsOn = none := by
  cases ftx with
  | destroying => rfl
  | done u => by_cases hu : u ≤ n <;> simp [after, hu, sleepsOn]

theorem of_sleepsOn {pc : WaitPc} {ftx : Futex} {v : Bool} (h : pc.sleepsOn = some (ftx, v)) :
    pc = .asleep ftx ∧ v = ftx.val := by
  cases pc <;> simp only [sleepsOn, Option.some.injEq, Prod.mk.injEq, reduceCtorEq] at h
  case asleep =>
    obtain ⟨rfl, rfl⟩ := h
    exact ⟨rfl, rfl⟩

@[simp] theorem woken_sleepsOn (p : Platform) (n : Nat) (ftx : Futex) :
    (woken p n ftx).sleepsOn = none := by
  cases p with
  | c11 => rfl
  | windows => exact after_sleepsOn n ftx

/-- A thread goes to sleep on the value it waits on only. -/
theorem step_sleepsOn {s : State V σ} {pc pc' : WaitPc} (hstep : pc.step s = some pc') :
    pc'.sleepsOn = none ∨ ∃ ftx, pc' = .asleep ftx ∧ s.load ftx = ftx.val := by
  cases pc <;> simp only [step, Option.some.injEq, reduceCtorEq] at hstep <;> subst hstep
  case enter ftx =>
    by_cases hload : s.load ftx = ftx.val
    · exact .inr ⟨ftx, by simp [hload]⟩
    · simp [hload]
  case outside | returned => exact .inl rfl
  all_goals
    left
    (repeat' split) <;> first | rfl | exact after_sleepsOn _ _

theorem notify_sleepsOn {p : Platform} {n : Nat} {ftx a : Futex} {v : Bool} {pc : WaitPc}
    (hsleeps : (notify p n ftx pc).sleepsOn = some (a, v)) :
    pc.sleepsOn = some (a, v) ∧ a ≠ ftx := by
  unfold notify at hsleeps
  split at hsleeps
  · simp at hsleeps
  · next hne =>
      refine ⟨hsleeps, ?_⟩
      rintro rfl
      exact hne (of_sleepsOn hsleeps).1

end WaitPc

namespace WaitState

/-- Who sleeps on a futex that has changed has a notification to come. -/
def NoWakeLost (w : WaitState V σ) : Prop :=
  Lib.Futex.NoWakeLost w.pipeline.load (fun t => (w.waiters t).sleepsOn) w.owes

theorem init_noWakeLost (s : State V σ) : (init s).NoWakeLost := noWakeLost_of_awake fun _ => rfl

/-- A thread that is awake moves. -/
theorem NoWakeLost.goto {w : WaitState V σ} (hw : w.NoWakeLost) (t : Nat) {pc : WaitPc}
    (hpc : pc.sleepsOn = none) :
    NoWakeLost { w with waiters := Function.update w.waiters t pc } := by
  apply Lib.Futex.NoWakeLost.awake hw
  intro t' a v hsleeps
  by_cases hne : t' = t
  · subst hne
    simp [hpc] at hsleeps
  · simpa [hne] using hsleeps

end WaitState

/-- **One step.** -/
theorem waitStep_noWakeLost {p : Platform} {w w' : WaitState V σ} {l : WaitLabel V σ}
    (hw : w.NoWakeLost) (hstep : waitStep p w l = some w') : w'.NoWakeLost := by
  cases l with
  | pipeline l =>
      obtain ⟨who, _, hstep⟩ := Option.bind_eq_some_iff.mp hstep
      obtain ⟨hpaid, hstep⟩ := Option.ite_none_right_eq_some.mp hstep
      obtain ⟨s, hnext, rfl⟩ := Option.map_eq_some_iff.mp hstep
      apply Lib.Futex.NoWakeLost.stored hw hpaid
      intro t ftx v hsleeps
      rw [(WaitPc.of_sleepsOn hsleeps).2]
      exact step_load hnext ftx
  | notify who =>
      obtain ⟨ftx, howed, rfl⟩ := Option.map_eq_some_iff.mp hstep
      exact Lib.Futex.NoWakeLost.notified hw howed fun _ _ _ => WaitPc.notify_sleepsOn
  | thread t =>
      obtain ⟨pc, hnext, rfl⟩ := Option.map_eq_some_iff.mp hstep
      rcases WaitPc.step_sleepsOn hnext with hawake | ⟨ftx, rfl, hload⟩
      · exact hw.goto t hawake
      · have hsleeps : (fun t' => (Function.update w.waiters t (.asleep ftx) t').sleepsOn) =
            Function.update (fun t' => (w.waiters t').sleepsOn) t (some (ftx, ftx.val)) := by
          funext t'
          by_cases hne : t' = t
          · subst hne
            simp [WaitPc.sleepsOn]
          · simp [hne]
        unfold WaitState.NoWakeLost
        rw [hsleeps]
        exact Lib.Futex.NoWakeLost.asleep_of_expected hw hload
  | wakeUp t =>
      simp only [waitStep] at hstep
      split at hstep <;> cases hstep
      exact hw.goto t (WaitPc.woken_sleepsOn _ _ _)
  | signal t =>
      simp only [waitStep] at hstep
      split at hstep <;> cases hstep
      exact hw.goto t (WaitPc.after_sleepsOn _ _)

/-- **No wake-up is lost.**  In every state that a pipeline and the threads
that wait for it reach, a thread asleep on a futex sleeps on the value it
waits on, or somebody has stored to the futex and will notify it next. -/
theorem no_wake_lost {p : Platform} {s : State V σ} {ls : List (WaitLabel V σ)}
    {w : WaitState V σ} (hrun : run (waitStep p) (.init s) ls = some w) {t : Nat} {ftx : Futex}
    (hasleep : w.waiters t = .asleep ftx) :
    w.pipeline.load ftx = ftx.val ∨ ∃ who, w.owes who = some ftx := by
  have hw : w.NoWakeLost :=
    run_invariant (fun _ _ _ => waitStep_noWakeLost) (WaitState.init_noWakeLost s) hrun
  exact hw t ftx ftx.val (by simp [hasleep, WaitPc.sleepsOn])

/-- A thread sleeps on the flag of the source; the controller has stored to the
flag and not notified the thread yet. -/
def asleepAtSource : List (WaitLabel Unit Unit) :=
  enableAndStart.map .pipeline ++ List.replicate 5 (.thread 0) ++
    [.pipeline (.call .disable)] ++ (controllerSteps 1).map .pipeline ++ [.notify .controller] ++
    (controllerSteps 1).map .pipeline

theorem no_wake_lost_asleepAtSource :
    let w := (run (waitStep .c11) (.init smallest) asleepAtSource).get (by decide)
    w.pipeline.load (.done 0) = false ∨ ∃ who, w.owes who = some (.done 0) :=
  no_wake_lost (p := .c11) (s := smallest)
    (w := (run (waitStep .c11) (.init smallest) asleepAtSource).get (by decide))
    (Option.some_get _).symm (t := 0) (by decide)

end Mtdp.Pipeline
