import Mtdp.Pipeline.Disable
import Mtdp.Pipeline.Futex
import Mtdp.Pipeline.Lifecycle

/-!
# Threads in `mtdp_pipeline_wait`

What the futexes do for the threads that wait for a pipeline.  Such a thread
is the waiter of `Mtdp.Pipeline.Control`, where a wait may return at any time,
and after a disable that leaves all flags set it comes back: it is not asleep,
and no futex puts it to sleep again.

## Main results

* `wait_seen` — what one waiter and the pipeline do is a run of the pipeline
  of `Mtdp.Pipeline.Control`.
* `disable_wakes_waiters` — after a disable every thread in
  `mtdp_pipeline_wait` comes back.
-/

namespace Mtdp.Pipeline

open Lib.Transition Lock2

variable {V σ : Type}

/-! ## What one waiter sees -/

/-- The waiter of a pipeline is none of its threads. -/
theorem step_setWaiter (s : State V σ) (x : Waiter) {l : Label V σ} (hl : l ≠ .waiter) :
    step { s with waiter := x } l = (step s l).map fun s => { s with waiter := x } := by
  cases l with
  | worker u a =>
      by_cases hu : u ≤ s.nStages + 1
      · simp only [step, hu, if_true]
        rw [Option.map_map]
        rfl
      · simp [step, hu]
  | call c =>
      by_cases hidle : s.controller = .idle
      · simp only [step, hidle, if_true]
        cases c <;> simp only [State.beginCall, Option.map_some] <;> (repeat' split) <;> rfl
      · simp [step, hidle]
  | controller allocated =>
      simp only [step, State.controllerStep]
      cases s.controller <;> (repeat' split) <;> rfl
  | waiter => exact absurd rfl hl

/-- The pipeline with one of the waiting threads. -/
def WaitState.seen (w : WaitState V σ) (t : Nat) : State V σ :=
  { w.pipeline with waiter := (w.waiters t).waiter }

/-- The part of a step that concerns the pipeline and this thread. -/
def seenLabels (p : Platform) (t : Nat) (w : WaitState V σ) : WaitLabel V σ → List (Label V σ)
  | .pipeline l => [l]
  | l =>
      match waitStep p w l with
      | some w' => if (w'.waiters t).waiter = (w.waiters t).waiter then [] else [.waiter]
      | none => []

namespace WaitPc

theorem after_waiter (s : State V σ) (ftx : Futex) :
    ({ s with waiter := ftx.waiter } : State V σ).waiterStep =
      { s with waiter := (after s.nStages ftx).waiter } := by
  cases ftx with
  | destroying => rfl
  | done u =>
      by_cases hu : u ≤ s.nStages <;> simp [State.waiterStep, Futex.waiter, after, hu, waiter]

/-- A step of the thread is not seen, or it is the step of a waiter. -/
theorem step_waiter {s : State V σ} {pc pc' : WaitPc} (hstep : pc.step s = some pc') :
    pc'.waiter = pc.waiter ∨
      ({ s with waiter := pc.waiter } : State V σ).waiterStep =
        { s with waiter := pc'.waiter } := by
  cases pc <;> simp only [step, Option.some.injEq, reduceCtorEq] at hstep <;> subst hstep
  case outside | returned => exact .inr rfl
  case test ftx | enter ftx =>
    by_cases hload : s.load ftx = ftx.val
    · simp [hload, waiter]
    · simp only [hload, if_false]
      exact .inr (after_waiter s ftx)
  case ifEnabled =>
    right
    cases s.enabled <;> simp [State.waiterStep, waiter, Futex.waiter]
  case loading u =>
    right
    cases hdone : (s.impls u).done
    · simp [State.waiterStep, waiter, Futex.waiter, hdone]
    · by_cases hu : u ≤ s.nStages <;> simp [State.waiterStep, waiter, hdone, hu]

theorem woken_waiter (p : Platform) (s : State V σ) (ftx : Futex) :
    (woken p s.nStages ftx).waiter = ftx.waiter ∨
      ({ s with waiter := ftx.waiter } : State V σ).waiterStep =
        { s with waiter := (woken p s.nStages ftx).waiter } := by
  cases p with
  | c11 => exact .inl rfl
  | windows => exact .inr (after_waiter s ftx)

end WaitPc

/-- One step of a waiting thread, or of the thread that notifies it. -/
theorem waitStep_waiter {p : Platform} {w w' : WaitState V σ} {l : WaitLabel V σ}
    (hstep : waitStep p w l = some w') (hl : ∀ l', l ≠ .pipeline l') (t : Nat) :
    w'.pipeline = w.pipeline ∧ ((w'.waiters t).waiter = (w.waiters t).waiter ∨
      (w.seen t).waiterStep = w'.seen t) := by
  -- thread `t'` has moved to `pc`
  have hmoved (t' : Nat) (pc : WaitPc)
      (hpc : pc.waiter = (w.waiters t').waiter ∨
        (w.seen t').waiterStep = { w.pipeline with waiter := pc.waiter }) :
      (Function.update w.waiters t' pc t).waiter = (w.waiters t).waiter ∨
        (w.seen t).waiterStep =
          { w.pipeline with waiter := (Function.update w.waiters t' pc t).waiter } := by
    by_cases hne : t = t'
    · subst hne
      simpa using hpc
    · exact .inl (by rw [Function.update_of_ne hne])
  cases l with
  | pipeline l => exact absurd rfl (hl l)
  | notify who =>
      obtain ⟨ftx, _, rfl⟩ := Option.map_eq_some_iff.mp hstep
      refine ⟨rfl, ?_⟩
      unfold WaitState.seen WaitPc.notify
      by_cases hasleep : w.waiters t = .asleep ftx
      · simpa [hasleep, WaitPc.waiter] using WaitPc.woken_waiter p w.pipeline ftx
      · simp [hasleep]
  | thread t' =>
      obtain ⟨pc, hnext, rfl⟩ := Option.map_eq_some_iff.mp hstep
      exact ⟨rfl, hmoved t' pc (WaitPc.step_waiter hnext)⟩
  | wakeUp t' =>
      simp only [waitStep] at hstep
      split at hstep <;> cases hstep
      next ftx hasleep =>
      refine ⟨rfl, hmoved t' _ ?_⟩
      rw [WaitState.seen, hasleep]
      exact WaitPc.woken_waiter p w.pipeline ftx
  | signal t' =>
      simp only [waitStep] at hstep
      split at hstep <;> cases hstep
      next ftx hasleep =>
      refine ⟨rfl, hmoved t' _ (.inr ?_)⟩
      rw [WaitState.seen, hasleep]
      exact WaitPc.after_waiter w.pipeline ftx

/-- **One step, as one waiter sees it.** -/
theorem waitStep_seen {p : Platform} {w w' : WaitState V σ} {l : WaitLabel V σ}
    (hstep : waitStep p w l = some w') (t : Nat) :
    run step (w.seen t) (seenLabels p t w l) = some (w'.seen t) := by
  have hwaiter (hl : ∀ l', l ≠ .pipeline l') :
      run step (w.seen t) (if (w'.waiters t).waiter = (w.waiters t).waiter then [] else [.waiter]) =
        some (w'.seen t) := by
    obtain ⟨hpipeline, hmoved⟩ := waitStep_waiter hstep hl t
    split
    · next hsame => rw [run, WaitState.seen, WaitState.seen, hpipeline, hsame]
    · next hother =>
        rw [run, step, hmoved.resolve_left hother]
        rfl
  cases l with
  | pipeline l =>
      obtain ⟨who, hwho, hstep⟩ := Option.bind_eq_some_iff.mp hstep
      obtain ⟨_, hstep⟩ := Option.ite_none_right_eq_some.mp hstep
      obtain ⟨s, hnext, rfl⟩ := Option.map_eq_some_iff.mp hstep
      have hl : l ≠ .waiter := by
        rintro rfl
        cases hwho
      rw [seenLabels, run, WaitState.seen, step_setWaiter _ _ hl, hnext]
      rfl
  | notify | thread | wakeUp | signal =>
      simp only [seenLabels, hstep]
      exact hwaiter (by rintro _ ⟨⟩)

/-- **Refinement.**  What one waiting thread and the pipeline do is a run of
the pipeline of `Mtdp.Pipeline.Control`, in which a wait on a futex may return
at any time. -/
theorem wait_seen {p : Platform} {s : State V σ} {ls : List (WaitLabel V σ)} {w : WaitState V σ}
    (hrun : run (waitStep p) (.init s) ls = some w) (t : Nat) :
    run step { s with waiter := .outside }
      (observe (waitStep p) (seenLabels p t) (.init s) ls) = some (w.seen t) := by
  apply run_simulates (I := fun _ => True) (f := fun w => w.seen t) _ trivial hrun
  exact fun _ _ _ _ hstep => ⟨trivial, waitStep_seen hstep t⟩

theorem wait_seen_asleepAtSource :
    run step { smallest with waiter := .outside }
      (observe (waitStep .windows) (seenLabels .windows 0) (.init smallest) asleepAtSource) =
      some (((run (waitStep .windows) (.init smallest) asleepAtSource).get (by decide)).seen 0) :=
  wait_seen (Option.some_get _).symm 0

/-! ## A disable wakes the waiters -/

/-- The units of a pipeline. -/
def Futex.InRange (n : Nat) : Futex → Prop
  | .destroying => True
  | .done u => u ≤ n + 1

namespace WaitPc

/-- The thread waits for a unit of the pipeline. -/
def InRange (n : Nat) : WaitPc → Prop
  | .test ftx | .enter ftx | .asleep ftx => ftx.InRange n
  | .loading u => u ≤ n + 1
  | _ => True

theorem after_inRange {n : Nat} {ftx : Futex} : (after n ftx).InRange n := by
  cases ftx with
  | destroying => trivial
  | done u => by_cases hu : u ≤ n <;> simp [after, hu, InRange, Futex.InRange]

theorem step_inRange {s : State V σ} {pc pc' : WaitPc} (hpc : pc.InRange s.nStages)
    (hstep : pc.step s = some pc') : pc'.InRange s.nStages := by
  cases pc <;> simp only [step, Option.some.injEq, reduceCtorEq] at hstep <;> subst hstep
  case outside | returned => trivial
  case test ftx | enter ftx =>
    split
    · exact hpc
    · exact after_inRange
  case ifEnabled => split <;> simp [InRange, Futex.InRange]
  case loading u =>
    split
    · split <;> simp only [InRange]
      omega
    · simp [InRange, Futex.InRange]

theorem woken_inRange {p : Platform} {n : Nat} {ftx : Futex} (hftx : ftx.InRange n) :
    (woken p n ftx).InRange n := by
  cases p with
  | c11 => exact hftx
  | windows => exact after_inRange

theorem notify_inRange {p : Platform} {n : Nat} {ftx : Futex} {pc : WaitPc}
    (hpc : pc.InRange n) : (notify p n ftx pc).InRange n := by
  unfold notify
  split
  · next hasleep =>
      rw [hasleep] at hpc
      exact woken_inRange hpc
  · exact hpc

/-- How many steps a thread has to go when all futexes let it through. -/
def rank (n : Nat) : WaitPc → Nat
  | .outside => 2 * n + 7
  | .test ftx | .enter ftx | .asleep ftx =>
      match ftx with
      | .destroying => 2 * n + 6
      | .done u => 2 * n + 4 - u
  | .ifEnabled => 2 * n + 5
  | .loading u => n + 2 - u
  | .returned _ => 0

theorem rank_le (n : Nat) (pc : WaitPc) : pc.rank n ≤ 2 * n + 7 := by
  unfold rank
  (repeat' split) <;> omega

end WaitPc

/-- Nothing keeps a thread in `mtdp_pipeline_wait`. -/
structure Open (s : State V σ) : Prop where
  destroying : s.destroying = false
  flags : ∀ u ≤ s.nStages + 1, (s.impls u).done = true

theorem Open.load_ne {s : State V σ} (hs : Open s) {ftx : Futex} (hftx : ftx.InRange s.nStages) :
    s.load ftx ≠ ftx.val := by
  cases ftx with
  | destroying => simp [State.load, Futex.val, hs.destroying]
  | done u => simp [State.load, Futex.val, hs.flags u hftx]

theorem WaitPc.after_rank {n : Nat} {ftx : Futex} (hftx : ftx.InRange n) :
    (after n ftx).rank n < (WaitPc.test ftx).rank n := by
  cases ftx with
  | destroying => simp [after, rank]
  | done u =>
      simp only [Futex.InRange] at hftx
      by_cases hu : u ≤ n
      · simp only [after, hu, if_true, rank]
        omega
      · simp only [after, hu, if_false, rank]
        omega

/-- A thread that is awake goes on. -/
theorem Open.progress {s : State V σ} (hs : Open s) {pc : WaitPc} (hpc : pc.InRange s.nStages)
    (hawake : ∀ ftx, pc ≠ .asleep ftx) :
    (∃ e, pc = .returned e) ∨
      ∃ pc', pc.step s = some pc' ∧ pc'.rank s.nStages < pc.rank s.nStages := by
  cases pc with
  | outside => exact .inr ⟨_, rfl, by simp [WaitPc.rank]⟩
  | test ftx | enter ftx =>
      refine .inr ⟨_, rfl, ?_⟩
      rw [if_neg (hs.load_ne hpc)]
      exact WaitPc.after_rank hpc
  | asleep ftx => exact absurd rfl (hawake ftx)
  | ifEnabled =>
      refine .inr ⟨_, rfl, ?_⟩
      split <;> simp [WaitPc.rank]
  | loading u =>
      simp only [WaitPc.InRange] at hpc
      refine .inr ⟨_, rfl, ?_⟩
      rw [if_pos (hs.flags u hpc)]
      split <;> simp only [WaitPc.rank] <;> omega
  | returned e => exact .inl ⟨e, rfl⟩

/-- While nothing is owed and the futexes are open, a thread that has not
fallen asleep returns. -/
theorem Open.returns {p : Platform} {w : WaitState V σ} (hopen : Open w.pipeline) {t : Nat}
    (hrange : (w.waiters t).InRange w.pipeline.nStages)
    (hawake : ∀ ftx, w.waiters t ≠ .asleep ftx) :
    ∃ k ≤ (w.waiters t).rank w.pipeline.nStages, ∃ w',
      run (waitStep p) w (List.replicate k (.thread t)) = some w' ∧
        ∃ e, w'.waiters t = .returned e := by
  induction hrank : (w.waiters t).rank w.pipeline.nStages using Nat.strong_induction_on
    generalizing w with
  | _ rank ih =>
      rcases hopen.progress hrange hawake with hreturned | ⟨pc, hnext, hless⟩
      · exact ⟨0, Nat.zero_le _, w, rfl, hreturned⟩
      · have hstep : waitStep p w (.thread t) =
            some { w with waiters := Function.update w.waiters t pc } := by
          simp [waitStep, hnext]
        have hpc : pc.InRange w.pipeline.nStages := WaitPc.step_inRange hrange hnext
        have hawake' : ∀ ftx, pc ≠ .asleep ftx := by
          rintro ftx rfl
          have hload : w.pipeline.load ftx = ftx.val := by
            rcases WaitPc.step_sleepsOn hnext with h | ⟨_, heq, h⟩
            · cases h
            · cases heq
              exact h
          exact hopen.load_ne hpc hload
        obtain ⟨k, hk, w', hrun, hreturned⟩ := ih (pc.rank w.pipeline.nStages) (by omega)
          (w := { w with waiters := Function.update w.waiters t pc }) hopen (by simpa using hpc)
          (by simpa using hawake') (by simp)
        exact ⟨k + 1, by omega, w', run_cons.mpr ⟨_, hstep, hrun⟩, hreturned⟩

/-! ## Who may still owe a notification -/

/-- A disable call is in progress. -/
def Disabling (s : State V σ) : Prop :=
  match s.controller with
  | .destroying _ | .destroyed _ | .joining _ | .clearing _ | .returning _ | .marking _ => True
  | _ => False

/-- A step of a thread that stores to its flag does not end the thread. -/
theorem Move.of_stores {s : State V σ} {u : Nat} {a : Answer V σ} {v : View V σ} {ftx : Futex}
    (hmove : Move (s.role u) a (s.view u) v) (hstores : s.stores (.worker u a) = some ftx) :
    ¬ v.impl.pc.Resting := by
  intro hrest
  have hpc : (s.impls u).pc = .test ∨ (s.impls u).pc = .recheck := by
    cases hmove
    case goto hgoto =>
      cases hgoto
      case leave h _ => exact h
      all_goals
        generalize s.role u = role at *
        cases role <;> simp_all [Pc.Resting, View.goto, Role.entry, Role.afterPush, Role.afterPull]
    all_goals
      generalize s.role u = role at *
      cases role <;> simp_all [Pc.Resting, View.storeDone, View.releaseOutput, View.releaseInput,
        View.askInput, View.invoke, View.returns, Role.afterPush, Role.afterPull,
        Role.afterCallback]
  rcases hpc with hpc | hpc <;> simp [State.stores, hpc] at hstores

/-- What holds of the waiting threads and of those that notify them. -/
structure WaitersInv (w : WaitState V σ) : Prop where
  noWakeLost : w.NoWakeLost
  inRange : ∀ t, (w.waiters t).InRange w.pipeline.nStages
  shape : Shape w.pipeline
  destroying : w.pipeline.destroying = true → Disabling w.pipeline
  /-- a thread of the pipeline that owes a notification runs -/
  owes : ∀ u ftx, w.owes (.worker u) = some ftx →
    u ≤ w.pipeline.nStages + 1 ∧ ¬ (w.pipeline.impls u).pc.Resting

theorem Created.waitersInv {s : State V σ} (hs : Created s) : WaitersInv (.init s) where
  noWakeLost := WaitState.init_noWakeLost s
  inRange := fun _ => trivial
  shape := hs.shape
  destroying := fun h => absurd (hs.destroying.symm.trans h) (by decide)
  owes := fun _ _ h => by cases h

/-- The pipeline says that it is being destroyed only while a disable call
runs. -/
theorem step_destroying {s s' : State V σ} {l : Label V σ}
    (hs : s.destroying = true → Disabling s) (hstep : step s l = some s') :
    s'.destroying = true → Disabling s' := by
  cases l with
  | worker u a =>
      obtain ⟨_, v, _, rfl⟩ := step_worker hstep
      exact hs
  | call c =>
      simp only [step] at hstep
      split at hstep <;> cases hstep
      rename_i hidle
      have hdestroying : s.destroying = false := by
        by_contra h
        simpa [Disabling, hidle] using hs (by simpa using h)
      intro h
      rcases s.beginCall_cases c with ⟨e, _, _, heq⟩ | ⟨_, _, heq⟩ | ⟨_, _, _, heq⟩ |
        ⟨_, _, _, heq⟩ | ⟨_, _, heq⟩ <;> simp [heq, hdestroying, State.report] at h
  | controller allocated =>
      cases controllerStep_move hstep <;> rename_i hcontroller <;>
        simp only [Disabling, hcontroller] at hs <;>
        simp_all [Disabling, State.report, State.setImpl, State.setPipe]
  | waiter =>
      cases hstep
      exact hs

/-- Who owes a notification after a step of the pipeline. -/
theorem step_owes {s s' : State V σ} {l : Label V σ} {owes : Notifier → Option Futex}
    {who : Notifier} (hwho : l.notifier = some who)
    (hs : ∀ u ftx, owes (.worker u) = some ftx → u ≤ s.nStages + 1 ∧ ¬ (s.impls u).pc.Resting)
    (hpaid : owes who = none) (hstep : step s l = some s') (u : Nat) (ftx : Futex)
    (howes : Function.update owes who (s.stores l) (.worker u) = some ftx) :
    u ≤ s'.nStages + 1 ∧ ¬ (s'.impls u).pc.Resting := by
  rw [step_nStages hstep]
  by_cases hne : Notifier.worker u = who
  · subst hne
    rw [Function.update_self] at howes
    cases l with
    | worker u' a =>
        obtain rfl : u' = u := by simpa [Label.notifier] using hwho
        obtain ⟨hu, v, hmove, rfl⟩ := step_worker hstep
        exact ⟨hu, by simpa using hmove.of_stores howes⟩
    | call | controller | waiter => cases hwho
  · rw [Function.update_of_ne hne] at howes
    obtain ⟨hu, hrest⟩ := hs u ftx howes
    refine ⟨hu, ?_⟩
    cases l with
    | worker u' a =>
        obtain ⟨_, v, _, rfl⟩ := step_worker hstep
        have hother : u ≠ u' := by
          rintro rfl
          exact hne (by simpa [Label.notifier] using hwho)
        rwa [State.putView_impls_of_ne _ _ _ hother]
    | call c =>
        simp only [step] at hstep
        split at hstep <;> cases hstep
        rcases s.beginCall_cases c with ⟨e, _, _, heq⟩ | ⟨_, _, heq⟩ | ⟨_, _, _, heq⟩ |
          ⟨_, _, _, heq⟩ | ⟨_, _, heq⟩ <;> rw [heq] <;> exact hrest
    | controller allocated =>
        rcases (controllerStep_impl hstep u).2 with hpc | hpc
        · rwa [hpc]
        · simp [hpc, Pc.Resting]
    | waiter => cases hwho

theorem waitStep_waitersInv {p : Platform} {w w' : WaitState V σ} {l : WaitLabel V σ}
    (hw : WaitersInv w) (hstep : waitStep p w l = some w') : WaitersInv w' := by
  have hnoWakeLost := waitStep_noWakeLost hw.noWakeLost hstep
  -- one thread has moved
  have hgoto (t : Nat) (pc : WaitPc) (hpc : pc.InRange w.pipeline.nStages) (t' : Nat) :
      (Function.update w.waiters t pc t').InRange w.pipeline.nStages := by
    by_cases hne : t' = t
    · subst hne
      simpa using hpc
    · rw [Function.update_of_ne hne]
      exact hw.inRange t'
  cases l with
  | pipeline l =>
      obtain ⟨who, hwho, hstep⟩ := Option.bind_eq_some_iff.mp hstep
      obtain ⟨hpaid, hstep⟩ := Option.ite_none_right_eq_some.mp hstep
      obtain ⟨s, hnext, rfl⟩ := Option.map_eq_some_iff.mp hstep
      refine ⟨hnoWakeLost, fun t => ?_, step_shape hw.shape hnext,
        step_destroying hw.destroying hnext, step_owes hwho hw.owes hpaid hnext⟩
      simp only [step_nStages hnext]
      exact hw.inRange t
  | notify who =>
      obtain ⟨ftx, _, rfl⟩ := Option.map_eq_some_iff.mp hstep
      refine ⟨hnoWakeLost, fun t => WaitPc.notify_inRange (hw.inRange t), hw.shape, hw.destroying,
        fun u ftx' howes => ?_⟩
      by_cases hne : Notifier.worker u = who
      · subst hne
        simp at howes
      · exact hw.owes u ftx' (by simpa [hne] using howes)
  | thread t =>
      obtain ⟨pc, hnext, rfl⟩ := Option.map_eq_some_iff.mp hstep
      exact ⟨hnoWakeLost, hgoto t pc (WaitPc.step_inRange (hw.inRange t) hnext), hw.shape,
        hw.destroying, hw.owes⟩
  | wakeUp t =>
      simp only [waitStep] at hstep
      split at hstep <;> cases hstep
      next ftx hasleep =>
      have hftx : ftx.InRange w.pipeline.nStages := by
        have hpc := hw.inRange t
        rwa [hasleep] at hpc
      exact ⟨hnoWakeLost, hgoto t _ (WaitPc.woken_inRange hftx), hw.shape, hw.destroying, hw.owes⟩
  | signal t =>
      simp only [waitStep] at hstep
      split at hstep <;> cases hstep
      exact ⟨hnoWakeLost, hgoto t _ WaitPc.after_inRange, hw.shape, hw.destroying, hw.owes⟩

/-- When the call that disables a pipeline is over, no thread owes a
notification. -/
theorem WaitersInv.paid {w : WaitState V σ} (hw : WaitersInv w)
    (hidle : w.pipeline.controller = .idle) (hdisabled : w.pipeline.enabled = false)
    (hcall : w.owes .controller = none) (who : Notifier) : w.owes who = none := by
  cases who with
  | controller => exact hcall
  | worker u =>
      by_contra howes
      obtain ⟨ftx, howes⟩ := Option.ne_none_iff_exists'.mp howes
      obtain ⟨hu, hruns⟩ := hw.owes u ftx howes
      have hshape := hw.shape
      rw [Shape, hidle] at hshape
      exact hruns (hshape hdisabled u hu)

/-! ## The release -/

/-- The sink does not clear its flag once `mtdp_sink_destroy` has set it. -/
def KeepsFlag (w : WaitState V σ) (l : WaitLabel V σ) : Prop :=
  ∀ l', l = .pipeline l' → SinkKeepsFlag w.pipeline l'

/-- The flags that a disable has set are not cleared. -/
structure FlagsKept (w : WaitState V σ) : Prop where
  inv : WaitersInv w
  disable : DisableInv w.pipeline
  released : Released w.pipeline
  sink : SinkFlagSet w.pipeline

theorem waitStep_flagsKept {p : Platform} {w w' : WaitState V σ} {l : WaitLabel V σ}
    (hw : FlagsKept w) (hkeeps : KeepsFlag w l) (hstep : waitStep p w l = some w') :
    FlagsKept w' := by
  have hinv := waitStep_waitersInv hw.inv hstep
  have hsame (hpipeline : w'.pipeline = w.pipeline) : FlagsKept w' := by
    refine ⟨hinv, ?_, ?_, ?_⟩ <;> rw [hpipeline]
    · exact hw.disable
    · exact hw.released
    · exact hw.sink
  cases l with
  | pipeline l =>
      obtain ⟨who, _, hstep⟩ := Option.bind_eq_some_iff.mp hstep
      obtain ⟨_, hstep⟩ := Option.ite_none_right_eq_some.mp hstep
      obtain ⟨s, hnext, rfl⟩ := Option.map_eq_some_iff.mp hstep
      obtain ⟨hreleased, hsink⟩ :=
        (step_released hw.disable hw.released hnext).mpr ⟨hkeeps l rfl, hw.sink⟩
      exact ⟨hinv, step_disableInv hw.disable hnext, hreleased, hsink⟩
  | notify | thread | wakeUp | signal =>
      exact hsame (waitStep_waiter hstep (by rintro _ ⟨⟩) 0).1

/-- **A disable wakes the waiters.**  Take any run of a freshly created
pipeline and the threads that wait for it, in which the sink does not clear
its flag in a disable that has set it already.  Once a call of
`mtdp_pipeline_disable` has returned, every thread in `mtdp_pipeline_wait` that
goes on alone comes back, wherever it is: none is asleep for ever. -/
theorem disable_wakes_waiters {p : Platform} {s : State V σ} {ls : List (WaitLabel V σ)}
    {w : WaitState V σ} (hs : Created s) (hkeeps : Takes (waitStep p) KeepsFlag (.init s) ls)
    (hrun : run (waitStep p) (.init s) ls = some w) (hidle : w.pipeline.controller = .idle)
    (hdisabled : w.pipeline.enabled = false) (hwas : WasDisabled w.pipeline)
    (hcall : w.owes .controller = none) (t : Nat) :
    ∃ k ≤ 2 * w.pipeline.nStages + 7, ∃ w',
      run (waitStep p) w (List.replicate k (.thread t)) = some w' ∧
        ∃ e, w'.waiters t = .returned e := by
  have hinit : FlagsKept (.init s) :=
    ⟨hs.waitersInv, hs.disableInv, by simp [WaitState.init, Released, hs.returned],
      by simp [WaitState.init, SinkFlagSet, SinkDestroyed, hs.controller]⟩
  have hw : FlagsKept w :=
    run_invariant_of_takes (fun _ _ _ => waitStep_flagsKept) hinit hkeeps hrun
  have hopen : Open w.pipeline := by
    refine ⟨?_, hw.released hidle hdisabled hwas⟩
    by_contra h
    simpa [Disabling, hidle] using hw.inv.destroying (by simpa using h)
  have hrange := hw.inv.inRange t
  have hawake : ∀ ftx, w.waiters t ≠ .asleep ftx := by
    intro ftx hasleep
    rw [hasleep] at hrange
    have hpaid := hw.inv.paid hidle hdisabled hcall
    exact hopen.load_ne hrange
      (hw.inv.noWakeLost.expected hpaid (s := t) (by simp [hasleep, WaitPc.sleepsOn]))
  obtain ⟨k, hk, w', hrun', hreturned⟩ := hopen.returns (p := p) hrange hawake
  exact ⟨k, hk.trans (WaitPc.rank_le _ _), w', hrun', hreturned⟩

instance (s : State V σ) : Decidable (SinkDestroyed s) :=
  match h : s.controller with
  | .destroying u => decidable_of_iff (u = s.nStages + 2) (by simp [SinkDestroyed, h])
  | .joining _ | .clearing _ | .returning _ | .marking _ => .isTrue (by simp [SinkDestroyed, h])
  | .idle | .enabling _ | .starting _ | .stopping _ | .disabling | .destroyed _ =>
      .isFalse (by simp [SinkDestroyed, h])

instance (w : WaitState V σ) : (l : WaitLabel V σ) → Decidable (KeepsFlag w l)
  | .pipeline (.worker u _) =>
      decidable_of_iff (u = w.pipeline.nStages + 1 → SinkDestroyed w.pipeline →
        (w.pipeline.impls (w.pipeline.nStages + 1)).pc ≠ .acquired)
        (by simp [KeepsFlag, SinkKeepsFlag])
  | .pipeline (.call _) | .pipeline (.controller _) | .pipeline .waiter | .notify _ | .thread _
  | .wakeUp _ | .signal _ => .isTrue (by simp [KeepsFlag, SinkKeepsFlag])

/-- A thread waits for `smallest`, which is disabled. -/
def disableAndNotify : List (WaitLabel Unit Unit) :=
  asleepAtSource ++ [.notify .controller] ++ (controllerSteps 3).map .pipeline ++
    [.notify .controller] ++ (controllerSteps 1 ++ threadSteps 0 1 true false false ++
      threadSteps 1 1 true false false ++ controllerSteps 9).map .pipeline ++
    [.notify .controller]

theorem disable_wakes_waiters_asleepAtSource :
    let w := (run (waitStep .c11) (.init smallest) disableAndNotify).get (by decide)
    ∃ k ≤ 2 * w.pipeline.nStages + 7, ∃ w',
      run (waitStep .c11) w (List.replicate k (.thread 0)) = some w' ∧
        ∃ e, w'.waiters 0 = .returned e :=
  disable_wakes_waiters (p := .c11) (s := smallest)
    (w := (run (waitStep .c11) (.init smallest) disableAndNotify).get (by decide))
    smallest_created (by decide : Takes (waitStep .c11) KeepsFlag (.init smallest) disableAndNotify)
    (Option.some_get _).symm (by decide) (by decide) (List.mem_of_head? (by decide)) (by decide) 0

end Mtdp.Pipeline
