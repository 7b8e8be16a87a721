import Mtdp.Pipeline.Shape

/-!
# The three states over a lifetime

A pipeline is disabled, enabled or active.  The controller's flags `enabled`
and `active` say which, and the flags of the workers are meant to follow
them.  `mtdp_pipeline_disable` destroys the workers, and no function makes a
destroyed worker a live one again: `mtdp_worker_init` runs once, when the
pipeline is configured.

## Main results

* `workersFollow_iff` — what the flags of the workers mean for their threads.
* `three_states_iff` — the workers follow the pipeline exactly as long as it
  is not enabled a second time.
* `enabled_again_destroyed` — the source of a pipeline that is.
-/

namespace Mtdp.Pipeline

open Lib.Transition

variable {V σ : Type}

/-- Between two calls, the workers of an enabled pipeline have a thread, are
not destroyed, and are enabled when the pipeline is active. -/
def WorkersFollow (s : State V σ) : Prop :=
  s.controller = .idle → s.enabled = true → ∀ u ≤ s.nStages + 1,
    (s.impls u).destroyed = false ∧ (s.impls u).enabled = s.active ∧ ¬ (s.impls u).pc.Resting

/-- The documented states, as the threads show them. -/
structure ThreeStates (s : State V σ) : Prop where
  flags : s.controller = .idle → s.enabled = true → ∀ u ≤ s.nStages + 1,
    (s.impls u).destroyed = false ∧ (s.impls u).enabled = s.active
  created : s.controller = .idle → s.enabled = true → ∀ u ≤ s.nStages + 1,
    ¬ (s.impls u).pc.Resting
  /-- the threads of a pipeline that is not active sleep … -/
  sleeping : s.controller = .idle → s.enabled = true → s.active = false →
    ∀ u ≤ s.nStages + 1, ∀ a, (s.impls u).pc = .gate → step s (.worker u a) = none
  /-- … and those of an active one go on to their routines -/
  running : s.controller = .idle → s.enabled = true → s.active = true →
    ∀ u ≤ s.nStages + 1, ∀ a, (s.impls u).pc.inRoutine = false →
      ∃ k s', run step s (List.replicate k (.worker u a)) = some s' ∧
        (s'.impls u).pc = (s.role u).entry

/-! ## Flags and threads -/

/-- A thread step that only goes to another program point. -/
theorem step_goto {s : State V σ} {u : Nat} (a : Answer V σ) (pc : Pc) (hu : u ≤ s.nStages + 1)
    (hrun : workerRoutine (s.role u) (s.view u) a = some ((s.view u).goto pc)) :
    ∃ s', step s (.worker u a) = some s' ∧ s'.nStages = s.nStages ∧
      s'.impls u = { s.impls u with pc } :=
  ⟨s.putView u ((s.view u).goto pc), by simp [step, hu, hrun], rfl, by simp [View.goto]⟩

/-- A worker that is enabled and not destroyed reaches its routine. -/
theorem reaches_routine {s : State V σ} {u : Nat} (a : Answer V σ) (hu : u ≤ s.nStages + 1)
    (hdestroyed : (s.impls u).destroyed = false) (henabled : (s.impls u).enabled = true)
    (hpc : (s.impls u).pc = .test ∨ (s.impls u).pc = .gate ∨ (s.impls u).pc = .recheck) :
    ∃ k s', run step s (List.replicate k (.worker u a)) = some s' ∧
      (s'.impls u).pc = (s.role u).entry := by
  have henter {s : State V σ} (hu : u ≤ s.nStages + 1)
      (hdestroyed : (s.impls u).destroyed = false) (hpc : (s.impls u).pc = .recheck) :
      ∃ s', run step s (List.replicate 1 (.worker u a)) = some s' ∧
        (s'.impls u).pc = (s.role u).entry := by
    obtain ⟨s', hstep, _, himpl⟩ :=
      step_goto a (s.role u).entry hu (by simp [workerRoutine, hpc, hdestroyed])
    exact ⟨s', by simp [run, hstep], by rw [himpl]⟩
  have hwake {s : State V σ} (hu : u ≤ s.nStages + 1)
      (hdestroyed : (s.impls u).destroyed = false) (henabled : (s.impls u).enabled = true)
      (hpc : (s.impls u).pc = .gate) :
      ∃ s', run step s (List.replicate 2 (.worker u a)) = some s' ∧
        (s'.impls u).pc = (s.role u).entry := by
    obtain ⟨s₁, hstep, hn, himpl⟩ :=
      step_goto a .recheck hu (by simp [workerRoutine, hpc, henabled])
    obtain ⟨s', hrun, hentry⟩ := henter (s := s₁) (by omega) (by rw [himpl]; exact hdestroyed)
      (by rw [himpl])
    refine ⟨s', run_cons.mpr ⟨s₁, hstep, hrun⟩, ?_⟩
    rw [hentry, State.role, State.role, hn]
  rcases hpc with hpc | hpc | hpc
  · obtain ⟨s₁, hstep, hn, himpl⟩ :=
      step_goto a .gate hu (by simp [workerRoutine, hpc, hdestroyed])
    obtain ⟨s', hrun, hentry⟩ := hwake (s := s₁) (by omega) (by rw [himpl]; exact hdestroyed)
      (by rw [himpl]; exact henabled) (by rw [himpl])
    refine ⟨3, s', run_cons.mpr ⟨s₁, hstep, hrun⟩, ?_⟩
    rw [hentry, State.role, State.role, hn]
  · exact ⟨2, hwake hu hdestroyed henabled hpc⟩
  · exact ⟨1, henter hu hdestroyed hpc⟩

/-- The flags make the threads sleep and run as documented. -/
theorem workersFollow_iff {s : State V σ} : ThreeStates s ↔ WorkersFollow s := by
  constructor
  · intro h hidle henabled u hu
    exact ⟨(h.flags hidle henabled u hu).1, (h.flags hidle henabled u hu).2,
      h.created hidle henabled u hu⟩
  · intro h
    refine
      { flags := fun hidle henabled u hu =>
          ⟨(h hidle henabled u hu).1, (h hidle henabled u hu).2.1⟩
        created := fun hidle henabled u hu => (h hidle henabled u hu).2.2
        sleeping := fun hidle henabled hactive u hu a hpc => ?_
        running := fun hidle henabled hactive u hu a hpc => ?_ }
    · obtain ⟨hdestroyed, hworker, _⟩ := h hidle henabled u hu
      rw [hactive] at hworker
      simp [step, workerRoutine, hpc, hdestroyed, hworker]
    · obtain ⟨hdestroyed, hworker, halive⟩ := h hidle henabled u hu
      rw [hactive] at hworker
      refine reaches_routine a hu hdestroyed hworker ?_
      generalize (s.impls u).pc = pc at hpc halive
      cases pc <;> simp_all [Pc.inRoutine, Pc.Resting]

/-! ## The invariant -/

/-- Outside of `mtdp_pipeline_disable`: whether `worker.enabled` of unit `u`
is set, and whether its thread has been created. -/
def State.workerFlags (s : State V σ) (u : Nat) : Option (Bool × Bool) :=
  match s.controller with
  | .idle => some (s.enabled && s.active, s.enabled)
  | .enabling left => some (false, decide (left ≤ u))
  | .starting left => some (decide (left ≤ u), true)
  | .stopping w => some (decide (w ≤ u), true)
  | _ => none

/-- A worker that no disable call has reached yet. -/
def Fresh (running created : Bool) (i : Impl V σ) : Prop :=
  i.destroyed = false ∧ i.enabled = running ∧ (created = true → ¬ i.pc.Resting)

/-- The flags and the threads of all workers are up to date with the calls. -/
def UpToDate (s : State V σ) : Prop := ∀ u ≤ s.nStages + 1, ∀ running created,
  s.workerFlags u = some (running, created) → Fresh running created (s.impls u)

theorem UpToDate.workersFollow {s : State V σ} (hs : UpToDate s) : WorkersFollow s := by
  intro hidle henabled u hu
  have := hs u hu s.active true (by simp [State.workerFlags, hidle, henabled])
  exact ⟨this.1, this.2.1, this.2.2 rfl⟩

/-- `mtdp_source_destroy` has destroyed the worker of the source. -/
def SourceDestroyed (s : State V σ) : Prop :=
  match s.controller with
  | .destroying u => 1 ≤ u
  | .destroyed u => 1 ≤ u
  | .joining _ => True
  | .clearing _ => True
  | .returning _ => True
  | .marking _ => True
  | _ => False

structure LifecycleInv (s : State V σ) : Prop where
  shape : Shape s
  finishing : (s.impls 0).pc ≠ .finishing
  upToDate : ¬ WasDisabled s → UpToDate s
  destroyed : WasDisabled s ∨ SourceDestroyed s → (s.impls 0).destroyed = true
  disabled : WasDisabled s →
    (s.controller = .idle ∧ s.enabled = false) ∨ ∃ left, s.controller = .enabling left

theorem Created.lifecycleInv {s : State V σ} (hs : Created s) : LifecycleInv s where
  shape := hs.shape
  finishing := by simp [hs.pc]
  upToDate := by
    intro _ u _ running created hflags
    simp only [State.workerFlags, hs.controller, hs.enabled, Bool.false_and, Option.some.injEq,
      Prod.mk.injEq] at hflags
    obtain ⟨rfl, rfl⟩ := hflags
    exact ⟨hs.workerDestroyed u, hs.workerEnabled u, nofun⟩
  destroyed := by simp [WasDisabled, SourceDestroyed, hs.controller, hs.returned]
  disabled := by simp [WasDisabled, hs.returned]

/-- The pipeline follows its documentation as long as it has not been enabled
after a disable. -/
theorem LifecycleInv.workersFollow_iff {s : State V σ} (hs : LifecycleInv s) :
    WorkersFollow s ↔ (WasDisabled s → s.controller = .idle → s.enabled = false) := by
  by_cases hdisabled : WasDisabled s
  · have hdestroyed := hs.destroyed (.inl hdisabled)
    constructor
    · intro hfollow _ hidle
      by_contra henabled
      have := (hfollow hidle (by simpa using henabled) 0 (Nat.zero_le _)).1
      rw [hdestroyed] at this
      cases this
    · intro h hidle henabled
      rw [h hdisabled hidle] at henabled
      cases henabled
  · exact iff_of_true (hs.upToDate hdisabled).workersFollow fun h => absurd h hdisabled

/-! ## Steps -/

/-- A thread comes to rest only when its worker is destroyed. -/
theorem Move.of_resting {role : Role} {a : Answer V σ} {v v' : View V σ}
    (hmove : Move role a v v') (hrest : v'.impl.pc.Resting) : v.impl.destroyed = true := by
  cases hmove
  case goto hgoto =>
    cases hgoto
    case leave hdestroyed => exact hdestroyed
    all_goals cases role <;> simp_all [Pc.Resting, View.goto, Role.entry, Role.afterPush,
      Role.afterPull]
  all_goals cases role <;> simp_all [Pc.Resting, View.releaseOutput, View.storeDone,
    View.releaseInput, View.askInput, View.invoke, Role.afterPush, Role.afterPull,
    Role.afterCallback]

theorem Move.of_finishing {role : Role} {a : Answer V σ} {v v' : View V σ}
    (hmove : Move role a v v') (hfinishing : v'.impl.pc = .finishing) :
    role = .source ∧ a.callback = .finish := by
  cases hmove
  case finishing hrole _ hfinish => exact ⟨hrole, hfinish⟩
  case goto hgoto =>
    cases hgoto
    all_goals cases role <;> simp_all [View.goto, Role.entry, Role.afterPush, Role.afterPull]
  all_goals cases role <;> simp_all [View.releaseOutput, View.storeDone, View.releaseInput,
    View.askInput, View.invoke, Role.afterPush, Role.afterPull, Role.afterCallback]

/-- The callback of the source does not call `mtdp_source_finished`. -/
def NeverFinishes (l : Label V σ) : Prop := ∀ a, l = .worker 0 a → a.callback ≠ .finish

/-- No enable call after a disable. -/
def EnablesOnce (s : State V σ) (l : Label V σ) : Prop :=
  l = .call .enable → s.enabled = false → ¬ WasDisabled s

/-- A step of a thread keeps the invariant. -/
theorem worker_lifecycleInv {s s' : State V σ} {u : Nat} {a : Answer V σ} (hs : LifecycleInv s)
    (hnever : NeverFinishes (.worker u a)) (hstep : step s (.worker u a) = some s') :
    LifecycleInv s' := by
  have hshape := step_shape hs.shape hstep
  obtain ⟨hu, v, hmove, rfl⟩ := step_worker hstep
  have hdestroyed : v.impl.destroyed = (s.impls u).destroyed := by
    rcases hmove.destroyed_cases with heq | ⟨hrole, hpc, _⟩
    · exact heq
    · obtain rfl := State.role_eq_source.mp hrole
      exact absurd hpc hs.finishing
  refine ⟨hshape, ?_, fun hfirst w hw running created hflags => ?_, fun hgone => ?_, hs.disabled⟩
  · by_cases hzero : u = 0
    · subst hzero
      rw [State.putView_impls_self]
      exact fun hpc => hnever a rfl (hmove.of_finishing hpc).2
    · simpa [Ne.symm hzero] using hs.finishing
  · have hbefore := hs.upToDate hfirst w hw running created hflags
    by_cases hne : w = u
    · subst hne
      rw [State.putView_impls_self]
      refine ⟨hdestroyed.trans hbefore.1, hmove.enabled_eq.trans hbefore.2.1, fun _ hrest => ?_⟩
      have := hmove.of_resting hrest
      rw [State.view_impl, hbefore.1] at this
      cases this
    · simpa [hne] using hbefore
  · have hbefore := hs.destroyed hgone
    by_cases hzero : u = 0
    · subst hzero
      simpa [hdestroyed] using hbefore
    · simpa [Ne.symm hzero] using hbefore

/-- Creating a thread leaves the flags of the worker alone, and destroying a
worker does not take `destroyed` back. -/
theorem Role.destroyed_mono (role : Role) {i : Impl V σ} (h : i.destroyed = true) :
    (role.createThread i).destroyed = true ∧ (role.destroyFirst i).destroyed = true ∧
      (role.destroySecond i).destroyed = true := by
  cases role <;> exact ⟨h, by first | exact h | rfl, by first | exact h | rfl⟩

/-- No step of a call takes `destroyed` back, and none changes where a thread
is, apart from creating it. -/
theorem controllerStep_impl {s s' : State V σ} {allocated : Nat → Bool}
    (hstep : s.controllerStep allocated = some s') (u : Nat) :
    ((s.impls u).destroyed = true → (s'.impls u).destroyed = true) ∧
      ((s'.impls u).pc = (s.impls u).pc ∨ (s'.impls u).pc = .test) := by
  have hset (w : Nat) (i : Impl V σ)
      (hdestroyed : (s.impls w).destroyed = true → i.destroyed = true)
      (hpc : i.pc = (s.impls w).pc ∨ i.pc = .test) :
      ((s.impls u).destroyed = true → ((s.setImpl w i).impls u).destroyed = true) ∧
        (((s.setImpl w i).impls u).pc = (s.impls u).pc ∨ ((s.setImpl w i).impls u).pc = .test) := by
    by_cases hne : u = w
    · subst hne
      simpa using ⟨hdestroyed, hpc⟩
    · simp [hne]
  cases controllerStep_move hstep
  case create =>
    exact hset _ _ (fun h => (Role.destroyed_mono _ h).1) (.inr (Role.createThread_pc _ _))
  case start => exact hset _ (workerEnable _) id (.inl rfl)
  case stop => exact hset _ (workerDisable _) id (.inl rfl)
  case destroyFirst =>
    exact hset _ _ (fun h => (Role.destroyed_mono _ h).2.1) (.inl (Role.destroyFirst_pc _ _))
  case destroySecond =>
    exact hset _ _ (fun h => (Role.destroyed_mono _ h).2.2) (.inl (Role.destroySecond_pc _ _))
  case giveBack left _ =>
    have hflags := (s.role left).returnBuffers_flags allocated (s.view left)
    by_cases hne : u = left
    · subst hne
      simp [hflags]
    · simp [hne]
  case mark => exact hset _ (setDone _) id (.inl rfl)
  all_goals exact ⟨id, .inl rfl⟩

/-- The flags of the workers follow the calls, up to a disable. -/
theorem controllerStep_upToDate {s s' : State V σ} {allocated : Nat → Bool} (hshape : Shape s)
    (hs : UpToDate s) (hstep : s.controllerStep allocated = some s') (hfirst : ¬ WasDisabled s') :
    UpToDate s' := by
  intro u hu running created hflags
  rw [step_nStages (l := .controller allocated) hstep] at hu
  cases controllerStep_move hstep <;> rename_i hcontroller <;>
    simp only [Shape, hcontroller] at hshape
  case create left =>
    simp only [State.workerFlags, Option.some.injEq, Prod.mk.injEq] at hflags
    obtain ⟨rfl, rfl⟩ := hflags
    have hbefore := hs u hu false (decide (left + 1 ≤ u))
      (by simp only [State.workerFlags, hcontroller])
    by_cases hne : u = left
    · subst hne
      rw [State.setImpl_impls_self]
      exact ⟨by cases s.role u <;> exact hbefore.1, by cases s.role u <;> exact hbefore.2.1,
        by simp [Role.createThread_pc, Pc.Resting]⟩
    · rw [State.setImpl_impls_of_ne _ _ hne]
      refine ⟨hbefore.1, hbefore.2.1, fun h => hbefore.2.2 ?_⟩
      simp only [decide_eq_true_eq] at h ⊢
      omega
  case enabled =>
    simp only [State.workerFlags, State.report, Bool.and_false, Option.some.injEq,
      Prod.mk.injEq] at hflags
    obtain ⟨rfl, rfl⟩ := hflags
    exact hs u hu _ _ (by simp [State.workerFlags, hcontroller])
  case start left =>
    simp only [State.workerFlags, Option.some.injEq, Prod.mk.injEq] at hflags
    obtain ⟨rfl, rfl⟩ := hflags
    have hbefore := hs u hu (decide (left + 1 ≤ u)) true
      (by simp only [State.workerFlags, hcontroller])
    by_cases hne : u = left
    · subst hne
      rw [State.setImpl_impls_self]
      exact ⟨hbefore.1, by simp [workerEnable], hbefore.2.2⟩
    · rw [State.setImpl_impls_of_ne _ _ hne]
      exact ⟨hbefore.1, hbefore.2.1.trans (decide_eq_decide.mpr (by omega)), hbefore.2.2⟩
  case started =>
    simp only [State.workerFlags, State.report, hshape.1, Bool.and_self, Option.some.injEq,
      Prod.mk.injEq] at hflags
    obtain ⟨rfl, rfl⟩ := hflags
    exact hs u hu _ _ (by simp [State.workerFlags, hcontroller])
  case stop w _ =>
    simp only [State.workerFlags, Option.some.injEq, Prod.mk.injEq] at hflags
    obtain ⟨rfl, rfl⟩ := hflags
    have hbefore := hs u hu (decide (w ≤ u)) true
      (by simp only [State.workerFlags, hcontroller])
    by_cases hne : u = w
    · subst hne
      rw [State.setImpl_impls_self]
      exact ⟨hbefore.1, by simp [workerDisable], hbefore.2.2⟩
    · rw [State.setImpl_impls_of_ne _ _ hne]
      exact ⟨hbefore.1, hbefore.2.1.trans (decide_eq_decide.mpr (by omega)), hbefore.2.2⟩
  case stopped =>
    simp only [State.workerFlags, State.report, hshape.1, Bool.and_false, Option.some.injEq,
      Prod.mk.injEq] at hflags
    obtain ⟨rfl, rfl⟩ := hflags
    refine hs u hu false true ?_
    rw [State.workerFlags, hcontroller]
    simp only [Option.some.injEq, Prod.mk.injEq, decide_eq_false_iff_not, and_true]
    omega
  case disabled => exact absurd (by simp [WasDisabled, State.report]) hfirst
  all_goals cases hflags

/-- `mtdp_source_destroy` is the only call to destroy the worker of the
source. -/
theorem controllerStep_sourceDestroyed {s s' : State V σ} {allocated : Nat → Bool}
    (hstep : s.controllerStep allocated = some s') (h : SourceDestroyed s') :
    SourceDestroyed s ∨ (s'.impls 0).destroyed = true := by
  cases controllerStep_move hstep <;> rename_i hcontroller <;>
    simp only [SourceDestroyed, hcontroller]
  case destroyFirst => exact .inl h
  case destroySecond u =>
    by_cases hzero : u = 0
    · subst hzero
      simp [State.role_zero, Role.destroySecond, workerDestroy]
    · left
      omega
  case destroyed =>
    left
    omega
  case join | joined | clear | cleared | giveBack | gaveBack | mark | disabled =>
    exact .inl trivial
  all_goals simp [SourceDestroyed, State.report] at h

/-- The only call to make steps after a disable is another enable. -/
theorem LifecycleInv.enabling_of_wasDisabled {s s' : State V σ} {allocated : Nat → Bool}
    (hs : LifecycleInv s) (hstep : s.controllerStep allocated = some s') (hwas : WasDisabled s) :
    ∃ left, s.controller = .enabling left := by
  rcases hs.disabled hwas with ⟨hidle, _⟩ | hleft
  · simp [State.controllerStep, hidle] at hstep
  · exact hleft

/-- A step of the controller keeps the invariant, as long as the pipeline is
not enabled again. -/
theorem controllerStep_lifecycleInv {s s' : State V σ} {allocated : Nat → Bool}
    (hs : LifecycleInv s) (hstep : s.controllerStep allocated = some s')
    (hfollow : WorkersFollow s') : LifecycleInv s' := by
  have himpl := controllerStep_impl hstep 0
  have hdestroyed (h : WasDisabled s' ∨ SourceDestroyed s') : (s'.impls 0).destroyed = true := by
    suffices WasDisabled s ∨ SourceDestroyed s ∨ (s'.impls 0).destroyed = true by
      rcases this with h | h | h
      · exact himpl.1 (hs.destroyed (.inl h))
      · exact himpl.1 (hs.destroyed (.inr h))
      · exact h
    rcases h with h | h
    · exact (of_wasDisabled hstep h).imp_right fun ⟨u, hu, _⟩ =>
        .inl (by simp [SourceDestroyed, hu])
    · exact .inr (controllerStep_sourceDestroyed hstep h)
  refine
    { shape := controllerStep_shape hs.shape hstep
      finishing := ?_
      upToDate := fun hfirst => ?_
      destroyed := hdestroyed
      disabled := fun hwas => ?_ }
  · rcases himpl.2 with hpc | hpc <;> rw [hpc]
    · exact hs.finishing
    · nofun
  · exact controllerStep_upToDate hs.shape (hs.upToDate fun h => hfirst (h.controllerStep hstep))
      hstep hfirst
  · rcases of_wasDisabled hstep hwas with hbefore | ⟨_, _, hidle, henabled⟩
    · obtain ⟨left, hleft⟩ := hs.enabling_of_wasDisabled hstep hbefore
      rw [State.controllerStep, hleft] at hstep
      cases left with
      | succ left =>
          cases hstep
          exact .inr ⟨left, rfl⟩
      | zero =>
          -- the second enable returns, and the source is still destroyed
          have hgone := hdestroyed (.inl hwas)
          cases hstep
          rw [(hfollow rfl rfl 0 (Nat.zero_le _)).1] at hgone
          cases hgone
    · exact .inl ⟨hidle, henabled⟩

/-- An enabled pipeline that follows its documentation has not been disabled. -/
theorem LifecycleInv.not_wasDisabled {s : State V σ} (hs : LifecycleInv s)
    (hidle : s.controller = .idle) (henabled : s.enabled = true) : ¬ WasDisabled s := by
  intro hwas
  rcases hs.disabled hwas with ⟨_, hdisabled⟩ | ⟨left, hleft⟩
  · rw [henabled] at hdisabled
    cases hdisabled
  · rw [hidle] at hleft
    cases hleft

/-- Beginning a call keeps the invariant. -/
theorem beginCall_lifecycleInv {s : State V σ} (hs : LifecycleInv s)
    (hidle : s.controller = .idle) (c : Call) : LifecycleInv (s.beginCall c) := by
  have hshape := beginCall_shape hs.shape hidle c
  have hflags {u : Nat} (h : s.enabled = true) :
      s.workerFlags u = some (s.active, true) := by simp [State.workerFlags, hidle, h]
  rcases s.beginCall_cases c with
    ⟨e, hne, _, heq⟩ | ⟨_, henabled, heq⟩ | ⟨_, henabled, hactive, heq⟩ |
      ⟨_, henabled, hactive, heq⟩ | ⟨_, henabled, heq⟩ <;> rw [heq] at hshape ⊢
  · have hwas : WasDisabled (s.report c e) ↔ WasDisabled s := by
      simp [WasDisabled, State.report, hne.symm]
    refine ⟨hshape, hs.finishing, fun hfirst u hu running created h => ?_, fun h => ?_, fun h => ?_⟩
    · exact hs.upToDate (mt hwas.mpr hfirst) u hu running created
        (by simpa [State.workerFlags, State.report, hidle] using h)
    · refine hs.destroyed (h.imp hwas.mp ?_)
      simp [SourceDestroyed, State.report]
    · exact (hs.disabled (hwas.mp h)).imp (fun h => ⟨rfl, h.2⟩) (by simp [hidle])
  · refine ⟨hshape, hs.finishing, fun hfirst u hu running created h => ?_, fun h => ?_,
      fun _ => .inr ⟨_, rfl⟩⟩
    · simp only [State.workerFlags, Option.some.injEq, Prod.mk.injEq] at h
      obtain ⟨rfl, rfl⟩ := h
      have := hs.upToDate hfirst u hu false false (by simp [State.workerFlags, hidle, henabled])
      refine ⟨this.1, this.2.1, fun hle => absurd (of_decide_eq_true hle) ?_⟩
      exact Nat.not_le_of_lt (Nat.lt_succ_of_le hu)
    · exact hs.destroyed (h.imp id (by simp [SourceDestroyed]))
  · refine ⟨hshape, hs.finishing, fun hfirst u hu running created h => ?_, fun h => ?_,
      fun h => absurd h (hs.not_wasDisabled hidle henabled)⟩
    · simp only [State.workerFlags, Option.some.injEq, Prod.mk.injEq] at h
      obtain ⟨rfl, rfl⟩ := h
      rw [decide_eq_false (Nat.not_le_of_lt (Nat.lt_succ_of_le hu)), ← hactive]
      exact hs.upToDate hfirst u hu s.active true (hflags henabled)
    · exact hs.destroyed (h.imp id (by simp [SourceDestroyed]))
  · refine ⟨hshape, hs.finishing, fun hfirst u hu running created h => ?_, fun h => ?_,
      fun h => absurd h (hs.not_wasDisabled hidle henabled)⟩
    · simp only [State.workerFlags, Option.some.injEq, Prod.mk.injEq] at h
      obtain ⟨rfl, rfl⟩ := h
      rw [decide_eq_true (Nat.zero_le u)]
      have := hs.upToDate hfirst u hu s.active true (hflags henabled)
      rwa [hactive] at this
    · exact hs.destroyed (h.imp id (by simp [SourceDestroyed]))
  · refine ⟨hshape, hs.finishing, fun _ u _ running created h => ?_, fun h => ?_,
      fun h => absurd h (hs.not_wasDisabled hidle henabled)⟩
    · simp [State.workerFlags] at h
    · exact hs.destroyed (h.imp id (by simp [SourceDestroyed]))

/-- Every step keeps the invariant, as long as the pipeline is not enabled
again. -/
theorem step_lifecycleInv {s s' : State V σ} {l : Label V σ} (hs : LifecycleInv s)
    (hnever : NeverFinishes l) (hstep : step s l = some s') (hfollow : WorkersFollow s') :
    LifecycleInv s' := by
  cases l with
  | worker u a => exact worker_lifecycleInv hs hnever hstep
  | call c =>
      simp only [step] at hstep
      split at hstep <;> cases hstep
      exact beginCall_lifecycleInv hs ‹_› c
  | controller allocated => exact controllerStep_lifecycleInv hs hstep hfollow
  | waiter =>
      cases hstep
      exact ⟨hs.shape, hs.finishing, hs.upToDate, hs.destroyed, hs.disabled⟩

/-- A pipeline that has been disabled is still disabled. -/
def StaysDisabled (s : State V σ) : Prop :=
  WasDisabled s → s.controller = .idle ∧ s.enabled = false

/-- From a pipeline that follows its documentation, a step leads to one that
does and stays disabled exactly when it does not enable it again. -/
theorem step_follows {s s' : State V σ} {l : Label V σ} (hs : LifecycleInv s)
    (hfollow : WorkersFollow s) (hnever : NeverFinishes l) (hstep : step s l = some s') :
    WorkersFollow s' ∧ StaysDisabled s' ↔ EnablesOnce s l ∧ StaysDisabled s := by
  have hleft (h : LifecycleInv s') : WorkersFollow s' ∧ StaysDisabled s' ↔ StaysDisabled s' :=
    and_iff_right_of_imp fun hstays => h.workersFollow_iff.mpr fun hwas _ => (hstays hwas).2
  cases l with
  | worker u a =>
      rw [hleft (worker_lifecycleInv hs hnever hstep), and_iff_right nofun]
      obtain ⟨_, v, _, rfl⟩ := step_worker hstep
      exact Iff.rfl
  | call c =>
      simp only [step] at hstep
      split at hstep <;> cases hstep
      rename_i hidle
      have hstays : StaysDisabled s := fun hwas => by
        rcases hs.disabled hwas with h | ⟨left, h⟩
        · exact h
        · rw [hidle] at h
          cases h
      rw [hleft (beginCall_lifecycleInv hs hidle c), and_iff_left hstays]
      rcases s.beginCall_cases c with ⟨e, hne, hrefused, heq⟩ | ⟨rfl, henabled, heq⟩ |
        ⟨rfl, henabled, _, heq⟩ | ⟨rfl, henabled, _, heq⟩ | ⟨rfl, henabled, heq⟩ <;> rw [heq]
      · refine iff_of_true (fun hwas => ⟨rfl, (hstays ?_).2⟩) fun hcall henabled => ?_
        · simpa [WasDisabled, State.report, hne.symm] using hwas
        · cases hcall
          rw [hrefused rfl] at henabled
          cases henabled
      · simp [StaysDisabled, EnablesOnce, WasDisabled, henabled]
      all_goals
        have hnot := hs.not_wasDisabled hidle henabled
        exact iff_of_true (fun h => absurd h hnot) (by simp [EnablesOnce])
  | controller allocated =>
      rw [and_iff_right (show EnablesOnce s (.controller allocated) by simp [EnablesOnce])]
      constructor
      · rintro ⟨_, hstays⟩ hwas
        obtain ⟨left, hleft⟩ := hs.enabling_of_wasDisabled hstep hwas
        have hafter := hstays (hwas.controllerStep hstep)
        simp only [step, State.controllerStep, hleft] at hstep
        cases left with
        | succ left =>
            cases hstep
            cases hafter.1
        | zero =>
            cases hstep
            cases hafter.2
      · intro hstays
        by_cases hwas : WasDisabled s'
        · rcases of_wasDisabled hstep hwas with hbefore | ⟨_, _, hidle, henabled⟩
          · obtain ⟨left, hleft⟩ := hs.enabling_of_wasDisabled hstep hbefore
            rw [(hstays hbefore).1] at hleft
            cases hleft
          · refine ⟨fun _ h => ?_, fun _ => ⟨hidle, henabled⟩⟩
            rw [henabled] at h
            cases h
        · have hbefore : ¬ WasDisabled s := fun h => hwas (h.controllerStep hstep)
          exact ⟨(controllerStep_upToDate hs.shape (hs.upToDate hbefore) hstep hwas).workersFollow,
            fun h => absurd h hwas⟩
  | waiter =>
      cases hstep
      rw [and_iff_right (show WorkersFollow s.waiterStep from hfollow),
        and_iff_right (show EnablesOnce s .waiter by simp [EnablesOnce])]
      exact Iff.rfl

/-- **The three states.**  Take any run of a freshly created pipeline whose
source never finishes, up to the return of its last call.  Between all calls
the threads are as the state of the pipeline says, exactly when the pipeline
is not enabled again after a disable. -/
theorem three_states_iff {s t : State V σ} {ls : List (Label V σ)} (hs : Created s)
    (hnever : ∀ a, .worker 0 a ∈ ls → a.callback ≠ .finish)
    (hrun : run step s ls = some t) (hidle : t.controller = .idle) :
    Visits step ThreeStates s ls ↔ Takes step EnablesOnce s ls := by
  have heq : (ThreeStates : State V σ → Prop) = WorkersFollow :=
    funext fun _ => propext workersFollow_iff
  rw [heq]
  refine visits_iff_takes (I := LifecycleInv) (G := StaysDisabled)
    (R := fun _ l => NeverFinishes l)
    (fun _ _ _ hinv _ hnever hstep => step_lifecycleInv hinv hnever hstep)
    (fun _ _ _ hinv hfollow hnever hstep => step_follows hinv hfollow hnever hstep)
    hs.lifecycleInv ?_ ?_ (fun hinv hfollow hwas => ⟨hidle, ?_⟩)
    (takes_of_mem fun l hl _ a heq => hnever a (heq ▸ hl)) hrun
  · simp [WorkersFollow, hs.enabled]
  · simp [StaysDisabled, WasDisabled, hs.returned]
  · exact hinv.workersFollow_iff.mp hfollow hwas hidle

/-- `smallest` is enabled, disabled and enabled again. -/
def enabledTwice : List (Label Unit Unit) :=
  [.call .enable] ++ controllerSteps 3 ++ [.call .disable] ++ controllerSteps 6 ++
    threadSteps 0 1 true false false ++ threadSteps 1 1 true false false ++ controllerSteps 9 ++
    [.call .enable] ++ controllerSteps 3

theorem enabledTwice_never_finishes (a : Answer Unit Unit) (ha : .worker 0 a ∈ enabledTwice) :
    a.callback ≠ .finish := by
  simp_all [enabledTwice, threadSteps, controllerSteps]

theorem three_states_iff_enabledTwice :
    Visits step ThreeStates smallest enabledTwice ↔ Takes step EnablesOnce smallest enabledTwice :=
  three_states_iff smallest_created enabledTwice_never_finishes
    (t := (run step smallest enabledTwice).get (by decide)) (Option.some_get _).symm (by decide)

/-- The second enable returns `MTDP_OK` and the worker of the source is still
destroyed. -/
theorem enabled_again_destroyed :
    ¬ ∀ (s t : State Unit Unit) (ls : List (Label Unit Unit)), Created s →
      (∀ a, .worker 0 a ∈ ls → a.callback ≠ .finish) → run step s ls = some t →
      Visits step ThreeStates s ls := by
  intro hall
  have hend : (run step smallest enabledTwice).map (fun t =>
      (t.controller, t.enabled, t.returned.head?, (t.impls 0).destroyed)) =
      some (.idle, true, some (.enable, .ok), true) := by decide
  obtain ⟨t, hrun, hobserved⟩ := Option.map_eq_some_iff.mp hend
  simp only [Prod.mk.injEq] at hobserved
  obtain ⟨hidle, henabled, _, hdestroyed⟩ := hobserved
  have hstates : ThreeStates t :=
    (hall _ _ _ smallest_created enabledTwice_never_finishes hrun).of_run hrun
  rw [(hstates.flags hidle henabled 0 (Nat.zero_le _)).1] at hdestroyed
  cases hdestroyed

end Mtdp.Pipeline
