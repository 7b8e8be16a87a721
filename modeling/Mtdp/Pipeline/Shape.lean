import Mtdp.Lib.Transition
import Mtdp.Pipeline.Moves

/-!
# The shape of reachable states

Which threads exist while the controller is at which point of which call,
and within which bounds its counters move.  Nothing here depends on what
the threads do inside their routines.

## Main results

* `Created.shape`, `step_shape` — every reachable state has a shape.
* `step_effect` — every step, by what it does to the threads and the pipes.
* `step_existing` — which threads have been created.
-/

namespace Mtdp.Pipeline

variable {V σ : Type}

/-- A thread that does not exist yet or has left its loop. -/
def Pc.Resting (pc : Pc) : Prop := pc = .absent ∨ pc = .exited

/-- The thread is in the routine of its unit. -/
def Pc.inRoutine : Pc → Bool
  | .absent => false
  | .test => false
  | .gate => false
  | .recheck => false
  | .exited => false
  | _ => true

/-- Only a thread that runs makes steps. -/
theorem Move.not_resting {role : Role} {a : Answer V σ} {v v' : View V σ}
    (hmove : Move role a v v') : ¬ v.impl.pc.Resting := by
  rintro (habsent | hexited)
  · cases hmove with
    | goto hgoto => cases hgoto <;> simp_all
    | _ => simp_all
  · cases hmove with
    | goto hgoto => cases hgoto <;> simp_all
    | _ => simp_all

/-- A thread that moves exists, before and after. -/
theorem Move.not_absent {role : Role} {a : Answer V σ} {v v' : View V σ}
    (hmove : Move role a v v') : v.impl.pc ≠ .absent ∧ v'.impl.pc ≠ .absent := by
  cases hmove
  case goto hgoto =>
    cases hgoto
    case leave h _ => rcases h with h | h <;> simp [h, View.goto]
    case enter h _ => cases role <;> simp [h, View.goto, Role.entry]
    case skipPush h _ => cases role <;> simp [h, View.goto, Role.afterPush]
    case skipPull h _ => cases role <;> simp [h, View.goto, Role.afterPull]
    all_goals simp [*, View.goto]
  case released h => cases role <;> simp [h, View.releaseOutput, Role.afterPush]
  case gotFull h _ => cases role <;> simp [h, Role.afterPull]
  case flagged h => rcases h with h | h | h <;> simp [h, View.storeDone]
  case asked h _ => rcases h with ⟨_, h⟩ | ⟨_, h⟩ <;> simp [h, View.askInput]
  case returned h _ => cases role <;> simp [h, Role.afterCallback]
  all_goals simp [*, View.storeDone, View.releaseInput, View.invoke]

/-- All threads rest. -/
def AllResting (s : State V σ) : Prop := ∀ u ≤ s.nStages + 1, (s.impls u).pc.Resting

/-- What the program point of the controller says about the pipeline. -/
def Shape (s : State V σ) : Prop :=
  match s.controller with
  | .idle => s.enabled = false → AllResting s
  | .enabling left =>
      s.enabled = false ∧ left ≤ s.nStages + 2 ∧ ∀ u < left, (s.impls u).pc.Resting
  | .starting left => s.enabled = true ∧ left ≤ s.nStages + 2
  | .stopping u => s.enabled = true ∧ u ≤ s.nStages + 2
  | .disabling => s.enabled = true
  | .destroying u => s.enabled = true ∧ u ≤ s.nStages + 2
  | .destroyed u => s.enabled = true ∧ u ≤ s.nStages + 1
  | .joining u => s.enabled = true ∧ u ≤ s.nStages + 2 ∧ ∀ w < u, (s.impls w).pc.Resting
  | .clearing left => s.enabled = true ∧ left ≤ s.nStages + 1 ∧ AllResting s
  | .returning left => s.enabled = true ∧ left ≤ s.nStages + 2 ∧ AllResting s
  | .marking u => s.enabled = true ∧ 1 ≤ u ∧ u ≤ s.nStages + 1 ∧ AllResting s

theorem Created.shape {s : State V σ} (hs : Created s) : Shape s := by
  rw [Shape, hs.controller]
  exact fun _ u _ => .inl (hs.pc u)

/-- A step of a thread leaves the resting threads and the controller alone. -/
theorem step_worker_frame {s s' : State V σ} {u : Nat} {a : Answer V σ}
    (hstep : step s (.worker u a) = some s') :
    s'.nStages = s.nStages ∧ s'.controller = s.controller ∧ s'.enabled = s.enabled ∧
      ∀ w, (s.impls w).pc.Resting → s'.impls w = s.impls w := by
  obtain ⟨_, v, hmove, rfl⟩ := step_worker hstep
  refine ⟨rfl, rfl, rfl, fun w hw => ?_⟩
  have hne : w ≠ u := by
    rintro rfl
    exact hmove.not_resting hw
  simp [hne]

theorem step_nStages {s s' : State V σ} {l : Label V σ} (hstep : step s l = some s') :
    s'.nStages = s.nStages := by
  cases l with
  | worker u a => exact (step_worker_frame hstep).1
  | call c =>
      simp only [step] at hstep
      split at hstep <;> cases hstep
      cases c <;> simp only [State.beginCall, State.report] <;> (repeat' split) <;> rfl
  | controller allocated =>
      have hmove : ControllerMove s allocated s' := controllerStep_move hstep
      cases hmove <;> rfl
  | waiter =>
      cases hstep
      rfl

/-- Beginning a call keeps the shape. -/
theorem beginCall_shape {s : State V σ} (hs : Shape s) (hidle : s.controller = .idle) (c : Call) :
    Shape (s.beginCall c) := by
  rw [Shape, hidle] at hs
  rcases s.beginCall_cases c with ⟨e, _, _, heq⟩ | ⟨_, henabled, heq⟩ | ⟨_, henabled, _, heq⟩ |
    ⟨_, henabled, _, heq⟩ | ⟨_, henabled, heq⟩ <;> rw [heq]
  · exact hs
  · exact ⟨henabled, Nat.le_refl _, fun u hu => hs henabled u (Nat.le_of_lt_succ hu)⟩
  · exact ⟨henabled, Nat.le_refl _⟩
  · exact ⟨henabled, Nat.zero_le _⟩
  · exact henabled

theorem Role.createThread_pc (role : Role) (i : Impl V σ) : (role.createThread i).pc = .test := by
  cases role <;> rfl

theorem Role.destroyFirst_pc (role : Role) (i : Impl V σ) : (role.destroyFirst i).pc = i.pc := by
  cases role <;> rfl

theorem Role.destroySecond_pc (role : Role) (i : Impl V σ) :
    (role.destroySecond i).pc = i.pc := by
  cases role <;> rfl

/-- The program point and the flags of a unit survive the return of its
buffers. -/
theorem Role.returnBuffers_flags (role : Role) (allocated : Nat → Bool) (v : View V σ) :
    (role.returnBuffers allocated v).impl.pc = v.impl.pc ∧
      (role.returnBuffers allocated v).impl.done = v.impl.done ∧
      (role.returnBuffers allocated v).impl.destroyed = v.impl.destroyed ∧
      (role.returnBuffers allocated v).impl.enabled = v.impl.enabled := by
  cases role <;> simp only [Role.returnBuffers, View.returnInput, View.returnOutput] <;>
    (repeat' split) <;> exact ⟨rfl, rfl, rfl, rfl⟩

/-- What a unit held goes to the pools, not to the queues. -/
theorem Role.returnBuffers_queue (role : Role) (allocated : Nat → Bool) (v : View V σ) :
    ((role.returnBuffers allocated v).inputPipe.semaphore = v.inputPipe.semaphore ∧
      (role.returnBuffers allocated v).inputPipe.fifo = v.inputPipe.fifo) ∧
    (role.returnBuffers allocated v).outputPipe.semaphore = v.outputPipe.semaphore ∧
      (role.returnBuffers allocated v).outputPipe.fifo = v.outputPipe.fifo := by
  cases role <;> simp only [Role.returnBuffers, View.returnInput, View.returnOutput] <;>
    (repeat' split) <;> simp

/-- A step of the controller keeps the shape. -/
theorem controllerStep_shape {s s' : State V σ} {allocated : Nat → Bool} (hs : Shape s)
    (hstep : s.controllerStep allocated = some s') : Shape s' := by
  rw [Shape] at hs
  cases controllerStep_move hstep <;> rename_i hcontroller <;> simp only [hcontroller] at hs
  case create left =>
    -- one more thread runs, those below still rest
    obtain ⟨henabled, hle, hrest⟩ := hs
    refine ⟨henabled, Nat.le_of_succ_le hle, fun u hu => ?_⟩
    have hne : u ≠ left := by omega
    simpa [hne] using hrest u (by omega)
  case enabled => exact nofun
  case start => exact ⟨hs.1, Nat.le_of_succ_le hs.2⟩
  case started | stopped => simp [Shape, State.report, hs.1]
  case stop hunit => exact ⟨hs.1, Nat.succ_le_succ hunit⟩
  case disabling => exact ⟨hs, Nat.zero_le _⟩
  case destroyFirst hunit => exact ⟨hs.1, hunit⟩
  case destroySecond => exact ⟨hs.1, Nat.succ_le_succ hs.2⟩
  case destroyed => exact ⟨hs.1, Nat.zero_le _, nofun⟩
  case join u hunit hexited =>
    obtain ⟨henabled, hle, hrest⟩ := hs
    refine ⟨henabled, by simpa using hunit, fun w hw => ?_⟩
    rcases Nat.lt_succ_iff_lt_or_eq.mp hw with hlt | rfl
    · exact hrest w hlt
    · exact .inr hexited
  case joined u hlast =>
    obtain ⟨henabled, hle, hrest⟩ := hs
    exact ⟨henabled, Nat.le_refl _, fun w hw => hrest w (by simp only at hw; omega)⟩
  case clear => exact ⟨hs.1, Nat.le_of_succ_le hs.2.1, hs.2.2⟩
  case cleared => exact ⟨hs.1, Nat.le_refl _, hs.2.2⟩
  case giveBack left =>
    obtain ⟨henabled, hle, hrest⟩ := hs
    refine ⟨henabled, Nat.le_of_succ_le hle, fun u hu => ?_⟩
    have := hrest u hu
    by_cases hne : u = left
    · subst hne
      simpa [Role.returnBuffers_flags, State.view] using this
    · simpa [hne] using this
  case gaveBack => exact ⟨hs.1, Nat.le_refl _, by omega, hs.2.2⟩
  case mark u hunit =>
    obtain ⟨henabled, hpos, hle, hrest⟩ := hs
    refine ⟨henabled, by omega, Nat.succ_le_succ hunit, fun w hw => ?_⟩
    have := hrest w hw
    by_cases hne : w = u
    · subst hne
      simpa [setDone] using this
    · simpa [hne] using this
  case disabled => exact fun _ => hs.2.2.2

/-- Every step keeps the shape. -/
theorem step_shape {s s' : State V σ} {l : Label V σ} (hs : Shape s)
    (hstep : step s l = some s') : Shape s' := by
  cases l with
  | worker u a =>
      obtain ⟨hn, hcontroller, henabled, hframe⟩ := step_worker_frame hstep
      have hrest (w : Nat) (hw : (s.impls w).pc.Resting) : (s'.impls w).pc.Resting := by
        rwa [hframe w hw]
      have hall (h : AllResting s) : AllResting s' := fun w hw =>
        hrest w (h w (by rwa [hn] at hw))
      unfold Shape at hs ⊢
      rw [hcontroller]
      cases hc : s.controller <;> simp only [hc, hn, henabled] at hs ⊢
      case idle => exact fun h => hall (hs h)
      case enabling => exact ⟨hs.1, hs.2.1, fun w hw => hrest w (hs.2.2 w hw)⟩
      case joining => exact ⟨hs.1, hs.2.1, fun w hw => hrest w (hs.2.2 w hw)⟩
      case clearing => exact ⟨hs.1, hs.2.1, hall hs.2.2⟩
      case returning => exact ⟨hs.1, hs.2.1, hall hs.2.2⟩
      case marking => exact ⟨hs.1, hs.2.1, hs.2.2.1, hall hs.2.2.2⟩
      all_goals exact hs
  | call c =>
      simp only [step] at hstep
      split at hstep <;> cases hstep
      exact beginCall_shape hs ‹_› c
  | controller allocated => exact controllerStep_shape hs hstep
  | waiter =>
      cases hstep
      exact hs

/-! ## Calls that have returned -/

/-- The pipeline has been disabled before. -/
def WasDisabled (s : State V σ) : Prop := (.disable, .ok) ∈ s.returned

/-- What a step of a call adds to the list of calls that have returned. -/
theorem controllerStep_returned {s s' : State V σ} {allocated : Nat → Bool}
    (hstep : s.controllerStep allocated = some s') :
    s'.returned = s.returned ∨ ∃ c e, s'.returned = (c, e) :: s.returned ∧
      (c = .disable →
        ∃ u, s.controller = .marking u ∧ s'.controller = .idle ∧ s'.enabled = false) := by
  cases controllerStep_move hstep
  case enabled | started | stopped => exact .inr ⟨_, _, rfl, nofun⟩
  case disabled hcontroller => exact .inr ⟨_, _, rfl, fun _ => ⟨_, hcontroller, rfl, rfl⟩⟩
  all_goals exact .inl rfl

theorem WasDisabled.controllerStep {s s' : State V σ} {allocated : Nat → Bool}
    (hs : WasDisabled s) (hstep : s.controllerStep allocated = some s') : WasDisabled s' := by
  unfold WasDisabled at hs ⊢
  rcases controllerStep_returned hstep with heq | ⟨c, e, heq, _⟩ <;> simp [heq, hs]

theorem of_wasDisabled {s s' : State V σ} {allocated : Nat → Bool}
    (hstep : s.controllerStep allocated = some s') (hs' : WasDisabled s') :
    WasDisabled s ∨
      ∃ u, s.controller = .marking u ∧ s'.controller = .idle ∧ s'.enabled = false := by
  unfold WasDisabled at hs' ⊢
  rcases controllerStep_returned hstep with heq | ⟨c, e, heq, hdisable⟩ <;> rw [heq] at hs'
  · exact .inl hs'
  · rcases List.mem_cons.mp hs' with heq | h
    · cases heq
      exact .inr (hdisable rfl)
    · exact .inl h

/-! ## Steps by what they change -/

/-- The units differ in the flags of their workers only. -/
structure SameThreads (s s' : State V σ) : Prop where
  nStages : s'.nStages = s.nStages
  pipes : s'.pipes = s.pipes
  impls : ∀ u, s'.impls u = { s.impls u with
    enabled := (s'.impls u).enabled
    destroyed := (s'.impls u).destroyed
    done := (s'.impls u).done }

/-- Any step, by what it does to the threads and the pipes. -/
inductive Effect (s : State V σ) : Label V σ → State V σ → Prop
  | worker {u : Nat} {a : Answer V σ} {v : View V σ} : u ≤ s.nStages + 1 →
      Move (s.role u) a (s.view u) v → Effect s (.worker u a) (s.putView u v)
  | create {allocated : Nat → Bool} {left : Nat} : s.controller = .enabling (left + 1) →
      Effect s (.controller allocated)
        { s.setImpl left ((s.role left).createThread (s.impls left)) with
          controller := .enabling left }
  | clear {allocated : Nat → Bool} {left : Nat} : s.controller = .clearing (left + 1) →
      Effect s (.controller allocated)
        { s.setPipe (left + 1) ((s.pipes (left + 1)).clear allocated) with
          controller := .clearing left }
  | giveBack {allocated : Nat → Bool} {left : Nat} : s.controller = .returning (left + 1) →
      Effect s (.controller allocated)
        { s.putView left ((s.role left).returnBuffers allocated (s.view left)) with
          controller := .returning left }
  | flags {l : Label V σ} {s' : State V σ} : (∀ u a, l ≠ .worker u a) →
      (∀ allocated left, l = .controller allocated → s.controller ≠ .clearing (left + 1)) →
      SameThreads s s' → Effect s l s'

/-- Storing the record of one unit with other flags. -/
theorem SameThreads.setImpl (s : State V σ) (u : Nat) (i : Impl V σ)
    (hi : i = { s.impls u with enabled := i.enabled, destroyed := i.destroyed, done := i.done }) :
    SameThreads s (s.setImpl u i) := by
  refine ⟨rfl, rfl, fun w => ?_⟩
  by_cases hne : w = u
  · subst hne
    simpa using hi
  · simp [hne]

/-- The controller, apart from its state, does what is done to `t`. -/
theorem SameThreads.of_eq {s t s' : State V σ} (ht : SameThreads s t)
    (hn : s'.nStages = t.nStages) (hpipes : s'.pipes = t.pipes) (himpls : s'.impls = t.impls) :
    SameThreads s s' :=
  ⟨hn.trans ht.nStages, hpipes.trans ht.pipes, fun u => by rw [himpls]; exact ht.impls u⟩

theorem SameThreads.refl (s : State V σ) : SameThreads s s := ⟨rfl, rfl, fun _ => rfl⟩

theorem step_effect {s s' : State V σ} {l : Label V σ} (hstep : step s l = some s') :
    Effect s l s' := by
  cases l with
  | worker u a =>
      obtain ⟨hle, v, hmove, rfl⟩ := step_worker hstep
      exact .worker hle hmove
  | call c =>
      simp only [step] at hstep
      split at hstep <;> cases hstep
      refine .flags (by simp) (by simp) ?_
      rcases s.beginCall_cases c with ⟨e, _, _, heq⟩ | ⟨_, _, heq⟩ | ⟨_, _, _, heq⟩ |
        ⟨_, _, _, heq⟩ | ⟨_, _, heq⟩ <;> rw [heq] <;> exact (SameThreads.refl s).of_eq rfl rfl rfl
  | controller allocated =>
      have hmove : ControllerMove s allocated s' := controllerStep_move hstep
      cases hmove
      case create hcontroller => exact .create hcontroller
      case clear hcontroller => exact .clear hcontroller
      case giveBack hcontroller => exact .giveBack hcontroller
      all_goals
        rename_i hcontroller
        refine .flags (by simp) (by simp [hcontroller]) ?_
      case start => exact (SameThreads.setImpl s _ (workerEnable _) rfl).of_eq rfl rfl rfl
      case stop => exact (SameThreads.setImpl s _ (workerDisable _) rfl).of_eq rfl rfl rfl
      case destroyFirst u _ =>
        refine (SameThreads.setImpl s u ((s.role u).destroyFirst (s.impls u)) ?_).of_eq
          rfl rfl rfl
        cases s.role u <;> rfl
      case destroySecond u =>
        refine (SameThreads.setImpl s u ((s.role u).destroySecond (s.impls u)) ?_).of_eq
          rfl rfl rfl
        cases s.role u <;> rfl
      case mark => exact (SameThreads.setImpl s _ (setDone _) rfl).of_eq rfl rfl rfl
      all_goals exact (SameThreads.refl s).of_eq rfl rfl rfl
  | waiter =>
      cases hstep
      exact .flags (by simp) (by simp) ((SameThreads.refl s).of_eq rfl rfl rfl)

/-! ## Threads that exist -/

/-- Which threads have been created. -/
structure Existing (s : State V σ) : Prop where
  all : s.enabled = true ∨ WasDisabled s → ∀ u ≤ s.nStages + 1, (s.impls u).pc ≠ .absent
  enabling : ∀ left, s.controller = .enabling left →
    ∀ u, left ≤ u → u ≤ s.nStages + 1 → (s.impls u).pc ≠ .absent

/-- A thread that exists goes on to do so. -/
theorem step_absent {s s' : State V σ} {l : Label V σ} (hstep : step s l = some s') {u : Nat}
    (hpc : (s'.impls u).pc = .absent) : (s.impls u).pc = .absent := by
  cases step_effect hstep with
  | @worker w a v _ hmove =>
      by_cases hne : u = w
      · subst hne
        rw [State.putView_impls_self] at hpc
        exact absurd hpc hmove.not_absent.2
      · simpa [hne] using hpc
  | @create _ left _ =>
      by_cases hne : u = left
      · subst hne
        simp [Role.createThread_pc] at hpc
      · simpa [hne] using hpc
  | clear => exact hpc
  | @giveBack _ left _ =>
      by_cases hne : u = left
      · subst hne
        simpa [Role.returnBuffers_flags] using hpc
      · simpa [hne] using hpc
  | flags _ _ hsame =>
      rw [hsame.impls u] at hpc
      exact hpc

theorem Created.existing {s : State V σ} (hs : Created s) : Existing s :=
  ⟨by simp [hs.enabled, WasDisabled, hs.returned], by simp [hs.controller]⟩

theorem controllerStep_existing {s s' : State V σ} {allocated : Nat → Bool} (hshape : Shape s)
    (hs : Existing s) (hstep : s.controllerStep allocated = some s') : Existing s' := by
  have hexists {u : Nat} : (s.impls u).pc ≠ .absent → (s'.impls u).pc ≠ .absent :=
    mt (step_absent (l := .controller allocated) hstep)
  have hn : s'.nStages = s.nStages := step_nStages (l := .controller allocated) hstep
  have hdisabled (h : WasDisabled s') : s.enabled = true ∨ WasDisabled s := by
    rcases of_wasDisabled hstep h with h | ⟨u, hu, _⟩
    · exact .inr h
    · simp only [Shape, hu] at hshape
      exact .inl hshape.1
  -- nothing but an enable call makes the pipeline an enabled one
  have hkeep (henabled : s'.enabled = true → s.enabled = true)
      (hcontroller : ∀ left, s'.controller ≠ .enabling left) : Existing s' := by
    refine ⟨fun h u hu => hexists (hs.all ?_ u (hn ▸ hu)),
      fun left h => absurd h (hcontroller left)⟩
    exact h.elim (fun h => .inl (henabled h)) hdisabled
  cases controllerStep_move hstep
  case create left hcontroller =>
    refine ⟨fun h u hu => hexists (hs.all ?_ u (hn ▸ hu)), fun left' h u hle hu => ?_⟩
    · exact h.elim (fun h => .inl h) hdisabled
    · cases h
      by_cases hne : u = left
      · subst hne
        simp [Role.createThread_pc]
      · exact hexists (hs.enabling _ hcontroller u (by omega) hu)
  case enabled hcontroller =>
    exact ⟨fun _ u hu => hexists (hs.enabling 0 hcontroller u (Nat.zero_le u) (hn ▸ hu)), nofun⟩
  case disabled => exact hkeep nofun nofun
  all_goals exact hkeep id nofun

theorem step_existing {s s' : State V σ} {l : Label V σ} (hshape : Shape s) (hs : Existing s)
    (hstep : step s l = some s') : Existing s' := by
  have hexists {u : Nat} : (s.impls u).pc ≠ .absent → (s'.impls u).pc ≠ .absent :=
    mt (step_absent hstep)
  cases l with
  | worker u a =>
      obtain ⟨_, v, _, rfl⟩ := step_worker hstep
      exact ⟨fun h u hu => hexists (hs.all h u hu),
        fun left h u hle hu => hexists (hs.enabling left h u hle hu)⟩
  | call c =>
      simp only [step] at hstep
      split at hstep <;> cases hstep
      rcases s.beginCall_cases c with ⟨e, hne, _, heq⟩ | ⟨_, _, heq⟩ | ⟨_, _, _, heq⟩ |
        ⟨_, _, _, heq⟩ | ⟨_, _, heq⟩ <;> rw [heq]
      · refine ⟨fun h u hu => hs.all (h.imp_right fun h => ?_) u hu, by rintro _ ⟨⟩⟩
        simpa [WasDisabled, State.report, hne.symm] using h
      · refine ⟨hs.all, fun left h u hle hu => ?_⟩
        cases h
        exact absurd hu (Nat.not_le_of_lt hle)
      all_goals exact ⟨hs.all, by rintro _ ⟨⟩⟩
  | controller allocated => exact controllerStep_existing hshape hs hstep
  | waiter =>
      cases hstep
      exact ⟨hs.all, hs.enabling⟩

/-- Once all threads have come to rest in an enabled pipeline, they have
exited. -/
theorem Existing.exited {s : State V σ} (hs : Existing s) (henabled : s.enabled = true)
    (hrest : AllResting s) {u : Nat} (hu : u ≤ s.nStages + 1) : (s.impls u).pc = .exited :=
  (hrest u hu).resolve_left (hs.all (.inl henabled) u hu)

end Mtdp.Pipeline
