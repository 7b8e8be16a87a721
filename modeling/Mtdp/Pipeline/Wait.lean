import Mtdp.Pipeline.Finish
import Mtdp.Pipeline.Held
import Mtdp.Pipeline.Tokens

/-!
# Waiting for a finishing source

`mtdp_pipeline_wait` returns once it has found the done flags of all units
set, one after the other from the source to the sink.  A stage or the sink
sets its flag when its timed acquire fails, and clears it only after an
acquire has succeeded: a flag set long ago says nothing about the buffers
that have been queued since.

## Main results

* `wait_drains` — if every flag is loaded while it is up to date, then the
  pipeline is drained when the wait returns.
* `wait_returns_early` — a run that loads one which is not.
-/

namespace Mtdp.Pipeline

open Lib.Transition

variable {V σ : Type}

/-- A step of a thread in the runs that `mtdp_pipeline_wait` is meant for. -/
structure AwaitedStep (s : State V σ) (u : Nat) (a : Answer V σ) : Prop where
  /-- a stage consumes an input and produces an output in every invocation -/
  stages : 1 ≤ u → u ≤ s.nStages → (s.impls u).pc = .callback → ∀ r, a.callback = .ret r →
    r.readyToPush = true ∧ r.readyToPull = true
  pushes : (s.impls u).pc = .push → a.ok = true
  /-- a timed acquire fails only if the semaphore is zero -/
  acquires : (s.impls u).pc = .acquire → a.ok = false → (s.pipes u).semaphore = 0
  /-- the source has pushed its last buffer when it finishes -/
  finishes : u = 0 → (s.impls u).pc = .callback → (s.impls u).destroyed = true →
    ∀ r, a.callback = .ret r → r.readyToPush = false

def Awaited (s : State V σ) : Label V σ → Prop
  | .worker u a => AwaitedStep s u a
  | _ => True

/-- A flag that the waiter finds set is up to date: there is no token for the
unit, and the unit has not just taken one. -/
def LoadsUpToDate (s : State V σ) (l : Label V σ) : Prop :=
  l = .waiter → ∀ u, s.waiter = .loading (u + 1) → (s.impls (u + 1)).done = true →
    (s.pipes (u + 1)).semaphore = 0 ∧ (s.impls (u + 1)).pc ≠ .acquired

/-- Everything the source has pushed has gone through the sink. -/
structure Drained (s : State V σ) : Prop where
  queues : ∀ u ≤ s.nStages, (s.pipes (u + 1)).fifo = []
  stages : ∀ u, 1 ≤ u → u ≤ s.nStages →
    (s.impls u).input = none ∧ (s.impls u).readyToPush = false
  /-- an input the sink still holds is ready to be put back -/
  sink : (s.impls (s.nStages + 1)).readyToPull = false → (s.impls (s.nStages + 1)).input = none

/-! ## Flags of the units -/

/-- What the done flag of the source means. -/
structure Impl.SourceFlags (i : Impl V σ) : Prop where
  ok : i.SourceOk
  settled : i.Settled
  pushes : i.pc ≠ .pushFailed
  done : i.pc ≠ .absent → i.done = true → i.pc = .finishing ∨ i.destroyed = true

/-- What the done flag of a stage or the sink means: the unit has found no
token, and nothing has happened in it since. -/
def Impl.PullFlags (role : Role) (i : Impl V σ) : Prop :=
  match i.pc with
  | .absent => True
  | .test | .gate | .recheck | .exited | .push | .putBack =>
      i.done = true → i.readyToPull = true ∧ (role = .stage → i.readyToPush = false)
  | .acquire => (role = .stage → i.readyToPush = false) ∧ (i.done = true → i.readyToPull = true)
  | .timedOut | .acquired => i.readyToPull = true ∧ (role = .stage → i.readyToPush = false)
  | .putBackFailed => role = .sink ∧ i.readyToPull = true
  | .getFull | .emptyGet | .getEmpty | .process | .callback =>
      i.done = false ∧ (role = .stage → i.readyToPush = false)
  | .release | .recycle => i.done = false
  | .pushFailed | .finishing => False

theorem Goto.pullFlags {role : Role} {a : Answer V σ} {v : View V σ} {pc : Pc}
    (hgoto : Goto role a v pc) (hrole : role ≠ .source) (hv : v.impl.PullFlags role)
    (hpush : v.impl.pc = .push → a.ok = true) : (v.goto pc).impl.PullFlags role := by
  unfold Impl.PullFlags at hv ⊢
  cases hgoto
  case leave h _ => rcases h with h | h <;> simpa [h, View.goto] using hv
  case enter h _ => cases role <;> simpa [h, View.goto, Role.entry] using hv
  case skipPush h _ => cases role <;> simp_all [View.goto, Role.afterPush]
  case skipPull h _ => cases role <;> simp_all [View.goto, Role.afterPull]
  all_goals simp_all [View.goto]

/-- A step of a stage or the sink keeps the meaning of its flag. -/
theorem Move.pullFlags {role : Role} {a : Answer V σ} {v v' : View V σ}
    (hmove : Move role a v v') (hrole : role ≠ .source) (hv : v.impl.PullFlags role)
    (hpush : v.impl.pc = .push → a.ok = true) : v'.impl.PullFlags role := by
  cases hmove
  case goto hgoto => exact hgoto.pullFlags hrole hv hpush
  case pushed h hready _ _ =>
    -- a stage with something to push has not found its input pipe empty
    simp only [Impl.PullFlags, h] at hv
    show v.impl.done = false
    by_contra hdone
    have := (hv (by simpa using hdone)).2 (by cases role <;> simp_all)
    rw [hready] at this
    cases this
  case released hsink h =>
    simp only [Impl.PullFlags, h] at hv
    cases role <;> simp_all [Impl.PullFlags, View.releaseOutput, Role.afterPush]
  case flagged h =>
    rcases h with h | h | h <;> simp only [Impl.PullFlags, h] at hv
    · exact fun _ => ⟨hv.2, fun hstage => absurd (hv.1.symm.trans hstage) (by rintro ⟨⟩)⟩
    · exact fun _ => hv
  case acquired h hready _ =>
    simp only [Impl.PullFlags, h] at hv
    exact ⟨hready, hv.1⟩
  case unflagged h =>
    simp only [Impl.PullFlags, h] at hv
    exact ⟨rfl, hv.2⟩
  case gotFull h _ =>
    simp only [Impl.PullFlags, h] at hv
    cases role <;> simp_all [Impl.PullFlags, Role.afterPull]
  case gotNone h _ | gotOutput h _ _ _ | noOutput h _ _ _ | invoked h _ _ =>
    simp only [Impl.PullFlags, h] at hv
    exact hv
  case compensated h =>
    simp only [Impl.PullFlags, h] at hv
    simp [Impl.PullFlags, View.releaseInput, hv.1]
  case asked h _ =>
    rcases h with ⟨_, h⟩ | ⟨_, h⟩ <;> simp only [Impl.PullFlags, h] at hv <;>
      simp [Impl.PullFlags, View.askInput, hv.1]
  case returned h _ =>
    simp only [Impl.PullFlags, h] at hv
    cases role <;> simp [Impl.PullFlags, View.returns, Role.afterCallback, hv.1]
  case recycled h _ _ =>
    simp only [Impl.PullFlags, h] at hv
    simp [Impl.PullFlags, hv]
  case putBack hsink h hready _ _ =>
    exact ⟨fun hstage => absurd (hsink.symm.trans hstage) (by rintro ⟨⟩), fun _ => hready⟩
  all_goals contradiction

/-- A step of the source keeps the meaning of its flag. -/
theorem Move.sourceFlags {a : Answer V σ} {v v' : View V σ} (hmove : Move .source a v v')
    (hv : v.impl.SourceFlags) (hpush : v.impl.pc = .push → a.ok = true)
    (hfinish : ∀ r, v.impl.pc = .callback → v.impl.destroyed = true → a.callback = .ret r →
      r.readyToPush = false) : v'.impl.SourceFlags := by
  have hok := hv.ok
  refine ⟨(hmove.source_step hok).1, (hmove.source_settled hok).mpr ⟨hfinish, hv.settled⟩, ?_, ?_⟩
  · cases hmove
    case goto hgoto =>
      cases hgoto
      case pushRefused h _ _ hrefused =>
        rw [hpush h] at hrefused
        cases hrefused
      all_goals nofun
    all_goals nofun
  · -- the flag has been set before, or `mtdp_source_finished` sets it now
    have hbefore := hv.done hmove.not_absent.1
    rintro -
    cases hmove
    case finishing => exact fun _ => .inl rfl
    case finished => exact fun _ => .inr rfl
    case flagged h =>
      simp only [Impl.SourceOk] at hok
      rcases h with h | h | h
      · exact absurd h hv.pushes
      · simp [h] at hok
      · simp [h] at hok
    case goto hgoto =>
      have hpc : v.impl.pc ≠ .finishing := by
        cases hgoto
        case leave h _ => rcases h with h | h <;> simp [h]
        all_goals simp [*]
      exact fun hdone => .inr ((hbefore hdone).resolve_left hpc)
    case unflagged | gotFull | gotNone | compensated | acquired | recycled | putBack =>
      contradiction
    case asked h _ => simp at h
    all_goals exact fun hdone => .inr ((hbefore hdone).resolve_left (by simp [*]))

/-! ## Quiet units -/

/-- A unit whose flag is set, with nothing in its input pipe. -/
def Quiet (s : State V σ) (u : Nat) : Prop :=
  (s.impls u).pc ≠ .absent ∧ (s.impls u).done = true ∧
    (u ≠ 0 → (s.impls u).pc ≠ .acquired ∧ (s.pipes u).fifo = [] ∧ (s.pipes u).semaphore = 0)

/-- What the waiter has found out so far. -/
def WaiterOk (s : State V σ) : Prop :=
  match s.waiter with
  | .waiting _ => s.enabled = true
  | .loading u => s.enabled = true ∧ u ≤ s.nStages + 1 ∧ ∀ w < u, Quiet s w
  | .returned .ok => ∀ w ≤ s.nStages + 1, Quiet s w
  | _ => True

structure WaitInv (s : State V σ) : Prop where
  shape : Shape s
  existing : Existing s
  balanced : Balanced s
  source : (s.impls 0).SourceFlags
  flags : ∀ u, 1 ≤ u → u ≤ s.nStages + 1 → (s.impls u).PullFlags (s.role u)
  consistent : ∀ u, 1 ≤ u → u ≤ s.nStages + 1 → (s.impls u).pc ≠ .absent →
    (s.impls u).Consistent (s.role u)
  waiter : WaiterOk s

/-- A producer with nothing to push leaves the queue of its output pipe
alone. -/
theorem Move.output_quiet {role : Role} {a : Answer V σ} {v v' : View V σ}
    (hmove : Move role a v v') (hpush : v.impl.pc = .push → v.impl.readyToPush = false)
    (hrelease : v.impl.pc ≠ .release) :
    v'.outputPipe.fifo = v.outputPipe.fifo ∧ v'.outputPipe.semaphore = v.outputPipe.semaphore := by
  cases hmove
  case pushed h hready _ _ =>
    rw [hpush h] at hready
    cases hready
  case released h => exact absurd h hrelease
  case returned => exact v.returns_queue _ _
  all_goals exact ⟨rfl, rfl⟩

/-- A consumer whose flag is set stays quiet while there is no token. -/
theorem Move.input_quiet {role : Role} {a : Answer V σ} {v v' : View V σ}
    (hmove : Move role a v v') (hrole : role ≠ .source) (hv : v.impl.PullFlags role)
    (hdone : v.impl.done = true) (hpc : v.impl.pc ≠ .acquired)
    (hsemaphore : v.inputPipe.semaphore = 0) :
    v'.impl.done = true ∧ v'.impl.pc ≠ .acquired ∧ v'.inputPipe.fifo = v.inputPipe.fifo ∧
      v'.inputPipe.semaphore = 0 := by
  cases hmove
  case goto hgoto =>
    refine ⟨hdone, ?_, rfl, hsemaphore⟩
    cases hgoto
    case enter => cases role <;> simp [View.goto, Role.entry]
    case skipPush => cases role <;> simp [View.goto, Role.afterPush]
    case skipPull => cases role <;> simp [View.goto, Role.afterPull]
    all_goals rintro ⟨⟩
  case flagged => exact ⟨rfl, by rintro ⟨⟩, rfl, hsemaphore⟩
  case acquired hpos =>
    rw [hsemaphore] at hpos
    cases hpos
  case putBack =>
    exact ⟨hdone, by rintro ⟨⟩, Channel.putBack_fifo _ _ _,
      (Channel.putBack_semaphore _ _ _).trans hsemaphore⟩
  case unflagged h => exact absurd h hpc
  case pushed h hready _ _ =>
    exact ⟨hdone, by rintro ⟨⟩, rfl, hsemaphore⟩
  case asked h _ =>
    rcases h with ⟨_, h⟩ | ⟨_, h⟩ <;> simp [Impl.PullFlags, h, hdone] at hv
  case finishing | finished => contradiction
  all_goals simp_all [Impl.PullFlags]

/-- A stage or sink that has set its flag. -/
theorem Impl.PullFlags.of_done {role : Role} {i : Impl V σ} (hi : i.PullFlags role)
    (hpc : i.pc ≠ .absent) (hdone : i.done = true) :
    i.readyToPull = true ∧ (role = .stage → i.readyToPush = false) ∧ i.pc ≠ .release ∧
      (i.pc ≠ .acquired → i.pc.taken = 0) := by
  unfold PullFlags at hi
  split at hi <;> simp_all [Pc.taken]

/-- A stage that has set its flag has no input. -/
theorem Impl.PullFlags.input_eq_none {i : Impl V σ} (hi : i.PullFlags .stage)
    (hconsistent : i.Consistent .stage) (hpc : i.pc ≠ .absent) (hdone : i.done = true) :
    i.input = none := by
  have hinput := hconsistent.2
  unfold PullFlags at hi
  generalize hi_pc : i.pc = pc at hi hinput hpc
  cases pc <;> simp_all

/-- A quiet producer has nothing to push. -/
theorem WaitInv.nothing_to_push {s : State V σ} (hs : WaitInv s) {u : Nat} (hu : u ≤ s.nStages)
    (hquiet : Quiet s u) :
    ((s.impls u).pc = .push → (s.impls u).readyToPush = false) ∧ (s.impls u).pc ≠ .release := by
  obtain ⟨hpc, hdone, _⟩ := hquiet
  by_cases hzero : u = 0
  · subst hzero
    have hok := hs.source.ok
    have hflag := hs.source.done hpc hdone
    constructor
    · intro hpush
      simp only [Impl.SourceOk, hpush, reduceCtorEq, false_or] at hok hflag
      rw [hok.1] at hflag
      cases hflag
    · intro hrelease
      simp only [Impl.SourceOk, hrelease, reduceCtorEq, false_or] at hok hflag
      rw [hok.1] at hflag
      cases hflag
  · have hflags := (hs.flags u (by omega) (by omega)).of_done hpc hdone
    exact ⟨fun _ => hflags.2.1 (by simp [State.role, hzero, hu]), hflags.2.2.1⟩

/-- Quiet units stay quiet: nothing comes from those before them. -/
theorem WaitInv.quiet_step {s s' : State V σ} {l : Label V σ} (hs : WaitInv s)
    (hstep : SessionStep s l s') {w : Nat} (hw : w ≤ s.nStages + 1)
    (hquiet : ∀ v ≤ w, Quiet s v) : Quiet s' w := by
  obtain ⟨hpc, hdone, hqueue⟩ := hquiet w (Nat.le_refl w)
  cases hstep with
  | @worker u a v hu hmove =>
      by_cases hself : u = w
      · subst hself
        by_cases hzero : u = 0
        · subst hzero
          refine ⟨by simpa using hmove.not_absent.2, ?_, nofun⟩
          rw [State.putView_impls_self]
          rcases hmove.done_cases with ⟨_, heq⟩ | ⟨_, heq⟩ | ⟨hrole, _⟩
          · exact heq.trans hdone
          · exact heq
          · exact absurd s.role_zero hrole
        · obtain ⟨hacquired, hfifo, hsemaphore⟩ := hqueue hzero
          obtain ⟨hdone', hacquired', hfifo', hsemaphore'⟩ :=
            hmove.input_quiet (mt State.role_eq_source.mp hzero) (hs.flags u (by omega) hw) hdone
              hacquired hsemaphore
          refine ⟨by simpa using hmove.not_absent.2, by simpa using hdone', fun _ => ?_⟩
          simpa using ⟨hacquired', hfifo'.trans hfifo, hsemaphore'⟩
      have himpl : (s.putView u v).impls w = s.impls w :=
        State.putView_impls_of_ne _ _ _ (Ne.symm hself)
      refine ⟨himpl ▸ hpc, himpl ▸ hdone, fun hzero => ?_⟩
      rw [himpl]
      by_cases hproducer : w = u + 1
      · subst hproducer
        obtain ⟨hpush, hrelease⟩ := hs.nothing_to_push (by omega) (hquiet u (by omega))
        obtain ⟨hfifo, hsemaphore⟩ := hmove.output_quiet hpush hrelease
        simpa [hfifo, hsemaphore] using hqueue hzero
      · rw [State.putView_pipes_of_ne _ _ _ (Ne.symm hself) hproducer]
        exact hqueue hzero
  | @create _ u _ _ habsent _ hpipes himpls =>
      have hne : w ≠ u := by
        rintro rfl
        exact hpc habsent
      have himpl : s'.impls w = s.impls w := by rw [himpls, Function.update_of_ne hne]
      rw [Quiet, himpl, hpipes]
      exact ⟨hpc, hdone, hqueue⟩
  | flags _ _ hpipes himpls =>
      obtain ⟨enabled, himpl⟩ := himpls w
      rw [Quiet, himpl, hpipes]
      exact ⟨hpc, hdone, hqueue⟩
  | wait => exact ⟨hpc, hdone, hqueue⟩

/-- A flag that is up to date, with quiet units before it. -/
theorem WaitInv.quiet_of_load {s : State V σ} (hs : WaitInv s) {u : Nat}
    (hwaiter : s.waiter = .loading u) (hdone : (s.impls u).done = true)
    (hload : LoadsUpToDate s .waiter) : Quiet s u := by
  have hchecked := hs.waiter
  simp only [WaiterOk, hwaiter] at hchecked
  obtain ⟨henabled, hu, hquiet⟩ := hchecked
  have hpc := hs.existing.all (.inl henabled) u hu
  refine ⟨hpc, hdone, fun hzero => ?_⟩
  obtain ⟨k, rfl⟩ := Nat.exists_eq_add_one_of_ne_zero hzero
  obtain ⟨hsemaphore, hacquired⟩ := hload rfl k hwaiter hdone
  have hbalance := hs.balanced k (by omega)
  have htaken := ((hs.flags (k + 1) (by omega) hu).of_done hpc hdone).2.2.2 hacquired
  have howed : (s.impls k).pc.owed = 0 := by
    have := (hs.nothing_to_push (by omega) (hquiet k (Nat.lt_succ_self k))).2
    generalize (s.impls k).pc = pc at this
    cases pc <;> first | rfl | contradiction
  rw [hsemaphore, htaken, howed] at hbalance
  exact ⟨hacquired, List.length_eq_zero_iff.mp hbalance.symm, hsemaphore⟩

theorem WaitInv.drained {s : State V σ} (hs : WaitInv s) (hok : s.waiter = .returned .ok) :
    Drained s := by
  have hquiet := hs.waiter
  simp only [WaiterOk, hok] at hquiet
  have hflags {u : Nat} (hpos : 1 ≤ u) (hu : u ≤ s.nStages + 1) :=
    (hs.flags u hpos hu).of_done (hquiet u hu).1 (hquiet u hu).2.1
  refine
    { queues := fun u hu => ((hquiet (u + 1) (by omega)).2.2 (Nat.succ_ne_zero u)).2.1
      stages := fun u hpos hu => ?_
      sink := fun hready => ?_ }
  · have hstage : s.role u = .stage := by
      simp [State.role, hu]
      omega
    obtain ⟨_, hpush, _⟩ := hflags hpos (by omega)
    refine ⟨?_, hpush hstage⟩
    have hpull := hs.flags u hpos (by omega)
    have hconsistent := hs.consistent u hpos (by omega) (hquiet u (by omega)).1
    rw [hstage] at hpull hconsistent
    exact hpull.input_eq_none hconsistent (hquiet u (by omega)).1 (hquiet u (by omega)).2.1
  · rw [(hflags (by omega) (Nat.le_refl _)).1] at hready
    cases hready

/-! ## Steps -/

theorem Created.waitInv {s : State V σ} (hs : Created s) : WaitInv s where
  shape := hs.shape
  existing := hs.existing
  balanced := hs.balanced
  source := ⟨by simp [Impl.SourceOk, hs.pc, hs.workerDestroyed],
    by simp [Impl.Settled, hs.workerDestroyed], by simp [hs.pc], fun h => absurd (hs.pc 0) h⟩
  flags := fun u _ _ => by simp [Impl.PullFlags, hs.pc]
  consistent := fun u _ _ h => absurd (hs.pc u) h
  waiter := by simp [WaiterOk, hs.waiter]

/-- The flags of a thread that has just been created. -/
theorem Role.createThread_pullFlags (role : Role) (i : Impl V σ) :
    (role.createThread i).PullFlags role := by
  cases role <;> simp [Impl.PullFlags, Role.createThread, sourceCreateThread, stageCreateThread,
    sinkCreateThread]

theorem Impl.SourceFlags.create {i : Impl V σ} (hi : i.SourceFlags) (hpc : i.pc = .absent) :
    (sourceCreateThread i).SourceFlags := by
  have hdestroyed : i.destroyed = false := by simpa [SourceOk, hpc] using hi.ok
  refine ⟨by rintro ⟨⟩, fun h => ?_, by rintro ⟨⟩, by rintro _ ⟨⟩⟩
  exact absurd h (by simp [sourceCreateThread, hdestroyed])

/-- What the units keep in a step. -/
theorem WaitInv.units_step {s s' : State V σ} {l : Label V σ} (hs : WaitInv s)
    (hstep : SessionStep s l s') (hl : Awaited s l) :
    (s'.impls 0).SourceFlags ∧ ∀ u, 1 ≤ u → u ≤ s.nStages + 1 →
      (s'.impls u).PullFlags (s.role u) ∧
        ((s'.impls u).pc ≠ .absent → (s'.impls u).Consistent (s.role u)) := by
  have hkeep {u : Nat} (hpos : 1 ≤ u) (hu : u ≤ s.nStages + 1) := And.intro (hs.flags u hpos hu)
    (hs.consistent u hpos hu)
  cases hstep with
  | @worker w a v hw hmove =>
      have hpush := AwaitedStep.pushes hl
      refine ⟨?_, fun u hpos hu => ?_⟩
      · by_cases hzero : w = 0
        · subst hzero
          rw [State.putView_impls_self]
          exact Move.sourceFlags hmove hs.source hpush fun r hpc hdestroyed hret =>
            AwaitedStep.finishes hl rfl hpc hdestroyed r hret
        · rw [State.putView_impls_of_ne _ _ _ (Ne.symm hzero)]
          exact hs.source
      · by_cases hne : u = w
        · subst hne
          rw [State.putView_impls_self]
          exact ⟨hmove.pullFlags (mt State.role_eq_source.mp (by omega)) (hs.flags u hpos hu) hpush,
            fun _ => hmove.consistent (hs.consistent u hpos hu hmove.not_absent.1)⟩
        · rw [State.putView_impls_of_ne _ _ _ hne]
          exact hkeep hpos hu
  | @create _ w _ hw habsent _ _ himpls =>
      rw [himpls]
      refine ⟨?_, fun u hpos hu => ?_⟩
      · by_cases hzero : w = 0
        · subst hzero
          rw [Function.update_self]
          exact hs.source.create habsent
        · rw [Function.update_of_ne (Ne.symm hzero)]
          exact hs.source
      · by_cases hne : u = w
        · subst hne
          rw [Function.update_self]
          exact ⟨Role.createThread_pullFlags _ _, fun _ => Role.createThread_consistent _ _⟩
        · rw [Function.update_of_ne hne]
          exact hkeep hpos hu
  | flags _ _ _ himpls =>
      refine ⟨?_, fun u hpos hu => ?_⟩
      · obtain ⟨enabled, himpl⟩ := himpls 0
        rw [himpl]
        exact ⟨hs.source.ok, hs.source.settled, hs.source.pushes, hs.source.done⟩
      · obtain ⟨enabled, himpl⟩ := himpls u
        rw [himpl]
        exact hkeep hpos hu
  | wait => exact ⟨hs.source, fun u hpos hu => hkeep hpos hu⟩

/-- What the waiter has found out stays true. -/
theorem WaitInv.waiter_step {s s' : State V σ} {l : Label V σ} (hs : WaitInv s)
    (hstep : SessionStep s l s') (hload : LoadsUpToDate s l) : WaiterOk s' := by
  have hwaiter := hs.waiter
  have hother (hn : s'.nStages = s.nStages) (henabled : s.enabled = true → s'.enabled = true)
      (hsame : s'.waiter = s.waiter) : WaiterOk s' := by
    unfold WaiterOk at hwaiter ⊢
    rw [hsame]
    split <;> rename_i hw <;> simp only [hw] at hwaiter
    · exact henabled hwaiter
    · obtain ⟨hbefore, hu, hquiet⟩ := hwaiter
      exact ⟨henabled hbefore, hn ▸ hu, fun w hlt => hs.quiet_step hstep (by omega)
        fun v hv => hquiet v (by omega)⟩
    · exact fun w hle => hs.quiet_step hstep (hn ▸ hle) fun v hv => hwaiter v (by omega)
    · trivial
  cases hstep with
  | worker => exact hother rfl id rfl
  | create _ _ hn _ _ henabled hsame => exact hother hn henabled hsame
  | flags _ hn _ _ henabled hsame => exact hother hn henabled hsame
  | wait =>
      unfold WaiterOk at hwaiter
      cases hw : s.waiter <;> simp only [hw] at hwaiter <;>
        simp only [WaiterOk, State.waiterStep, hw]
      case atEnabled =>
        cases henabled : s.enabled <;> simp
      case waiting u =>
        by_cases hu : u ≤ s.nStages
        · simpa [hu] using hwaiter
        · simpa [hu] using hwaiter
      case loading u =>
        obtain ⟨henabled, hle, hquiet⟩ := hwaiter
        cases hdone : (s.impls u).done with
        | false => simpa using henabled
        | true =>
            have hchecked : ∀ w < u + 1, Quiet s w := fun w hlt => by
              rcases Nat.lt_succ_iff_lt_or_eq.mp hlt with hlt | rfl
              · exact hquiet w hlt
              · exact hs.quiet_of_load hw hdone hload
            by_cases hu : u ≤ s.nStages
            · simp only [hu, if_true]
              exact ⟨henabled, Nat.succ_le_succ hu, hchecked⟩
            · simp only [hu, if_true, if_false]
              exact fun w hlast => hchecked w (by omega)

/-- A step of an awaited run keeps the invariant, if the flag it loads is up
to date. -/
theorem WaitInv.step {s s' : State V σ} {l : Label V σ} (hs : WaitInv s) (hsession : Session s)
    (hstep : Pipeline.step s l = some s') (heffect : SessionStep s l s') (hl : Awaited s l)
    (hload : LoadsUpToDate s l) : WaitInv s' := by
  have hn := step_nStages hstep
  obtain ⟨hsource, hunits⟩ := hs.units_step heffect hl
  have hclears : ClearsEmpty s l := fun _ left _ hcontroller => by
    rw [Session, hcontroller] at hsession
    exact hsession.elim
  have hrole (u : Nat) : s'.role u = s.role u := by rw [State.role, State.role, hn]
  exact
    { shape := step_shape hs.shape hstep
      existing := step_existing hs.shape hs.existing hstep
      balanced := (step_balanced hs.shape hs.balanced hstep).mpr hclears
      source := hsource
      flags := fun u hpos hu => hrole u ▸ (hunits u hpos (hn ▸ hu)).1
      consistent := fun u hpos hu => hrole u ▸ (hunits u hpos (hn ▸ hu)).2
      waiter := hs.waiter_step heffect hload }

/-- **Waiting.**  Take any run of a freshly created pipeline that is as
`mtdp_pipeline_wait` expects it to be, and in which no flag is found set that
is out of date.  Whenever the wait returns with `MTDP_OK`, the pipeline is
drained. -/
theorem wait_drains {s t : State V σ} {ls : List (Label V σ)} (hs : Created s)
    (hsession : .call .disable ∉ ls) (hawaited : Takes step Awaited s ls)
    (hload : Takes step LoadsUpToDate s ls) (hrun : run step s ls = some t)
    (hok : t.waiter = .returned .ok) : Drained t :=
  WaitInv.drained
    (session_run (motive := fun _ t => WaitInv t) hs hs.waitInv
      (fun _ _ _ _ _ hinv hl hstep hsession heffect =>
        hinv.step hsession hstep heffect hl.1 hl.2)
      hsession (hawaited.and hload) hrun)
    hok

/-! ## Runs of small pipelines -/

instance (s : State V σ) (u : Nat) (a : Answer V σ) : Decidable (AwaitedStep s u a) :=
  match hcallback : a.callback with
  | .finish =>
      decidable_of_iff (((s.impls u).pc = .push → a.ok = true) ∧
          ((s.impls u).pc = .acquire → a.ok = false → (s.pipes u).semaphore = 0))
        ⟨fun h => ⟨by simp [hcallback], h.1, h.2, by simp [hcallback]⟩,
          fun h => ⟨h.pushes, h.acquires⟩⟩
  | .ret r =>
      decidable_of_iff (((s.impls u).pc = .push → a.ok = true) ∧
          ((s.impls u).pc = .acquire → a.ok = false → (s.pipes u).semaphore = 0) ∧
          (1 ≤ u → u ≤ s.nStages → (s.impls u).pc = .callback →
            r.readyToPush = true ∧ r.readyToPull = true) ∧
          (u = 0 → (s.impls u).pc = .callback → (s.impls u).destroyed = true →
            r.readyToPush = false))
        ⟨fun h => ⟨by simpa [hcallback] using h.2.2.1, h.1, h.2.1,
            by simpa [hcallback] using h.2.2.2⟩,
          fun h => ⟨h.pushes, h.acquires, fun hpos hu hpc => h.stages hpos hu hpc r hcallback,
            fun hzero hpc hdestroyed => h.finishes hzero hpc hdestroyed r hcallback⟩⟩

instance (s : State V σ) : (l : Label V σ) → Decidable (Awaited s l)
  | .worker u a => inferInstanceAs (Decidable (AwaitedStep s u a))
  | .call _ => .isTrue trivial
  | .controller _ => .isTrue trivial
  | .waiter => .isTrue trivial

instance (s : State V σ) : (l : Label V σ) → Decidable (LoadsUpToDate s l)
  | .waiter =>
      match hwaiter : s.waiter with
      | .loading (u + 1) =>
          decidable_of_iff ((s.impls (u + 1)).done = true →
              (s.pipes (u + 1)).semaphore = 0 ∧ (s.impls (u + 1)).pc ≠ .acquired)
            (by simp [LoadsUpToDate, hwaiter])
      | .loading 0 => .isTrue (by simp [LoadsUpToDate, hwaiter])
      | .outside => .isTrue (by simp [LoadsUpToDate, hwaiter])
      | .atDestroying => .isTrue (by simp [LoadsUpToDate, hwaiter])
      | .atEnabled => .isTrue (by simp [LoadsUpToDate, hwaiter])
      | .waiting _ => .isTrue (by simp [LoadsUpToDate, hwaiter])
      | .returned _ => .isTrue (by simp [LoadsUpToDate, hwaiter])
  | .worker _ _ => .isTrue nofun
  | .call _ => .isTrue nofun
  | .controller _ => .isTrue nofun

/-- A buffer goes from the source of `staged` through the stage to the sink, and
both of them put back what they were given; then they find no more tokens and set
their flags, the source finishes, and the waiter loads all three. -/
def waitAfterOne : List (Label Unit Unit) :=
  enableAndStartStaged ++ threadSteps 0 14 true true false ++
    threadSteps 1 16 true true true ++ threadSteps 2 13 true false true ++
    threadSteps 1 2 false true true ++ threadSteps 2 2 false false true ++
    [.worker 0 ⟨true, (), .finish⟩] ++ threadSteps 0 3 true false false ++
    List.replicate 9 .waiter

theorem waitAfterOne_session : .call .disable ∉ waitAfterOne := by
  simp [waitAfterOne, enableAndStartStaged, threadSteps, controllerSteps]

theorem wait_drains_onePushed :
    Drained ((run step staged waitAfterOne).get (by decide)) :=
  wait_drains staged_created waitAfterOne_session (by decide +kernel) (by decide +kernel)
    (Option.some_get (by decide)).symm (by decide)

/-- The sink of `smallest` finds no token and sets its flag; then the source
pushes `n` buffers and finishes, and the waiter loads both flags. -/
def waitAfter (pushes : Nat) : List (Label Unit Unit) :=
  enableAndStart ++ threadSteps 1 6 false false true ++
    threadSteps 0 (6 + 8 * pushes) true true false ++ [.worker 0 ⟨true, (), .finish⟩] ++
    threadSteps 0 3 true false false ++ List.replicate 7 .waiter

theorem waitAfter_session (pushes : Nat) : .call .disable ∉ waitAfter pushes := by
  simp [waitAfter, enableAndStart, threadSteps, controllerSteps]

/-- With one buffer pushed, the wait returns while it is in the queue. -/
theorem wait_returns_early :
    ¬ ∀ (s t : State Unit Unit) (ls : List (Label Unit Unit)), Created s →
      .call .stop ∉ ls → .call .disable ∉ ls → Takes step Awaited s ls → run step s ls = some t →
      t.waiter = .returned .ok → Drained t := by
  intro hall
  have hend : (run step smallest (waitAfter 1)).map (fun t => (t.waiter, (t.pipes 1).fifo)) =
      some (.returned .ok, [2]) := by decide
  obtain ⟨t, hrun, hobserved⟩ := Option.map_eq_some_iff.mp hend
  simp only [Prod.mk.injEq] at hobserved
  obtain ⟨hok, hfifo⟩ := hobserved
  have hdrained := hall smallest t (waitAfter 1) smallest_created
    (by simp [waitAfter, enableAndStart, threadSteps, controllerSteps]) (waitAfter_session 1)
    (by decide) hrun hok
  have hempty := hdrained.queues 0 (Nat.zero_le _)
  rw [hfifo] at hempty
  cases hempty

end Mtdp.Pipeline
