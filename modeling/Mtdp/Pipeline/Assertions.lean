import Mtdp.Pipeline.LockedRuns
import Mtdp.Pipeline.Ownership

/-!
# The assertions of the pipes

Every function of `src/pipe.c` that a thread calls asserts before and after that
`mtdp_pipe_check_invariants` returns true, and so do those the controller calls.  It
looks at the pipe under both mutexes, but at a moment of its own: between the function
and the assertion the other end of the pipe may have called something.

## Main results

* `Holds.step` — every step keeps the buffers that are seen, and no assertion fails.
* `assertions_hold` — no assertion fails in any run.
* `pipe_calls_go_on` — nobody waits for a mutex whose owner cannot go on.
-/

namespace Mtdp.Pipeline

open Lib.Transition Calls

variable {V σ : Type}

/-- A unit calls the functions of pipes it has. -/
theorem CallsPipe.pipe {role : Role} {i : Impl V σ} {side : Side} {f : Bool → Operation}
    (hcalls : CallsPipe role i side f) :
    (side = .input → role ≠ .source) ∧ (side = .output → role ≠ .sink) := by
  cases hcalls <;> simp_all

namespace Locked

variable {b : Build} {s s' : State V σ} {u : Nat}

/-- An assertion that has looked at its pipe is going to hold. -/
def Checked (s : State V σ) : Prop :=
  ∀ u k, s.phase u ≠ .call → entered ((s.calls k).locks.pc u) = true →
    (s.pipe k).seen.result u = some (.bool true)

/-- The program goes on if the assertion holds. -/
theorem State.Unlocks.aborted {r : Result} (hunlocks : s.Unlocks b u r s')
    (hrunning : s.aborted = false) (hholds : s.phase u ≠ .call → r = .bool true) :
    s'.aborted = false := by
  cases hunlocks with
  | failed hphase hfailed => exact absurd (hholds hphase) hfailed
  | _ => exact hrunning

/-- A step of one thread. -/
theorem Checked.of_others (hs : Checked s) (hothers : ∀ w, w ≠ u → s.SameUnit s' w)
    (hself : ∀ k, s'.phase u ≠ .call → entered ((s'.calls k).locks.pc u) = true →
      (s'.pipe k).seen.result u = some (.bool true)) : Checked s' := by
  intro w k hphase hentered
  by_cases hne : w = u
  · subst hne
    exact hself k hphase hentered
  · have h := hothers w hne
    rw [h.phase] at hphase
    rw [h.pc] at hentered
    rw [h.result]
    exact hs w k hphase hentered

/-- A step that changes nothing about the calls under way. -/
theorem Checked.of_same (hs : Checked s) (hcalls : s'.calls = s.calls)
    (hphase : s'.phase = s.phase)
    (hresult : ∀ k, (s'.pipe k).seen.result = (s.pipe k).seen.result) : Checked s' := by
  intro w k
  rw [hcalls, hphase, hresult]
  exact hs w k

section CallSteps

variable {side : Side} {f : Bool → Operation} {ok : Bool} {c : Calls.State V Nat}

/-- **A step in a function of a pipe.** -/
theorem Checked.putPipe (hs : Checked s) (hinv : Inv b s)
    (hcall : (s.now.role u).call (s.now.impls u) = some (side, f))
    (htruly : Calls.AnswersTruly b.platform (s.pipe (side.pipe u)) ⟨u, s.operation u (f ok)⟩)
    (hcheck : (s.seen.pipes (side.pipe u)).checkInvariants = true)
    (hstep : Calls.step b.platform (s.pipe (side.pipe u)) ⟨u, s.operation u (f ok)⟩ = some c) :
    Checked (s.putPipe (side.pipe u) c) := by
  obtain ⟨_, hseen⟩ := (hinv.pipes _).step htruly hstep
  refine hs.of_others (fun w hne => hinv.others htruly hstep hne) fun k hphase hentered => ?_
  by_cases hk : k = side.pipe u
  case neg =>
    rw [State.putPipe_calls_of_ne _ hk, hinv.idle_elsewhere hcall hk] at hentered
    cases hentered
  subst hk
  rw [State.putPipe_calls_self] at hentered
  rw [State.pipe_putPipe_self]
  rcases Calls.step_ways hstep with ⟨hmade, _, hbusy, _⟩ | ⟨hnone, _, hsame⟩ | ⟨_, _, hidle⟩
  · -- it looks at the pipe that everybody sees
    obtain ⟨_, side', f', ok', hsome, _, hcalled⟩ := (hinv.threads u).calling _ hbusy
    rw [hcall] at hsome
    cases hsome
    rw [State.operation, if_neg (show s.phase u ≠ .call from hphase)] at hcalled
    rw [hmade, show (s.pipe (side.pipe u)).call u = .checkInvariants from hcalled] at hseen
    obtain ⟨m, hmade, hseen⟩ := run_cons.mp hseen
    rw [← Option.some.inj hseen, ← Option.some.inj hmade]
    simp only [Function.update_self]
    exact congrArg (fun ok => some (Result.bool ok)) hcheck
  · rw [hnone] at hseen
    rw [← Option.some.inj hseen]
    exact hs u _ hphase (hsame.symm.trans hentered)
  · rw [show c.locks.pc u = .idle from hidle] at hentered
    cases hentered

/-- **A step of a call**: an assertion does not fail. -/
theorem Checked.callStep (hs : Checked s) (hinv : Inv b s) (hrunning : s.aborted = false)
    {a : Answer V σ} (hcall : (s.now.role u).call (s.now.impls u) = some (side, f))
    (htruly : Calls.AnswersTruly b.platform (s.pipe (side.pipe u)) ⟨u, s.operation u (f a.ok)⟩)
    (hcheck : (s.seen.pipes (side.pipe u)).checkInvariants = true)
    (hrun : s.callStep b u (side.pipe u) (f a.ok) = some s') :
    Checked s' ∧ s'.aborted = false := by
  obtain ⟨c, hstep, rfl⟩ := Option.map_eq_some_iff.mp hrun
  have hchecked := hs.putPipe hinv hcall htruly hcheck hstep
  split
  case isFalse => exact ⟨hchecked, hrunning⟩
  case isTrue hidle =>
    obtain ⟨_, hseen⟩ := (hinv.pipes _).step htruly hstep
    obtain ⟨hnone, hbefore⟩ : Calls.effects b.platform (s.pipe (side.pipe u))
        ⟨u, s.operation u (f a.ok)⟩ = [] ∧
          entered ((s.calls (side.pipe u)).locks.pc u) = true := by
      rcases Calls.step_ways hstep with ⟨_, _, _, hentered⟩ | ⟨_, hbusy, _⟩ | ⟨hnone, hbefore, _⟩
      · rw [show c.locks.pc u = .idle from hidle] at hentered
        cases hentered
      · exact absurd hidle hbusy
      · exact ⟨hnone, hbefore⟩
    rw [hnone] at hseen
    obtain ⟨r, hresult, hreturned⟩ :=
      State.returned_of_seen (Option.some.inj hseen).symm hbefore hidle
    rw [hreturned]
    have hidle' (k : Nat) : ((s.putPipe (side.pipe u) c).calls k).locks.pc u = .idle := by
      by_cases hk : k = side.pipe u
      · subst hk
        simpa using hidle
      · rw [State.putPipe_calls_of_ne _ hk]
        exact hinv.idle_elsewhere hcall hk
    have hunlocks := State.unlocked_unlocks b (s.putPipe (side.pipe u) c) u r
    obtain ⟨hothers, hcalls, _, _⟩ := hunlocks.frame
    constructor
    · refine hchecked.of_others hothers fun k _ hentered => ?_
      rw [hcalls, hidle'] at hentered
      cases hentered
    · refine hunlocks.aborted hrunning fun hphase => ?_
      rw [hs u _ hphase hbefore] at hresult
      exact (Option.some.inj hresult).symm

end CallSteps

section Controller

variable {s₀ : Pipeline.State V σ}

/-- When the controller calls functions of pipes, all threads have been joined. -/
theorem mem_pipesCalled (hshape : Shape s.seen) {k : Nat} (hk : k ∈ pipesCalled s.now) :
    AllResting s.seen ∧ ∃ u ≤ s.now.nStages, k = u + 1 := by
  rw [Shape, show s.seen.controller = s.now.controller from rfl] at hshape
  unfold pipesCalled at hk
  split at hk <;> rename_i hat <;> try simp only [hat] at hshape
  case h_1 left =>
    obtain ⟨_, hle, hrest⟩ := hshape
    exact ⟨hrest, left, Nat.le_of_succ_le_succ hle, List.mem_singleton.mp hk⟩
  case h_2 left =>
    obtain ⟨_, hle, hrest⟩ := hshape
    have hle : left ≤ s.now.nStages + 1 := Nat.le_of_succ_le_succ hle
    refine ⟨hrest, ?_⟩
    rcases List.mem_append.mp hk with hinput | houtput
    · split at hinput
      case isTrue h =>
        have hne : left ≠ 0 := fun hzero => h.1 (Pipeline.State.role_eq_source.mpr hzero)
        rw [List.mem_singleton.mp hinput]
        exact ⟨left - 1, by omega, by omega⟩
      case isFalse => cases hinput
    · split at houtput
      case isTrue h =>
        exact ⟨left, s.now.le_of_role_ne_sink h.1, List.mem_singleton.mp houtput⟩
      case isFalse => cases houtput
  case h_3 => cases hk

theorem controllerStep_pipes (hshape : Shape s.seen) {allocated : Nat → Bool}
    {now : Pipeline.State V σ} (hstep : s.now.controllerStep allocated = some now) :
    now.pipes = s.now.pipes ∨ AllResting s.seen := by
  rw [Shape, show s.seen.controller = s.now.controller from rfl] at hshape
  cases controllerStep_move hstep <;> rename_i hat <;> simp only [hat] at hshape
  case clear | giveBack => exact .inr hshape.2.2
  all_goals exact .inl rfl

/-- **The assertions in the calls of the controller** hold. -/
theorem asserted_eq_true (hs : Inv b s) (s' : State V σ) (hcalls : s'.calls = s.calls)
    (hfilled : ∀ u ≤ s₀.nStages, Filled (s₀.pipes (u + 1))) (hown : OwnInv s₀ s.seen)
    (hown' : OwnInv s₀ s'.seen) (hn : s'.now.nStages = s.now.nStages) :
    asserted s.now s'.now = true := by
  rw [asserted, List.all_eq_true]
  intro k hk
  obtain ⟨hrest, u, hu, rfl⟩ := mem_pipesCalled hown.shape hk
  have hidle := hs.all_idle hrest
  have hnow : s.seen.pipes = s.now.pipes := State.seen_pipes hidle
  have hnow' : s'.seen.pipes = s'.now.pipes := State.seen_pipes (by rwa [hcalls])
  rw [← hnow, ← hnow', hown.checkInvariants hfilled hu,
    hown'.checkInvariants hfilled (show u ≤ s'.now.nStages from hn ▸ hu)]
  rfl

end Controller

/-! ## Whole runs -/

section Runs

variable {s₀ : Pipeline.State V σ}

/-- What holds in every run. -/
structure Holds (b : Build) (s₀ : Pipeline.State V σ) (s : State V σ) : Prop where
  inv : Inv b s
  own : OwnInv s₀ s.seen
  checked : Checked s
  running : s.aborted = false

theorem start_holds (b : Build) (hs₀ : Created s₀) : Holds b s₀ (start b s₀) where
  inv := start_inv b
  own := by
    rw [(start_quiet b s₀).seen]
    exact hs₀.ownInv
  checked := by rintro u k _ ⟨⟩
  running := rfl

/-- The pipes of the functions the threads call. -/
theorem Holds.checkInvariants (hs : Holds b s₀ s)
    (hfilled : ∀ u ≤ s₀.nStages, Filled (s₀.pipes (u + 1))) (hu : u ≤ s.now.nStages + 1)
    {side : Side} {f : Bool → Operation}
    (hcall : (s.now.role u).call (s.now.impls u) = some (side, f)) :
    (s.seen.pipes (side.pipe u)).checkInvariants = true := by
  obtain ⟨hinput, houtput⟩ := (Role.call_cases hcall).pipe
  cases side with
  | input =>
      have hne : u ≠ 0 := mt Pipeline.State.role_eq_source.mpr (hinput rfl)
      obtain ⟨v, rfl⟩ := Nat.exists_eq_succ_of_ne_zero hne
      exact hs.own.checkInvariants hfilled (Nat.le_of_succ_le_succ hu)
  | output =>
      exact hs.own.checkInvariants hfilled (s.now.le_of_role_ne_sink (houtput rfl))

/-- A step of the controller, which knows nothing of the calls of the threads. -/
theorem Checked.controllerStep (hs : Checked s) (hinv : Inv b s) (hshape : Shape s.seen)
    {allocated : Nat → Bool} {now : Pipeline.State V σ} {aborted : Bool}
    (hstep : s.now.controllerStep allocated = some now) : Checked { s with now, aborted } := by
  refine hs.of_same rfl rfl fun k => ?_
  rcases controllerStep_pipes hshape hstep with hpipes | hrest
  · simp only [State.pipe, hpipes]
  · have hidle := hinv.all_idle hrest k
    have hseen := State.seen_pipe_of_idle (s := { s with now, aborted }) hidle
    rw [hseen, State.seen_pipe_of_idle hidle]

/-- **One step of the system.** -/
theorem Holds.step (hs : Holds b s₀ s) (hfilled : ∀ u ≤ s₀.nStages, Filled (s₀.pipes (u + 1)))
    {l : Label V σ} (htruly : b.assertions = true → AnswersTruly b s l)
    (hstep : Locked.step b s l = some s') : Holds b s₀ s' := by
  obtain ⟨hinv, hseen⟩ := hs.inv.step hs.own.shape htruly hstep
  have hown : OwnInv s₀ s'.seen :=
    run_invariant (fun _ _ _ h hnext => step_ownInv h hfilled hnext) hs.own hseen
  suffices h : Checked s' ∧ s'.aborted = false from ⟨hinv, hown, h.1, h.2⟩
  unfold Locked.step at hstep
  rw [if_neg (by rw [hs.running]; exact Bool.false_ne_true)] at hstep
  cases l with
  | worker u a =>
      simp only at hstep
      split at hstep
      case h_1 side f hcall =>
        split at hstep
        case isTrue hu =>
          exact hs.checked.callStep hs.inv hs.running hcall (hs.inv.truly htruly side f hcall)
            (hs.checkInvariants hfilled hu hcall) hstep
        case isFalse => cases hstep
      case h_2 hcall =>
        obtain ⟨now, hnow, rfl⟩ := Option.map_eq_some_iff.mp hstep
        obtain ⟨_, _, hresult⟩ := hs.inv.plain hcall hnow
        exact ⟨hs.checked.of_same rfl rfl hresult, hs.running⟩
  | call c =>
      obtain ⟨now, hnow, rfl⟩ := Option.map_eq_some_iff.mp hstep
      have hpipes : now.pipes = s.now.pipes := by
        simp only [Pipeline.step] at hnow
        split at hnow <;> cases hnow
        cases c <;> simp only [Pipeline.State.beginCall] <;> (repeat' split) <;> rfl
      exact ⟨hs.checked.of_same rfl rfl fun k => by simp only [State.pipe, hpipes], hs.running⟩
  | controller allocated =>
      obtain ⟨now, hnow, rfl⟩ := Option.map_eq_some_iff.mp hstep
      refine ⟨hs.checked.controllerStep hs.inv hs.own.shape hnow, ?_⟩
      have hn := step_nStages (l := .controller allocated) hnow
      generalize haborted : (b.assertions && !asserted s.now now) = aborted at hown
      have hasserted : asserted s.now now = true :=
        asserted_eq_true hs.inv { s with now, aborted } rfl hfilled hs.own hown hn
      show aborted = false
      rw [← haborted, hasserted, Bool.not_true, Bool.and_false]
  | waiter =>
      cases hstep
      exact ⟨hs.checked.of_same rfl rfl fun _ => rfl, hs.running⟩

theorem run_holds (hs₀ : Created s₀) (hfilled : ∀ u ≤ s₀.nStages, Filled (s₀.pipes (u + 1)))
    {ls : List (Label V σ)}
    (htruly : b.assertions = true → Takes (step b) (AnswersTruly b) (start b s₀) ls)
    (hrun : run (step b) (start b s₀) ls = some s) : Holds b s₀ s :=
  run_invariant_of_takes (fun _ _ _ hs htruly hstep => hs.step hfilled htruly hstep)
    (start_holds b hs₀) (takes_truly htruly) hrun

/-- **The assertions of `src/pipe.c` hold.**  The threads of a fresh pipeline, whose pipes
have been filled, and its callers make any steps, one statement after the other.  As
long as `mtx_trylock` answers truly, no assertion fails, wherever the others are when
it looks at its pipe. -/
theorem assertions_hold (hs₀ : Created s₀) (hfilled : ∀ u ≤ s₀.nStages, Filled (s₀.pipes (u + 1)))
    {ls : List (Label V σ)}
    (htruly : b.assertions = true → Takes (step b) (AnswersTruly b) (start b s₀) ls)
    (hrun : run (step b) (start b s₀) ls = some s) : s.aborted = false :=
  (run_holds hs₀ hfilled htruly hrun).running

/-- The sink has taken the first buffer when the source, about to push the second one,
makes its assertion. -/
def bothOut : List (Label Unit Unit) :=
  enableAndStart ++ threadSteps 0 50 true true false ++ threadSteps 1 28 true false true ++
    threadSteps 0 33 true true false

theorem assertions_hold_bothOut :
    ∃ s, run (step checked) (start checked smallest) bothOut = some s ∧
      (s.now.pipes 1).pool ++ (s.now.pipes 1).fifo = [] ∧ s.phase 0 = .call ∧
      s.aborted = false := by
  have hrun : run (step checked) (start checked smallest) bothOut =
      some ((run (step checked) (start checked smallest) bothOut).get (by decide +kernel)) :=
    (Option.some_get _).symm
  exact ⟨_, hrun, by decide +kernel, by decide +kernel,
    assertions_hold smallest_created (fun u _ => smallestOf_filled () () (u + 1))
      (fun _ => takes_of_c11 rfl) hrun⟩

/-- **The mutexes of the pipes block nobody for good.**  In every state of such a run, a
thread in a function of a pipe can make a step, or it is about to lock a mutex of the
pipe and the thread that owns this mutex can make one, whatever the allocator answers. -/
theorem pipe_calls_go_on (hs₀ : Created s₀)
    (hfilled : ∀ u ≤ s₀.nStages, Filled (s₀.pipes (u + 1))) {ls : List (Label V σ)}
    (htruly : b.assertions = true → Takes (step b) (AnswersTruly b) (start b s₀) ls)
    (hrun : run (step b) (start b s₀) ls = some s) (hu : u ≤ s.now.nStages + 1) {side : Side}
    {f : Bool → Operation} (hcall : (s.now.role u).call (s.now.impls u) = some (side, f)) :
    (∀ a, ∃ s', step b s (.worker u a) = some s') ∨
      ∃ w, Lock2.WaitsFor (s.calls (side.pipe u)).locks u w ∧
        ∀ a, ∃ s', step b s (.worker w a) = some s' := by
  have hs := run_holds hs₀ hfilled htruly hrun
  exact hs.inv.goes_on hs.running hu hcall

/-- The source has both mutexes when the sink starts its assertion. -/
def sinkWaits : List (Label Unit Unit) :=
  enableAndStart ++ threadSteps 0 53 true true false ++ threadSteps 1 7 true false true

theorem pipe_calls_go_on_sinkWaits :
    ∃ s, run (step checked) (start checked smallest) sinkWaits = some s ∧
      (step checked s (.worker 1 ⟨true, (), .finish⟩)).isNone ∧
      ∃ side f, (s.now.role 1).call (s.now.impls 1) = some (side, f) ∧
        ((∀ a, ∃ s', step checked s (.worker 1 a) = some s') ∨
          ∃ w, Lock2.WaitsFor (s.calls (side.pipe 1)).locks 1 w ∧
            ∀ a, ∃ s', step checked s (.worker w a) = some s') := by
  have hrun : run (step checked) (start checked smallest) sinkWaits =
      some ((run (step checked) (start checked smallest) sinkWaits).get (by decide +kernel)) :=
    (Option.some_get _).symm
  generalize hs : (run (step checked) (start checked smallest) sinkWaits).get _ = s at hrun
  obtain ⟨⟨side, f⟩, hcall⟩ : ∃ pipeCall, (s.now.role 1).call (s.now.impls 1) = some pipeCall :=
    Option.isSome_iff_exists.mp (by subst hs; decide +kernel)
  exact ⟨s, hrun, by subst hs; decide +kernel, side, f, hcall,
    pipe_calls_go_on smallest_created (fun u _ => smallestOf_filled () () (u + 1))
      (fun _ => takes_of_c11 rfl) hrun (by subst hs; decide +kernel) hcall⟩

end Runs

end Locked

end Mtdp.Pipeline
