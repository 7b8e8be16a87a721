import Mtdp.Pipeline.LockedRefinement

/-!
# Runs under the mutexes of the pipes

The mutexes of `src/pipe.c` do their work: whatever the threads of a pipeline and its
callers do, one statement at a time, is what they do in `Mtdp.Pipeline.Control`, where
the functions of a pipe run at once.  What is proved about that system is true of this
one.

## Main results

* `Inv.step` — every step is seen as steps of the system without mutexes.
* `Inv.goes_on` — a thread in a function of a pipe can make a step, or whoever has the
  mutex it waits for can.
* `pipeline_calls_atomic` — every run is seen as a run of that system.
-/

namespace Mtdp.Pipeline

open Lib.Transition Calls

variable {V σ : Type}

/-! ## What the controller does to a unit -/

/-- What a call of the controller does to the flags of a unit. -/
structure SetsFlags (g : Impl V σ → Impl V σ) : Prop where
  resume : ∀ (role : Role) i r, (g i).resume role r = g (i.resume role r)
  call : ∀ (role : Role) i, role.call (g i) = role.call i

theorem SetsFlags.of_flags (enabled destroyed done : Bool → Bool) :
    SetsFlags fun i : Impl V σ =>
      { i with
        enabled := enabled i.enabled, destroyed := destroyed i.destroyed
        done := done i.done } := by
  refine ⟨fun role i r => ?_, fun role i => by cases role <;> rfl⟩
  unfold Impl.resume
  dsimp only
  split <;> rfl

theorem SetsFlags.id : SetsFlags (id : Impl V σ → Impl V σ) :=
  .of_flags (fun x => x) (fun x => x) fun x => x

theorem SetsFlags.enable : SetsFlags (workerEnable : Impl V σ → Impl V σ) :=
  .of_flags (fun _ => true) (fun x => x) fun x => x

theorem SetsFlags.disable : SetsFlags (workerDisable : Impl V σ → Impl V σ) :=
  .of_flags (fun _ => false) (fun x => x) fun x => x

theorem SetsFlags.destroy : SetsFlags (workerDestroy : Impl V σ → Impl V σ) :=
  .of_flags (fun x => x) (fun _ => true) fun x => x

theorem SetsFlags.done : SetsFlags (setDone : Impl V σ → Impl V σ) :=
  .of_flags (fun x => x) (fun x => x) fun _ => true

theorem SetsFlags.destroyFirst (role : Role) :
    SetsFlags (role.destroyFirst : Impl V σ → Impl V σ) := by
  cases role
  · exact .done
  · exact .destroy
  · exact .destroy

theorem SetsFlags.destroySecond (role : Role) :
    SetsFlags (role.destroySecond : Impl V σ → Impl V σ) := by
  cases role
  · exact .destroy
  · exact .done
  · exact .done

/-- Who rests calls nothing. -/
theorem call_of_resting (role : Role) {i : Impl V σ} (hrest : i.pc.Resting) :
    role.call i = none := by
  cases hcall : role.call i with
  | none => rfl
  | some pipeCall => exact absurd hrest (Role.call_cases hcall).not_resting.1

/-- A thread that has just been created has called nothing. -/
theorem call_createThread (role role' : Role) (i : Impl V σ) :
    role.call (role'.createThread i) = none := by
  cases role <;> cases role' <;> rfl

namespace Locked

section Controller

variable {b : Build} {s s' : State V σ} {u : Nat}

/-- Those who wait see the flag of a unit as it is. -/
theorem State.implSeen_done (s : State V σ) (u : Nat) :
    (s.implSeen u).done = (s.now.impls u).done := by
  unfold State.implSeen
  split
  · unfold Impl.resume
    split <;> rfl
  · rfl

/-- Who is seen to rest calls nothing. -/
theorem State.call_of_seen_resting (hrest : (s.seen.impls u).pc.Resting) :
    (s.now.role u).call (s.now.impls u) = none := by
  cases hcall : (s.now.role u).call (s.now.impls u) with
  | none => rfl
  | some pipeCall =>
      obtain ⟨hnow, hresume⟩ := (Role.call_cases hcall).not_resting
      exfalso
      revert hrest
      simp only [State.seen, State.implSeen]
      split
      · exact hresume _
      · exact hnow

/-- While nobody is in a function of a pipe, it is seen as it is. -/
theorem State.seen_pipe_of_idle {k : Nat} (hidle : ∀ w, (s.calls k).locks.pc w = .idle) :
    (s.pipe k).seen = ⟨s.now.pipes k, (s.calls k).result⟩ :=
  Calls.State.seen_of_idle hidle

theorem State.seen_pipes (hidle : ∀ k w, (s.calls k).locks.pc w = .idle) :
    (fun k => (s.pipe k).seen.channel) = s.now.pipes :=
  funext fun k => by rw [State.seen_pipe_of_idle (hidle k)]

theorem Inv.pipe_of_calls (hs : Inv b s) (hcalls : s'.calls = s.calls) (k : Nat) :
    Calls.Inv (s'.pipe k) := by
  have h := hs.pipes k
  simp only [State.pipe, hcalls]
  exact ⟨h.owned, h.fits, h.within, h.ended⟩

/-- **The flags of a unit change.** -/
theorem Inv.setsFlags (hs : Inv b s) (s' : State V σ) {g : Impl V σ → Impl V σ} (hg : SetsFlags g)
    (hcalls : s'.calls = s.calls) (hphase : s'.phase = s.phase)
    (hn : s'.now.nStages = s.now.nStages)
    (himpls : s'.now.impls = Function.update s.now.impls u (g (s.now.impls u)))
    (hpipes : s'.now.pipes = s.now.pipes) :
    Inv b s' ∧ s'.seen = { s'.now with
      impls := Function.update s.seen.impls u (g (s.seen.impls u))
      pipes := s.seen.pipes } := by
  have hpipe : s'.pipe = s.pipe := by
    funext k
    simp only [State.pipe, hcalls, hpipes]
  have hrole : s'.now.role = s.now.role := by
    funext w
    unfold Pipeline.State.role
    rw [hn]
  have hothers (w : Nat) (hne : w ≠ u) : s.SameUnit s' w :=
    ⟨hn, by rw [hphase], by rw [himpls, Function.update_of_ne hne], fun k => by rw [hcalls],
      fun k => by rw [hcalls], fun k => by rw [hpipe]⟩
  have hself : s'.now.impls u = g (s.now.impls u) := by rw [himpls, Function.update_self]
  have hcall : (s'.now.role u).call (s'.now.impls u) = (s.now.role u).call (s.now.impls u) := by
    rw [hself, hrole]
    exact hg.call ..
  have hoperation : s'.operation u = s.operation u := by
    funext f
    simp only [State.operation, hphase]
  refine ⟨hs.of_others hothers (fun k => hs.pipe_of_calls hcalls k) ⟨fun k => ?_, ?_, ?_⟩, ?_⟩
  · rw [hcall, hcalls, hn, hoperation]
    exact (hs.threads u).calling k
  · rw [hcall, hphase]
    exact (hs.threads u).phase
  · rw [hphase]
    exact (hs.threads u).asserts
  · have himpl : s'.implSeen u = g (s.implSeen u) := by
      have hpending : s'.pending u = s.pending u := by
        unfold State.pending
        rw [hcall, hphase, hcalls, hpipe]
      rw [State.implSeen, hpending, hself, hrole, State.implSeen]
      cases s.pending u with
      | none => rfl
      | some r => exact hg.resume ..
    rw [State.seen, State.implSeen_of_others hothers, himpl, hpipe]
    rfl

/-- **Nothing happens to the units and the pipes.** -/
theorem Inv.still (hs : Inv b s) (s' : State V σ) (hcalls : s'.calls = s.calls)
    (hphase : s'.phase = s.phase) (hn : s'.now.nStages = s.now.nStages)
    (himpls : s'.now.impls = s.now.impls) (hpipes : s'.now.pipes = s.now.pipes) :
    Inv b s' ∧ s'.seen = { s'.now with impls := s.seen.impls, pipes := s.seen.pipes } := by
  have h := hs.setsFlags (u := 0) s' .id hcalls hphase hn
    (by rw [himpls]; exact (Function.update_eq_self ..).symm) hpipes
  rwa [show Function.update s.seen.impls 0 (id (s.seen.impls 0)) = s.seen.impls from
    Function.update_eq_self ..] at h

/-- **A unit changes whose thread calls nothing**, and pipes in whose functions nobody
is. -/
theorem Inv.replaces (hs : Inv b s) (s' : State V σ)
    (hcall : (s.now.role u).call (s.now.impls u) = none)
    (hcall' : (s'.now.role u).call (s'.now.impls u) = none)
    (hcalls : s'.calls = s.calls) (hphase : s'.phase = s.phase)
    (hn : s'.now.nStages = s.now.nStages)
    (himpls : ∀ w, w ≠ u → s'.now.impls w = s.now.impls w)
    (hpipes : ∀ k, s'.now.pipes k = s.now.pipes k ∨ ∀ w, (s.calls k).locks.pc w = .idle) :
    Inv b s' ∧ s'.seen = { s'.now with
      impls := Function.update s.seen.impls u (s'.now.impls u)
      pipes := fun k => (s'.pipe k).seen.channel } := by
  have hothers (w : Nat) (hne : w ≠ u) : s.SameUnit s' w := by
    refine ⟨hn, by rw [hphase], himpls w hne, fun k => by rw [hcalls], fun k => by rw [hcalls],
      fun k => ?_⟩
    rcases hpipes k with hsame | hidle
    · simp only [State.pipe, hcalls, hsame]
    · rw [State.seen_pipe_of_idle hidle, State.seen_pipe_of_idle (by rwa [hcalls]), hcalls]
  have hself : ThreadOk b s' u := by
    refine ⟨fun k hbusy => ?_, fun _ => ?_, ?_⟩
    · rw [hcalls] at hbusy
      exact absurd (hs.idle hcall k) hbusy
    · rw [hphase]
      exact (hs.threads u).phase hcall
    · rw [hphase]
      exact (hs.threads u).asserts
  have hs' := hs.of_others hothers (fun k => hs.pipe_of_calls hcalls k) hself
  refine ⟨hs', ?_⟩
  rw [State.seen, State.implSeen_of_others hothers, hs'.implSeen_eq hcall']
  rfl

/-- A unit that is seen to rest is in none of the functions, and no unit is that does
not exist. -/
theorem Inv.all_idle (hs : Inv b s) (hrest : AllResting s.seen) (k w : Nat) :
    (s.calls k).locks.pc w = .idle := by
  by_contra hbusy
  obtain ⟨hw, side, f, _, hsome, _⟩ := (hs.threads w).calling k hbusy
  rw [State.call_of_seen_resting (hrest w hw)] at hsome
  cases hsome

/-- A thread is created; its unit has none. -/
theorem Inv.create (hs : Inv b s) {left : Nat} {allocated : Nat → Bool} {aborted : Bool}
    (hat : s.now.controller = .enabling (left + 1)) (hrest : (s.seen.impls left).pc.Resting) :
    let s' := { s with
      now := { s.now.setImpl left ((s.now.role left).createThread (s.now.impls left)) with
        controller := .enabling left }
      aborted }
    Inv b s' ∧ ControllerMove s.seen allocated s'.seen := by
  intro s'
  have hcall := State.call_of_seen_resting hrest
  have hsame : s.seen.impls left = s.now.impls left := hs.implSeen_eq hcall
  have himpl : s'.now.impls left = (s.now.role left).createThread (s.now.impls left) :=
    Pipeline.State.setImpl_impls_self ..
  obtain ⟨hs', hseen⟩ := hs.replaces s' hcall (by rw [himpl, call_createThread]) rfl rfl rfl
    (fun w hne => Pipeline.State.setImpl_impls_of_ne _ _ hne) fun _ => .inl rfl
  refine ⟨hs', ?_⟩
  rw [hseen, himpl, ← hsame]
  exact .create hat

/-- A pipe is cleared; all threads have been joined. -/
theorem Inv.clear (hs : Inv b s) {left : Nat} {allocated : Nat → Bool} {aborted : Bool}
    (hat : s.now.controller = .clearing (left + 1)) (hrest : AllResting s.seen) :
    let s' := { s with
      now := { s.now.setPipe (left + 1) ((s.now.pipes (left + 1)).clear allocated) with
        controller := .clearing left }
      aborted }
    Inv b s' ∧ ControllerMove s.seen allocated s'.seen := by
  intro s'
  have hcall := State.call_of_seen_resting (hrest 0 (Nat.zero_le _))
  have hidle := hs.all_idle hrest
  obtain ⟨hs', hseen⟩ := hs.replaces s' hcall hcall rfl rfl rfl (fun _ _ => rfl)
    fun k => .inr (hidle k)
  refine ⟨hs', ?_⟩
  have hsame : s.seen.impls 0 = s'.now.impls 0 := hs.implSeen_eq hcall
  rw [hseen, ← hsame, Function.update_eq_self, State.seen_pipes (s := s') hidle]
  have hmove : ControllerMove s.seen allocated _ := .clear hat
  rwa [Pipeline.State.setPipe, show s.seen.pipes = s.now.pipes from State.seen_pipes hidle]
    at hmove

/-- The buffers of a unit go back. -/
theorem Inv.giveBack (hs : Inv b s) {left : Nat} {allocated : Nat → Bool} {aborted : Bool}
    (hat : s.now.controller = .returning (left + 1)) (hleft : left ≤ s.now.nStages + 1)
    (hrest : AllResting s.seen) :
    let s' := { s with
      now := { s.now.putView left ((s.now.role left).returnBuffers allocated (s.now.view left)) with
        controller := .returning left }
      aborted }
    Inv b s' ∧ ControllerMove s.seen allocated s'.seen := by
  intro s'
  have hresting := hrest left hleft
  have hcall := State.call_of_seen_resting hresting
  have hidle := hs.all_idle hrest
  have hsame : s.seen.impls left = s.now.impls left := hs.implSeen_eq hcall
  have himpl : s'.now.impls left =
      ((s.now.role left).returnBuffers allocated (s.now.view left)).impl :=
    Pipeline.State.putView_impls_self ..
  have hcall' : (s'.now.role left).call (s'.now.impls left) = none := by
    refine call_of_resting _ ?_
    rw [himpl, (Role.returnBuffers_flags ..).1, Pipeline.State.view_impl, ← hsame]
    exact hresting
  obtain ⟨hs', hseen⟩ := hs.replaces s' hcall hcall' rfl rfl rfl
    (fun w hne => Pipeline.State.putView_impls_of_ne _ _ _ hne) fun k => .inr (hidle k)
  refine ⟨hs', ?_⟩
  rw [hseen, himpl, State.seen_pipes (s := s') hidle]
  have hmove : ControllerMove s.seen allocated _ := .giveBack hat
  rwa [Pipeline.State.putView, Pipeline.State.view, hsame,
    show s.seen.pipes = s.now.pipes from State.seen_pipes hidle] at hmove

/-- **A step of the controller** is seen as it is. -/
theorem Inv.controllerStep (hs : Inv b s) (hshape : Shape s.seen) {allocated : Nat → Bool}
    {now : Pipeline.State V σ} {aborted : Bool}
    (hstep : s.now.controllerStep allocated = some now) :
    let s' := { s with now, aborted }
    Inv b s' ∧ s.seen.controllerStep allocated = some s'.seen := by
  intro s'
  suffices h : Inv b s' ∧ ControllerMove s.seen allocated s'.seen from ⟨h.1, h.2.step⟩
  have still (hn : s'.now.nStages = s.now.nStages) (himpls : s'.now.impls = s.now.impls)
      (hpipes : s'.now.pipes = s.now.pipes) (hmove : ControllerMove s.seen allocated
        { s'.now with impls := s.seen.impls, pipes := s.seen.pipes }) :
      Inv b s' ∧ ControllerMove s.seen allocated s'.seen := by
    obtain ⟨hs', hseen⟩ := hs.still s' rfl rfl hn himpls hpipes
    exact ⟨hs', by rwa [hseen]⟩
  have sets {u : Nat} {g : Impl V σ → Impl V σ} (hg : SetsFlags g)
      (hn : s'.now.nStages = s.now.nStages)
      (himpls : s'.now.impls = Function.update s.now.impls u (g (s.now.impls u)))
      (hpipes : s'.now.pipes = s.now.pipes) (hmove : ControllerMove s.seen allocated
        { s'.now with
          impls := Function.update s.seen.impls u (g (s.seen.impls u))
          pipes := s.seen.pipes }) :
      Inv b s' ∧ ControllerMove s.seen allocated s'.seen := by
    obtain ⟨hs', hseen⟩ := hs.setsFlags s' hg rfl rfl hn himpls hpipes
    exact ⟨hs', by rwa [hseen]⟩
  rw [Shape, show s.seen.controller = s.now.controller from rfl] at hshape
  cases controllerStep_move hstep <;> rename_i hat <;> simp only [hat] at hshape
  case enabled => exact still rfl rfl rfl (.enabled hat)
  case started => exact still rfl rfl rfl (.started hat)
  case stopped hlast => exact still rfl rfl rfl (.stopped hlast hat)
  case disabling => exact still rfl rfl rfl (.disabling hat)
  case destroyed hlast => exact still rfl rfl rfl (.destroyed hlast hat)
  case joined hlast => exact still rfl rfl rfl (.joined hlast hat)
  case cleared => exact still rfl rfl rfl (.cleared hat)
  case gaveBack => exact still rfl rfl rfl (.gaveBack hat)
  case disabled hlast => exact still rfl rfl rfl (.disabled hlast hat)
  case join u hunit hexited =>
    have hsame : s.seen.impls u = s.now.impls u :=
      hs.implSeen_eq (call_of_resting _ (.inr hexited))
    exact still rfl rfl rfl (.join hunit (by rw [hsame, hexited]) hat)
  case start => exact sets .enable rfl rfl rfl (.start hat)
  case stop hunit => exact sets .disable rfl rfl rfl (.stop hunit hat)
  case destroyFirst hunit => exact sets (.destroyFirst _) rfl rfl rfl (.destroyFirst hunit hat)
  case destroySecond => exact sets (.destroySecond _) rfl rfl rfl (.destroySecond hat)
  case mark hunit => exact sets .done rfl rfl rfl (.mark hunit hat)
  case create left => exact hs.create hat (hshape.2.2 left (Nat.lt_succ_self _))
  case clear left => exact hs.clear hat hshape.2.2
  case giveBack left => exact hs.giveBack hat (Nat.le_of_succ_le_succ hshape.2.1) hshape.2.2

/-- **A step of a thread in `mtdp_pipeline_wait`** is seen as it is. -/
theorem Inv.waiterStep (hs : Inv b s) :
    let s' := { s with now := s.now.waiterStep }
    Inv b s' ∧ s.seen.waiterStep = s'.seen := by
  intro s'
  obtain ⟨hs', hseen⟩ := hs.still s' rfl rfl rfl rfl rfl
  refine ⟨hs', ?_⟩
  have hdone (u : Nat) : (s.seen.impls u).done = (s.now.impls u).done := s.implSeen_done u
  rw [hseen]
  simp only [Pipeline.State.waiterStep, hdone]
  rfl

/-- **A call begins**, or is refused. -/
theorem Inv.beginCall (hs : Inv b s) (c : Call) :
    let s' := { s with now := s.now.beginCall c }
    Inv b s' ∧ s.seen.beginCall c = s'.seen := by
  intro s'
  have hframe : (s.now.beginCall c).nStages = s.now.nStages ∧
      (s.now.beginCall c).impls = s.now.impls ∧ (s.now.beginCall c).pipes = s.now.pipes ∧
      s.seen.beginCall c =
        { s.now.beginCall c with impls := s.seen.impls, pipes := s.seen.pipes } := by
    cases c <;> simp only [Pipeline.State.beginCall, show s.seen.enabled = s.now.enabled from rfl,
      show s.seen.active = s.now.active from rfl] <;> (repeat' split) <;>
      exact ⟨rfl, rfl, rfl, rfl⟩
  obtain ⟨hn, himpls, hpipes, hsame⟩ := hframe
  obtain ⟨hs', hseen⟩ := hs.still s' rfl rfl hn himpls hpipes
  exact ⟨hs', by rw [hseen, hsame]⟩

end Controller

/-! ## Whole runs -/

section Runs

variable {b : Build} {s s' : State V σ}

/-- `mtx_trylock`, which only the assertions use, answers truly. -/
def AnswersTruly (b : Build) (s : State V σ) : Label V σ → Prop
  | .worker u a =>
      ∀ side f, (s.now.role u).call (s.now.impls u) = some (side, f) →
        Calls.AnswersTruly b.platform (s.pipe (side.pipe u)) ⟨u, s.operation u (f a.ok)⟩
  | _ => True

/-- Without assertions nothing is left to chance. -/
theorem Inv.answersTruly (hs : Inv b s) (hb : b.assertions = false) (l : Label V σ) :
    AnswersTruly b s l := by
  cases l with
  | worker u a =>
      intro side f hcall _ w htries
      have hbusy : (s.calls (side.pipe u)).locks.pc u ≠ .idle := by
        intro h
        rw [show (s.pipe (side.pipe u)).locks.pc u = .idle from h] at htries
        cases htries
      obtain ⟨_, side', f', ok, hsome, _, hcalled⟩ := (hs.threads u).calling _ hbusy
      rw [hcall] at hsome
      cases hsome
      have hphase : s.phase u = .call := by
        by_contra hphase
        rw [(hs.threads u).asserts hphase] at hb
        cases hb
      rw [State.operation, if_pos hphase] at hcalled
      have hfits := (hs.pipes (side.pipe u)).fits u
      rw [show (s.pipe (side.pipe u)).call u = f ok from hcalled] at hfits
      refine absurd ?_ ((Role.call_cases hcall).job ok)
      revert hfits
      generalize (s.pipe (side.pipe u)).locks.pc u = pc at htries
      cases pc <;> cases htries <;> exact fun h => h
  | _ => trivial

theorem Inv.truly (hs : Inv b s) {l : Label V σ}
    (htruly : b.assertions = true → AnswersTruly b s l) : AnswersTruly b s l := by
  cases hb : b.assertions with
  | true => exact htruly hb
  | false => exact hs.answersTruly hb l

/-- **One step of the system.** -/
theorem Inv.step (hs : Inv b s) (hshape : Shape s.seen) {l : Label V σ}
    (htruly : b.assertions = true → AnswersTruly b s l) (hstep : Locked.step b s l = some s') :
    Inv b s' ∧ run Pipeline.step s.seen (effects b s l) = some s'.seen := by
  have hone (heffects : effects b s l = [l])
      (h : Inv b s' ∧ Pipeline.step s.seen l = some s'.seen) :
      Inv b s' ∧ run Pipeline.step s.seen (effects b s l) = some s'.seen := by
    rw [heffects]
    exact ⟨h.1, run_cons.mpr ⟨_, h.2, rfl⟩⟩
  unfold Locked.step at hstep
  split at hstep
  · cases hstep
  · cases l with
    | worker u a =>
        simp only at hstep
        split at hstep
        case h_1 side f hcall =>
          split at hstep
          case isTrue hu => exact hs.callStep hu hcall (hs.truly htruly side f hcall) hstep
          case isFalse => cases hstep
        case h_2 hcall =>
          obtain ⟨now, hnow, rfl⟩ := Option.map_eq_some_iff.mp hstep
          obtain ⟨hs', hseen, _⟩ := hs.plain hcall hnow
          exact hone (by simp only [effects, hcall]) ⟨hs', hseen⟩
    | call c =>
        obtain ⟨now, hnow, rfl⟩ := Option.map_eq_some_iff.mp hstep
        simp only [Pipeline.step] at hnow
        split at hnow
        case isTrue hidle =>
          cases hnow
          obtain ⟨hs', hsame⟩ := hs.beginCall c
          refine hone rfl ⟨hs', ?_⟩
          rw [← hsame, Pipeline.step, if_pos (show s.seen.controller = .idle from hidle)]
        case isFalse => cases hnow
    | controller allocated =>
        obtain ⟨now, hnow, rfl⟩ := Option.map_eq_some_iff.mp hstep
        exact hone rfl (hs.controllerStep hshape hnow)
    | waiter =>
        cases hstep
        obtain ⟨hs', hsame⟩ := hs.waiterStep
        exact hone rfl ⟨hs', congrArg some hsame⟩

/-- **Nobody is stuck in a function of a pipe.** -/
theorem Inv.goes_on (hs : Inv b s) (hrunning : s.aborted = false) {u : Nat}
    (hu : u ≤ s.now.nStages + 1) {side : Side} {f : Bool → Operation}
    (hcall : (s.now.role u).call (s.now.impls u) = some (side, f)) :
    (∀ a, ∃ s', Locked.step b s (.worker u a) = some s') ∨
      ∃ w, Lock2.WaitsFor (s.calls (side.pipe u)).locks u w ∧
        ∀ a, ∃ s', Locked.step b s (.worker w a) = some s' := by
  have hstep {w : Nat} {side' : Side} {f' : Bool → Operation} (hle : w ≤ s.now.nStages + 1)
      (hcall' : (s.now.role w).call (s.now.impls w) = some (side', f'))
      (hpipe : side'.pipe w = side.pipe u)
      (hcalls : ∀ g, ∃ c, Calls.step b.platform (s.pipe (side.pipe u)) ⟨w, g⟩ = some c)
      (a : Answer V σ) : ∃ s', Locked.step b s (.worker w a) = some s' := by
    obtain ⟨c, hc⟩ := hcalls (s.operation w (f' a.ok))
    rw [Locked.step, if_neg (by rw [hrunning]; exact Bool.false_ne_true)]
    simp only [hcall']
    rw [if_pos hle, hpipe, State.callStep, hc]
    exact ⟨_, rfl⟩
  rcases (hs.pipes (side.pipe u)).goes_on b.platform u with hcalls | ⟨w, hwaits, hcalls⟩
  · exact .inl (hstep hu hcall rfl hcalls)
  · right
    refine ⟨w, hwaits, ?_⟩
    -- whoever has a mutex is in a function of this pipe
    obtain ⟨_, m, _, howner⟩ := hwaits
    have hbusy : (s.calls (side.pipe u)).locks.pc w ≠ .idle := by
      intro hidle
      have hholds := ((hs.pipes (side.pipe u)).owned.owner m w).mp howner
      rw [show (s.pipe (side.pipe u)).locks.pc w = .idle from hidle] at hholds
      cases hholds
    obtain ⟨hle, side', f', _, hcall', hpipe, _⟩ := (hs.threads w).calling _ hbusy
    exact hstep hle hcall' hpipe hcalls

/-- No call is under way. -/
structure Quiet (b : Build) (s : State V σ) : Prop where
  pc : ∀ k u, (s.calls k).locks.pc u = .idle
  phase : ∀ u, s.phase u = b.first

/-- Then what is seen is the pipeline itself. -/
theorem Quiet.seen (hs : Quiet b s) : s.seen = s.now := by
  have himpls : s.implSeen = s.now.impls := by
    funext u
    rw [State.implSeen, State.pending_of_first (hs.phase u) fun k => hs.pc k u]
  rw [State.seen, himpls, State.seen_pipes hs.pc]

theorem start_quiet (b : Build) (s : Pipeline.State V σ) : Quiet b (start b s) :=
  ⟨fun _ _ => rfl, fun _ => rfl⟩

theorem start_inv (b : Build) {s : Pipeline.State V σ} : Inv b (start b s) where
  pipes k := Calls.start_inv (s.pipes k)
  threads u := by
    refine ⟨fun k hbusy => absurd rfl hbusy, fun _ => rfl, fun hphase => ?_⟩
    by_contra hb
    exact hphase (if_neg hb)

/-- On C11 it always does. -/
theorem takes_of_c11 (hb : b.platform = .c11) {ls : List (Label V σ)} :
    Takes (step b) (AnswersTruly b) s ls := by
  refine takes_of_mem fun l _ s => ?_
  cases l with
  | worker =>
      intro side f _ hplatform
      rw [hb] at hplatform
      cases hplatform
  | _ => trivial

theorem takes_truly {ls : List (Label V σ)}
    (htruly : b.assertions = true → Takes (step b) (AnswersTruly b) s ls) :
    Takes (step b) (fun s l => b.assertions = true → AnswersTruly b s l) s ls := by
  cases hb : b.assertions with
  | true =>
      exact Takes.of_invariant (I := fun _ => True) (fun _ _ _ _ _ _ => trivial)
        (fun _ _ _ h _ => h) trivial (htruly hb)
  | false => exact takes_of_mem fun _ _ _ h => by cases h

/-- The same, with what the step needs of the pipeline that is seen. -/
theorem Inv.step_and_shape {l : Label V σ} (hs : Inv b s ∧ Shape s.seen)
    (htruly : b.assertions = true → AnswersTruly b s l) (hstep : Locked.step b s l = some s') :
    (Inv b s' ∧ Shape s'.seen) ∧ run Pipeline.step s.seen (effects b s l) = some s'.seen := by
  obtain ⟨hs', hseen⟩ := hs.1.step hs.2 htruly hstep
  refine ⟨⟨hs', ?_⟩, hseen⟩
  exact run_invariant (fun _ _ _ h hnext => step_shape h hnext) hs.2 hseen

/-- **The mutexes of the pipes do their work.**  The threads of a fresh pipeline and its
callers make any steps, one statement of `src/pipe.c` after the other, in a build of
either kind; where assertions are compiled in, `mtx_trylock` answers truly.  Whole
calls, in the order in which the threads get their mutexes, are a run of the system
without mutexes.  It leads to what the pipeline will be when the calls under way are
over, and if there are none, to the pipeline itself. -/
theorem pipeline_calls_atomic {s₀ : Pipeline.State V σ} (hs₀ : Created s₀) {ls : List (Label V σ)}
    (htruly : b.assertions = true → Takes (step b) (AnswersTruly b) (start b s₀) ls)
    (hrun : run (step b) (start b s₀) ls = some s) :
    run Pipeline.step s₀ (observe (step b) (effects b) (start b s₀) ls) = some s.seen ∧
      (Quiet b s → s.seen = s.now) := by
  refine ⟨?_, Quiet.seen⟩
  have hstart : (start b s₀).seen = s₀ := (start_quiet b s₀).seen
  have hsim := run_simulates_of_takes (I := fun s => Inv b s ∧ Shape s.seen)
    (fun s l s' hs hl hnext => Inv.step_and_shape hs hl hnext)
    ⟨start_inv b, by rw [hstart]; exact hs₀.shape⟩ (takes_truly htruly) hrun
  rwa [hstart] at hsim

/-- A build for C11 threads, with assertions. -/
def checked : Build := ⟨.c11, true⟩

/-- The source fills a buffer and gets the mutex of the queue. -/
def pushing : List (Label Unit Unit) := enableAndStart ++ threadSteps 0 39 true true false

/-- The buffer is not in the queue yet, but everybody will see it there. -/
theorem pipeline_calls_atomic_pushing :
    ∃ s, run (step checked) (start checked smallest) pushing = some s ∧
      (s.now.pipes 1).fifo = [] ∧ (s.seen.pipes 1).fifo = [2] ∧
      run Pipeline.step smallest
        (observe (step checked) (effects checked) (start checked smallest) pushing) =
          some s.seen := by
  have hrun : run (step checked) (start checked smallest) pushing =
      some ((run (step checked) (start checked smallest) pushing).get (by decide +kernel)) :=
    (Option.some_get _).symm
  obtain ⟨hcalls, _⟩ := pipeline_calls_atomic smallest_created (fun _ => takes_of_c11 rfl) hrun
  exact ⟨_, hrun, by decide +kernel, by decide +kernel, hcalls⟩

end Runs

end Locked

end Mtdp.Pipeline
