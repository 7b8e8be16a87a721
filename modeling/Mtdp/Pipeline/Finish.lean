import Mtdp.Pipeline.Session

/-!
# A finishing source

`mtdp_source_finished` destroys the worker of the source from inside its
`process` callback.  A buffer is pushed at the start of the next call of the
routine, and for a destroyed worker there is none.

## Main results

* `finish_lossless_iff` — everything the source has made ready is pushed
  exactly when the last invocation, the one that finishes, makes nothing
  ready.
* `finish_drops_a_buffer` — one that does, as in
  `examples/finite_datastream.c`.
-/

namespace Mtdp.Pipeline

open Lib.Transition

variable {V σ : Type}

/-- What happens to the output buffers of the source. -/
inductive SourceEvent where
  /-- `process` returns with `ready_to_push` set -/
  | ready (buf : Nat)
  /-- `mtdp_pipe_push_buffer` succeeds -/
  | push (buf : Nat)
  /-- `mtdp_semaphore_release` -/
  | release
  deriving DecidableEq, Repr

/-- The events of a step of the source. -/
def Impl.sourceEvents (i : Impl V σ) (a : Answer V σ) : List SourceEvent :=
  match i.pc, i.output with
  | .push, some buf => if i.readyToPush && a.ok then [.push buf] else []
  | .release, _ => [.release]
  | .callback, some buf =>
      match a.callback with
      | .finish => []
      | .ret r => if r.readyToPush then [.ready buf] else []
  | _, _ => []

def sourceEvents (s : State V σ) : Label V σ → List SourceEvent
  | .worker 0 a => (s.impls 0).sourceEvents a
  | _ => []

/-- The life of a buffer that the source has made ready. -/
def delivered (buf : Nat) : List SourceEvent := [.ready buf, .push buf, .release]

/-- Every buffer made ready is pushed once, with its release, before the next
one is made ready. -/
def Lossless (events : List SourceEvent) : Prop :=
  ∃ bufs : List Nat, events = bufs.flatMap delivered

/-- The invocation that has called `mtdp_source_finished` makes no buffer
ready. -/
def FinishesEmpty (s : State V σ) (l : Label V σ) : Prop :=
  ∀ a r, l = .worker 0 a → (s.impls 0).pc = .callback → (s.impls 0).destroyed = true →
    a.callback = .ret r → r.readyToPush = false

/-! ## The source -/

/-- Where the source can be with which flags, while only it can destroy its
worker. -/
def Impl.SourceOk (i : Impl V σ) : Prop :=
  match i.pc with
  | .absent => i.destroyed = false
  | .test => i.readyToPush = true → i.output.isSome
  | .exited => i.destroyed = true ∧ (i.readyToPush = true → i.output.isSome)
  | .gate | .recheck | .push | .pushFailed =>
      i.destroyed = false ∧ (i.readyToPush = true → i.output.isSome)
  | .release => i.destroyed = false ∧ i.readyToPush = true ∧ i.output.isSome
  | .getEmpty | .process => i.destroyed = false ∧ i.readyToPush = false
  | .callback | .finishing => i.readyToPush = false ∧ i.output.isSome
  | _ => False

/-- What has happened so far to the buffer that is on its way. -/
def Impl.underway (i : Impl V σ) : List SourceEvent :=
  match i.pc, i.output with
  | .absent, _ => []
  | .release, some buf => [.ready buf, .push buf]
  | _, some buf => if i.readyToPush then [.ready buf] else []
  | _, none => []

/-- A destroyed source has nothing left to push. -/
def Impl.Settled (i : Impl V σ) : Prop := i.destroyed = true → i.readyToPush = false

/-- Where the buffer on its way can be read off the flag. -/
theorem Impl.underway_of_ne {i : Impl V σ} (habsent : i.pc ≠ .absent) (hrelease : i.pc ≠ .release) :
    i.underway = if i.readyToPush then i.output.toList.map .ready else [] := by
  unfold underway
  split
  · exact absurd ‹_› habsent
  · exact absurd ‹_› hrelease
  · simp [*]
  · simp [*]

/-- Events are made at three program points. -/
theorem Impl.sourceEvents_of_ne {i : Impl V σ} (a : Answer V σ) (hpush : i.pc ≠ .push)
    (hrelease : i.pc ≠ .release) (hcallback : i.pc ≠ .callback) : i.sourceEvents a = [] := by
  unfold sourceEvents
  split <;> first | rfl | contradiction

/-- A step without events. -/
theorem Impl.underway_silent {i i' : Impl V σ} {a : Answer V σ} (hevents : i.sourceEvents a = [])
    (hpc : i.pc ≠ .absent ∧ i.pc ≠ .release) (hpc' : i'.pc ≠ .absent ∧ i'.pc ≠ .release)
    (hready : i'.readyToPush = i.readyToPush)
    (houtput : i.readyToPush = true → i'.output = i.output) :
    ∃ bufs : List Nat, i.underway ++ i.sourceEvents a = bufs.flatMap delivered ++ i'.underway := by
  refine ⟨[], ?_⟩
  rw [hevents, underway_of_ne hpc.1 hpc.2, underway_of_ne hpc'.1 hpc'.2, hready]
  split <;> simp [*]

/-- A step at a program point without events. -/
theorem Impl.underway_quiet {i i' : Impl V σ} (a : Answer V σ)
    (hpc : i.pc ≠ .absent ∧ i.pc ≠ .push ∧ i.pc ≠ .release ∧ i.pc ≠ .callback)
    (hpc' : i'.pc ≠ .absent ∧ i'.pc ≠ .release) (hready : i'.readyToPush = i.readyToPush)
    (houtput : i.readyToPush = true → i'.output = i.output) :
    ∃ bufs : List Nat, i.underway ++ i.sourceEvents a = bufs.flatMap delivered ++ i'.underway :=
  underway_silent (sourceEvents_of_ne a hpc.2.1 hpc.2.2.1 hpc.2.2.2) ⟨hpc.1, hpc.2.2.1⟩ hpc'
    hready houtput

/-- A step of the source to another program point. -/
theorem Goto.source_step {a : Answer V σ} {v : View V σ} {pc : Pc} (hgoto : Goto .source a v pc)
    (hv : v.impl.SourceOk) : (v.goto pc).impl.SourceOk ∧
      ∃ bufs : List Nat, v.impl.underway ++ v.impl.sourceEvents a =
        bufs.flatMap delivered ++ (v.goto pc).impl.underway := by
  cases hgoto
  case leave h hdestroyed =>
    rcases h with hpc | hpc <;> simp only [Impl.SourceOk, hpc] at hv
    · exact ⟨⟨hdestroyed, hv⟩,
        Impl.underway_quiet a (by simp [hpc]) ⟨nofun, nofun⟩ rfl fun _ => rfl⟩
    · rw [hv.1] at hdestroyed
      cases hdestroyed
  case toGate hpc hdestroyed =>
    simp only [Impl.SourceOk, hpc] at hv
    exact ⟨⟨hdestroyed, hv⟩,
      Impl.underway_quiet a (by simp [hpc]) ⟨nofun, nofun⟩ rfl fun _ => rfl⟩
  case wake hpc _ | enter hpc _ =>
    simp only [Impl.SourceOk, hpc] at hv
    exact ⟨hv, Impl.underway_quiet a (by simp [hpc]) ⟨nofun, nofun⟩ rfl fun _ => rfl⟩
  case pushRefused hrole hpc hready houtput hok =>
    simp only [Impl.SourceOk, hpc] at hv
    refine ⟨hv, Impl.underway_silent ?_ (by simp [hpc]) ⟨nofun, nofun⟩ rfl fun _ => rfl⟩
    simp [Impl.sourceEvents, hpc, houtput, hok]
  case skipPush hrole hpc hready =>
    simp only [Impl.SourceOk, hpc] at hv
    refine ⟨⟨hv.1, hready⟩,
      Impl.underway_silent ?_ (by simp [hpc]) ⟨nofun, nofun⟩ rfl fun _ => rfl⟩
    rw [Impl.sourceEvents, hpc, hready]
    split <;> simp_all
  case hasOutput hpc _ _ =>
    simp only [Impl.SourceOk, hpc] at hv
    exact ⟨hv, Impl.underway_quiet a (by simp [hpc]) ⟨nofun, nofun⟩ rfl fun _ => rfl⟩
  case starve hpc _ =>
    simp only [Impl.SourceOk, hpc] at hv
    exact ⟨by simp [Impl.SourceOk, View.goto, hv.2],
      Impl.underway_quiet a (by simp [hpc]) ⟨nofun, nofun⟩ rfl fun _ => rfl⟩
  all_goals contradiction

/-- A step of the source takes the buffer that is on its way further. -/
theorem Move.source_step {a : Answer V σ} {v v' : View V σ} (hmove : Move .source a v v')
    (hv : v.impl.SourceOk) : v'.impl.SourceOk ∧
      ∃ bufs : List Nat, v.impl.underway ++ v.impl.sourceEvents a =
        bufs.flatMap delivered ++ v'.impl.underway := by
  cases hmove
  case goto hgoto => exact hgoto.source_step hv
  case pushed buf hrole hpc hready houtput hok =>
    simp only [Impl.SourceOk, hpc] at hv
    refine ⟨⟨hv.1, hready, by simp [houtput]⟩, [], ?_⟩
    simp [Impl.underway, Impl.sourceEvents, hpc, hready, houtput, hok]
  case released hrole hpc =>
    simp only [Impl.SourceOk, hpc] at hv
    obtain ⟨hdestroyed, _, houtput⟩ := hv
    obtain ⟨buf, hbuf⟩ := Option.isSome_iff_exists.mp houtput
    refine ⟨⟨hdestroyed, rfl⟩, [buf], ?_⟩
    simp [Impl.underway, Impl.sourceEvents, hpc, hbuf, View.releaseOutput, Role.afterPush,
      delivered]
  case flagged h =>
    rcases h with hpc | hpc | hpc <;> simp only [Impl.SourceOk, hpc] at hv
    exact ⟨hv.2,
      Impl.underway_quiet a (by simp [hpc]) ⟨by rintro ⟨⟩, by rintro ⟨⟩⟩ rfl fun _ => rfl⟩
  case asked h _ => simp at h
  case gotOutput buf bufs hrole hpc _ hnone hpool =>
    simp only [Impl.SourceOk, hpc] at hv
    exact ⟨hv,
      Impl.underway_quiet a (by simp [hpc]) ⟨by rintro ⟨⟩, by rintro ⟨⟩⟩ rfl (by simp [hv.2])⟩
  case noOutput hrole hpc _ hnone hpool =>
    simp only [Impl.SourceOk, hpc] at hv
    exact ⟨hv, Impl.underway_quiet a (by simp [hpc]) ⟨by rintro ⟨⟩, by rintro ⟨⟩⟩ rfl fun _ => rfl⟩
  case invoked hpc houtput _ =>
    simp only [Impl.SourceOk, hpc] at hv
    exact ⟨⟨hv.2, houtput (by rintro ⟨⟩)⟩,
      Impl.underway_quiet a (by simp [hpc]) ⟨by rintro ⟨⟩, by rintro ⟨⟩⟩ rfl fun _ => rfl⟩
  case finishing hpc hfinish =>
    simp only [Impl.SourceOk, hpc] at hv
    refine ⟨hv,
      Impl.underway_silent ?_ (by simp [hpc]) ⟨by rintro ⟨⟩, by rintro ⟨⟩⟩ rfl fun _ => rfl⟩
    rw [Impl.sourceEvents, hpc, hfinish]
    split <;> simp_all
  case finished hpc =>
    simp only [Impl.SourceOk, hpc] at hv
    exact ⟨hv, Impl.underway_quiet a (by simp [hpc]) ⟨by rintro ⟨⟩, by rintro ⟨⟩⟩ rfl fun _ => rfl⟩
  case returned r hpc hret =>
    simp only [Impl.SourceOk, hpc] at hv
    obtain ⟨hready, houtput⟩ := hv
    obtain ⟨buf, hbuf⟩ := Option.isSome_iff_exists.mp houtput
    refine ⟨fun _ => houtput, [], ?_⟩
    simp [Impl.underway, Impl.sourceEvents, hpc, hret, hready, hbuf, View.returns, Role.keep,
      Role.afterCallback]
  all_goals contradiction

/-- A step of the source keeps it settled unless its last invocation makes a
buffer ready. -/
theorem Move.source_settled {a : Answer V σ} {v v' : View V σ} (hmove : Move .source a v v')
    (hv : v.impl.SourceOk) : v'.impl.Settled ↔
      (∀ r, v.impl.pc = .callback → v.impl.destroyed = true → a.callback = .ret r →
        r.readyToPush = false) ∧ v.impl.Settled := by
  have hother (hpc : v.impl.pc ≠ .callback) (hdestroyed : v'.impl.destroyed = v.impl.destroyed)
      (hready : v'.impl.readyToPush = v.impl.readyToPush) : v'.impl.Settled ↔
      (∀ r, v.impl.pc = .callback → v.impl.destroyed = true → a.callback = .ret r →
        r.readyToPush = false) ∧ v.impl.Settled := by
    rw [Impl.Settled, hdestroyed, hready]
    exact ⟨fun h => ⟨fun _ h' => absurd h' hpc, h⟩, fun h => h.2⟩
  cases hmove
  case goto hgoto =>
    refine hother ?_ rfl rfl
    cases hgoto
    case leave h _ => rcases h with hpc | hpc <;> simp [hpc]
    all_goals simp [*]
  case pushed hpc _ _ _ => exact hother (by simp [hpc]) rfl rfl
  case released hrole hpc =>
    simp only [Impl.SourceOk, hpc] at hv
    simp [Impl.Settled, View.releaseOutput, hpc, hv.1]
  case flagged h => exact hother (by rcases h with hpc | hpc | hpc <;> simp [hpc]) rfl rfl
  case asked h _ => simp at h
  case gotOutput hpc _ _ _ => exact hother (by simp [hpc]) rfl rfl
  case noOutput hpc _ _ _ => exact hother (by simp [hpc]) rfl rfl
  case invoked hpc _ _ => exact hother (by simp [hpc]) rfl rfl
  case finishing hpc hfinish => simp [Impl.Settled, View.storeDone, hfinish]
  case finished hpc =>
    simp only [Impl.SourceOk, hpc] at hv
    simp [Impl.Settled, hpc, hv.1]
  case returned r hpc hret =>
    simp only [Impl.SourceOk, hpc] at hv
    simp [Impl.Settled, View.returns, Role.keep, hpc, hret, hv.1]
  all_goals contradiction

/-! ## Runs -/

/-- What holds along a run. -/
structure FinishInv (s₀ : State V σ) (ls : List (Label V σ)) (s : State V σ) : Prop where
  source : (s.impls 0).SourceOk
  events : ∃ bufs : List Nat, observe step sourceEvents s₀ ls =
    bufs.flatMap delivered ++ (s.impls 0).underway
  settled : Takes step FinishesEmpty s₀ ls ↔ (s.impls 0).Settled

/-- A step without the source. -/
theorem FinishInv.of_other {s₀ s s' : State V σ} {ls : List (Label V σ)} {l : Label V σ}
    (hs : FinishInv s₀ ls s) (hrun : run step s₀ ls = some s) (hl : ∀ a, l ≠ .worker 0 a)
    (hsource : (s'.impls 0).SourceOk) (hunderway : (s'.impls 0).underway = (s.impls 0).underway)
    (hsettled : (s'.impls 0).Settled ↔ (s.impls 0).Settled) : FinishInv s₀ (ls ++ [l]) s' := by
  obtain ⟨bufs, hevents⟩ := hs.events
  refine ⟨hsource, ⟨bufs, ?_⟩, ?_⟩
  · rw [observe_snoc hrun, hevents, hunderway]
    have hnone : sourceEvents s l = [] := by
      unfold sourceEvents
      split
      · exact absurd rfl (hl _)
      · rfl
    simp [hnone]
  · have hempty : FinishesEmpty s l := fun a _ h => absurd h (hl a)
    simp [takes_append hrun, Takes, hempty, hs.settled, hsettled]

theorem delivered_length (bufs : List Nat) : (bufs.flatMap delivered).length = 3 * bufs.length := by
  induction bufs with
  | nil => rfl
  | cons buf bufs ih =>
      simp only [List.flatMap_cons, List.length_append, ih, delivered, List.length_cons,
        List.length_nil]
      omega

/-- A step of a session keeps the invariant. -/
theorem FinishInv.step {s₀ s s' : State V σ} {ls : List (Label V σ)} {l : Label V σ}
    (hs : FinishInv s₀ ls s) (hrun : run step s₀ ls = some s) (hstep : SessionStep s l s') :
    FinishInv s₀ (ls ++ [l]) s' := by
  cases hstep with
  | @worker u a v _ hmove =>
      by_cases hzero : u = 0
      · subst hzero
        rw [State.role_zero] at hmove
        obtain ⟨bufs, hevents⟩ := hs.events
        obtain ⟨hsource, bufs', hunderway⟩ := hmove.source_step hs.source
        refine ⟨by simpa using hsource, ⟨bufs ++ bufs', ?_⟩, ?_⟩
        · rw [State.view_impl] at hunderway
          rw [observe_snoc hrun, hevents, List.append_assoc, sourceEvents, hunderway]
          simp
        · simp only [takes_append hrun, Takes, hs.settled, FinishesEmpty, Label.worker.injEq,
            true_and, State.putView_impls_self, hmove.source_settled hs.source, State.view_impl]
          constructor
          · rintro ⟨hsettled, hempty, -⟩
            exact ⟨fun r => hempty a r rfl, hsettled⟩
          · rintro ⟨hempty, hsettled⟩
            exact ⟨hsettled, fun _ r h => h ▸ hempty r, fun _ _ => trivial⟩
      · have hsame : (s.putView u v).impls 0 = s.impls 0 := by simp [Ne.symm hzero]
        refine hs.of_other hrun (fun _ h => ?_) (hsame ▸ hs.source) (by rw [hsame]) (by rw [hsame])
        cases h
        exact hzero rfl
  | @create _ u _ _ habsent _ _ himpls =>
      by_cases hzero : u = 0
      · subst hzero
        have hdestroyed : (s.impls 0).destroyed = false := by
          have := hs.source
          rwa [Impl.SourceOk, habsent] at this
        have hcreated : s'.impls 0 = sourceCreateThread (s.impls 0) := by
          rw [himpls, Function.update_self]
          rfl
        refine hs.of_other hrun nofun ?_ ?_ ?_ <;> rw [hcreated]
        · exact nofun
        · simp [Impl.underway, habsent, sourceCreateThread]
        · simp [Impl.Settled, sourceCreateThread, hdestroyed]
      · have hsame : s'.impls 0 = s.impls 0 := by rw [himpls, Function.update_of_ne (Ne.symm hzero)]
        exact hs.of_other hrun nofun (hsame ▸ hs.source) (by rw [hsame]) (by rw [hsame])
  | flags hl _ _ himpls =>
      obtain ⟨enabled, hsame⟩ := himpls 0
      exact hs.of_other hrun (hl 0) (hsame ▸ hs.source) (by rw [hsame]; rfl) (by rw [hsame]; rfl)
  | wait => exact hs.of_other hrun nofun hs.source rfl Iff.rfl

/-- **A finishing source.**  Take any run of a freshly created pipeline,
without a disable call, at whose end the source has left its loop.  Every
buffer that the source has made ready has been pushed, exactly when the
invocation that called `mtdp_source_finished` has made none ready. -/
theorem finish_lossless_iff {s t : State V σ} {ls : List (Label V σ)} (hs : Created s)
    (hsession : .call .disable ∉ ls) (hrun : run step s ls = some t)
    (hexited : (t.impls 0).pc = .exited) :
    Lossless (observe step sourceEvents s ls) ↔ Takes step FinishesEmpty s ls := by
  have hinv : FinishInv s ls t := by
    refine session_run (Q := fun _ _ => True) (motive := FinishInv s) hs ?_
      (fun _ _ _ _ hrun hs _ _ _ hstep => hs.step hrun hstep) hsession
      (takes_of_mem fun _ _ _ => trivial) hrun
    refine ⟨by simp [Impl.SourceOk, hs.pc, hs.workerDestroyed], ⟨[], ?_⟩, ?_⟩
    · simp [observe, Impl.underway, hs.pc]
    · simp [Takes, Impl.Settled, hs.workerDestroyed]
  obtain ⟨bufs, hevents⟩ := hinv.events
  have hsource := hinv.source
  simp only [Impl.SourceOk, hexited] at hsource
  rw [hinv.settled, Impl.Settled, hsource.1, hevents,
    Impl.underway_of_ne (by simp [hexited]) (by simp [hexited])]
  cases hready : (t.impls 0).readyToPush with
  | false => exact iff_of_true ⟨bufs, by simp⟩ fun _ => rfl
  | true =>
      obtain ⟨buf, hbuf⟩ := Option.isSome_iff_exists.mp (hsource.2 hready)
      refine iff_of_false ?_ (by simp)
      rintro ⟨bufs', heq⟩
      have hlen := congrArg List.length heq
      simp only [hbuf, if_true, Option.toList_some, List.map_cons, List.map_nil, List.length_append,
        delivered_length, List.length_cons, List.length_nil] at hlen
      omega

/-- The source of `smallest` calls `mtdp_source_finished` and then sets
`ready_to_push`. -/
def finishThenReady : List (Label Unit Unit) :=
  enableAndStart ++ threadSteps 0 6 true true false ++
    [.worker 0 ⟨true, (), .finish⟩] ++ threadSteps 0 3 true true false

theorem finishThenReady_session : .call .disable ∉ finishThenReady := by
  simp [finishThenReady, enableAndStart, threadSteps, controllerSteps]

theorem finish_lossless_iff_finishThenReady :
    Lossless (observe step sourceEvents smallest finishThenReady) ↔
      Takes step FinishesEmpty smallest finishThenReady :=
  finish_lossless_iff smallest_created finishThenReady_session
    (t := (run step smallest finishThenReady).get (by decide)) (Option.some_get _).symm (by decide)

/-- The buffer made ready by that invocation is never pushed. -/
theorem finish_drops_a_buffer :
    ¬ ∀ (s t : State Unit Unit) (ls : List (Label Unit Unit)), Created s →
      .call .disable ∉ ls → run step s ls = some t → (t.impls 0).pc = .exited →
      Lossless (observe step sourceEvents s ls) := by
  intro hall
  have hexited : (((run step smallest finishThenReady).get (by decide)).impls 0).pc = .exited := by
    decide
  obtain ⟨bufs, hevents⟩ := hall smallest _ finishThenReady smallest_created
    finishThenReady_session (Option.some_get (by decide)).symm hexited
  have hready : observe step sourceEvents smallest finishThenReady = [.ready 2] := by decide
  have hlen := congrArg List.length hevents
  rw [hready, delivered_length, List.length_singleton] at hlen
  omega

end Mtdp.Pipeline
