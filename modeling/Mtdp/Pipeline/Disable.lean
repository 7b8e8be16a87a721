import Mtdp.Pipeline.Shape

/-!
# The done flags after a disable

`mtdp_pipeline_disable` promises that a thread in `mtdp_pipeline_wait`
resumes: it stores `1` in the flag of every unit.  The threads are joined
only afterwards, and a stage or the sink that has just acquired a token
clears its flag again on its way out.  For the stages the controller stores
the flags a second time, after the join; for the sink it does not.

## Main results

* `disable_releases_waiters_iff` — all flags are set after every disable
  exactly when the sink clears its flag in none of them too late.
* `sink_clears_its_flag` — a sink that does.
-/

namespace Mtdp.Pipeline

open Lib.Transition

variable {V σ : Type}

/-- The pipeline has been disabled and not been enabled since; all flags
are set. -/
def Released (s : State V σ) : Prop :=
  s.controller = .idle → s.enabled = false → (.disable, .ok) ∈ s.returned →
    ∀ u ≤ s.nStages + 1, (s.impls u).done = true

/-- `mtdp_sink_destroy` has returned, `mtdp_pipeline_disable` has not. -/
def SinkDestroyed (s : State V σ) : Prop :=
  match s.controller with
  | .destroying u => u = s.nStages + 2
  | .joining _ => True
  | .clearing _ => True
  | .returning _ => True
  | .marking _ => True
  | _ => False

/-- The sink does not clear its flag once `mtdp_sink_destroy` has set it. -/
def SinkKeepsFlag (s : State V σ) (l : Label V σ) : Prop :=
  ∀ a, l = .worker (s.nStages + 1) a → SinkDestroyed s →
    (s.impls (s.nStages + 1)).pc ≠ .acquired

/-- No disable call in progress has found the flag of the sink cleared. -/
def SinkFlagSet (s : State V σ) : Prop :=
  SinkDestroyed s → (s.impls (s.nStages + 1)).done = true

/-! ## The invariant -/

/-- `mtdp_source_destroy` has set the flag of the source. -/
def SourceFlagged (s : State V σ) : Prop :=
  match s.controller with
  | .destroying u => 1 ≤ u
  | .destroyed _ => True
  | .joining _ => True
  | .clearing _ => True
  | .returning _ => True
  | .marking _ => True
  | _ => False

/-- Where a sink can be that has cleared its flag and is about to leave. -/
def Pc.Leaving (pc : Pc) : Prop :=
  pc = .getFull ∨ pc = .emptyGet ∨ pc = .process ∨ pc = .callback ∨ pc = .test ∨ pc = .exited

structure DisableInv (s : State V σ) : Prop where
  shape : Shape s
  source : SourceFlagged s → (s.impls 0).done = true
  marked : ∀ u, s.controller = .marking u → ∀ w, 1 ≤ w → w < u → (s.impls w).done = true
  sinkDestroyed : SinkDestroyed s ∨ s.controller = .destroyed (s.nStages + 1) →
    (s.impls (s.nStages + 1)).destroyed = true
  leaving : SinkDestroyed s → (s.impls (s.nStages + 1)).done = false →
    (s.impls (s.nStages + 1)).pc.Leaving

theorem Created.disableInv {s : State V σ} (hs : Created s) : DisableInv s where
  shape := hs.shape
  source := by simp [SourceFlagged, hs.controller]
  marked := by simp [hs.controller]
  sinkDestroyed := by simp [SinkDestroyed, hs.controller]
  leaving := by simp [SinkDestroyed, hs.controller]

/-- A step of a destroyed sink that has cleared its flag. -/
theorem Move.leaving {a : Answer V σ} {v v' : View V σ} (hmove : Move .sink a v v')
    (hdestroyed : v.impl.destroyed = true) (hpc : v.impl.pc.Leaving) : v'.impl.pc.Leaving := by
  cases hmove
  case goto hgoto =>
    cases hgoto <;> simp_all [View.goto, Pc.Leaving]
  all_goals simp_all [Pc.Leaving, View.storeDone, View.releaseInput, View.askInput, View.invoke,
    Role.afterPull, Role.afterCallback]

/-- A step of a thread keeps the invariant. -/
theorem worker_disableInv {s s' : State V σ} {u : Nat} {a : Answer V σ} (hs : DisableInv s)
    (hstep : step s (.worker u a) = some s') : DisableInv s' := by
  have hshape := step_shape hs.shape hstep
  obtain ⟨hn, hcontroller, _, hframe⟩ := step_worker_frame hstep
  obtain ⟨_, v, hmove, rfl⟩ := step_worker hstep
  refine ⟨hshape, fun hflagged => ?_, fun w hw => ?_, fun hdestroyed => ?_, fun hdestroyed => ?_⟩
  · have hbefore := hs.source hflagged
    by_cases hzero : u = 0
    · subst hzero
      rw [State.role_zero] at hmove
      rcases hmove.done_cases with ⟨_, heq⟩ | ⟨_, heq⟩ | ⟨hrole, _⟩
      · simpa [heq] using hbefore
      · simpa using heq
      · exact absurd rfl hrole
    · simpa [Ne.symm hzero] using hbefore
  · intro k hpos hlt
    have hrest : AllResting s := by
      have := hs.shape
      rw [Shape, show s.controller = .marking w from hw] at this
      exact this.2.2.2
    rw [hframe k (hrest k ?_)]
    · exact hs.marked w hw k hpos hlt
    · have := hs.shape
      rw [Shape, show s.controller = .marking w from hw] at this
      omega
  · have hbefore := hs.sinkDestroyed hdestroyed
    by_cases hsink : u = s.nStages + 1
    · subst hsink
      rcases hmove.destroyed_cases with heq | ⟨_, _, heq⟩
      · simpa [heq] using hbefore
      · simpa using heq
    · simpa [Ne.symm hsink] using hbefore
  · intro hcleared
    by_cases hsink : u = s.nStages + 1
    · subst hsink
      simp only [State.putView_nStages, State.putView_impls_self] at hcleared ⊢
      rw [State.role_sink] at hmove
      rcases hmove.done_cases with ⟨_, heq⟩ | ⟨_, heq⟩ | ⟨_, _, rfl⟩
      · exact hmove.leaving (hs.sinkDestroyed (.inl hdestroyed))
          (hs.leaving hdestroyed (heq ▸ hcleared))
      · rw [heq] at hcleared
        cases hcleared
      · exact .inl rfl
    · simp only [State.putView_nStages, State.putView_impls_of_ne _ _ _ (Ne.symm hsink)]
        at hcleared ⊢
      exact hs.leaving hdestroyed hcleared

/-- The invariant says nothing about a state in which no disable call is in
progress. -/
theorem DisableInv.of_not_disabling {s : State V σ} (hshape : Shape s)
    (hsource : ¬ SourceFlagged s) (hsink : ¬ SinkDestroyed s)
    (hmarked : ∀ u, s.controller ≠ .marking u)
    (hdestroyed : s.controller ≠ .destroyed (s.nStages + 1)) : DisableInv s where
  shape := hshape
  source := fun h => absurd h hsource
  marked := fun u hu => absurd hu (hmarked u)
  sinkDestroyed := fun h => (h.elim hsink hdestroyed).elim
  leaving := fun h => absurd h hsink

/-- Between the destroy calls and the loop over the stages, the controller
leaves the flags and the threads alone. -/
theorem DisableInv.advance {s s' : State V σ} (hs : DisableInv s) (hshape : Shape s')
    (hn : s'.nStages = s.nStages)
    (himpls : ∀ u, (s'.impls u).done = (s.impls u).done ∧
      (s'.impls u).destroyed = (s.impls u).destroyed ∧ (s'.impls u).pc = (s.impls u).pc)
    (hsource : SourceFlagged s) (hsink : SinkDestroyed s)
    (hmarked : ∀ u, s'.controller = .marking u → u = 1) : DisableInv s' where
  shape := hshape
  source := fun _ => by rw [(himpls 0).1]; exact hs.source hsource
  marked := fun u hu w hpos hlt => absurd (hmarked u hu) (by omega)
  sinkDestroyed := fun _ => by rw [hn, (himpls _).2.1]; exact hs.sinkDestroyed (.inl hsink)
  leaving := fun _ hcleared => by
    rw [hn] at hcleared ⊢
    rw [(himpls _).1] at hcleared
    rw [(himpls _).2.2]
    exact hs.leaving hsink hcleared

/-- A step of the controller keeps the invariant. -/
theorem controllerStep_disableInv {s s' : State V σ} {allocated : Nat → Bool}
    (hs : DisableInv s) (hstep : s.controllerStep allocated = some s') : DisableInv s' := by
  have hshape := controllerStep_shape hs.shape hstep
  cases controllerStep_move hstep
  case destroyFirst u _ hcontroller =>
    refine ⟨hshape, fun _ => ?_, by simp, fun h => ?_,
      fun h => absurd h (by simp [SinkDestroyed])⟩
    · by_cases hzero : u = 0
      · subst hzero
        simp [State.role_zero, Role.destroyFirst, setDone]
      · simpa [Ne.symm hzero] using
          hs.source (by simp only [SourceFlagged, hcontroller]; omega)
    · have hu : u = s.nStages + 1 := by simpa [SinkDestroyed, State.setImpl] using h
      subst hu
      simp [State.setImpl, State.role_sink, Role.destroyFirst, workerDestroy]
  case destroyed hlast hcontroller =>
    have hle := hs.shape
    simp only [Shape, hcontroller] at hle
    refine hs.advance hshape rfl (fun _ => ⟨rfl, rfl, rfl⟩) ?_ ?_ (by simp)
    · simp only [SourceFlagged, hcontroller]
      omega
    · simp only [SinkDestroyed, hcontroller]
      omega
  case destroySecond u hcontroller =>
    have hsource := hs.source (by simp [SourceFlagged, hcontroller])
    refine ⟨hshape, fun _ => ?_, by simp, fun h => ?_, fun h hcleared => ?_⟩
    · by_cases hzero : u = 0
      · subst hzero
        simpa [State.role_zero, Role.destroySecond, workerDestroy] using hsource
      · simpa [Ne.symm hzero] using hsource
    · have hu : u = s.nStages + 1 := by simpa [SinkDestroyed, State.setImpl] using h
      subst hu
      simpa [State.setImpl, State.role_sink, Role.destroySecond, setDone] using
        hs.sinkDestroyed (.inr hcontroller)
    · have hu : u = s.nStages + 1 := by simpa [SinkDestroyed, State.setImpl] using h
      subst hu
      simp [State.setImpl, State.role_sink, Role.destroySecond, setDone] at hcleared
  case giveBack left hcontroller =>
    refine hs.advance hshape rfl (fun u => ?_) (by simp [SourceFlagged, hcontroller])
      (by simp [SinkDestroyed, hcontroller]) (by simp)
    by_cases hne : u = left
    · subst hne
      simp [Role.returnBuffers_flags]
    · simp [hne]
  case mark u hstage hcontroller =>
    have hpending : SinkDestroyed s := by simp [SinkDestroyed, hcontroller]
    refine ⟨hshape, fun _ => ?_, fun k hk w hpos hlt => ?_, fun _ => ?_, fun _ hcleared => ?_⟩
    · have hsource := hs.source (by simp [SourceFlagged, hcontroller])
      by_cases hzero : u = 0
      · subst hzero
        simp [setDone]
      · simpa [Ne.symm hzero] using hsource
    · by_cases hlast : w = u
      · subst hlast
        simp [setDone]
      · have hkw : k = u + 1 := by simpa using hk.symm
        simpa [hlast] using hs.marked u hcontroller w hpos (by omega)
    · have hne : s.nStages + 1 ≠ u := by omega
      simpa [State.setImpl, hne] using hs.sinkDestroyed (.inl hpending)
    · have hne : s.nStages + 1 ≠ u := by omega
      simp only [State.setImpl, Function.update_of_ne hne] at hcleared ⊢
      exact hs.leaving hpending hcleared
  case join _ _ hcontroller | joined _ hcontroller | clear hcontroller | cleared hcontroller |
      gaveBack hcontroller =>
    exact hs.advance hshape rfl (fun _ => ⟨rfl, rfl, rfl⟩) (by simp [SourceFlagged, hcontroller])
      (by simp [SinkDestroyed, hcontroller]) (by simp)
  all_goals
    exact .of_not_disabling hshape (by simp [SourceFlagged, State.report])
      (by simp [SinkDestroyed, State.report]) (by simp [State.report]) (by simp [State.report])

/-- Every step keeps the invariant. -/
theorem step_disableInv {s s' : State V σ} {l : Label V σ} (hs : DisableInv s)
    (hstep : step s l = some s') : DisableInv s' := by
  have hshape := step_shape hs.shape hstep
  cases l with
  | worker u a => exact worker_disableInv hs hstep
  | call c =>
      simp only [step] at hstep
      split at hstep <;> cases hstep
      rename_i hidle
      rcases s.beginCall_cases c with ⟨e, _, _, heq⟩ | ⟨_, _, heq⟩ | ⟨_, _, _, heq⟩ |
        ⟨_, _, _, heq⟩ | ⟨_, _, heq⟩ <;> rw [heq] at hshape ⊢ <;>
        exact .of_not_disabling hshape (by simp [SourceFlagged, State.report])
          (by simp [SinkDestroyed, State.report]) (by simp [State.report]) (by simp [State.report])
  | controller allocated => exact controllerStep_disableInv hs hstep
  | waiter =>
      cases hstep
      exact ⟨hshape, hs.source, hs.marked, hs.sinkDestroyed, hs.leaving⟩

/-! ## Steps and runs -/

/-- A step of a thread. -/
theorem worker_released {s s' : State V σ} {u : Nat} {a : Answer V σ} (hs : DisableInv s)
    (hstep : step s (.worker u a) = some s') :
    Released s' ∧ SinkFlagSet s' ↔ SinkKeepsFlag s (.worker u a) ∧ SinkFlagSet s := by
  obtain ⟨hle, v, hmove, rfl⟩ := step_worker hstep
  -- no thread moves while the pipeline is disabled
  have hreleased : Released (s.putView u v) := by
    intro hidle henabled
    have hshape := hs.shape
    rw [Shape, show s.controller = .idle from hidle] at hshape
    exact absurd (hshape henabled u hle) hmove.not_resting
  rw [and_iff_right hreleased]
  by_cases hpending : SinkDestroyed s
  swap
  · exact iff_of_true (fun h => absurd h hpending)
      ⟨fun _ _ h => absurd h hpending, fun h => absurd h hpending⟩
  by_cases hsink : u = s.nStages + 1
  swap
  · have hkeeps : SinkKeepsFlag s (.worker u a) := fun _ h => by
      cases h
      exact absurd rfl hsink
    rw [and_iff_right hkeeps]
    simp only [SinkFlagSet, State.putView_nStages, State.putView_impls_of_ne _ _ _ (Ne.symm hsink)]
    exact Iff.rfl
  subst hsink
  have hflag : SinkFlagSet (s.putView (s.nStages + 1) v) ↔ v.impl.done = true := by
    simp only [SinkFlagSet, State.putView_nStages, State.putView_impls_self]
    exact ⟨fun h => h hpending, fun h _ => h⟩
  have hflag₀ : SinkFlagSet s ↔ (s.impls (s.nStages + 1)).done = true :=
    ⟨fun h => h hpending, fun h _ => h⟩
  have hkeeps : SinkKeepsFlag s (.worker (s.nStages + 1) a) ↔
      (s.impls (s.nStages + 1)).pc ≠ .acquired :=
    ⟨fun h => h a rfl hpending, fun h _ _ _ => h⟩
  rw [hflag, hflag₀, hkeeps]
  rw [State.role_sink] at hmove
  rcases hmove.done_cases with ⟨hpc, heq⟩ | ⟨hpc, heq⟩ | ⟨_, hpc, rfl⟩
  · rw [heq]
    exact ⟨fun h => ⟨hpc, h⟩, fun h => h.2⟩
  · -- a sink that is about to set its flag has not cleared it before
    simp only [State.view_impl, reduceCtorEq, false_and, or_false] at hpc
    refine iff_of_true heq ⟨?_, ?_⟩
    · rcases hpc with hpc | hpc | hpc <;> simp [hpc]
    · by_contra hcleared
      have := hs.leaving hpending (by simpa using hcleared)
      rcases hpc with hpc | hpc | hpc <;> simp [Pc.Leaving, hpc] at this
  · exact iff_of_false (by simp [View.storeDone]) fun h => h.1 hpc

/-- The return from a disable call: every flag but that of the sink is set. -/
theorem finish_released {s : State V σ} {u : Nat} (hs : DisableInv s)
    (hcontroller : s.controller = .marking u) (hlast : s.nStages < u) :
    (∀ w ≤ s.nStages + 1, (s.impls w).done = true) ↔ SinkFlagSet s := by
  have hpending : SinkDestroyed s := by simp [SinkDestroyed, hcontroller]
  constructor
  · exact fun h _ => h _ (Nat.le_refl _)
  · intro h w hw
    rcases Nat.eq_zero_or_pos w with rfl | hpos
    · exact hs.source (by simp [SourceFlagged, hcontroller])
    · rcases Nat.lt_or_ge w (s.nStages + 1) with hstage | hsink
      · exact hs.marked u hcontroller w hpos (by omega)
      · obtain rfl : w = s.nStages + 1 := by omega
        exact h hpending

/-- A step of the controller. -/
theorem controllerStep_released {s s' : State V σ} {allocated : Nat → Bool} (hs : DisableInv s)
    (hstep : s.controllerStep allocated = some s') :
    Released s' ∧ SinkFlagSet s' ↔ SinkFlagSet s := by
  have hshape := hs.shape
  cases controllerStep_move hstep <;> rename_i hcontroller <;>
    simp only [Shape, hcontroller] at hshape
  case destroyFirst u hunit =>
    refine iff_of_true ⟨by rintro ⟨⟩, by simp [SinkFlagSet, SinkDestroyed]⟩ ?_
    simp only [SinkFlagSet, SinkDestroyed, hcontroller]
    omega
  case destroyed u hunit =>
    have hlast : u = s.nStages + 2 := by omega
    simp [Released, SinkFlagSet, SinkDestroyed, hcontroller, hlast]
  case destroySecond u =>
    refine iff_of_true ⟨by rintro ⟨⟩, fun h => ?_⟩
      (by simp [SinkFlagSet, SinkDestroyed, hcontroller])
    obtain rfl : u = s.nStages + 1 := by simpa [SinkDestroyed, State.setImpl] using h
    simp [State.setImpl, State.role_sink, Role.destroySecond, setDone]
  case join | joined | clear | cleared | gaveBack =>
    simp [Released, SinkFlagSet, SinkDestroyed, hcontroller, State.setPipe]
  case giveBack left =>
    simp only [Released, SinkFlagSet, SinkDestroyed, hcontroller, reduceCtorEq, false_implies,
      true_and, forall_const, State.putView_nStages]
    by_cases hne : s.nStages + 1 = left
    · rw [← hne]
      simp [Role.returnBuffers_flags]
    · simp [hne]
  case mark u hunit =>
    have hne : s.nStages + 1 ≠ u := by omega
    simp [Released, SinkFlagSet, SinkDestroyed, hcontroller, State.setImpl, hne]
  case disabled u hlast =>
    rw [← finish_released hs hcontroller (by omega)]
    simp [Released, SinkFlagSet, SinkDestroyed, State.report]
  all_goals
    refine iff_of_true ⟨?_, ?_⟩ (by simp [SinkFlagSet, SinkDestroyed, hcontroller])
    · simp [Released, State.report, hshape]
    · simp [SinkFlagSet, SinkDestroyed, State.report]

/-- A step leads to a state without a lost flag exactly when none was lost
before and the sink does not clear its flag late. -/
theorem step_released {s s' : State V σ} {l : Label V σ} (hs : DisableInv s)
    (hreleased : Released s) (hstep : step s l = some s') :
    Released s' ∧ SinkFlagSet s' ↔ SinkKeepsFlag s l ∧ SinkFlagSet s := by
  cases l with
  | worker u a => exact worker_released hs hstep
  | call c =>
      simp only [step] at hstep
      split at hstep <;> cases hstep
      rename_i hidle
      have hflag : SinkFlagSet s := by simp [SinkFlagSet, SinkDestroyed, hidle]
      refine iff_of_true ?_ ⟨by simp [SinkKeepsFlag], hflag⟩
      rcases s.beginCall_cases c with ⟨e, hne, _, heq⟩ | ⟨_, _, heq⟩ | ⟨_, _, _, heq⟩ |
        ⟨_, _, _, heq⟩ | ⟨_, _, heq⟩ <;> rw [heq]
      · refine ⟨fun _ henabled hmem => ?_, by simp [SinkFlagSet, SinkDestroyed, State.report]⟩
        have hbefore : (.disable, .ok) ∈ s.returned := by
          simpa [State.report, hne.symm] using hmem
        exact hreleased hidle henabled hbefore
      all_goals exact ⟨by rintro ⟨⟩, by simp [SinkFlagSet, SinkDestroyed]⟩
  | controller allocated =>
      have hkeeps : SinkKeepsFlag s (.controller allocated) := by simp [SinkKeepsFlag]
      rw [and_iff_right hkeeps]
      exact controllerStep_released hs hstep
  | waiter =>
      cases hstep
      rw [and_iff_right (show SinkKeepsFlag s .waiter by simp [SinkKeepsFlag])]
      exact and_iff_right hreleased

/-- **Disabling releases the waiters.**  Take any run of a freshly created
pipeline in which every call has returned.  After every disable, and until
the next enable, the flags of all units are set, exactly when the sink never
clears its flag in a disable call that has set it already. -/
theorem disable_releases_waiters_iff {s t : State V σ} {ls : List (Label V σ)} (hs : Created s)
    (hrun : run step s ls = some t) (hidle : t.controller = .idle) :
    Visits step Released s ls ↔ Takes step SinkKeepsFlag s ls := by
  refine visits_iff_takes (I := DisableInv) (G := SinkFlagSet) (R := fun _ _ => True)
    (fun _ _ _ hinv _ _ hstep _ => step_disableInv hinv hstep)
    (fun _ _ _ hinv hreleased _ hstep => step_released hinv hreleased hstep) hs.disableInv
    ?_ ?_ (fun _ _ => ?_) (takes_of_mem fun _ _ _ => trivial) hrun
  · simp [Released, hs.returned]
  · simp [SinkFlagSet, SinkDestroyed, hs.controller]
  · simp [SinkFlagSet, SinkDestroyed, hidle]

/-- The source of `smallest` has pushed a buffer; the sink has taken its
token when the disable sets the flag of the sink, and clears it afterwards. -/
def sinkInTheMiddle : List (Label Unit Unit) :=
  enableAndStart ++ threadSteps 0 12 true true false ++ threadSteps 1 5 true false true ++
    [.call .disable] ++ controllerSteps 6 ++ threadSteps 0 4 true false false ++
    threadSteps 1 5 true false true ++ controllerSteps 9

theorem disable_releases_waiters_iff_sinkInTheMiddle :
    Visits step Released smallest sinkInTheMiddle ↔
      Takes step SinkKeepsFlag smallest sinkInTheMiddle :=
  disable_releases_waiters_iff smallest_created
    (t := (run step smallest sinkInTheMiddle).get (by decide)) (Option.some_get _).symm (by decide)

/-- After that disable the flag of the sink is `0`. -/
theorem sink_clears_its_flag :
    ¬ ∀ (s t : State Unit Unit) (ls : List (Label Unit Unit)), Created s →
      run step s ls = some t → Visits step Released s ls := by
  intro hall
  have hend : (run step smallest sinkInTheMiddle).map (fun t =>
      (t.controller, t.enabled, t.returned.head?, (t.impls 1).done)) =
      some (.idle, false, some (.disable, .ok), false) := by decide
  obtain ⟨t, hrun, hobserved⟩ := Option.map_eq_some_iff.mp hend
  simp only [Prod.mk.injEq] at hobserved
  obtain ⟨hidle, henabled, hlast, hdone⟩ := hobserved
  have hreleased : Released t :=
    (hall _ _ _ smallest_created hrun).of_run hrun
  have hset := hreleased hidle henabled (List.mem_of_head? hlast) 1 (by omega)
  rw [hdone] at hset
  cases hset

end Mtdp.Pipeline
