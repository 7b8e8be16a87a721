import Mtdp.Pipeline.Session

/-!
# What the done flags say about working units

A unit sets its done flag when it has failed to do something, and a stage or
the sink clears it once an acquire has succeeded.  A source never acquires,
and a stage that keeps its input does not acquire before it calls `process`
again: after a failed push their flags stay set while they work.

## Main results

* `Move.flagged_step` — what a flag that is set says about its unit.
* `working_units_unflagged` — if the pushes that fail are those of stages that
  want a new input, no unit is flagged while its callback runs.
-/

namespace Mtdp.Pipeline

open Lib.Transition

variable {V σ : Type}

/-- No unit that runs its `process` callback has its done flag set. -/
def WorkingUnflagged (s : State V σ) : Prop :=
  ∀ u ≤ s.nStages + 1, (s.impls u).pc = .callback → (s.impls u).done = false

/-- `mtdp_source_finished` is not called. -/
def NoFinish (s : State V σ) : Label V σ → Prop
  | .worker u a => (s.impls u).pc = .callback → a.callback ≠ .finish
  | _ => True

/-- A push that fails is that of a stage that wants a new input next. -/
def FailsToPushWanting (s : State V σ) : Label V σ → Prop
  | .worker u a =>
      (s.impls u).pc = .push → (s.impls u).readyToPush = true → a.ok = false →
        u ≠ 0 ∧ (s.impls u).readyToPull = true
  | _ => True

/-- What a flag that is set says: the unit will acquire before it works. -/
def Impl.Flagged (role : Role) (i : Impl V σ) : Prop :=
  match i.pc with
  | .absent => True
  | .test | .gate | .recheck | .exited | .push | .putBack | .release | .acquire =>
      i.done = true → role ≠ .source ∧ i.readyToPull = true
  | .pushFailed | .putBackFailed | .timedOut | .acquired =>
      role ≠ .source ∧ i.readyToPull = true
  | .getFull | .emptyGet | .getEmpty | .process | .callback | .recycle => i.done = false
  | .finishing => False

theorem Goto.flagged_step {role : Role} {a : Answer V σ} {v : View V σ} {pc : Pc}
    (hgoto : Goto role a v pc) (hv : v.impl.Flagged role)
    (hpush : v.impl.pc = .push → v.impl.readyToPush = true → a.ok = false →
      role ≠ .source ∧ v.impl.readyToPull = true) : (v.goto pc).impl.Flagged role := by
  unfold Impl.Flagged at hv ⊢
  cases hgoto
  case leave h _ => rcases h with h | h <;> simpa [h, View.goto] using hv
  case enter h _ => cases role <;> simpa [h, View.goto, Role.entry] using hv
  case pushRefused h hready _ hrefused => exact hpush h hready hrefused
  case putBackRefused hrole h hready _ _ => exact ⟨by rw [hrole]; decide, hready⟩
  case skipPush h _ =>
    cases role with
    | source => simpa [h, View.goto, Role.afterPush] using hv
    | stage | sink => simpa [h, View.goto, Role.afterPush] using hv
  case notReadyToPull h hready =>
    simp only [h] at hv
    change v.impl.done = false
    by_contra hdone
    rw [(hv (by simpa using hdone)).2] at hready
    cases hready
  case timeout hrole _ hready _ => exact ⟨hrole, hready⟩
  case skipPull hrole h hready =>
    simp only [h] at hv
    have hdone : v.impl.done = false := by
      by_contra hdone
      rw [(hv (by simpa using hdone)).2] at hready
      cases hready
    cases role with
    | source => exact absurd rfl hrole
    | stage | sink => exact hdone
  all_goals simp_all [View.goto]

/-- A step of a thread keeps the meaning of its flag. -/
theorem Move.flagged_step {role : Role} {a : Answer V σ} {v v' : View V σ}
    (hmove : Move role a v v') (hv : v.impl.Flagged role)
    (hfinish : v.impl.pc = .callback → a.callback ≠ .finish)
    (hpush : v.impl.pc = .push → v.impl.readyToPush = true → a.ok = false →
      role ≠ .source ∧ v.impl.readyToPull = true) : v'.impl.Flagged role := by
  cases hmove
  case goto hgoto => exact hgoto.flagged_step hv hpush
  case pushed h _ _ _ =>
    simp only [Impl.Flagged, h] at hv
    exact hv
  case released hsink h =>
    simp only [Impl.Flagged, h] at hv
    cases role with
    | source => simpa [Impl.Flagged, View.releaseOutput, Role.afterPush] using hv
    | stage => simpa [Impl.Flagged, View.releaseOutput, Role.afterPush] using hv
    | sink => exact absurd rfl hsink
  case flagged h =>
    have hready : role ≠ .source ∧ v.impl.readyToPull = true := by
      rcases h with h | h | h <;> simpa only [Impl.Flagged, h] using hv
    exact fun _ => hready
  case acquired hrole _ hready _ => exact ⟨hrole, hready⟩
  case unflagged => exact rfl
  case gotFull hrole h _ =>
    simp only [Impl.Flagged, h] at hv
    cases role with
    | source => exact absurd rfl hrole
    | stage => exact hv
    | sink => exact hv
  case gotNone h _ | gotOutput h _ _ _ | noOutput h _ _ _ | invoked h _ _ =>
    simp only [Impl.Flagged, h] at hv
    exact hv
  case compensated h =>
    simp only [Impl.Flagged, h] at hv
    simp [Impl.Flagged, View.releaseInput, hv]
  case asked h _ =>
    have hdone : v.impl.done = false := by
      rcases h with ⟨_, h⟩ | ⟨_, h⟩ <;> simpa only [Impl.Flagged, h] using hv
    simp [Impl.Flagged, View.askInput, hdone]
  case finishing h hcallback => exact absurd hcallback (hfinish h)
  case finished h => simp [Impl.Flagged, h] at hv
  case returned h _ =>
    simp only [Impl.Flagged, h] at hv
    cases role <;> simp [Impl.Flagged, View.returns, Role.afterCallback, hv]
  case recycled h _ _ =>
    simp only [Impl.Flagged, h] at hv
    simp [Impl.Flagged, hv]
  case putBack hrole _ hready _ _ =>
    intro _
    exact ⟨by rw [hrole]; decide, hready⟩

theorem Role.createThread_flagged (role : Role) (i : Impl V σ) :
    (role.createThread i).Flagged role := by
  cases role <;> simp [Impl.Flagged, Role.createThread, sourceCreateThread, stageCreateThread,
    sinkCreateThread]

/-- Every flag says what it should. -/
def FlagsHonest (s : State V σ) : Prop := ∀ u, (s.impls u).Flagged (s.role u)

theorem FlagsHonest.step {s s' : State V σ} {l : Label V σ} (hs : FlagsHonest s)
    (heffect : SessionStep s l s') (hfinish : NoFinish s l) (hpush : FailsToPushWanting s l) :
    FlagsHonest s' := by
  intro u
  cases heffect with
  | @worker w a v hw hmove =>
      change ((s.putView w v).impls u).Flagged (s.role u)
      by_cases hne : u = w
      · subst hne
        rw [State.putView_impls_self]
        apply hmove.flagged_step (hs u) hfinish
        intro hpc hready hrefused
        obtain ⟨hzero, hpull⟩ := hpush hpc hready hrefused
        exact ⟨mt State.role_eq_source.mp hzero, hpull⟩
      · rw [State.putView_impls_of_ne _ _ _ hne]
        exact hs u
  | @create _ w _ _ _ hn _ himpls =>
      rw [himpls, State.role, hn]
      by_cases hne : u = w
      · subst hne
        rw [Function.update_self]
        exact Role.createThread_flagged _ _
      · rw [Function.update_of_ne hne]
        exact hs u
  | flags _ hn _ himpls =>
      obtain ⟨enabled, himpl⟩ := himpls u
      rw [himpl, State.role, hn]
      exact hs u
  | wait => exact hs u

theorem FlagsHonest.workingUnflagged {s : State V σ} (hs : FlagsHonest s) :
    WorkingUnflagged s := by
  intro u _ hpc
  have hflagged := hs u
  simpa only [Impl.Flagged, hpc] using hflagged

/-- **Activity.**  Take any run of a freshly created pipeline without
`mtdp_source_finished` and `mtdp_pipeline_disable`, in which no push of the
source fails and no push of a stage that keeps its input.  In every state of
the run, the units that run their callback are not flagged. -/
theorem working_units_unflagged {s : State V σ} {ls : List (Label V σ)} (hs : Created s)
    (hsession : .call .disable ∉ ls) (hfinish : Takes step NoFinish s ls)
    (hpush : Takes step FailsToPushWanting s ls) : Visits step WorkingUnflagged s ls := by
  have hcreated : FlagsHonest s := by
    intro u
    simp [Impl.Flagged, hs.pc]
  apply visits_of_run
  intro ls' ls'' t heq hrun
  subst heq
  have hnodisable : .call .disable ∉ ls' := by
    intro hmem
    exact hsession (List.mem_append_left ls'' hmem)
  have htakes := ((takes_append hrun).mp (hfinish.and hpush)).1
  apply FlagsHonest.workingUnflagged
  refine session_run (motive := fun _ t => FlagsHonest t) hs hcreated ?_ hnodisable htakes hrun
  intro _ l s s' _ hinv hl _ _ heffect
  exact hinv.step heffect hl.1 hl.2

/-! ## Runs of the smallest pipeline -/

instance (s : State V σ) : (l : Label V σ) → Decidable (NoFinish s l)
  | .worker u a =>
      match hcallback : a.callback with
      | .finish => decidable_of_iff ((s.impls u).pc ≠ .callback) (by simp [NoFinish, hcallback])
      | .ret r => .isTrue (by simp [NoFinish, hcallback])
  | .call _ => .isTrue trivial
  | .controller _ => .isTrue trivial
  | .waiter => .isTrue trivial

instance (s : State V σ) : (l : Label V σ) → Decidable (FailsToPushWanting s l)
  | .worker u a =>
      inferInstanceAs (Decidable ((s.impls u).pc = .push → (s.impls u).readyToPush = true →
        a.ok = false → u ≠ 0 ∧ (s.impls u).readyToPull = true))
  | .call _ => .isTrue trivial
  | .controller _ => .isTrue trivial
  | .waiter => .isTrue trivial

/-- The source pushes a buffer and fills the next one.  If not `ok`, its second
push fails, as it may when the first buffer has filled a block.  The sink takes the
first buffer and puts it back, and the source pushes the second one and goes on
until its callback runs for the third time. -/
def pushTwice (ok : Bool) : List (Label Unit Unit) :=
  enableAndStart ++ threadSteps 0 15 true true false ++
    threadSteps 0 (if ok then 0 else 5) false true false ++ threadSteps 1 13 true false true ++
    threadSteps 0 7 true true false

theorem pushTwice_session (ok : Bool) : .call .disable ∉ pushTwice ok := by
  simp [pushTwice, enableAndStart, threadSteps, controllerSteps]

theorem working_units_unflagged_pushed :
    Visits step WorkingUnflagged smallest (pushTwice true) :=
  working_units_unflagged smallest_created (pushTwice_session true) (by decide) (by decide)

/-- The second push failed and succeeded when it was tried again: the source works,
and its flag is set. -/
theorem source_works_flagged :
    ¬ ∀ (s : State Unit Unit) (ls : List (Label Unit Unit)), Created s → .call .disable ∉ ls →
      Takes step NoFinish s ls → Visits step WorkingUnflagged s ls := by
  intro hall
  have hvisits := hall smallest (pushTwice false) smallest_created (pushTwice_session false)
    (by decide)
  have hend : (run step smallest (pushTwice false)).map
      (fun t => ((t.impls 0).pc, (t.impls 0).done)) = some (.callback, true) := by decide
  obtain ⟨t, hrun, hobserved⟩ := Option.map_eq_some_iff.mp hend
  simp only [Prod.mk.injEq] at hobserved
  have hclear := hvisits.of_run hrun 0 (Nat.zero_le _) hobserved.1
  rw [hobserved.2] at hclear
  cases hclear

end Mtdp.Pipeline
