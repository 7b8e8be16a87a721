import Mtdp.Lib.Fair
import Mtdp.Pipeline.Drain

/-!
# A finished pipeline drains under every fair schedule

`mtdp_source_finished` has been called, and the threads behind the source run in
whatever order they are scheduled, each of them a few steps in every round.  Then
everything that has been pushed goes through the sink in a number of rounds that
can be read off the state, the threads run into their timeouts, and
`mtdp_pipeline_wait` comes back.

What a unit has to do weighs five times as much as what the next one has to do, so
that a buffer gets lighter on its way.  The thread that is going to bring the weight
down is one that has a token to release, or else the last one that has something to
do: nobody can get in its way.

## Main results

* `Finished.helped` — the weight of the work under any schedule.
* `finished_pipeline_drains` — every fair run drains the pipeline and lets the
  waiters through.
-/

namespace Mtdp.Pipeline

open Lib.Transition

variable {V σ : Type}

/-! ## Fair runs -/

/-- The unit whose thread moves. -/
def Label.unit : Label V σ → Option Nat
  | .worker u _ => some u
  | _ => none

/-- There is memory for a push, an acquire times out only without a token, and a
callback consumes its input. -/
structure Prompt (v : View V σ) (a : Answer V σ) : Prop where
  push : v.impl.pc = .push → a.ok = true
  acquire : v.impl.pc = .acquire → a.ok = false → v.inputPipe.semaphore = 0
  callback : v.impl.pc = .callback → ∃ r, a.callback = .ret r ∧ r.readyToPull = true

/-- A step of the threads or of a waiter, while no call is made. -/
def Attended (s : State V σ) : Label V σ → Prop
  | .worker u a => u ≠ 0 → Prompt (s.view u) a
  | .call _ => False
  | _ => True

/-! ## The source -/

/-- What `mtdp_source_finished` leaves behind. -/
def Impl.SourceDone (i : Impl V σ) : Prop :=
  (i.pc = .finishing → i.done = true) ∧
    (i.destroyed = true → i.done = true ∧
      (i.pc = .callback ∨ i.pc = .finishing ∨ i.pc = .test ∨ i.pc = .exited))

theorem Move.sourceDone {a : Answer V σ} {v v' : View V σ} (hmove : Move .source a v v')
    (hv : v.impl.SourceDone) : v'.impl.SourceDone := by
  obtain ⟨hfinishing, hdestroyed⟩ := hv
  cases hmove
  case goto hgoto =>
    cases hgoto
    case leave h hleave =>
      exact ⟨by rintro ⟨⟩, fun _ => ⟨(hdestroyed hleave).1, by simp [View.goto]⟩⟩
    all_goals exact ⟨by rintro ⟨⟩, fun h => by simp_all [View.goto]⟩
  case finishing h _ =>
    exact ⟨fun _ => rfl, fun _ => ⟨rfl, by simp [View.storeDone]⟩⟩
  case finished h => exact ⟨by rintro ⟨⟩, fun _ => ⟨hfinishing h, .inl rfl⟩⟩
  case returned h _ =>
    exact ⟨by rintro ⟨⟩, fun hd => ⟨(hdestroyed hd).1, by simp [Role.afterCallback]⟩⟩
  case asked h _ => simp at h
  case flagged h =>
    refine ⟨by rintro ⟨⟩, fun hd => ⟨rfl, by simp [View.storeDone]⟩⟩
  all_goals first | contradiction | skip
  all_goals exact ⟨by rintro ⟨⟩, fun hd => by simp_all [View.releaseOutput, View.invoke]⟩

/-- A source that has finished pushes nothing. -/
theorem Move.finished_queue {a : Answer V σ} {v v' : View V σ} (hmove : Move .source a v v')
    (hv : v.impl.SourceDone) (hdestroyed : v.impl.destroyed = true) :
    v'.outputPipe.fifo = v.outputPipe.fifo := by
  obtain ⟨_, hpc⟩ := hv.2 hdestroyed
  cases hmove
  case returned => exact (v.returns_queue _ _).1
  case pushed h _ _ _ => simp [h] at hpc
  all_goals rfl

theorem step_sourceDone {s s' : State V σ} {l : Label V σ} (hs : (s.impls 0).SourceDone)
    (hstep : SessionStep s l s') : (s'.impls 0).SourceDone := by
  cases hstep with
  | @worker u a v _ hmove =>
      by_cases hzero : u = 0
      · subst hzero
        rw [State.putView_impls_self]
        exact Move.sourceDone hmove hs
      · rw [State.putView_impls_of_ne _ _ _ (Ne.symm hzero)]
        exact hs
  | @create _ u _ _ habsent _ _ himpls =>
      rw [himpls]
      by_cases hzero : u = 0
      · subst hzero
        rw [Function.update_self]
        refine ⟨by rintro ⟨⟩, fun hdestroyed => ?_⟩
        have := (hs.2 hdestroyed).2
        simp [habsent] at this
      · rw [Function.update_of_ne (Ne.symm hzero)]
        exact hs
  | flags _ _ _ himpls =>
      obtain ⟨enabled, himpl⟩ := himpls 0
      rw [himpl]
      exact hs
  | wait => exact hs

/-! ## What holds while the pipeline drains -/

/-- The flag that a waiter loads is that of a unit. -/
def WaiterInRange (s : State V σ) : Prop := ∀ u, s.waiter = .loading u → u ≤ s.nStages + 1

theorem step_waiterInRange {s s' : State V σ} {l : Label V σ} (hs : WaiterInRange s)
    (hstep : SessionStep s l s') : WaiterInRange s' := by
  cases hstep with
  | worker => exact hs
  | create _ _ hn _ _ _ hwaiter | flags _ hn _ _ _ hwaiter =>
      intro u hu
      rw [hn]
      exact hs u (hwaiter ▸ hu)
  | wait =>
      intro u hu
      simp only [State.waiterStep] at hu ⊢
      split at hu
      case h_5 w _ =>
        split at hu
        · split at hu
          · cases hu
            omega
          · cases hu
        · cases hu
      all_goals (try split at hu) <;> cases hu
      all_goals omega

/-- The source has finished, and nobody calls. -/
structure Finished (s₀ s : State V σ) : Prop where
  session : SessionInv s₀ s
  source : (s.impls 0).SourceDone
  waiter : WaiterInRange s
  idle : s.controller = .idle
  active : s.active = true
  destroyed : (s.impls 0).destroyed = true

theorem Finished.step {s₀ s s' : State V σ} {l : Label V σ} (hs : Finished s₀ s)
    (hfilled : ∀ u ≤ s₀.nStages, Filled (s₀.pipes (u + 1))) (hl : Attended s l)
    (hstep : Pipeline.step s l = some s') : Finished s₀ s' := by
  have hcall : l ≠ .call .disable := by
    rintro rfl
    exact hl
  have hsession := (step_session hs.session.session hcall hstep).2
  have hrest : s'.controller = .idle ∧ s'.active = true ∧ (s'.impls 0).destroyed = true := by
    cases l with
    | worker u a =>
        obtain ⟨_, v, hmove, rfl⟩ := step_worker hstep
        refine ⟨hs.idle, hs.active, ?_⟩
        by_cases hzero : u = 0
        · subst hzero
          rw [State.putView_impls_self]
          rcases hmove.destroyed_cases with heq | ⟨_, _, heq⟩
          · exact heq.trans hs.destroyed
          · exact heq
        · rw [State.putView_impls_of_ne _ _ _ (Ne.symm hzero)]
          exact hs.destroyed
    | call => exact hl.elim
    | controller => simp [Pipeline.step, State.controllerStep, hs.idle] at hstep
    | waiter =>
        cases hstep
        exact ⟨hs.idle, hs.active, hs.destroyed⟩
  exact
    { session := step_sessionInv hs.session hfilled hcall hstep
      source := step_sourceDone hs.source hsession
      waiter := step_waiterInRange hs.waiter hsession
      idle := hrest.1
      active := hrest.2.1
      destroyed := hrest.2.2 }

/-! ## The weight of the work -/

namespace State

/-- What the units have to do, the source aside. -/
def backlog (s : State V σ) : Nat := weigh 5 (fun u => s.work (u + 1)) s.nStages

/-- A stage with a token to release. -/
def Releases (s : State V σ) (u : Nat) : Prop := 1 ≤ u ∧ (s.impls u).pc = .release

/-- A stage or the sink with something to do. -/
def Busy (s : State V σ) (u : Nat) : Prop := 1 ≤ u ∧ s.work u ≠ 0

instance (s : State V σ) : DecidablePred s.Releases := fun _ => instDecidableAnd
instance (s : State V σ) : DecidablePred s.Busy := fun _ => instDecidableAnd

/-- The unit that is going to bring the weight down. -/
def helper (s : State V σ) : Nat :=
  if Nat.findGreatest s.Releases (s.nStages + 1) = 0 then
    Nat.findGreatest s.Busy (s.nStages + 1)
  else Nat.findGreatest s.Releases (s.nStages + 1)

/-- How far it is from its next piece of work. -/
def rank (s : State V σ) : Nat := (s.impls s.helper).away (s.role s.helper)

theorem backlog_eq_zero_iff {s : State V σ} :
    s.backlog = 0 ↔ ∀ u, 1 ≤ u → u ≤ s.nStages + 1 → s.work u = 0 := by
  rw [backlog, weigh_eq_zero_iff (by decide)]
  constructor
  · intro h u hpos hu
    obtain ⟨w, rfl⟩ := Nat.exists_eq_add_of_le' hpos
    exact h w (Nat.le_of_succ_le_succ hu)
  · exact fun h u hu => h (u + 1) (Nat.succ_pos u) (Nat.succ_le_succ hu)

/-- As long as there is work, there is somebody to help. -/
theorem helper_spec {s : State V σ} (h : s.backlog ≠ 0) :
    (1 ≤ s.helper ∧ s.helper ≤ s.nStages + 1) ∧
      ((s.impls s.helper).pc = .release ∨
        ((∀ u, 1 ≤ u → u ≤ s.nStages + 1 → (s.impls u).pc ≠ .release) ∧
          s.work s.helper ≠ 0 ∧ s.ClearBehind s.helper)) := by
  unfold helper
  split
  · next hnone =>
    obtain ⟨w, hpos, hw, hwork⟩ : ∃ u, 1 ≤ u ∧ u ≤ s.nStages + 1 ∧ s.work u ≠ 0 := by
      simpa [backlog_eq_zero_iff] using h
    have hbusy : s.Busy (Nat.findGreatest s.Busy (s.nStages + 1)) :=
      Nat.findGreatest_spec hw ⟨hpos, hwork⟩
    refine ⟨⟨hbusy.1, Nat.findGreatest_le _⟩, .inr ⟨fun u hpos hu hpc => ?_, hbusy.2, ?_⟩⟩
    · exact Nat.findGreatest_is_greatest (P := s.Releases) (by omega) hu ⟨hpos, hpc⟩
    · intro u hlt hu
      by_contra hne
      exact Nat.findGreatest_is_greatest hlt hu ⟨by omega, hne⟩
  · next hsome =>
    have hreleases := Nat.findGreatest_of_ne_zero (P := s.Releases) rfl hsome
    exact ⟨⟨hreleases.1, Nat.findGreatest_le _⟩, .inl hreleases.2⟩

/-- The helper stays the same as long as nobody does any work. -/
theorem helper_congr {s s' : State V σ} (hn : s'.nStages = s.nStages)
    (hwork : ∀ u, 1 ≤ u → s'.work u = s.work u)
    (hrelease : ∀ u, 1 ≤ u → ((s'.impls u).pc = .release ↔ (s.impls u).pc = .release)) :
    s'.helper = s.helper := by
  have hreleases : s'.Releases = s.Releases :=
    funext fun u => propext (and_congr_right fun hpos => hrelease u hpos)
  have hbusy : s'.Busy = s.Busy :=
    funext fun u => propext (and_congr_right fun hpos => by rw [hwork u hpos])
  unfold helper
  simp only [hn, hreleases, hbusy]

end State

/-- A step of a unit that does some of its work. -/
theorem backlog_lt {s : State V σ} {u : Nat} {v : View V σ} (hpos : 1 ≤ u)
    (hu : u ≤ s.nStages + 1) (hworks : Works (s.role u) (s.view u) v) :
    (s.putView u v).backlog < s.backlog := by
  obtain ⟨w, rfl⟩ := Nat.exists_eq_add_of_le' hpos
  have hrole (k : Nat) : (s.putView (w + 1) v).role k = s.role k := rfl
  refine weigh_lt (u := w) (show 4 < 5 by decide) (Nat.le_of_succ_le_succ hu) ?_ ?_ ?_
  · have := hworks.work
    simp only [State.work, hrole, State.putView_impls_self, State.putView_pipes_self]
    exact this
  · have := hworks.queue
    have hne : w + 1 + 1 ≠ w + 1 := Nat.succ_ne_self _
    simp only [State.work, hrole, State.putView_impls_of_ne _ _ _ hne, State.putView_pipes_succ,
      Impl.work]
    simp only [State.view] at this
    omega
  · intro i hne hne'
    simp only [State.work, hrole]
    rw [State.putView_impls_of_ne _ _ _ (by omega), State.putView_pipes_of_ne _ _ _ (by omega)
      (by omega)]

/-- A step of a unit that does none of it. -/
theorem work_kept {s : State V σ} {u : Nat} {v : View V σ}
    (hwork : 1 ≤ u → v.impl.work (s.role u) v.inputPipe.fifo.length = s.work u)
    (hqueue : v.outputPipe.fifo.length = (s.pipes (u + 1)).fifo.length) {k : Nat} (hk : 1 ≤ k) :
    (s.putView u v).work k = s.work k := by
  have hrole : (s.putView u v).role k = s.role k := rfl
  simp only [State.work, hrole]
  by_cases hself : k = u
  · subst hself
    rw [State.putView_impls_self, State.putView_pipes_self]
    exact hwork hk
  · rw [State.putView_impls_of_ne _ _ _ hself]
    by_cases hnext : k = u + 1
    · subst hnext
      rw [State.putView_pipes_succ, hqueue]
    · rw [State.putView_pipes_of_ne _ _ _ hself hnext]

/-- A step on the way. -/
structure Passes (s : State V σ) (l : Label V σ) (s' : State V σ) : Prop where
  work : ∀ u, 1 ≤ u → s'.work u = s.work u
  release : ∀ u, 1 ≤ u → ((s'.impls u).pc = .release ↔ (s.impls u).pc = .release)
  others : ∀ u, 1 ≤ u → l.unit ≠ some u → s'.impls u = s.impls u
  away : ∀ u a, 1 ≤ u → l = .worker u a → Unhindered (s.role u) (s.view u) a →
    (s'.impls u).away (s.role u) < (s.impls u).away (s.role u)

namespace Finished

variable {s₀ s s' : State V σ}

/-- **One step**, of whatever thread. -/
theorem backlog_lt_or_passes (hs : Finished s₀ s)
    (hfilled : ∀ u ≤ s₀.nStages, Filled (s₀.pipes (u + 1))) {l : Label V σ} (hl : Attended s l)
    (hstep : Pipeline.step s l = some s') : s'.backlog < s.backlog ∨ Passes s l s' := by
  cases l with
  | worker u a =>
      obtain ⟨hu, v, hmove, rfl⟩ := step_worker hstep
      have hothers : ∀ w, 1 ≤ w → (Label.worker u a).unit ≠ some w →
          (s.putView u v).impls w = s.impls w := by
        intro w _ hne
        exact State.putView_impls_of_ne _ _ _ fun heq => hne (congrArg some heq.symm)
      by_cases hzero : u = 0
      · subst hzero
        have hqueue := Move.finished_queue hmove hs.source hs.destroyed
        have hne (w : Nat) (hw : 1 ≤ w) : (Label.worker 0 a : Label V σ).unit ≠ some w := by
          simp [Label.unit, Nat.ne_of_lt hw]
        refine .inr ⟨fun w => ?_, fun w hw => ?_, hothers, fun w b hw heq => ?_⟩
        · exact work_kept (fun h => absurd h (by decide)) (by rw [hqueue, State.view])
        · rw [hothers w hw (hne w hw)]
        · exact absurd (heq ▸ rfl : (Label.worker 0 a : Label V σ).unit = some w) (hne w hw)
      · have hpos : 1 ≤ u := Nat.one_le_iff_ne_zero.mpr hzero
        rcases hmove.works_or_walks (mt State.role_eq_source.mp hzero)
          (hs.session.supplied hfilled hpos hu hmove.not_resting) (hl hzero).callback with h | h
        · exact .inl (backlog_lt hpos hu h)
        · refine .inr ⟨fun w => work_kept (fun _ => h.work) h.queue, fun w hw => ?_, hothers,
            fun w b hw heq => ?_⟩
          · by_cases hself : w = u
            · subst hself
              rw [State.putView_impls_self]
              exact h.release
            · rw [State.putView_impls_of_ne _ _ _ hself]
          · cases heq
            rw [State.putView_impls_self]
            exact h.away
  | call => exact hl.elim
  | controller => simp [Pipeline.step, State.controllerStep, hs.idle] at hstep
  | waiter =>
      cases hstep
      exact .inr ⟨fun _ _ => rfl, fun _ _ => Iff.rfl, fun _ _ _ => rfl, by rintro _ _ _ ⟨⟩⟩

/-- Nobody gets in the way of the helper. -/
theorem unhindered (hs : Finished s₀ s)
    (hnonempty : ∀ u ≤ s₀.nStages, (s₀.pipes (u + 1)).pool ≠ []) (hwork : s.backlog ≠ 0)
    {a : Answer V σ} (ha : Prompt (s.view s.helper) a) :
    Unhindered (s.role s.helper) (s.view s.helper) a := by
  obtain ⟨⟨hpos, hle⟩, hcase⟩ := State.helper_spec hwork
  refine ⟨ha.push, fun hpc hpull => ?_, fun hpc hsink hnone => ?_⟩
  · rcases hcase with hrelease | ⟨hnobody, hbusy, _⟩
    · simp [hrelease] at hpc
    · obtain ⟨u, hu⟩ := Nat.exists_eq_add_of_le' hpos
      rw [hu] at hpc hpull hle hbusy ha
      have howed : (s.impls u).pc ≠ .release := by
        by_cases hzero : u = 0
        · subst hzero
          have := (hs.source.2 hs.destroyed).2
          rintro h
          simp [h] at this
        · exact hnobody u (by omega) (by omega)
      have htoken := hs.session.token (Nat.le_of_succ_le_succ hle) hbusy howed hpc hpull
      by_contra hok
      have := ha.acquire hpc (by simpa using hok)
      simp only [State.view] at this
      omega
  · rcases hcase with hrelease | ⟨_, _, hclear⟩
    · simp [hrelease] at hpc
    · exact hs.session.empty hnonempty hclear hsink hnone

/-- **Under any schedule** the work gets less, and its weight is brought down by a
thread of which nobody is in the way. -/
theorem helped (hfilled : ∀ u ≤ s₀.nStages, Filled (s₀.pipes (u + 1)))
    (hnonempty : ∀ u ≤ s₀.nStages, (s₀.pipes (u + 1)).pool ≠ []) :
    Helped Pipeline.step Label.unit (Finished s₀) (Attended (V := V) (σ := σ)) State.backlog
      State.rank State.helper where
  invariant := fun _ _ _ hs hl hstep => hs.step hfilled hl hstep
  measure_le := by
    intro s l s' hs hl hstep
    rcases hs.backlog_lt_or_passes hfilled hl hstep with h | h
    · exact Nat.le_of_lt h
    · refine Nat.le_of_eq ?_
      rw [State.backlog, State.backlog, step_nStages hstep]
      exact weigh_congr fun i _ => h.work (i + 1) (Nat.succ_pos i)
  kept := by
    intro s l s' hs hl hstep hsame hwork
    have h := (hs.backlog_lt_or_passes hfilled hl hstep).resolve_left (by omega)
    have hn := step_nStages hstep
    have hhelper := State.helper_congr hn h.work h.release
    obtain ⟨⟨hpos, _⟩, _⟩ := State.helper_spec hwork
    have hrole : s'.role s.helper = s.role s.helper := by rw [State.role, State.role, hn]
    have hturn : l.unit = some s.helper → s'.rank < s.rank := by
      intro hunit
      cases l with
      | worker u a =>
          obtain rfl := Option.some.inj hunit
          rw [State.rank, State.rank, hhelper, hrole]
          exact h.away _ a hpos rfl (hs.unhindered hnonempty hwork (hl (Nat.ne_of_gt hpos)))
      | call | controller | waiter => cases hunit
    refine ⟨hhelper, ?_, hturn⟩
    by_cases hunit : l.unit = some s.helper
    · exact Nat.le_of_lt (hturn hunit)
    · rw [State.rank, State.rank, hhelper, hrole, h.others _ hpos hunit]

end Finished

/-! ## The flags -/

/-- How far a thread that finds nothing is from setting its flag. -/
def Pc.toFlag : Pc → Nat
  | .test => 5
  | .gate => 4
  | .recheck => 3
  | .push | .putBack => 2
  | .acquire => 1
  | _ => 0

/-- A thread with nothing to do sets its flag, or gets closer to it. -/
theorem Move.toFlag {role : Role} {a : Answer V σ} {v v' : View V σ} (hmove : Move role a v v')
    (hrole : role ≠ .source) (hv : Supplied role v)
    (hwork : v.impl.work role v.inputPipe.fifo.length = 0) (hsem : v.inputPipe.semaphore = 0)
    (htaken : v.impl.pc.taken = 0) :
    v'.impl.done = true ∨
      (v'.impl.done = v.impl.done ∧ v'.impl.pc.toFlag < v.impl.pc.toFlag) := by
  obtain ⟨hqueued, hpull, hinput, hpush⟩ := Impl.of_work_eq_zero hwork
  have hphase := hv.phase
  have hstage (hsink : role ≠ .sink) : v.impl.readyToPush = false := by
    cases role
    case stage => exact hpush rfl
    all_goals contradiction
  -- behind a successful pull there is something to do
  have hpulled (h : v.impl.pc = .getEmpty ∨ v.impl.pc = .process ∨ v.impl.pc = .callback) :
      False := by
    rcases h with h | h | h <;> simp only [Impl.Phase, h] at hphase <;>
      exact Bool.false_ne_true ((hphase hrole).2.symm.trans hpull)
  cases hmove
  case goto hgoto =>
    refine .inr ⟨rfl, ?_⟩
    cases hgoto
    case leave hdestroyed => simp [hv.alive] at hdestroyed
    case enter h _ => cases role <;> simp [h, Pc.toFlag, View.goto, Role.entry]
    case pushRefused hsink _ hready _ _ => simp [hstage hsink] at hready
    case skipPush h _ => cases role <;> simp_all [Pc.toFlag, View.goto, Role.afterPush]
    case hasOutput h _ _ | starve h _ => exact (hpulled (by simp [h])).elim
    all_goals simp_all [Pc.toFlag, View.goto]
  case flagged => exact .inl rfl
  case pushed hsink _ hready _ _ => simp [hstage hsink] at hready
  case released hsink h =>
    simp only [Impl.Phase, h] at hphase
    simp [hstage hsink] at hphase
  case acquired hpos => omega
  case unflagged h | gotNone h _ | compensated h => simp [h, Pc.taken] at htaken
  case gotFull hfifo => simp [hfifo] at hqueued
  case asked h _ => exact (hpulled (by rcases h with ⟨_, h⟩ | ⟨_, h⟩ <;> simp [h])).elim
  case gotOutput h _ _ _ | noOutput h _ _ _ | invoked h _ _ | returned h _ =>
    exact (hpulled (by simp [h])).elim
  case finishing | finished => contradiction
  case recycled h | putBack h _ => simp_all

theorem Finished.flag_step {s₀ s s' : State V σ} {l : Label V σ} (hs : Finished s₀ s)
    (hfilled : ∀ u ≤ s₀.nStages, Filled (s₀.pipes (u + 1))) (hnothing : s.backlog = 0) {u : Nat}
    (hpos : 1 ≤ u) (hu : u ≤ s₀.nStages + 1) (hl : Attended s l)
    (hstep : Pipeline.step s l = some s') :
    (l.unit ≠ some u ∧ s'.impls u = s.impls u) ∨ (s'.impls u).done = true ∨
      ((s'.impls u).done = (s.impls u).done ∧
        (s'.impls u).pc.toFlag < (s.impls u).pc.toFlag) := by
  cases l with
  | worker w a =>
      obtain ⟨_, v, hmove, rfl⟩ := step_worker hstep
      by_cases hself : w = u
      · subst hself
        obtain ⟨k, rfl⟩ := Nat.exists_eq_add_of_le' hpos
        rw [← hs.session.own.nStages] at hu
        have hwork := State.backlog_eq_zero_iff.mp hnothing (k + 1) hpos hu
        have hbalance := hs.session.balanced k (Nat.le_of_succ_le_succ hu)
        have hqueued := (Impl.of_work_eq_zero hwork).1
        rw [State.putView_impls_self]
        exact .inr (hmove.toFlag (mt State.role_eq_source.mp (Nat.succ_ne_zero k))
          (hs.session.supplied hfilled hpos hu hmove.not_resting) hwork
          (by simp only [State.view]; omega) (by simp only [State.view]; omega))
      · exact .inl ⟨by simpa [Label.unit] using hself,
          State.putView_impls_of_ne _ _ _ (Ne.symm hself)⟩
  | call => exact hl.elim
  | controller => simp [Pipeline.step, State.controllerStep, hs.idle] at hstep
  | waiter =>
      cases hstep
      exact .inl ⟨by rintro ⟨⟩, rfl⟩

/-- Once there is nothing to do, the thread of a unit is the one that sets its flag,
and the flag stays set. -/
theorem Finished.flag_helped {s₀ : State V σ}
    (hfilled : ∀ u ≤ s₀.nStages, Filled (s₀.pipes (u + 1)))
    (hnonempty : ∀ u ≤ s₀.nStages, (s₀.pipes (u + 1)).pool ≠ []) {u : Nat} (hpos : 1 ≤ u)
    (hu : u ≤ s₀.nStages + 1) :
    Helped Pipeline.step Label.unit (fun s => Finished s₀ s ∧ s.backlog = 0)
      (Attended (V := V) (σ := σ)) (fun s => if (s.impls u).done then 0 else 1)
      (fun s => (s.impls u).pc.toFlag) (fun _ => u) where
  invariant := by
    intro s l s' hs hl hstep
    have hle := (Finished.helped hfilled hnonempty).measure_le s l s' hs.1 hl hstep
    exact ⟨hs.1.step hfilled hl hstep, Nat.le_zero.mp (hs.2 ▸ hle)⟩
  measure_le := by
    intro s l s' hs hl hstep
    rcases hs.1.flag_step hfilled hs.2 hpos hu hl hstep with ⟨_, heq⟩ | heq | ⟨heq, _⟩ <;>
      simp [heq]
  kept := by
    intro s l s' hs hl hstep hsame hunset
    rcases hs.1.flag_step hfilled hs.2 hpos hu hl hstep with ⟨hne, heq⟩ | heq | ⟨_, hlt⟩
    · exact ⟨rfl, by rw [heq], fun h => absurd h hne⟩
    · simp only [heq, if_true] at hsame
      exact absurd hsame.symm hunset
    · exact ⟨rfl, Nat.le_of_lt hlt, fun _ => hlt⟩

/-! ## The waiter -/

/-- How many steps a waiter is from the end of `mtdp_pipeline_wait`, if it finds every
flag set. -/
def Waiter.left (n : Nat) : Waiter → Nat
  | .returned .ok => 0
  | .loading u => n + 2 - u
  | .waiting u => n + 3 + (n + 2 - u)
  | .atEnabled => 2 * n + 6
  | .atDestroying => 2 * n + 7
  | .outside | .returned _ => 2 * n + 8

theorem Waiter.left_le {n : Nat} (w : Waiter) : w.left n ≤ 2 * n + 8 := by
  unfold left
  split <;> omega

/-- **The waiter comes back** from a pipeline whose flags are all set. -/
theorem waiter_returns {s : State V σ} (henabled : s.enabled = true)
    (hdone : ∀ u ≤ s.nStages + 1, (s.impls u).done = true) (hrange : WaiterInRange s) :
    ∃ k ≤ s.waiter.left s.nStages, ∃ t, run step s (List.replicate k .waiter) = some t ∧
      t.waiter = .returned .ok := by
  induction hleft : s.waiter.left s.nStages using Nat.strong_induction_on generalizing s with
  | _ left ih =>
      by_cases hok : s.waiter = .returned .ok
      · exact ⟨0, Nat.zero_le _, s, rfl, hok⟩
      · have hlower : s.waiterStep.waiter.left s.nStages < s.waiter.left s.nStages := by
          cases hw : s.waiter with
          | outside | atDestroying => simp [State.waiterStep, hw, Waiter.left]
          | atEnabled => simp [State.waiterStep, hw, henabled, Waiter.left]; omega
          | waiting u =>
              simp only [State.waiterStep, hw]
              split <;> simp only [Waiter.left] <;> omega
          | loading u =>
              have hu := hrange u hw
              simp only [State.waiterStep, hw, hdone u hu, if_true]
              split <;> simp only [Waiter.left] <;> omega
          | returned e =>
              simp only [State.waiterStep, hw, Waiter.left]
              cases e
              case ok => exact absurd hw hok
              all_goals simp
        obtain ⟨k, hk, t, hrun, ht⟩ := ih _ (hleft ▸ hlower) (s := s.waiterStep) henabled hdone
          (step_waiterInRange hrange .wait) rfl
        have hk : k ≤ s.waiterStep.waiter.left s.nStages := hk
        refine ⟨k + 1, by omega, t, ?_, ht⟩
        rw [List.replicate_succ]
        exact run_cons.mpr ⟨s.waiterStep, rfl, hrun⟩

/-! ## Whole runs -/

/-- What a session has come to when the source has finished. -/
theorem Created.finished {s₀ s : State V σ} {ls : List (Label V σ)} (hs₀ : Created s₀)
    (hfilled : ∀ u ≤ s₀.nStages, Filled (s₀.pipes (u + 1)))
    (hsession : .call .disable ∉ ls) (hrun : run step s₀ ls = some s)
    (hidle : s.controller = .idle) (hactive : s.active = true)
    (hfinished : (s.impls 0).destroyed = true) : Finished s₀ s := by
  obtain ⟨hinv, hsource, hwaiter⟩ := session_run
    (Q := fun _ l => l ≠ .call .disable)
    (motive := fun _ s => SessionInv s₀ s ∧ (s.impls 0).SourceDone ∧ WaiterInRange s) hs₀
    ⟨hs₀.sessionInv, ⟨by simp [hs₀.pc], by simp [hs₀.workerDestroyed]⟩,
      fun u hu => by simp [hs₀.waiter] at hu⟩
    (fun _ _ _ _ _ hs hl hstep _ heffect => ⟨step_sessionInv hs.1 hfilled hl hstep,
      step_sourceDone hs.2.1 heffect, step_waiterInRange hs.2.2 heffect⟩)
    hsession (takes_of_mem fun l hl _ heq => hsession (heq ▸ hl)) hrun
  exact ⟨hinv, hsource, hwaiter, hidle, hactive, hfinished⟩

/-- **A finished pipeline drains.**  Take any run of a session of a freshly created
pipeline in which every pipe has a buffer, up to a state in which it is active, in no
call, and `mtdp_source_finished` has been called.  From there take any run in rounds,
in each of which every thread behind the source makes 15 steps, in whatever order: no
call is made, memory is there, acquires time out for want of a token only, and
callbacks consume their inputs.  If there are more rounds than the work weighs, then
everything has gone through the sink, every flag is set, and wherever a thread is in
`mtdp_pipeline_wait`, it comes back. -/
theorem finished_pipeline_drains {s₀ s t : State V σ} {ls : List (Label V σ)}
    {rounds : List (List (Label V σ))} (hs₀ : Created s₀)
    (hfilled : ∀ u ≤ s₀.nStages, Filled (s₀.pipes (u + 1)))
    (hnonempty : ∀ u ≤ s₀.nStages, (s₀.pipes (u + 1)).pool ≠ [])
    (hsession : .call .disable ∉ ls) (hrun : run step s₀ ls = some s)
    (hidle : s.controller = .idle) (hactive : s.active = true)
    (hfinished : (s.impls 0).destroyed = true)
    (hrounds : ∀ round ∈ rounds, ∀ u, 1 ≤ u → u ≤ s.nStages + 1 → 15 ≤ turns Label.unit u round)
    (hcount : s.backlog < rounds.length) (hattended : Takes step Attended s rounds.flatten)
    (hfair : run step s rounds.flatten = some t) :
    Drained t ∧ (∀ u ≤ t.nStages + 1, (t.impls u).done = true) ∧
      ∃ k ≤ 2 * t.nStages + 8, ∃ t', run step t (List.replicate k .waiter) = some t' ∧
        t'.waiter = .returned .ok := by
  have hs := hs₀.finished hfilled hsession hrun hidle hactive hfinished
  have hn := hs.session.own.nStages
  have hturns : ∀ round ∈ rounds, ∀ u, (1 ≤ u ∧ u ≤ s₀.nStages + 1) →
      15 ≤ turns Label.unit u round :=
    fun round hround u hu => hrounds round hround u hu.1 (hn ▸ hu.2)
  rw [← List.take_append_drop s.backlog rounds, List.flatten_append] at hattended hfair
  obtain ⟨m, hfirst, hlast⟩ := run_append.mp hfair
  rw [takes_append hfirst] at hattended
  -- the first rounds bring the weight down to zero
  have hdrained : Finished s₀ m ∧ m.backlog = 0 := by
    refine (Finished.helped hfilled hnonempty).rounds
      (fun u => 1 ≤ u ∧ u ≤ s₀.nStages + 1) (fun s' hs' hwork => ?_)
      (fun round hround => hturns round (List.mem_of_mem_take hround)) hs ?_ hattended.1 hfirst
    · obtain ⟨hrange, _⟩ := State.helper_spec hwork
      rw [hs'.session.own.nStages] at hrange
      exact ⟨hrange, Nat.lt_succ_of_le (Impl.away_le _ _)⟩
    · rw [List.length_take]
      omega
  -- and the last one sets the flags
  have hflag (u : Nat) (hpos : 1 ≤ u) (hu : u ≤ s₀.nStages + 1) :
      (Finished s₀ t ∧ t.backlog = 0) ∧ (if (t.impls u).done then 0 else 1) = 0 := by
    refine (Finished.flag_helped hfilled hnonempty hpos hu).rounds
      (k := 15) (fun u => 1 ≤ u ∧ u ≤ s₀.nStages + 1) (fun s' _ _ => ⟨⟨hpos, hu⟩, ?_⟩)
      (fun round hround => hturns round (List.mem_of_mem_drop hround)) hdrained ?_ hattended.2 hlast
    · cases (s'.impls u).pc <;> decide
    · rw [List.length_drop]
      split <;> omega
  obtain ⟨⟨ht, hnothing⟩, _⟩ := hflag 1 (Nat.le_refl 1) (by omega)
  have hdone : ∀ u ≤ t.nStages + 1, (t.impls u).done = true := by
    intro u hu
    by_cases hzero : u = 0
    · subst hzero
      exact (ht.source.2 ht.destroyed).1
    · rw [ht.session.own.nStages] at hu
      by_contra hunset
      have := (hflag u (by omega) hu).2
      rw [if_neg hunset] at this
      cases this
  have hgates := ht.session.gates
  simp only [GatesOpen, ht.idle] at hgates
  obtain ⟨k, hk, t', hback, hreturned⟩ := waiter_returns (hgates ht.active).1 hdone ht.waiter
  refine ⟨drained_of_work_eq_zero (State.backlog_eq_zero_iff.mp hnothing), hdone, k, ?_, t', hback,
    hreturned⟩
  exact Nat.le_trans hk (Waiter.left_le _)

instance (v : View V σ) (a : Answer V σ) : Decidable (Prompt v a) :=
  match hcallback : a.callback with
  | .finish =>
      decidable_of_iff ((v.impl.pc = .push → a.ok = true) ∧
          (v.impl.pc = .acquire → a.ok = false → v.inputPipe.semaphore = 0) ∧
          v.impl.pc ≠ .callback)
        ⟨fun h => ⟨h.1, h.2.1, fun hpc => absurd hpc h.2.2⟩,
          fun h => ⟨h.push, h.acquire, fun hpc => by
            obtain ⟨_, hret, _⟩ := h.callback hpc
            rw [hcallback] at hret
            cases hret⟩⟩
  | .ret r =>
      decidable_of_iff ((v.impl.pc = .push → a.ok = true) ∧
          (v.impl.pc = .acquire → a.ok = false → v.inputPipe.semaphore = 0) ∧
          (v.impl.pc = .callback → r.readyToPull = true))
        ⟨fun h => ⟨h.1, h.2.1, fun hpc => ⟨r, hcallback, h.2.2 hpc⟩⟩,
          fun h => ⟨h.push, h.acquire, fun hpc => by
            obtain ⟨_, hret, hpull⟩ := h.callback hpc
            rw [hcallback] at hret
            cases hret
            exact hpull⟩⟩

instance (s : State V σ) : (l : Label V σ) → Decidable (Attended s l)
  | .worker u a => inferInstanceAs (Decidable (u ≠ 0 → Prompt (s.view u) a))
  | .call _ => .isFalse id
  | .controller _ => .isTrue trivial
  | .waiter => .isTrue trivial

/-- The source pushes one buffer and finishes. -/
def pushedAndFinished : List (Label Unit Unit) :=
  enableAndStart ++ threadSteps 0 14 true true false ++ [.worker 0 ⟨true, (), .finish⟩] ++
    threadSteps 0 1 true false false

/-- The sink takes the buffer in the first round and times out in the others. -/
def sinkRounds : List (List (Label Unit Unit)) :=
  (threadSteps 1 13 true false true ++ threadSteps 1 2 false false true) ::
    List.replicate 4 (threadSteps 1 15 false false true)

theorem finished_pipeline_drains_pushedAndFinished :
    Drained ((run step ((run step smallest pushedAndFinished).get (by decide))
      sinkRounds.flatten).get (by decide)) := by
  have hrounds : ∀ round ∈ sinkRounds, ∀ u, 1 ≤ u → u ≤ 0 + 1 →
      15 ≤ turns Label.unit u round := by
    intro round hround u hpos hu
    obtain rfl : u = 1 := by omega
    revert round
    decide
  exact (finished_pipeline_drains smallest_created
    (fun u _ => smallestOf_filled () () (u + 1)) (fun _ _ => by rintro ⟨⟩)
    (by simp [pushedAndFinished, enableAndStart, controllerSteps, threadSteps])
    (Option.some_get _).symm (by decide) (by decide) (by decide) hrounds (by decide)
    (by decide +kernel) (Option.some_get _).symm).1

end Mtdp.Pipeline
