import Mtdp.Pipeline.Shape

/-!
# One enabled session

Runs of a freshly created pipeline without a disable call.  Every thread is
created once, and apart from creating them the controller only sets and
clears `worker.enabled`.

## Main results

* `step_session` — a session stays one; the steps are those of
  `SessionStep`.
* `session_run` — induction on the runs of a session.
-/

namespace Mtdp.Pipeline

open Lib.Transition

variable {V σ : Type}

/-- No disable call has been made; which threads are still missing. -/
def Session (s : State V σ) : Prop :=
  match s.controller with
  | .idle => s.enabled = false → ∀ u ≤ s.nStages + 1, (s.impls u).pc = .absent
  | .enabling left =>
      s.enabled = false ∧ left ≤ s.nStages + 2 ∧ ∀ u < left, (s.impls u).pc = .absent
  | .starting _ => s.enabled = true
  | .stopping _ => s.enabled = true
  | _ => False

/-- A step of a session, by what it does to the threads, the pipes and the
waiter. -/
inductive SessionStep (s : State V σ) : Label V σ → State V σ → Prop
  | worker {u : Nat} {a : Answer V σ} {v : View V σ} : u ≤ s.nStages + 1 →
      Move (s.role u) a (s.view u) v → SessionStep s (.worker u a) (s.putView u v)
  | create {allocated : Nat → Bool} {u : Nat} {s' : State V σ} : u ≤ s.nStages + 1 →
      (s.impls u).pc = .absent → s'.nStages = s.nStages → s'.pipes = s.pipes →
      s'.impls = Function.update s.impls u ((s.role u).createThread (s.impls u)) →
      (s.enabled = true → s'.enabled = true) → s'.waiter = s.waiter →
      SessionStep s (.controller allocated) s'
  | flags {l : Label V σ} {s' : State V σ} : (∀ u a, l ≠ .worker u a) → s'.nStages = s.nStages →
      s'.pipes = s.pipes → (∀ u, ∃ enabled, s'.impls u = { s.impls u with enabled }) →
      (s.enabled = true → s'.enabled = true) → s'.waiter = s.waiter → SessionStep s l s'
  | wait : SessionStep s .waiter s.waiterStep

theorem Created.session {s : State V σ} (hs : Created s) : Session s := by
  rw [Session, hs.controller]
  exact fun _ u _ => hs.pc u

theorem beginCall_session {s : State V σ} (hs : Session s) (hidle : s.controller = .idle)
    {c : Call} (hc : c ≠ .disable) :
    Session (s.beginCall c) ∧ SessionStep s (.call c) (s.beginCall c) := by
  rw [Session, hidle] at hs
  rcases s.beginCall_cases c with ⟨e, _, _, heq⟩ | ⟨_, henabled, heq⟩ | ⟨_, henabled, _, heq⟩ |
    ⟨_, henabled, _, heq⟩ | ⟨rfl, _⟩
  case inr.inr.inr.inr => exact absurd rfl hc
  all_goals
    rw [heq]
    refine ⟨?_, .flags nofun rfl rfl (fun u => ⟨(s.impls u).enabled, rfl⟩) id rfl⟩
  · exact hs
  · exact ⟨henabled, Nat.le_refl _, fun u hu => hs henabled u (Nat.le_of_lt_succ hu)⟩
  · exact henabled
  · exact henabled

theorem controllerStep_session {s s' : State V σ} {allocated : Nat → Bool} (hs : Session s)
    (hstep : s.controllerStep allocated = some s') :
    Session s' ∧ SessionStep s (.controller allocated) s' := by
  have hflags (u : Nat) (enabled : Bool) (w : Nat) :
      ∃ e, (s.setImpl u { s.impls u with enabled }).impls w = { s.impls w with enabled := e } := by
    by_cases hne : w = u
    · subst hne
      exact ⟨enabled, by simp⟩
    · exact ⟨(s.impls w).enabled, by simp [hne]⟩
  have hsame (w : Nat) : ∃ enabled, s.impls w = { s.impls w with enabled } := ⟨_, rfl⟩
  cases controllerStep_move hstep <;> rename_i hcontroller <;>
    simp only [Session, hcontroller] at hs
  case create left =>
    obtain ⟨henabled, hle, habsent⟩ := hs
    refine ⟨⟨henabled, Nat.le_of_succ_le hle, fun u hu => ?_⟩,
      .create (Nat.le_of_succ_le_succ hle) (habsent left (Nat.lt_succ_self _)) rfl rfl rfl id rfl⟩
    have hne : u ≠ left := by omega
    simpa [hne] using habsent u (by omega)
  case enabled => exact ⟨nofun, .flags nofun rfl rfl hsame (fun _ => rfl) rfl⟩
  case start left => exact ⟨hs, .flags nofun rfl rfl (hflags left true) id rfl⟩
  case stop u _ => exact ⟨hs, .flags nofun rfl rfl (hflags u false) id rfl⟩
  case started | stopped =>
    exact ⟨by simp [Session, State.report, hs], .flags nofun rfl rfl hsame id rfl⟩

/-- Without a disable call, a session goes on. -/
theorem step_session {s s' : State V σ} {l : Label V σ} (hs : Session s)
    (hl : l ≠ .call .disable) (hstep : step s l = some s') :
    Session s' ∧ SessionStep s l s' := by
  cases l with
  | worker u a =>
      obtain ⟨_, hcontroller, henabled, hframe⟩ := step_worker_frame hstep
      obtain ⟨hu, v, hmove, rfl⟩ := step_worker hstep
      refine ⟨?_, .worker hu hmove⟩
      have habsent {w : Nat} (hw : (s.impls w).pc = .absent) :
          ((s.putView u v).impls w).pc = .absent := by
        rw [hframe w (.inl hw)]
        exact hw
      unfold Session at hs ⊢
      rw [hcontroller]
      cases hc : s.controller <;> simp only [hc] at hs ⊢
      case idle => exact fun h w hw => habsent (hs h w hw)
      case enabling => exact ⟨hs.1, hs.2.1, fun w hw => habsent (hs.2.2 w hw)⟩
      all_goals exact hs
  | call c =>
      simp only [step] at hstep
      split at hstep <;> cases hstep
      exact beginCall_session hs ‹_› fun h => hl (h ▸ rfl)
  | controller allocated => exact controllerStep_session hs hstep
  | waiter =>
      cases hstep
      exact ⟨hs, .wait⟩

/-- Induction on the runs of a session whose steps satisfy `Q`. -/
theorem session_run {s₀ t : State V σ} {ls : List (Label V σ)}
    {Q : State V σ → Label V σ → Prop} {motive : List (Label V σ) → State V σ → Prop}
    (hs : Created s₀) (hnil : motive [] s₀)
    (hsnoc : ∀ ls l s s', run step s₀ ls = some s → motive ls s → Q s l → step s l = some s' →
      Session s → SessionStep s l s' → motive (ls ++ [l]) s')
    (hsession : .call .disable ∉ ls) (htakes : Takes step Q s₀ ls)
    (hrun : run step s₀ ls = some t) : motive ls t := by
  suffices h : .call .disable ∉ ls → Takes step Q s₀ ls → Session t ∧ motive ls t from
    (h hsession htakes).2
  clear hsession htakes
  refine run_snoc_induction (motive := fun ls t => .call .disable ∉ ls → Takes step Q s₀ ls →
    Session t ∧ motive ls t) (fun _ _ => ⟨hs.session, hnil⟩) ?_ hrun
  intro ls l s s' hrun ih hstep hsession htakes
  simp only [List.mem_append, List.mem_singleton, not_or] at hsession
  rw [takes_append hrun] at htakes
  obtain ⟨hs, hmotive⟩ := ih hsession.1 htakes.1
  obtain ⟨hs', heffect⟩ := step_session hs (Ne.symm hsession.2) hstep
  exact ⟨hs', hsnoc ls l s s' hrun hmotive htakes.2.1 hstep hs heffect⟩

end Mtdp.Pipeline
