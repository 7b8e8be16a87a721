import Mathlib.Data.List.Forall2

/-!
# Labelled transition systems with executable steps

A system is a partial function from a state and a label to the next state;
the label says which component moves and how the environment answers it.  A
run follows a list of labels.  Invariants are carried along a run by the
rules below, one of which characterises the runs that never leave a set of
states by the steps they may take.

## Main results

* `run_invariant`, `run_invariant_of_takes` — what every step preserves
  holds at the end of every run.
* `visits_iff_takes` — the runs that stay inside `P` are those whose steps
  satisfy `Q`.
* `run_snoc_induction` — induction on the last step of a run.
* `observe_length_le` — how often something can be observed along a run.
* `run_simulates`, `run_forward` — what a system looks like from a more abstract
  one.
* `peak_le_iff` — the largest value of a measure along a run.
-/

namespace Mtdp.Lib.Transition

universe u v w x y

variable {S : Type u} {L : Type v} {O : Type w} {step : S → L → Option S}

/-- Follow a list of labels. -/
def run (step : S → L → Option S) : S → List L → Option S
  | s, [] => some s
  | s, l :: ls => (step s l).bind fun s' => run step s' ls

/-- Every state of the run satisfies `P`, the first and the last included. -/
def Visits (step : S → L → Option S) (P : S → Prop) : S → List L → Prop
  | s, [] => P s
  | s, l :: ls => P s ∧ ∀ s', step s l = some s' → Visits step P s' ls

/-- Every step of the run satisfies `Q`, which sees the state before it. -/
def Takes (step : S → L → Option S) (Q : S → L → Prop) : S → List L → Prop
  | _, [] => True
  | s, l :: ls => Q s l ∧ ∀ s', step s l = some s' → Takes step Q s' ls

instance Takes.decidable {Q : S → L → Prop} [∀ s l, Decidable (Q s l)] :
    (s : S) → (ls : List L) → Decidable (Takes step Q s ls)
  | _, [] => .isTrue trivial
  | s, l :: ls =>
      match hstep : step s l with
      | none => decidable_of_iff (Q s l) (by simp [Takes, hstep])
      | some s' =>
          have : Decidable (Takes step Q s' ls) := Takes.decidable s' ls
          decidable_of_iff (Q s l ∧ Takes step Q s' ls) (by simp [Takes, hstep])

/-- What an observer notes down along the run, step by step. -/
def observe (step : S → L → Option S) (obs : S → L → List O) : S → List L → List O
  | _, [] => []
  | s, l :: ls => obs s l ++ (step s l).elim [] fun s' => observe step obs s' ls

theorem run_cons {s t : S} {l : L} {ls : List L} :
    run step s (l :: ls) = some t ↔ ∃ s', step s l = some s' ∧ run step s' ls = some t := by
  simp [run, Option.bind_eq_some_iff]

theorem run_append {s t : S} {ls ls' : List L} :
    run step s (ls ++ ls') = some t ↔ ∃ s', run step s ls = some s' ∧ run step s' ls' = some t := by
  induction ls generalizing s with
  | nil => simp [run]
  | cons l ls ih =>
      simp only [List.cons_append, run_cons, ih]
      constructor
      · rintro ⟨s₁, hstep, s₂, hrun, hrest⟩
        exact ⟨s₂, ⟨s₁, hstep, hrun⟩, hrest⟩
      · rintro ⟨s₂, ⟨s₁, hstep, hrun⟩, hrest⟩
        exact ⟨s₁, hstep, s₂, hrun, hrest⟩

theorem run_snoc {s t : S} {ls : List L} {l : L} :
    run step s (ls ++ [l]) = some t ↔ ∃ s', run step s ls = some s' ∧ step s' l = some t := by
  simp [run_append, run]

theorem takes_append {Q : S → L → Prop} {s t : S} {ls ls' : List L}
    (hrun : run step s ls = some t) :
    Takes step Q s (ls ++ ls') ↔ Takes step Q s ls ∧ Takes step Q t ls' := by
  induction ls generalizing s with
  | nil =>
      cases hrun
      simp [Takes]
  | cons l ls ih =>
      obtain ⟨s', hstep, hrun⟩ := run_cons.mp hrun
      simp [Takes, hstep, ih hrun, and_assoc]

theorem observe_append {obs : S → L → List O} {s t : S} {ls ls' : List L}
    (hrun : run step s ls = some t) :
    observe step obs s (ls ++ ls') = observe step obs s ls ++ observe step obs t ls' := by
  induction ls generalizing s with
  | nil =>
      cases hrun
      rfl
  | cons l ls ih =>
      obtain ⟨s', hstep, hrun⟩ := run_cons.mp hrun
      simp [observe, hstep, ih hrun, List.append_assoc]

theorem observe_snoc {obs : S → L → List O} {s t : S} {ls : List L} {l : L}
    (hrun : run step s ls = some t) :
    observe step obs s (ls ++ [l]) = observe step obs s ls ++ obs t l := by
  rw [observe_append hrun]
  cases hstep : step t l <;> simp [observe, hstep]

/-- What is left of an observation. -/
theorem observe_filter {obs : S → L → List O} {p : O → Bool} {s : S} {ls : List L} :
    observe step (fun s l => (obs s l).filter p) s ls = (observe step obs s ls).filter p := by
  induction ls generalizing s with
  | nil => rfl
  | cons l ls ih => cases hstep : step s l <;> simp [observe, hstep, ih]

/-- What was observed, was observed at a step. -/
theorem mem_observe {obs : S → L → List O} {s : S} {ls : List L} {o : O}
    (h : o ∈ observe step obs s ls) :
    ∃ s, ∃ l ∈ ls, o ∈ obs s l := by
  induction ls generalizing s with
  | nil => cases h
  | cons l ls ih =>
      rw [observe] at h
      rcases List.mem_append.mp h with hnow | hlater
      · exact ⟨s, l, List.mem_cons_self, hnow⟩
      · cases hnext : step s l with
        | none =>
            rw [hnext] at hlater
            cases hlater
        | some s' =>
            rw [hnext] at hlater
            obtain ⟨s'', l', hl', ho⟩ := ih hlater
            exact ⟨s'', l', List.mem_cons_of_mem l hl', ho⟩

/-! ## Invariants -/

/-- Conditions on the labels alone. -/
theorem takes_of_mem {Q : S → L → Prop} {s : S} {ls : List L} (h : ∀ l ∈ ls, ∀ s, Q s l) :
    Takes step Q s ls := by
  induction ls generalizing s with
  | nil => trivial
  | cons l ls ih =>
      exact ⟨h l (by simp) s, fun s' _ => ih fun l' hl' => h l' (List.mem_cons_of_mem l hl')⟩

/-- What every step satisfying `Q` preserves survives a run of such steps. -/
theorem run_invariant_of_takes {I : S → Prop} {Q : S → L → Prop}
    (hstep : ∀ s l s', I s → Q s l → step s l = some s' → I s') {ls : List L} {s t : S}
    (hs : I s) (htakes : Takes step Q s ls) (hrun : run step s ls = some t) : I t := by
  induction ls generalizing s with
  | nil =>
      cases hrun
      exact hs
  | cons l ls ih =>
      obtain ⟨s', hnext, hrun⟩ := run_cons.mp hrun
      exact ih (hstep s l s' hs htakes.1 hnext) (htakes.2 s' hnext) hrun

/-- What every step preserves survives every run. -/
theorem run_invariant {I : S → Prop} (hstep : ∀ s l s', I s → step s l = some s' → I s')
    {ls : List L} {s t : S} (hs : I s) (hrun : run step s ls = some t) : I t := by
  apply run_invariant_of_takes (Q := fun _ _ => True) _ hs (takes_of_mem fun _ _ _ => trivial) hrun
  intro s l s' hs _ hnext
  exact hstep s l s' hs hnext

/-- Induction on the last step of a run from `s₀`. -/
theorem run_snoc_induction {s₀ : S} {motive : List L → S → Prop} (hnil : motive [] s₀)
    (hsnoc : ∀ ls l s t, run step s₀ ls = some s → motive ls s → step s l = some t →
      motive (ls ++ [l]) t) {ls : List L} {t : S} (hrun : run step s₀ ls = some t) :
    motive ls t := by
  suffices h : ∀ (ls done : List L) (s t : S), run step s₀ done = some s → motive done s →
      run step s ls = some t → motive (done ++ ls) t by
    simpa using h ls [] s₀ t rfl hnil hrun
  intro ls
  induction ls with
  | nil =>
      intro done s t _ hmotive hrun
      cases hrun
      simpa using hmotive
  | cons l ls ih =>
      intro done s t hdone hmotive hrun
      obtain ⟨s', hnext, hrun⟩ := run_cons.mp hrun
      have := ih (done ++ [l]) s' t (run_snoc.mpr ⟨s, hdone, hnext⟩)
        (hsnoc done l s s' hdone hmotive hnext) hrun
      simpa using this

/-- Let `G` say that no debt is outstanding.  If, from a state in `P`, a step
leads back to `P` without debt exactly when there was none before and the
step satisfies `Q`, then a run that ends without debt stays in `P` exactly
when its steps satisfy `Q`.  `R` holds of the steps of the run in any case. -/
theorem visits_iff_takes {I P G : S → Prop} {Q R : S → L → Prop}
    (hinv : ∀ s l s', I s → P s → R s l → step s l = some s' → P s' → I s')
    (hstep : ∀ s l s', I s → P s → R s l → step s l = some s' → (P s' ∧ G s' ↔ Q s l ∧ G s))
    {ls : List L} {s t : S} (hs : I s) (hP : P s) (hG : G s) (hend : I t → P t → G t)
    (hR : Takes step R s ls) (hrun : run step s ls = some t) :
    Visits step P s ls ↔ Takes step Q s ls := by
  suffices h : ∀ (ls : List L) (s : S), I s → P s → Takes step R s ls →
      run step s ls = some t → (Visits step P s ls ↔ Takes step Q s ls ∧ G s) by
    rw [h ls s hs hP hR hrun, and_iff_left hG]
  intro ls
  induction ls with
  | nil =>
      intro s hs hP _ hrun
      cases hrun
      simp [Visits, Takes, hP, hend hs hP]
  | cons l ls ih =>
      intro s hs hP hR hrun
      obtain ⟨s', hnext, hrun⟩ := run_cons.mp hrun
      have hiff := hstep s l s' hs hP hR.1 hnext
      have hinv' := hinv s l s' hs hP hR.1 hnext
      have hR' := hR.2 s' hnext
      simp only [Visits, Takes, hP, true_and, hnext, Option.some.injEq, forall_eq']
      constructor
      · intro hvisits
        have hP' : P s' := by
          cases ls with
          | nil => exact hvisits
          | cons l' ls' => exact hvisits.1
        obtain ⟨htakes, hG'⟩ := (ih s' (hinv' hP') hP' hR' hrun).mp hvisits
        obtain ⟨hQ, hG⟩ := hiff.mp ⟨hP', hG'⟩
        exact ⟨⟨hQ, htakes⟩, hG⟩
      · rintro ⟨⟨hQ, htakes⟩, hG⟩
        obtain ⟨hP', hG'⟩ := hiff.mpr ⟨hQ, hG⟩
        exact (ih s' (hinv' hP') hP' hR' hrun).mpr ⟨htakes, hG'⟩

theorem Takes.and {Q Q' : S → L → Prop} {s : S} {ls : List L} (h : Takes step Q s ls)
    (h' : Takes step Q' s ls) : Takes step (fun s l => Q s l ∧ Q' s l) s ls := by
  induction ls generalizing s with
  | nil => trivial
  | cons l ls ih => exact ⟨⟨h.1, h'.1⟩, fun s' hnext => ih (h.2 s' hnext) (h'.2 s' hnext)⟩

/-- Steps that satisfy `Q` and keep the invariant have what the invariant
makes of `Q`. -/
theorem Takes.of_invariant {I : S → Prop} {Q Q' : S → L → Prop}
    (hstep : ∀ s l s', I s → Q s l → step s l = some s' → I s')
    (himp : ∀ s l, I s → Q s l → Q' s l) {s : S} {ls : List L} (hs : I s)
    (h : Takes step Q s ls) : Takes step Q' s ls := by
  induction ls generalizing s with
  | nil => trivial
  | cons l ls ih =>
      constructor
      · exact himp s l hs h.1
      · intro s' hnext
        exact ih (hstep s l s' hs h.1 hnext) (h.2 s' hnext)

/-- What the invariant alone makes of every step. -/
theorem takes_of_invariant {I : S → Prop} {Q : S → L → Prop}
    (hstep : ∀ s l s', I s → step s l = some s' → I s') (himp : ∀ s l, I s → Q s l)
    {s : S} {ls : List L} (hs : I s) : Takes step Q s ls := by
  apply Takes.of_invariant (Q := fun _ _ => True) _ _ hs (takes_of_mem fun _ _ _ => trivial)
  · intro s l s' hs _ hnext
    exact hstep s l s' hs hnext
  · intro s l hs _
    exact himp s l hs

/-- A run all of whose steps are defined has an end. -/
theorem Takes.run_eq_some {Q : S → L → Prop} (hdefined : ∀ s l, Q s l → ∃ s', step s l = some s')
    {s : S} {ls : List L} (h : Takes step Q s ls) : ∃ t, run step s ls = some t := by
  induction ls generalizing s with
  | nil => exact ⟨s, rfl⟩
  | cons l ls ih =>
      obtain ⟨s', hnext⟩ := hdefined s l h.1
      obtain ⟨t, hrun⟩ := ih (h.2 s' hnext)
      exact ⟨t, run_cons.mpr ⟨s', hnext, hrun⟩⟩

/-- The steps of a run inside `P` start in `P`. -/
theorem Visits.takes {P : S → Prop} {s : S} {ls : List L} (hvisits : Visits step P s ls) :
    Takes step (fun s _ => P s) s ls := by
  induction ls generalizing s with
  | nil => trivial
  | cons l ls ih => exact ⟨hvisits.1, fun s' hnext => ih (hvisits.2 s' hnext)⟩

/-- A state reached by part of a run is visited by the run. -/
theorem Visits.of_run_append {P : S → Prop} {s t : S} {ls ls' : List L}
    (hvisits : Visits step P s (ls ++ ls')) (hrun : run step s ls = some t) : P t := by
  induction ls generalizing s with
  | nil =>
      cases hrun
      cases ls' with
      | nil => exact hvisits
      | cons l ls' => exact hvisits.1
  | cons l ls ih =>
      obtain ⟨s', hnext, hrun⟩ := run_cons.mp hrun
      exact ih (hvisits.2 s' hnext) hrun

theorem Visits.of_run {P : S → Prop} {s t : S} {ls : List L} (hvisits : Visits step P s ls)
    (hrun : run step s ls = some t) : P t := by
  rw [← List.append_nil ls] at hvisits
  exact hvisits.of_run_append hrun

/-- A run visits states of `P` only, if every part of it ends in one. -/
theorem visits_of_run {P : S → Prop} {s : S} {ls : List L}
    (h : ∀ ls' ls'' t, ls = ls' ++ ls'' → run step s ls' = some t → P t) :
    Visits step P s ls := by
  induction ls generalizing s with
  | nil => exact h [] [] s rfl rfl
  | cons l ls ih =>
      refine ⟨h [] (l :: ls) s rfl rfl, fun s' hnext => ih fun ls' ls'' t heq hrun => ?_⟩
      exact h (l :: ls') ls'' t (by rw [heq]; rfl) (run_cons.mpr ⟨s', hnext, hrun⟩)

/-- What an observer notes down is paid for by a potential that no step raises. -/
theorem observe_length_le {I : S → Prop} {Q : S → L → Prop} {obs : S → L → List O}
    {potential : S → Nat}
    (hstep : ∀ s l s', I s → Q s l → step s l = some s' →
      I s' ∧ (obs s l).length + potential s' ≤ potential s)
    {ls : List L} {s t : S} (hs : I s) (htakes : Takes step Q s ls)
    (hrun : run step s ls = some t) :
    (observe step obs s ls).length + potential t ≤ potential s := by
  induction ls generalizing s with
  | nil =>
      cases hrun
      simp [observe]
  | cons l ls ih =>
      obtain ⟨s', hnext, hrun⟩ := run_cons.mp hrun
      obtain ⟨hs', hpaid⟩ := hstep s l s' hs htakes.1 hnext
      have hrest := ih hs' (htakes.2 s' hnext) hrun
      simp only [observe, hnext, Option.elim_some, List.length_append]
      omega

/-! ## Simulation -/

/-- A run is seen as a run of another system, if every step satisfying `Q` is seen
as one. -/
theorem run_simulates_of_takes {S' : Type x} {step' : S' → O → Option S'} {f : S → S'}
    {obs : S → L → List O} {I : S → Prop} {Q : S → L → Prop}
    (hstep : ∀ s l s', I s → Q s l → step s l = some s' →
      I s' ∧ run step' (f s) (obs s l) = some (f s'))
    {ls : List L} {s t : S} (hs : I s) (htakes : Takes step Q s ls)
    (hrun : run step s ls = some t) :
    run step' (f s) (observe step obs s ls) = some (f t) := by
  induction ls generalizing s with
  | nil =>
      cases hrun
      rfl
  | cons l ls ih =>
      obtain ⟨s', hnext, hrun⟩ := run_cons.mp hrun
      obtain ⟨hs', hseen⟩ := hstep s l s' hs htakes.1 hnext
      rw [observe, hnext]
      exact run_append.mpr ⟨f s', hseen, ih hs' (htakes.2 s' hnext) hrun⟩

/-- The run that is seen takes steps that satisfy `Q'`. -/
theorem takes_simulates {S' : Type x} {step' : S' → O → Option S'} {f : S → S'}
    {obs : S → L → List O} {I : S → Prop} {Q : S → L → Prop} {Q' : S' → O → Prop}
    (hstep : ∀ s l s', I s → Q s l → step s l = some s' →
      I s' ∧ run step' (f s) (obs s l) = some (f s'))
    (hsat : ∀ s l s', I s → Q s l → step s l = some s' → Takes step' Q' (f s) (obs s l))
    {ls : List L} {s t : S} (hs : I s) (htakes : Takes step Q s ls)
    (hrun : run step s ls = some t) : Takes step' Q' (f s) (observe step obs s ls) := by
  induction ls generalizing s with
  | nil => trivial
  | cons l ls ih =>
      obtain ⟨s', hnext, hrun⟩ := run_cons.mp hrun
      obtain ⟨hs', hseen⟩ := hstep s l s' hs htakes.1 hnext
      rw [observe, hnext]
      exact (takes_append hseen).mpr
        ⟨hsat s l s' hs htakes.1 hnext, ih hs' (htakes.2 s' hnext) hrun⟩

/-- What is observed of it is observed step by step. -/
theorem observe_simulates {S' : Type x} {O' : Type y} {step' : S' → O → Option S'} {f : S → S'}
    {obs : S → L → List O} {obs' : S' → O → List O'} {I : S → Prop} {Q : S → L → Prop}
    (hstep : ∀ s l s', I s → Q s l → step s l = some s' →
      I s' ∧ run step' (f s) (obs s l) = some (f s'))
    {ls : List L} {s t : S} (hs : I s) (htakes : Takes step Q s ls)
    (hrun : run step s ls = some t) :
    observe step' obs' (f s) (observe step obs s ls) =
      observe step (fun s l => observe step' obs' (f s) (obs s l)) s ls := by
  induction ls generalizing s with
  | nil => rfl
  | cons l ls ih =>
      obtain ⟨s', hnext, hrun⟩ := run_cons.mp hrun
      obtain ⟨hs', hseen⟩ := hstep s l s' hs htakes.1 hnext
      rw [observe, observe, hnext, Option.elim_some, Option.elim_some, observe_append hseen,
        ih hs' (htakes.2 s' hnext) hrun]

/-- The same for all steps. -/
theorem run_simulates {S' : Type x} {step' : S' → O → Option S'} {f : S → S'}
    {obs : S → L → List O} {I : S → Prop}
    (hstep : ∀ s l s', I s → step s l = some s' →
      I s' ∧ run step' (f s) (obs s l) = some (f s'))
    {ls : List L} {s t : S} (hs : I s) (hrun : run step s ls = some t) :
    run step' (f s) (observe step obs s ls) = some (f t) := by
  apply run_simulates_of_takes (Q := fun _ _ => True) _ hs (takes_of_mem fun _ _ _ => trivial) hrun
  intro s l s' hs _ hnext
  exact hstep s l s' hs hnext

/-- A run is followed by a run of another system, if every step is followed by one
that keeps the states related. -/
theorem run_forward {S' : Type x} {L' : Type y} {step' : S' → L' → Option S'}
    {R : S → S' → Prop} {Q : L → L' → Prop}
    (hstep : ∀ s s' l t, R s s' → step s l = some t →
      ∃ l' t', Q l l' ∧ step' s' l' = some t' ∧ R t t')
    {ls : List L} {s t : S} {s' : S'} (hs : R s s') (hrun : run step s ls = some t) :
    ∃ ls' t', List.Forall₂ Q ls ls' ∧ run step' s' ls' = some t' ∧ R t t' := by
  induction ls generalizing s s' with
  | nil =>
      cases hrun
      exact ⟨[], s', .nil, rfl, hs⟩
  | cons l ls ih =>
      obtain ⟨s₁, hnext, hrun⟩ := run_cons.mp hrun
      obtain ⟨l', s₁', hl, hnext', hs₁⟩ := hstep s s' l s₁ hs hnext
      obtain ⟨ls', t', hls, hrun', ht⟩ := ih hs₁ hrun
      exact ⟨l' :: ls', t', .cons hl hls, run_cons.mpr ⟨s₁', hnext', hrun'⟩, ht⟩

/-! ## The largest value of a measure -/

/-- The largest value that `m` takes in the states of the run. -/
def peak (step : S → L → Option S) (m : S → Nat) : S → List L → Nat
  | s, [] => m s
  | s, l :: ls => max (m s) ((step s l).elim 0 fun s' => peak step m s' ls)

theorem peak_le_iff {m : S → Nat} {P : Nat} {s : S} {ls : List L} :
    peak step m s ls ≤ P ↔ Visits step (fun s => m s ≤ P) s ls := by
  induction ls generalizing s with
  | nil => exact Iff.rfl
  | cons l ls ih =>
      rw [peak, Visits, Nat.max_le]
      cases step s l with
      | none => simp
      | some s' => simp [ih]

/-- No state of the run exceeds the peak. -/
theorem visits_le_peak (m : S → Nat) (s : S) (ls : List L) :
    Visits step (fun t => m t ≤ peak step m s ls) s ls :=
  peak_le_iff.mp (Nat.le_refl _)

end Mtdp.Lib.Transition
