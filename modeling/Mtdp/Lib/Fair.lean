import Mtdp.Lib.Transition

/-!
# Progress under a fair schedule

A schedule is fair if every party gets its turn again and again; of a finite run
that is said in rounds, in each of which every party has some number of turns.
Progress needs a measure that no step raises, and in every state a party that
lowers it within its next turns, whatever the others do in between.

The measure of a chain of parties that hand work on from one to the next is a
number whose digits are what each of them has to do.

## Main results

* `Helped.round` — a fair round lowers the measure.
* `Helped.rounds` — as many fair rounds as the measure says bring it to zero.
* `weigh_lt` — work done by one party outweighs what it hands on to the next.
-/

namespace Mtdp.Lib.Transition

universe u v w

variable {S : Type u} {L : Type v} {P : Type w} [DecidableEq P] {step : S → L → Option S}

/-- How often the party moves. -/
def turns (who : L → Option P) (p : P) (ls : List L) : Nat :=
  ls.countP fun l => decide (who l = some p)

/-- What the steps that satisfy `Q` do to a measure: they lower it, or they keep it
and, unless it is zero, the party that is going to lower it; its rank drops with
each of its own turns, and the others do not raise it. -/
structure Helped (step : S → L → Option S) (who : L → Option P) (I : S → Prop)
    (Q : S → L → Prop) (measure rank : S → Nat) (helper : S → P) : Prop where
  invariant : ∀ s l s', I s → Q s l → step s l = some s' → I s'
  measure_le : ∀ s l s', I s → Q s l → step s l = some s' → measure s' ≤ measure s
  kept : ∀ s l s', I s → Q s l → step s l = some s' → measure s' = measure s → measure s ≠ 0 →
    helper s' = helper s ∧ rank s' ≤ rank s ∧ (who l = some (helper s) → rank s' < rank s)

namespace Helped

variable {who : L → Option P} {I : S → Prop} {Q : S → L → Prop} {measure rank : S → Nat}
  {helper : S → P}

omit [DecidableEq P] in
theorem run_le (h : Helped step who I Q measure rank helper) {ls : List L} {s t : S} (hs : I s)
    (htakes : Takes step Q s ls) (hrun : run step s ls = some t) : measure t ≤ measure s := by
  induction ls generalizing s with
  | nil =>
      cases hrun
      exact Nat.le_refl _
  | cons l ls ih =>
      obtain ⟨s', hnext, hrun⟩ := run_cons.mp hrun
      have hrest := ih (h.invariant s l s' hs htakes.1 hnext) (htakes.2 s' hnext) hrun
      exact Nat.le_trans hrest (h.measure_le s l s' hs htakes.1 hnext)

/-- While the measure stays, the turns of the helper are paid for by its rank. -/
theorem turns_le (h : Helped step who I Q measure rank helper) {ls : List L} {s t : S} (hs : I s)
    (htakes : Takes step Q s ls) (hrun : run step s ls = some t) (hkept : measure t = measure s)
    (hpos : measure s ≠ 0) : rank t + turns who (helper s) ls ≤ rank s := by
  induction ls generalizing s with
  | nil =>
      cases hrun
      exact Nat.le_refl _
  | cons l ls ih =>
      obtain ⟨s', hnext, hrun⟩ := run_cons.mp hrun
      have hs' := h.invariant s l s' hs htakes.1 hnext
      have hfirst := h.measure_le s l s' hs htakes.1 hnext
      have hrest := h.run_le hs' (htakes.2 s' hnext) hrun
      have hsame : measure s' = measure s := by omega
      obtain ⟨hhelper, hrank, hturn⟩ := h.kept s l s' hs htakes.1 hnext hsame hpos
      have hpaid := ih hs' (htakes.2 s' hnext) hrun (by omega) (by omega)
      rw [hhelper] at hpaid
      by_cases hwho : who l = some (helper s)
      · have := hturn hwho
        rw [turns, List.countP_cons_of_pos (by simpa using hwho)]
        simp only [turns] at hpaid
        omega
      · rw [turns, List.countP_cons_of_neg (by simpa using hwho)]
        simp only [turns] at hpaid
        omega

/-- **A round** in which the helper has more turns than its rank. -/
theorem round (h : Helped step who I Q measure rank helper) {ls : List L} {s t : S} (hs : I s)
    (htakes : Takes step Q s ls) (hrun : run step s ls = some t)
    (hturns : measure s ≠ 0 → rank s < turns who (helper s) ls) : measure t ≤ measure s - 1 := by
  have hle := h.run_le hs htakes hrun
  by_contra hlt
  have hkept : measure t = measure s := by omega
  have hpos : measure s ≠ 0 := by omega
  have hpaid := h.turns_le hs htakes hrun hkept hpos
  have := hturns hpos
  omega

/-- **As many rounds as the measure says**, in each of which all the parties that
can be the helper have `k` turns. -/
theorem rounds (h : Helped step who I Q measure rank helper) {k : Nat} (parties : P → Prop)
    (hhelper : ∀ s, I s → measure s ≠ 0 → parties (helper s) ∧ rank s < k)
    {rounds : List (List L)} (hrounds : ∀ ls ∈ rounds, ∀ p, parties p → k ≤ turns who p ls)
    {s t : S} (hs : I s) (hcount : measure s ≤ rounds.length)
    (htakes : Takes step Q s rounds.flatten) (hrun : run step s rounds.flatten = some t) :
    I t ∧ measure t = 0 := by
  induction rounds generalizing s with
  | nil =>
      cases hrun
      exact ⟨hs, Nat.le_zero.mp hcount⟩
  | cons ls rounds ih =>
      rw [List.flatten_cons] at htakes hrun
      obtain ⟨s', hfirst, hrun⟩ := run_append.mp hrun
      rw [takes_append hfirst] at htakes
      have hs' := run_invariant_of_takes h.invariant hs htakes.1 hfirst
      have hlower := h.round hs htakes.1 hfirst fun hpos => by
        obtain ⟨hparty, hrank⟩ := hhelper s hs hpos
        exact Nat.lt_of_lt_of_le hrank (hrounds ls (by simp) _ hparty)
      rw [List.length_cons] at hcount
      exact ih (fun ls' hls' => hrounds ls' (List.mem_cons_of_mem ls hls')) hs' (by omega)
        htakes.2 hrun

end Helped

/-! ## Work that is handed on -/

/-- The number in base `b` whose digits are `f 0`, …, `f n`. -/
def weigh (b : Nat) (f : Nat → Nat) : Nat → Nat
  | 0 => f 0
  | n + 1 => b * weigh b f n + f (n + 1)

theorem weigh_congr {b n : Nat} {f g : Nat → Nat} (h : ∀ i ≤ n, g i = f i) :
    weigh b g n = weigh b f n := by
  induction n with
  | zero => exact h 0 (Nat.le_refl 0)
  | succ n ih =>
      rw [weigh, weigh, ih fun i hi => h i (Nat.le_succ_of_le hi), h (n + 1) (Nat.le_refl _)]

theorem weigh_eq_zero_iff {b n : Nat} {f : Nat → Nat} (hb : 0 < b) :
    weigh b f n = 0 ↔ ∀ i ≤ n, f i = 0 := by
  induction n with
  | zero => simp [weigh]
  | succ n ih =>
      rw [weigh, Nat.add_eq_zero_iff, Nat.mul_eq_zero, ih]
      constructor
      · rintro ⟨hinit, hlast⟩ i hi
        rcases Nat.le_succ_iff.mp hi with hi | rfl
        · exact hinit.resolve_left (Nat.ne_of_gt hb) i hi
        · exact hlast
      · intro h
        exact ⟨.inr fun i hi => h i (Nat.le_succ_of_le hi), h (n + 1) (Nat.le_refl _)⟩

/-- **Handing on.**  One digit drops and the next one grows by less than the base. -/
theorem weigh_lt {b c n u : Nat} {f g : Nat → Nat} (hc : c < b) (hu : u ≤ n) (hlt : g u < f u)
    (hnext : g (u + 1) ≤ f (u + 1) + c) (hothers : ∀ i, i ≠ u → i ≠ u + 1 → g i = f i) :
    weigh b g n < weigh b f n := by
  induction n with
  | zero =>
      obtain rfl := Nat.le_zero.mp hu
      exact hlt
  | succ n ih =>
      rw [weigh, weigh]
      rcases Nat.le_succ_iff.mp hu with hu | rfl
      · have hlower := Nat.mul_le_mul_left b (Nat.succ_le_of_lt (ih hu))
        have hdigit : g (n + 1) ≤ f (n + 1) + c := by
          by_cases h : n + 1 = u + 1
          · rw [h]
            exact hnext
          · rw [hothers (n + 1) (by omega) h]
            exact Nat.le_add_right _ _
        rw [Nat.mul_succ] at hlower
        omega
      · rw [weigh_congr fun i hi => hothers i (by omega) (by omega)]
        exact Nat.add_lt_add_left hlt _

end Mtdp.Lib.Transition
