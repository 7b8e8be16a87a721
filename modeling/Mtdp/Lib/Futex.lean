import Mathlib.Logic.Function.Basic

/-!
# Words that threads sleep on

A futex is a word in memory.  A thread goes to sleep on it if the word still
contains the value the thread has found there, and a thread that stores a new
value wakes the sleepers in a second step.  In between it owes them that.

No wake-up is lost if somebody who sleeps on a word that has changed has a
wake-up to come.  The rules below say which accesses keep it so: waking a
thread, putting one to sleep, storing a value and owing the wake-up or storing
the value that the sleepers expect, and waking all sleepers of a word.

## Main results

* `NoWakeLost` and its rules `awake`, `asleep_of_expected`, `stored` and
  `notified`.
* `NoWakeLost.expected` — when nobody owes a wake-up, a sleeper sleeps on the
  value it has found.
-/

namespace Mtdp.Lib.Futex

universe u v w x

variable {A : Type u} {W : Type v} {S : Type w} {T : Type x}

/-- Who sleeps on a word that has changed has a wake-up to come.  `asleep`
says on which word a thread sleeps and what it has found there, `owes` whose
sleepers a thread has to wake next. -/
def NoWakeLost (word : A → W) (asleep : S → Option (A × W)) (owes : T → Option A) : Prop :=
  ∀ s a w, asleep s = some (a, w) → word a = w ∨ ∃ t, owes t = some a

variable {word word' : A → W} {asleep asleep' : S → Option (A × W)} {owes owes' : T → Option A}

/-- Nobody sleeps. -/
theorem noWakeLost_of_awake (h : ∀ s, asleep s = none) : NoWakeLost word asleep owes := by
  intro s a w hs
  rw [h s] at hs
  cases hs

namespace NoWakeLost

/-- When nobody owes a wake-up, the word is as the sleeper has found it. -/
theorem expected (h : NoWakeLost word asleep owes) (hpaid : ∀ t, owes t = none) {s : S} {a : A}
    {w : W} (hs : asleep s = some (a, w)) : word a = w := by
  rcases h s a w hs with hword | ⟨t, ht⟩
  · exact hword
  · rw [hpaid t] at ht
    cases ht

/-- Nobody new sleeps. -/
theorem awake (h : NoWakeLost word asleep owes)
    (hasleep : ∀ s a w, asleep' s = some (a, w) → asleep s = some (a, w)) :
    NoWakeLost word asleep' owes :=
  fun s a w hs => h s a w (hasleep s a w hs)

/-- A thread goes to sleep on a word that contains what it has found there. -/
theorem asleep_of_expected [DecidableEq S] (h : NoWakeLost word asleep owes) {s : S} {a : A}
    {w : W} (hword : word a = w) :
    NoWakeLost word (Function.update asleep s (some (a, w))) owes := by
  intro s' b v hs'
  by_cases hne : s' = s
  · subst hne
    simp only [Function.update_self, Option.some.injEq, Prod.mk.injEq] at hs'
    obtain ⟨rfl, rfl⟩ := hs'
    exact .inl hword
  · rw [Function.update_of_ne hne] at hs'
    exact h s' b v hs'

/-- `t` stores to the word whose sleepers it has to wake next.  A word may
also change to what its sleepers have found there. -/
theorem stored [DecidableEq T] (h : NoWakeLost word asleep owes) {t : T} (hpaid : owes t = none)
    {ftx : Option A} (hword : ∀ s a w, asleep s = some (a, w) →
      word' a = word a ∨ ftx = some a ∨ word' a = w) :
    NoWakeLost word' asleep (Function.update owes t ftx) := by
  intro s a w hs
  rcases hword s a w hs with heq | howed | hexpected
  · rcases h s a w hs with hfound | ⟨t', ht'⟩
    · exact .inl (heq.trans hfound)
    · have hne : t' ≠ t := by
        rintro rfl
        rw [hpaid] at ht'
        cases ht'
      exact .inr ⟨t', by rw [Function.update_of_ne hne, ht']⟩
  · exact .inr ⟨t, by rw [Function.update_self, howed]⟩
  · exact .inl hexpected

/-- `t` wakes all sleepers of the word it owes that to. -/
theorem notified [DecidableEq T] (h : NoWakeLost word asleep owes) {t : T} {a : A}
    (howed : owes t = some a)
    (hasleep : ∀ s b w, asleep' s = some (b, w) → asleep s = some (b, w) ∧ b ≠ a) :
    NoWakeLost word asleep' (Function.update owes t none) := by
  intro s b w hs
  obtain ⟨hs, hne⟩ := hasleep s b w hs
  rcases h s b w hs with hfound | ⟨t', ht'⟩
  · exact .inl hfound
  · have hother : t' ≠ t := by
      rintro rfl
      rw [howed, Option.some.injEq] at ht'
      exact hne ht'.symm
    exact .inr ⟨t', by rw [Function.update_of_ne hother, ht']⟩

end NoWakeLost

end Mtdp.Lib.Futex
