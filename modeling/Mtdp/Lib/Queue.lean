import Mathlib.Data.List.Basic

/-!
# The reference list queue

What the caller of a queue implementation sees is a list of events: the
outcome of every push and pop, with the size reported after it.  `Trace`
says which event lists a plain list queue explains.  How often a push may
be rejected differs between implementations, so the acceptance rule is a
parameter.

## Main results

* `run_trace` — a machine whose every call is a `Step` of the list queue
  never gets stuck, and every run of it is a `Trace`.
-/

namespace Mtdp.Lib.Queue

universe u v w

/-- One call as its caller sees it.  `info` carries whatever an acceptance
rule wants to know about the call beyond the queue itself. -/
inductive Event (α : Type u) (ι : Type v) where
  | push (element : α) (accepted : Bool) (info : ι) (size : Nat)
  | pop (result : Option α) (size : Nat)

/-- An acceptance rule: the queue before the push, what the push answered,
and the information recorded with it. -/
abbrev Policy (α : Type u) (ι : Type v) := List α → Bool → ι → Prop

variable {α : Type u} {ι : Type v}

/-- One event explained by the list queue, oldest element first. -/
inductive Step (policy : Policy α ι) : List α → Event α ι → List α → Prop
  | accept {q : List α} {e : α} {i : ι} :
      policy q true i → Step policy q (.push e true i (q.length + 1)) (q ++ [e])
  | reject {q : List α} {e : α} {i : ι} :
      policy q false i → Step policy q (.push e false i q.length) q
  | front {q : List α} {e : α} : Step policy (e :: q) (.pop (some e) q.length) q
  | empty : Step policy [] (.pop none 0) []

/-- A list of events explained one after the other. -/
inductive Trace (policy : Policy α ι) : List α → List (Event α ι) → List α → Prop
  | nil (q : List α) : Trace policy q [] q
  | cons {q q' q'' : List α} {ev : Event α ι} {evs : List (Event α ι)} :
      Step policy q ev q' → Trace policy q' evs q'' → Trace policy q (ev :: evs) q''

section Machine

variable {S : Type w} {C : Type u}

/-- Run a machine over a list of calls, collecting the events.  `none`
from a call means that it has no defined outcome. -/
def run (call : S → C → Option (Event α ι × S)) : S → List C → Option (List (Event α ι) × S)
  | s, [] => some ([], s)
  | s, c :: cs => do
      let (ev, s) ← call s c
      let (evs, s) ← run call s cs
      some (ev :: evs, s)

/-- A machine whose every call keeps an invariant and is a step of the list
queue under an abstraction function is a queue on every run. -/
theorem run_trace {policy : Policy α ι} {call : S → C → Option (Event α ι × S)}
    (inv : S → Prop) (contents : S → List α)
    (hcall : ∀ s c, inv s → ∃ ev s', call s c = some (ev, s') ∧ inv s' ∧
      Step policy (contents s) ev (contents s'))
    (cs : List C) : ∀ s, inv s → ∃ evs s', run call s cs = some (evs, s') ∧ inv s' ∧
      Trace policy (contents s) evs (contents s') := by
  induction cs with
  | nil =>
      intro s hs
      exact ⟨[], s, rfl, hs, .nil _⟩
  | cons c cs ih =>
      intro s hs
      obtain ⟨ev, s₁, hrun, hs₁, hstep⟩ := hcall s c hs
      obtain ⟨evs, s₂, hruns, hs₂, htrace⟩ := ih s₁ hs₁
      refine ⟨ev :: evs, s₂, ?_, hs₂, .cons hstep htrace⟩
      simp [run, hrun, hruns]

end Machine

end Mtdp.Lib.Queue
