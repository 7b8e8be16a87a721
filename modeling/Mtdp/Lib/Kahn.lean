import Mathlib.Data.List.Infix

/-!
# Deterministic nodes in a row

A node repeatedly calls a function of its private state, of the item it has
taken from its input and of the item it has prepared for its output.  A call
may push the prepared item, and may ask for a new one.  Nodes in a row, each
reading what the one before it has pushed over an unbounded queue, compute
one sequence: more calls and more input only make the sequences longer.

## Main results

* `Node.exec_isPrefix` — more input, more output.
* `stream_isPrefix` — the outputs of a node of the row form a chain, whose
  limit is its `sequence`.
* `begins_sequence_zero`, `begins_sequence_succ` — whatever a node reaches by
  some schedule begins its sequence.
-/

namespace Mtdp.Lib.Kahn

universe u v

variable {V : Type u} {σ : Type v}

/-! ## Chains of lists -/

/-- The list begins the sequence. -/
def Begins (xs : List V) (s : Nat → Option V) : Prop := ∀ i < xs.length, s i = xs[i]?

open Classical in
/-- The sequence that growing lists approximate. -/
noncomputable def limit (f : Nat → List V) (i : Nat) : Option V :=
  if h : ∃ k, i < (f k).length then (f h.choose)[i]? else none

theorem Begins.of_isPrefix {xs ys : List V} {s : Nat → Option V} (hys : Begins ys s)
    (hxs : xs <+: ys) : Begins xs s := by
  intro i hi
  rw [hys i (Nat.lt_of_lt_of_le hi hxs.length_le), List.prefix_iff_getElem?.mp hxs i hi,
    List.getElem?_eq_getElem hi]

section Limit

variable {f : Nat → List V} (hf : ∀ k, f k <+: f (k + 1))

include hf

theorem chain_isPrefix {j k : Nat} (hjk : j ≤ k) : f j <+: f k := by
  induction hjk with
  | refl => exact List.prefix_refl _
  | step _ ih => exact ih.trans (hf _)

/-- Two lists of a chain agree where both have an item. -/
theorem chain_getElem? {i j k : Nat} (hj : i < (f j).length) (hk : i < (f k).length) :
    (f j)[i]? = (f k)[i]? := by
  rcases Nat.le_total j k with hle | hle
  · rw [List.prefix_iff_getElem?.mp (chain_isPrefix hf hle) i hj, List.getElem?_eq_getElem hj]
  · rw [List.prefix_iff_getElem?.mp (chain_isPrefix hf hle) i hk, List.getElem?_eq_getElem hk]

theorem limit_eq {i k : Nat} (hi : i < (f k).length) : limit f i = (f k)[i]? := by
  have h : ∃ k, i < (f k).length := ⟨k, hi⟩
  rw [limit, dif_pos h]
  exact chain_getElem? hf h.choose_spec hi

/-- The beginnings of the limit are those of the lists. -/
theorem begins_limit {xs : List V} : Begins xs (limit f) ↔ ∃ k, xs <+: f k := by
  constructor
  · intro h
    rcases Nat.eq_zero_or_pos xs.length with hnil | hpos
    · exact ⟨0, List.length_eq_zero_iff.mp hnil ▸ List.nil_prefix⟩
    · -- the list that has the last item has all of them
      have hlast : xs.length - 1 < xs.length := by omega
      have hsome : limit f (xs.length - 1) = some xs[xs.length - 1] := by
        rw [h _ hlast, List.getElem?_eq_getElem hlast]
      have hk : ∃ k, xs.length - 1 < (f k).length := by
        by_contra hnone
        rw [limit, dif_neg hnone] at hsome
        cases hsome
      obtain ⟨k, hk⟩ := hk
      refine ⟨k, List.prefix_iff_getElem?.mpr fun i hi => ?_⟩
      rw [← limit_eq hf (by omega), h i hi, List.getElem?_eq_getElem hi]
  · rintro ⟨k, hxs⟩ i hi
    rw [limit_eq hf (Nat.lt_of_lt_of_le hi hxs.length_le),
      List.prefix_iff_getElem?.mp hxs i hi, List.getElem?_eq_getElem hi]

end Limit

/-! ## One node -/

/-- What a call of a node's function leaves behind. -/
structure Outcome (V : Type u) (σ : Type v) where
  self : σ
  /-- the new contents of the prepared item, if they change -/
  write : Option V
  push : Bool
  pull : Bool

structure Node (V : Type u) (σ : Type v) where
  init : σ
  /-- private state, item taken from the input, item prepared for the output -/
  call : σ → Option V → Option V → Outcome V σ

/-- A node between two calls. -/
@[ext]
structure Config (V : Type u) (σ : Type v) where
  self : σ
  input : Option V
  written : Option V
  /-- what has not been taken from the input -/
  rest : List V
  outputs : List V

namespace Node

variable (n : Node V σ) (reads : Bool)

/-- The node has made no call yet. -/
def start (xs : List V) : Config V σ := ⟨n.init, none, none, xs, []⟩

/-- One call. -/
def fire (c : Config V σ) : Config V σ :=
  let o := n.call c.self c.input c.written
  { self := o.self
    input := if o.pull then none else c.input
    written := if o.push then none else o.write.or c.written
    rest := c.rest
    outputs := c.outputs ++ if o.push then (o.write.or c.written).toList else [] }

/-- One step of a node that runs on its own: a reading node takes an item
when it has none, and waits when there is none. -/
def micro (c : Config V σ) : Config V σ :=
  if reads && c.input.isNone then
    match c.rest with
    | [] => c
    | x :: rest => { c with input := some x, rest }
  else n.fire c

def exec : Nat → Config V σ → Config V σ
  | 0, c => c
  | k + 1, c => n.micro reads (exec k c)

/-- The configurations a node can get to under any schedule, by the items it
has taken. -/
inductive Reaches : List V → Config V σ → Prop
  | start : Reaches [] (n.start [])
  | pull {xs : List V} {c : Config V σ} (x : V) : Reaches xs c → reads = true → c.input = none →
      Reaches (xs ++ [x]) { c with input := some x }
  | fire {xs : List V} {c : Config V σ} : Reaches xs c → (reads = true → c.input.isSome) →
      Reaches xs (n.fire c)

variable {n reads}

/-- Whatever a node reaches it also reaches on its own. -/
theorem Reaches.exec {xs : List V} {c : Config V σ} (h : n.Reaches reads xs c) :
    ∃ k, ∀ zs, n.exec reads k (n.start (xs ++ zs)) = { c with rest := zs } := by
  induction h with
  | start => exact ⟨0, fun _ => rfl⟩
  | pull x _ hreads hinput ih =>
      obtain ⟨k, hk⟩ := ih
      refine ⟨k + 1, fun zs => ?_⟩
      rw [Node.exec, List.append_assoc, hk]
      simp [micro, hreads, hinput]
  | fire _ hinput ih =>
      obtain ⟨k, hk⟩ := ih
      refine ⟨k + 1, fun zs => ?_⟩
      rw [Node.exec, hk, micro, if_neg]
      · rfl
      · simpa [Option.isSome_iff_ne_none] using hinput

/-- A node without input takes nothing. -/
theorem Reaches.eq_nil {xs : List V} {c : Config V σ} (h : n.Reaches false xs c) : xs = [] := by
  induction h with
  | start => rfl
  | pull _ _ hreads => cases hreads
  | fire _ _ ih => exact ih

theorem micro_outputs (c : Config V σ) : c.outputs <+: (n.micro reads c).outputs := by
  unfold micro
  split
  · split <;> exact List.prefix_refl _
  · exact List.prefix_append _ _

/-- More steps, more output. -/
theorem exec_mono {j k : Nat} (hjk : j ≤ k) (c : Config V σ) :
    (n.exec reads j c).outputs <+: (n.exec reads k c).outputs :=
  chain_isPrefix (f := fun k => (n.exec reads k c).outputs) (fun _ => micro_outputs _) hjk

/-- The first node does what the second one does, or waits for input. -/
def Below (reads : Bool) (c c' : Config V σ) : Prop :=
  (∃ zs, c' = { c with rest := c.rest ++ zs }) ∨
    (reads = true ∧ c.input = none ∧ c.rest = [] ∧ c.outputs <+: c'.outputs)

theorem Below.outputs {c c' : Config V σ} (h : Below reads c c') : c.outputs <+: c'.outputs := by
  rcases h with ⟨zs, rfl⟩ | ⟨_, _, _, h⟩
  · exact List.prefix_refl _
  · exact h

theorem Below.micro {c c' : Config V σ} (h : Below reads c c') :
    Below reads (n.micro reads c) (n.micro reads c') := by
  rcases h with ⟨zs, rfl⟩ | ⟨hreads, hinput, hrest, houtputs⟩
  · cases hwait : reads && c.input.isNone with
    | false =>
        refine .inl ⟨zs, ?_⟩
        rw [Node.micro, Node.micro, hwait]
        rfl
    | true =>
        obtain ⟨hreads, hinput⟩ := Bool.and_eq_true_iff.mp hwait
        cases hrest : c.rest with
        | nil =>
            have hstay : n.micro reads c = c := by simp [Node.micro, hwait, hrest]
            rw [hstay]
            exact .inr ⟨hreads, by simpa using hinput, hrest,
              micro_outputs { c with rest := [] ++ zs }⟩
        | cons x rest =>
            refine .inl ⟨zs, ?_⟩
            simp [Node.micro, hwait, hrest]
  · have hstay : n.micro reads c = c := by simp [Node.micro, hreads, hinput, hrest]
    rw [hstay]
    exact .inr ⟨hreads, hinput, hrest, houtputs.trans (micro_outputs c')⟩

/-- More input, more output. -/
theorem exec_isPrefix (k : Nat) {xs ys : List V} (hxs : xs <+: ys) :
    (n.exec reads k (n.start xs)).outputs <+: (n.exec reads k (n.start ys)).outputs := by
  suffices h : Below reads (n.exec reads k (n.start xs)) (n.exec reads k (n.start ys)) from
    h.outputs
  induction k with
  | zero =>
      obtain ⟨zs, rfl⟩ := hxs
      exact .inl ⟨zs, rfl⟩
  | succ k ih => exact ih.micro

end Node

/-! ## Nodes in a row -/

/-- What node `i` has pushed when every node has made `k` steps, one node
after the other.  The first node has no input. -/
def stream (nodes : Nat → Node V σ) : Nat → Nat → List V
  | 0, k => ((nodes 0).exec false k ((nodes 0).start [])).outputs
  | i + 1, k => ((nodes (i + 1)).exec true k ((nodes (i + 1)).start (stream nodes i k))).outputs

/-- The outputs of a node form a chain. -/
theorem stream_isPrefix (nodes : Nat → Node V σ) (i k : Nat) :
    stream nodes i k <+: stream nodes i (k + 1) := by
  induction i with
  | zero => exact Node.micro_outputs _
  | succ i ih => exact (Node.exec_isPrefix k ih).trans (Node.micro_outputs _)

/-- The one sequence node `i` pushes. -/
noncomputable def sequence (nodes : Nat → Node V σ) (i : Nat) : Nat → Option V :=
  limit (stream nodes i)

theorem begins_sequence {nodes : Nat → Node V σ} {i : Nat} {xs : List V} :
    Begins xs (sequence nodes i) ↔ ∃ k, xs <+: stream nodes i k :=
  begins_limit (stream_isPrefix nodes i)

/-- Whatever the first node has pushed begins its sequence. -/
theorem begins_sequence_zero {nodes : Nat → Node V σ} {xs : List V} {c : Config V σ}
    (h : (nodes 0).Reaches false xs c) : Begins c.outputs (sequence nodes 0) := by
  obtain rfl := h.eq_nil
  obtain ⟨k, hk⟩ := h.exec
  refine begins_sequence.mpr ⟨k, ?_⟩
  have hend := hk []
  rw [List.append_nil] at hend
  rw [stream, hend]

/-- Whatever another node has pushed begins its sequence, if what it has
taken begins the sequence of the node before it. -/
theorem begins_sequence_succ {nodes : Nat → Node V σ} {i : Nat} {xs : List V} {c : Config V σ}
    (h : (nodes (i + 1)).Reaches true xs c) (hxs : Begins xs (sequence nodes i)) :
    Begins c.outputs (sequence nodes (i + 1)) := by
  obtain ⟨j, hj⟩ := begins_sequence.mp hxs
  obtain ⟨k, hk⟩ := h.exec
  refine begins_sequence.mpr ⟨max j k, ?_⟩
  have hinput : xs <+: stream nodes i (max j k) :=
    hj.trans (chain_isPrefix (stream_isPrefix nodes i) (Nat.le_max_left j k))
  have hend := hk []
  rw [List.append_nil] at hend
  calc c.outputs
      = ((nodes (i + 1)).exec true k ((nodes (i + 1)).start xs)).outputs := by rw [hend]
    _ <+: ((nodes (i + 1)).exec true k
        ((nodes (i + 1)).start (stream nodes i (max j k)))).outputs := Node.exec_isPrefix k hinput
    _ <+: stream nodes (i + 1) (max j k) := Node.exec_mono (Nat.le_max_right j k) _

end Mtdp.Lib.Kahn
